import Rtfsc.Fio.RunThreads

/-!
# fio: the counters of the main loop

`todo`, `nr_started`, `nr_running` and the two rates are tallies of the job table, each with its own
weight. Every loop body moves a counter by the difference of the weights of the job it touches, with
two exceptions: a job that exits before it is seen initialized, and a job that is counted off as
flagged to terminate in more than one round.
-/

namespace Rtfsc.Fio

open Rtfsc.Machine

/-! ## What the counters count -/

/-- A job that `todo` counts: it is still to be started. -/
def todoWeight (td : Job) : Int :=
  match td.phase with
  | .waiting | .created | .seen => 1
  | _ => 0

/-- A job that `nr_started` counts: it has a thread and has not been started. -/
def nrStartedWeight (td : Job) : Int :=
  match td.phase with
  | .created => if td.hasThread then 1 else 0
  | .seen => 1
  | _ => 0

/-- A job that `nr_running` counts. -/
def nrRunningWeight (td : Job) : Int :=
  match td.phase with
  | .started => 1
  | _ => 0

/-- What a job adds to one of the rates. -/
def rateWeight (rate : Job → UInt32) (td : Job) : UInt32 :=
  match td.phase with
  | .started => rate td
  | _ => 0

/-- The run states a job can be in, for what `run_threads` has done about it. -/
def PhaseOk (td : Job) : Prop :=
  match td.phase with
  | .waiting | .dropped => td.runstate = .notCreated
  | .created =>
    if td.hasThread then td.runstate = .created ∨ td.runstate = .initialized ∨ td.runstate = .exited
    else td.runstate = .created
  | .seen => td.runstate = .initialized
  | .started =>
    td.runstate = .running ∨ td.runstate = .verifying ∨ td.runstate = .fsyncing ∨
      td.runstate = .exited
  | .reaped => td.runstate = .reaped

/-- The counters are the tallies of the job table. -/
structure Counts (s : Runner) : Prop where
  phases : ∀ td ∈ s.jobs, PhaseOk td
  todo : s.todo = tally todoWeight s.jobs
  nrStarted : s.nrStarted = tally nrStartedWeight s.jobs
  nrRunning : s.nrRunning = tally nrRunningWeight s.jobs
  tRate : s.tRate = tally (rateWeight Job.rate) s.jobs
  mRate : s.mRate = tally (rateWeight Job.ratemin) s.jobs

/-- Replacing a job keeps the counters right when they move by the difference of its weights. -/
theorem Counts.set {s s' : Runner} {i : Nat} {td td' : Job} (h : Counts s)
    (hi : s.jobs[i]? = some td) (hjobs : s'.jobs = s.jobs.set i td') (hok : PhaseOk td')
    (htodo : s'.todo = s.todo - todoWeight td + todoWeight td')
    (hstarted : s'.nrStarted = s.nrStarted - nrStartedWeight td + nrStartedWeight td')
    (hrunning : s'.nrRunning = s.nrRunning - nrRunningWeight td + nrRunningWeight td')
    (htRate : s'.tRate = s.tRate - rateWeight Job.rate td + rateWeight Job.rate td')
    (hmRate : s'.mRate = s.mRate - rateWeight Job.ratemin td + rateWeight Job.ratemin td') :
    Counts s' := by
  refine ⟨fun a ha => ?_, ?_, ?_, ?_, ?_, ?_⟩
  · rw [hjobs] at ha
    rcases List.mem_or_eq_of_mem_set ha with ha | rfl
    · exact h.phases a ha
    · exact hok
  · rw [hjobs, tally_set _ hi, htodo, h.todo]
  · rw [hjobs, tally_set _ hi, hstarted, h.nrStarted]
  · rw [hjobs, tally_set _ hi, hrunning, h.nrRunning]
  · rw [hjobs, tally_set _ hi, htRate, h.tRate]
  · rw [hjobs, tally_set _ hi, hmRate, h.mRate]

/-- A map over the jobs that changes no weight keeps the counters right. -/
theorem Counts.map {s : Runner} {f : Job → Job} (h : Counts s)
    (hok : ∀ td, PhaseOk td → PhaseOk (f td)) (hphase : ∀ td, (f td).phase = td.phase)
    (hthread : ∀ td, (f td).hasThread = td.hasThread) (hrate : ∀ td, (f td).rate = td.rate)
    (hratemin : ∀ td, (f td).ratemin = td.ratemin) : Counts { s with jobs := s.jobs.map f } := by
  refine ⟨fun a ha => ?_, ?_, ?_, ?_, ?_, ?_⟩
  · obtain ⟨td, htd, rfl⟩ := List.mem_map.mp ha
    exact hok td (h.phases td htd)
  · rw [tally_map, ← h.todo]
    exact fun td _ => by simp only [todoWeight, hphase]
  · rw [tally_map, ← h.nrStarted]
    exact fun td _ => by simp only [nrStartedWeight, hphase, hthread]
  · rw [tally_map, ← h.nrRunning]
    exact fun td _ => by simp only [nrRunningWeight, hphase]
  · rw [tally_map, ← h.tRate]
    exact fun td _ => by simp only [rateWeight, hphase, hrate]
  · rw [tally_map, ← h.mRate]
    exact fun td _ => by simp only [rateWeight, hphase, hratemin]

/-- The map of `run_threads` holds exactly the created jobs, each once. -/
structure InMap (s : Runner) : Prop where
  covers : ∀ i td, s.jobs[i]? = some td → td.phase = .created → some i ∈ s.map
  holds : ∀ i, some i ∈ s.map → ∃ td, s.jobs[i]? = some td ∧ td.phase = .created
  once : ∀ k k' i : Nat, s.map[k]? = some (some i) → s.map[k']? = some (some i) → k = k'

/-- What holds at each place of `run_threads`. -/
def PcOk (s : Runner) : Prop :=
  match s.pc with
  | .head | .reap _ _ _ => ∀ td ∈ s.jobs, td.phase ≠ .created ∧ td.phase ≠ .seen
  | .create _ => InMap s ∧ (s.map.length : Int) = count Option.isSome s.map
  | .wait | .poll _ => InMap s ∧ s.left = count Option.isSome s.map
  | .start i =>
    (∀ td ∈ s.jobs, td.phase ≠ .created) ∧
      ∀ j td, s.jobs[j]? = some td → td.phase = .seen → i ≤ j
  | .done => True

/-- The invariant of `run_threads`. -/
structure Inv (s : Runner) : Prop where
  counts : Counts s
  pc : PcOk s

/-- What the steps of `run_threads` must not do: count off a job a second time, or find a job that
has exited before it was seen initialized. -/
def Accounted (s : Runner) : Prop :=
  match s.pc with
  | .create i => ∀ td ∈ s.jobs[i]?, td.phase ≠ .dropped
  | .poll k => ∀ e ∈ s.map[k]?, ∀ i ∈ e, ∀ td ∈ s.jobs[i]?,
      ¬ Runstate.exited.toNat ≤ td.runstate.toNat
  | _ => True

instance (s : Runner) : Decidable (Accounted s) := by
  unfold Accounted
  split <;> infer_instance

/-! ## Steps keep the invariant -/

theorem getElem?_set_cases {α : Type} {l : List α} {i j : Nat} {a b c : α} (hi : l[i]? = some a)
    (h : (l.set i b)[j]? = some c) : (j = i ∧ c = b) ∨ (j ≠ i ∧ l[j]? = some c) := by
  rcases eq_or_ne j i with rfl | hne
  · have hlt := (List.getElem?_eq_some_iff.mp hi).1
    rw [List.getElem?_set_self hlt] at h
    exact .inl ⟨rfl, (Option.some.inj h).symm⟩
  · rw [List.getElem?_set_ne hne.symm] at h
    exact .inr ⟨hne, h⟩

theorem Counts.same {s s' : Runner} (h : Counts s) (hjobs : s'.jobs = s.jobs)
    (htodo : s'.todo = s.todo) (hstarted : s'.nrStarted = s.nrStarted)
    (hrunning : s'.nrRunning = s.nrRunning) (htRate : s'.tRate = s.tRate)
    (hmRate : s'.mRate = s.mRate) : Counts s' := by
  refine ⟨?_, ?_, ?_, ?_, ?_, ?_⟩
  · rw [hjobs]
    exact h.phases
  · rw [htodo, hjobs, h.todo]
  · rw [hstarted, hjobs, h.nrStarted]
  · rw [hrunning, hjobs, h.nrRunning]
  · rw [htRate, hjobs, h.tRate]
  · rw [hmRate, hjobs, h.mRate]

/-- A job whose entry in the map need not change. -/
theorem InMap.set {s s' : Runner} {i : Nat} {td td' : Job} (h : InMap s)
    (hi : s.jobs[i]? = some td) (hjobs : s'.jobs = s.jobs.set i td') (hmap : s'.map = s.map)
    (hphase : td'.phase = .created ↔ td.phase = .created) : InMap s' := by
  refine ⟨fun j a hj ha => ?_, fun j hj => ?_, ?_⟩
  · rw [hjobs] at hj
    rw [hmap]
    rcases getElem?_set_cases hi hj with ⟨rfl, rfl⟩ | ⟨-, hj⟩
    · exact h.covers _ _ hi (hphase.mp ha)
    · exact h.covers _ _ hj ha
  · rw [hmap] at hj
    obtain ⟨a, ha, hcreated⟩ := h.holds j hj
    rw [hjobs]
    rcases eq_or_ne j i with rfl | hne
    · rw [hi] at ha
      cases ha
      have hlt := (List.getElem?_eq_some_iff.mp hi).1
      exact ⟨td', List.getElem?_set_self hlt, hphase.mpr hcreated⟩
    · exact ⟨a, by rw [List.getElem?_set_ne hne.symm]; exact ha, hcreated⟩
  · rw [hmap]
    exact h.once

/-- A job that has just been created enters the map. -/
theorem InMap.push {s s' : Runner} {i : Nat} {td td' : Job} (h : InMap s)
    (hi : s.jobs[i]? = some td) (hjobs : s'.jobs = s.jobs.set i td')
    (hmap : s'.map = s.map ++ [some i]) (hphase : td.phase ≠ .created)
    (hphase' : td'.phase = .created) : InMap s' := by
  have hnew : some i ∉ s.map := by
    intro hmem
    obtain ⟨a, ha, hcreated⟩ := h.holds i hmem
    rw [hi] at ha
    cases ha
    exact hphase hcreated
  refine ⟨fun j a hj ha => ?_, fun j hj => ?_, fun k k' j hk hk' => ?_⟩
  · rw [hjobs] at hj
    rw [hmap, List.mem_append, List.mem_singleton]
    rcases getElem?_set_cases hi hj with ⟨rfl, -⟩ | ⟨-, hj⟩
    · exact .inr rfl
    · exact .inl (h.covers _ _ hj ha)
  · rw [hjobs]
    rcases eq_or_ne j i with rfl | hne
    · exact ⟨td', List.getElem?_set_self (List.getElem?_eq_some_iff.mp hi).1, hphase'⟩
    · rw [hmap, List.mem_append, List.mem_singleton] at hj
      rcases hj with hj | hj
      · obtain ⟨a, ha, hcreated⟩ := h.holds j hj
        exact ⟨a, by rw [List.getElem?_set_ne hne.symm]; exact ha, hcreated⟩
      · exact absurd (Option.some.inj hj) hne
  · rw [hmap] at hk hk'
    have hlast : ∀ n, (s.map ++ [some i])[n]? = some (some j) →
        s.map[n]? = some (some j) ∨ (n = s.map.length ∧ j = i) := by
      intro n hn
      rcases Nat.lt_or_ge n s.map.length with hlt | hge
      · rw [List.getElem?_append_left hlt] at hn
        exact .inl hn
      · rw [List.getElem?_append_right hge] at hn
        have hzero : n - s.map.length = 0 := by
          by_contra hpos
          rw [List.getElem?_eq_none (by simp; omega)] at hn
          cases hn
        rw [hzero] at hn
        simp only [List.getElem?_cons_zero, Option.some.injEq] at hn
        exact .inr ⟨by omega, hn.symm⟩
    rcases hlast k hk with hold | ⟨hend, hji⟩
    · rcases hlast k' hk' with hold' | ⟨-, hji⟩
      · exact h.once k k' j hold hold'
      · rw [hji] at hold
        exact absurd (List.mem_of_getElem? hold) hnew
    · rcases hlast k' hk' with hold' | ⟨hend', -⟩
      · rw [hji] at hold'
        exact absurd (List.mem_of_getElem? hold') hnew
      · rw [hend, hend']

/-- A job that has been seen leaves the map. -/
theorem InMap.take {s s' : Runner} {i k : Nat} {td td' : Job} (h : InMap s)
    (hk : s.map[k]? = some (some i)) (hi : s.jobs[i]? = some td)
    (hjobs : s'.jobs = s.jobs.set i td') (hmap : s'.map = s.map.set k none)
    (hphase : td'.phase ≠ .created) : InMap s' := by
  have hrest : ∀ n j, (s.map.set k none)[n]? = some (some j) →
      n ≠ k ∧ s.map[n]? = some (some j) := by
    intro n j hn
    rcases getElem?_set_cases hk hn with ⟨-, hj⟩ | hn
    · cases hj
    · exact hn
  refine ⟨fun j a hj ha => ?_, fun j hj => ?_, fun n n' j hn hn' => ?_⟩
  · rw [hjobs] at hj
    rw [hmap]
    rcases getElem?_set_cases hi hj with ⟨rfl, rfl⟩ | ⟨hne, hj⟩
    · exact absurd ha hphase
    · obtain ⟨n, hn⟩ := List.mem_iff_getElem?.mp (h.covers j a hj ha)
      have hnk : n ≠ k := by
        rintro rfl
        rw [hk] at hn
        exact hne (Option.some.inj (Option.some.inj hn)).symm
      exact List.mem_of_getElem? (by rw [List.getElem?_set_ne hnk.symm]; exact hn)
  · rw [hmap] at hj
    obtain ⟨n, hn⟩ := List.mem_iff_getElem?.mp hj
    obtain ⟨hnk, hn⟩ := hrest n j hn
    obtain ⟨a, ha, hcreated⟩ := h.holds j (List.mem_of_getElem? hn)
    have hne : j ≠ i := by
      rintro rfl
      exact hnk (h.once n k j hn hk)
    exact ⟨a, by rw [hjobs, List.getElem?_set_ne hne.symm]; exact ha, hcreated⟩
  · rw [hmap] at hn hn'
    exact h.once n n' j (hrest n j hn).2 (hrest n' j hn').2

theorem Inv.createStep {s : Runner} {i : Nat} (h : Inv s) (hpc : s.pc = .create i)
    (hok : Accounted s) (env : MainEnv) : Inv (createStep s i env) := by
  obtain ⟨hcounts, hpcOk⟩ := h
  rw [PcOk, hpc] at hpcOk
  rw [Accounted, hpc] at hok
  obtain ⟨hmap, hlen⟩ := hpcOk
  unfold Fio.createStep
  cases hi : s.jobs[i]? with
  | none => exact ⟨hcounts.same rfl rfl rfl rfl rfl rfl, ⟨hmap.covers, hmap.holds, hmap.once⟩, hlen⟩
  | some td =>
    have hphase := hcounts.phases td (List.mem_of_getElem? hi)
    have hskip : Inv { s with pc := .create (i + 1) } :=
      ⟨hcounts.same rfl rfl rfl rfl rfl rfl, ⟨hmap.covers, hmap.holds, hmap.once⟩, hlen⟩
    dsimp only
    split
    · exact hskip
    · next hstate =>
      have hwait : td.phase = .waiting := by
        have hdrop := hok td hi
        cases hp : td.phase <;> simp_all [PhaseOk]
      split
      · -- flagged to terminate: counted off
        refine ⟨hcounts.set hi rfl (not_not.mp hstate) ?_ ?_ ?_ ?_ ?_, ?_, hlen⟩
        · simp [todoWeight, hwait]
        · simp [nrStartedWeight, hwait]
        · simp [nrRunningWeight, hwait]
        · simp [rateWeight, hwait]
        · simp [rateWeight, hwait]
        · exact hmap.set hi rfl rfl (by simp [hwait])
      · split
        · exact hskip
        · split
          · exact ⟨hcounts.same rfl rfl rfl rfl rfl rfl, ⟨hmap.covers, hmap.holds, hmap.once⟩, hlen⟩
          · unfold createJob
            dsimp only
            refine ⟨hcounts.set hi rfl ?_ ?_ ?_ ?_ ?_ ?_, ?_, ?_⟩
            · cases htd : td.useThread && env.createFails <;> simp [PhaseOk]
            · simp [todoWeight, hwait]
            · cases htd : td.useThread && env.createFails <;> simp [nrStartedWeight, hwait]
            · simp [nrRunningWeight, hwait]
            · simp [rateWeight, hwait]
            · simp [rateWeight, hwait]
            · exact hmap.push hi rfl rfl (by simp [hwait]) rfl
            · show ((s.map ++ [some i]).length : Int) = count Option.isSome (s.map ++ [some i])
              rw [count, tally_append, ← count, ← hlen]
              simp [indicator]

theorem Inv.pollStep {s : Runner} {k : Nat} (h : Inv s) (hpc : s.pc = .poll k)
    (hok : Accounted s) : Inv (pollStep s k) := by
  obtain ⟨hcounts, hpcOk⟩ := h
  rw [PcOk, hpc] at hpcOk
  rw [Accounted, hpc] at hok
  obtain ⟨hmap, hleft⟩ := hpcOk
  have hskip : Inv { s with pc := .poll (k + 1) } :=
    ⟨hcounts.same rfl rfl rfl rfl rfl rfl, ⟨hmap.covers, hmap.holds, hmap.once⟩, hleft⟩
  unfold Fio.pollStep
  cases hk : s.map[k]? with
  | none => exact ⟨hcounts.same rfl rfl rfl rfl rfl rfl, ⟨hmap.covers, hmap.holds, hmap.once⟩, hleft⟩
  | some e =>
    cases e with
    | none => exact hskip
    | some i =>
      obtain ⟨td, hi, hcreated⟩ := hmap.holds i (List.mem_of_getElem? hk)
      have hphase := hcounts.phases td (List.mem_of_getElem? hi)
      dsimp only
      rw [hi]
      dsimp only
      split
      · next hinit =>
        have hthread : td.hasThread = true := by
          by_contra hno
          simp [PhaseOk, hcreated, hno, hinit] at hphase
        refine ⟨hcounts.set hi rfl hinit ?_ ?_ ?_ ?_ ?_, ?_, ?_⟩
        · simp [todoWeight, hcreated]
        · simp [nrStartedWeight, hcreated, hthread]
        · simp [nrRunningWeight, hcreated]
        · simp [rateWeight, hcreated]
        · simp [rateWeight, hcreated]
        · exact hmap.take hk hi rfl rfl (by simp)
        · show s.left - 1 = count Option.isSome (s.map.set k none)
          rw [count, tally_set _ hk, ← count, ← hleft]
          simp [indicator]
      · split
        · next hexit => exact absurd hexit (hok _ hk i rfl td hi)
        · exact hskip

theorem Inv.startStep {s : Runner} {i : Nat} (h : Inv s) (hpc : s.pc = .start i) :
    Inv (startStep s i) := by
  obtain ⟨hcounts, hpcOk⟩ := h
  rw [PcOk, hpc] at hpcOk
  obtain ⟨hcreated, hseen⟩ := hpcOk
  unfold Fio.startStep
  cases hi : s.jobs[i]? with
  | none =>
    refine ⟨hcounts.same rfl rfl rfl rfl rfl rfl, fun td htd => ⟨hcreated td htd, fun hp => ?_⟩⟩
    obtain ⟨j, hj⟩ : ∃ j, s.jobs[j]? = some td := List.mem_iff_getElem?.mp htd
    have hle := hseen j td hj hp
    have hlen := List.getElem?_eq_none_iff.mp hi
    have hlt := (List.getElem?_eq_some_iff.mp hj).1
    omega
  | some td =>
    have hphase := hcounts.phases td (List.mem_of_getElem? hi)
    dsimp only
    split
    · next hstate =>
      refine ⟨hcounts.same rfl rfl rfl rfl rfl rfl, hcreated, fun j a hj hp => ?_⟩
      have hle := hseen j a hj hp
      rcases Nat.eq_or_lt_of_le hle with rfl | hlt
      · rw [hi] at hj
        cases hj
        simp [PhaseOk, hp] at hphase
        exact absurd hphase hstate
      · exact hlt
    · next hstate =>
      have hwas : td.phase = .seen := by
        have hno := hcreated td (List.mem_of_getElem? hi)
        cases hp : td.phase <;> simp_all [PhaseOk]
      refine ⟨hcounts.set hi rfl ?_ ?_ ?_ ?_ ?_ ?_, ?_, fun j a hj hp => ?_⟩
      · simp [PhaseOk]
      · simp [todoWeight, hwas]
      · simp [nrStartedWeight, hwas]
      · simp [nrRunningWeight, hwas]
      · simp [rateWeight, hwas]
      · simp [rateWeight, hwas]
      · intro a ha
        rcases List.mem_or_eq_of_mem_set ha with ha | rfl
        · exact hcreated a ha
        · simp
      · rcases getElem?_set_cases hi hj with ⟨-, rfl⟩ | ⟨hne, hj⟩
        · cases hp
        · have hle := hseen j a hj hp
          omega

theorem PhaseOk.terminateJob {td : Job} (h : PhaseOk td) : PhaseOk (terminateJob td) := h

theorem Inv.reapStep {s : Runner} {i : Nat} {c p : Int} (h : Inv s) (hpc : s.pc = .reap i c p) :
    Inv (reapStep s i c p) := by
  obtain ⟨hcounts, hpcOk⟩ := h
  rw [PcOk, hpc] at hpcOk
  unfold Fio.reapStep
  cases hi : s.jobs[i]? with
  | none =>
    dsimp only
    split
    · have hall := hcounts.map (f := terminateJob) (fun _ => PhaseOk.terminateJob) (fun _ => rfl)
        (fun _ => rfl) (fun _ => rfl) fun _ => rfl
      refine ⟨hall.same rfl rfl rfl rfl rfl rfl, fun td htd => ?_⟩
      obtain ⟨a, ha, rfl⟩ := List.mem_map.mp htd
      exact hpcOk a ha
    · exact ⟨hcounts.same rfl rfl rfl rfl rfl rfl, hpcOk⟩
  | some td =>
    have hphase := hcounts.phases td (List.mem_of_getElem? hi)
    have hno := hpcOk td (List.mem_of_getElem? hi)
    dsimp only
    split
    · exact ⟨hcounts.same rfl rfl rfl rfl rfl rfl, hpcOk⟩
    · next hstate =>
      have hwas : td.phase = .started := by
        cases hp : td.phase <;> simp_all [PhaseOk]
      refine ⟨hcounts.set hi rfl rfl ?_ ?_ ?_ ?_ ?_, fun a ha => ?_⟩
      · simp [todoWeight, hwas]
      · simp [nrStartedWeight, hwas]
      · simp [nrRunningWeight, hwas]
      · simp [rateWeight, hwas]
      · simp [rateWeight, hwas]
      · rcases List.mem_or_eq_of_mem_set ha with ha | rfl
        · exact hpcOk a ha
        · simp

theorem Inv.mainStep {s : Runner} (h : Inv s) (hok : Accounted s) (env : MainEnv) :
    Inv (mainStep s env) := by
  obtain ⟨hcounts, hpcOk⟩ := h
  unfold Fio.mainStep
  cases hpc : s.pc with
  | head =>
    rw [PcOk, hpc] at hpcOk
    dsimp only
    split
    · exact ⟨hcounts.same rfl rfl rfl rfl rfl rfl, trivial⟩
    · refine ⟨hcounts.same rfl rfl rfl rfl rfl rfl, ⟨fun i td hi hp => ?_, nofun, nofun⟩, rfl⟩
      exact absurd hp (hpcOk td (List.mem_of_getElem? hi)).1
  | create i => exact Inv.createStep ⟨hcounts, hpcOk⟩ hpc hok env
  | wait =>
    rw [PcOk, hpc] at hpcOk
    obtain ⟨hmap, hleft⟩ := hpcOk
    dsimp only
    split
    · next hzero =>
      -- nothing is left in the map, so no job is left created
      refine ⟨hcounts.same rfl rfl rfl rfl rfl rfl, fun td htd hp => ?_, fun _ _ _ _ => Nat.zero_le _⟩
      obtain ⟨j, hj⟩ := List.mem_iff_getElem?.mp htd
      rw [hzero] at hleft
      exact absurd (count_eq_zero.mp hleft.symm _ (hmap.covers j td hj hp)) (by simp)
    · split
      · exact ⟨hcounts.same rfl rfl rfl rfl rfl rfl, trivial⟩
      · exact ⟨hcounts.same rfl rfl rfl rfl rfl rfl, ⟨hmap.covers, hmap.holds, hmap.once⟩, hleft⟩
  | poll k => exact Inv.pollStep ⟨hcounts, hpcOk⟩ hpc hok
  | start i => exact Inv.startStep ⟨hcounts, hpcOk⟩ hpc
  | reap i c p => exact Inv.reapStep ⟨hcounts, hpcOk⟩ hpc
  | done => exact ⟨hcounts, hpcOk⟩

/-- A job leaves `TD_CREATED` once, and otherwise works until it exits. -/
theorem Runstate.next_cases {r r' : Runstate} (h : r.next r' = true) :
    (r = .created ∧ (r' = .initialized ∨ r' = .exited)) ∨
      ((r = .running ∨ r = .verifying ∨ r = .fsyncing) ∧
        (r' = .running ∨ r' = .verifying ∨ r' = .fsyncing ∨ r' = .exited)) := by
  cases r <;> cases r' <;> simp_all [Runstate.next]

/-- A job that changes its own run state stays in its phase. -/
theorem PhaseOk.changeRunstate {td : Job} {r : Runstate} (h : PhaseOk td)
    (hthread : td.hasThread = true) (hnext : td.runstate.next r = true) :
    PhaseOk (changeRunstate td r) := by
  rcases Runstate.next_cases hnext with ⟨hr, hr'⟩ | ⟨hr, hr'⟩
  · have hp : td.phase = .created := by
      cases hp : td.phase <;> simp [PhaseOk, hp, hr] at h ⊢
    rcases hr' with rfl | rfl <;> simp [PhaseOk, Fio.changeRunstate, hp, hthread]
  · have hp : td.phase = .started := by
      rcases hr with hr | hr | hr <;> cases hp : td.phase <;> simp [PhaseOk, hp, hr] at h ⊢
    simpa [PhaseOk, Fio.changeRunstate, hp] using hr'

/-- Replacing a job by one in the same phase keeps what holds at each place of `run_threads`. -/
theorem PcOk.set {s : Runner} {i : Nat} {td td' : Job} (h : PcOk s) (hi : s.jobs[i]? = some td)
    (hphase : td'.phase = td.phase) : PcOk { s with jobs := s.jobs.set i td' } := by
  have hmem : ∀ a ∈ s.jobs.set i td', ∃ b ∈ s.jobs, b.phase = a.phase := by
    intro a ha
    rcases List.mem_or_eq_of_mem_set ha with ha | rfl
    · exact ⟨a, ha, rfl⟩
    · exact ⟨td, List.mem_of_getElem? hi, hphase.symm⟩
  unfold PcOk at h ⊢
  dsimp only
  cases hpc : s.pc with
  | head | reap =>
    rw [hpc] at h
    intro a ha
    obtain ⟨b, hb, heq⟩ := hmem a ha
    rw [← heq]
    exact h b hb
  | create | wait | poll =>
    rw [hpc] at h
    exact ⟨h.1.set hi rfl rfl (by rw [hphase]), h.2⟩
  | start n =>
    rw [hpc] at h
    refine ⟨fun a ha => ?_, fun j a hj hp => ?_⟩
    · obtain ⟨b, hb, heq⟩ := hmem a ha
      rw [← heq]
      exact h.1 b hb
    · rcases getElem?_set_cases hi hj with ⟨rfl, rfl⟩ | ⟨-, hj⟩
      · exact h.2 _ td hi (hphase ▸ hp)
      · exact h.2 j a hj hp
  | done => trivial

/-- So does a map over the jobs that keeps their phases. -/
theorem PcOk.map {s : Runner} {f : Job → Job} (h : PcOk s) (hphase : ∀ td, (f td).phase = td.phase) :
    PcOk { s with jobs := s.jobs.map f } := by
  have hmem : ∀ a ∈ s.jobs.map f, ∃ b ∈ s.jobs, b.phase = a.phase := by
    intro a ha
    obtain ⟨b, hb, rfl⟩ := List.mem_map.mp ha
    exact ⟨b, hb, (hphase b).symm⟩
  have hget : ∀ (j : Nat) a, (s.jobs.map f)[j]? = some a →
      ∃ b, s.jobs[j]? = some b ∧ b.phase = a.phase := by
    intro j a hj
    rw [List.getElem?_map, Option.map_eq_some_iff] at hj
    obtain ⟨b, hb, rfl⟩ := hj
    exact ⟨b, hb, (hphase b).symm⟩
  have hin : InMap s → InMap { s with jobs := s.jobs.map f } := by
    intro hmap
    refine ⟨fun j a hj ha => ?_, fun j hj => ?_, hmap.once⟩
    · obtain ⟨b, hb, heq⟩ := hget j a hj
      exact hmap.covers j b hb (heq.trans ha)
    · obtain ⟨b, hb, hcreated⟩ := hmap.holds j hj
      exact ⟨f b, by simp [hb], (hphase b).trans hcreated⟩
  unfold PcOk at h ⊢
  dsimp only
  cases hpc : s.pc with
  | head | reap =>
    rw [hpc] at h
    intro a ha
    obtain ⟨b, hb, heq⟩ := hmem a ha
    rw [← heq]
    exact h b hb
  | create | wait | poll =>
    rw [hpc] at h
    exact ⟨⟨(hin h.1).covers, (hin h.1).holds, (hin h.1).once⟩, h.2⟩
  | start n =>
    rw [hpc] at h
    refine ⟨fun a ha => ?_, fun j a hj hp => ?_⟩
    · obtain ⟨b, hb, heq⟩ := hmem a ha
      rw [← heq]
      exact h.1 b hb
    · obtain ⟨b, hb, heq⟩ := hget j a hj
      exact h.2 j b hb (heq.trans hp)
  | done => trivial

/-- Every step of the program keeps the invariant. -/
theorem Inv.step {s s' : Runner} {e : Unit} (h : Inv s) (hstep : RunnerStep Accounted s e s') :
    Inv s' := by
  cases hstep with
  | main ok env => exact h.mainStep ok env
  | job r hi thread next =>
    rename_i i td
    have hok := (h.counts.phases td (List.mem_of_getElem? hi)).changeRunstate thread next
    refine ⟨h.counts.set hi rfl hok ?_ ?_ ?_ ?_ ?_, h.pc.set hi rfl⟩
    all_goals simp [todoWeight, nrStartedWeight, nrRunningWeight, rateWeight, changeRunstate]
  | terminate selected =>
    have hphase : ∀ td, (if selected td then terminateJob td else td).phase = td.phase := by
      intro td
      split <;> rfl
    refine ⟨h.counts.map (fun td hok => ?_) hphase ?_ ?_ ?_, h.pc.map hphase⟩
    · split
      · exact hok
      · exact hok
    all_goals
      intro td
      split <;> rfl

/-- Before the main loop every job waits, except those whose files could not be set up. -/
theorem setupJob_phase (td : Job) (fails : Bool) :
    (td.createSerialize && fails) = false ∧ (setupJob (newJob td) fails).phase = .waiting ∨
      (td.createSerialize && fails) = true ∧ (setupJob (newJob td) fails).phase = .reaped := by
  unfold setupJob
  cases h : td.createSerialize && fails with
  | false =>
    left
    rw [if_neg (by simp [newJob, h])]
    exact ⟨rfl, rfl⟩
  | true =>
    right
    rw [if_pos (by simp only [newJob, h])]
    exact ⟨rfl, rfl⟩

theorem phaseOk_setupJob (td : Job) (fails : Bool) : PhaseOk (setupJob (newJob td) fails) := by
  unfold setupJob
  split
  · rfl
  · rfl

theorem todo_runThreadsInit (setup : List (Job × Bool)) :
    (runThreadsInit setup).todo = tally todoWeight (runThreadsInit setup).jobs := by
  unfold runThreadsInit
  dsimp only
  induction setup with
  | nil => rfl
  | cons x setup ih =>
    rw [count] at ih ⊢
    rw [List.map_cons, tally_cons, tally_cons, ← ih, List.length_cons]
    rcases setupJob_phase x.1 x.2 with ⟨hc, hp⟩ | ⟨hc, hp⟩
    · simp only [todoWeight, hp, indicator, hc]
      push_cast
      simp
      omega
    · simp only [todoWeight, hp, indicator, hc]
      push_cast
      simp
      omega

theorem inv_runThreadsInit (setup : List (Job × Bool)) : Inv (runThreadsInit setup) := by
  have hzero : ∀ {M : Type} [AddCommGroup M] (g : Job → M),
      (∀ td, td.phase = .waiting ∨ td.phase = .reaped → g td = 0) →
        tally g (setup.map fun x => setupJob (newJob x.1) x.2) = 0 := by
    intro M _ g hg
    induction setup with
    | nil => rfl
    | cons x setup ih =>
      rw [List.map_cons, tally_cons, ih, add_zero]
      rcases setupJob_phase x.1 x.2 with ⟨-, hp⟩ | ⟨-, hp⟩
      · exact hg _ (.inl hp)
      · exact hg _ (.inr hp)
  refine ⟨⟨fun td htd => ?_, ?_, ?_, ?_, ?_, ?_⟩, fun td htd => ?_⟩
  · obtain ⟨x, -, rfl⟩ := List.mem_map.mp htd
    exact phaseOk_setupJob x.1 x.2
  · exact todo_runThreadsInit setup
  · exact (hzero _ fun td h => by rcases h with h | h <;> simp [nrStartedWeight, h]).symm
  · exact (hzero _ fun td h => by rcases h with h | h <;> simp [nrRunningWeight, h]).symm
  · exact (hzero _ fun td h => by rcases h with h | h <;> simp [rateWeight, h]).symm
  · exact (hzero _ fun td h => by rcases h with h | h <;> simp [rateWeight, h]).symm
  · obtain ⟨x, -, rfl⟩ := List.mem_map.mp htd
    rcases setupJob_phase x.1 x.2 with ⟨-, hp⟩ | ⟨-, hp⟩
    · simp [hp]
    · simp [hp]

/-! ## The counters at the head of the main loop -/

/-- A job that is still to be started, and has not been counted off. -/
def waits (td : Job) : Bool := td.runstate == .notCreated && td.phase != .dropped

/-- A job that was started and not yet reaped. -/
def runs (td : Job) : Bool := td.runstate != .notCreated && td.runstate != .reaped

/-- What the counters say at the head of the main loop. -/
structure HeadOk (s : Runner) : Prop where
  todo : s.todo = count waits s.jobs
  nrStarted : s.nrStarted = 0
  nrRunning : s.nrRunning = count runs s.jobs
  tRate : s.tRate = tally (fun td => if runs td then td.rate else 0) s.jobs
  mRate : s.mRate = tally (fun td => if runs td then td.ratemin else 0) s.jobs

/-- Between two rounds the run state of a job says what was done about it. -/
theorem PhaseOk.settled {td : Job} (h : PhaseOk td) (hc : td.phase ≠ .created)
    (hs : td.phase ≠ .seen) :
    runs td = (td.phase == .started) ∧ waits td = (td.phase == .waiting) := by
  unfold PhaseOk at h
  unfold runs waits
  cases hp : td.phase with
  | waiting | dropped | reaped =>
    rw [hp] at h
    rw [h]
    exact ⟨rfl, rfl⟩
  | created => exact absurd hp hc
  | seen => exact absurd hp hs
  | started =>
    rw [hp] at h
    rcases h with hr | hr | hr | hr <;> rw [hr] <;> exact ⟨rfl, rfl⟩

theorem Inv.headOk {s : Runner} (h : Inv s) (hpc : s.pc = .head) : HeadOk s := by
  obtain ⟨hcounts, hpcOk⟩ := h
  rw [PcOk, hpc] at hpcOk
  have hjob : ∀ td ∈ s.jobs,
      runs td = (td.phase == .started) ∧ waits td = (td.phase == .waiting) :=
    fun td htd => (hcounts.phases td htd).settled (hpcOk td htd).1 (hpcOk td htd).2
  refine ⟨?_, ?_, ?_, ?_, ?_⟩
  · rw [hcounts.todo]
    refine tally_congr fun td htd => ?_
    obtain ⟨hc, hs⟩ := hpcOk td htd
    rw [indicator, (hjob td htd).2]
    cases hp : td.phase <;> simp_all [todoWeight]
  · rw [hcounts.nrStarted]
    refine tally_eq_zero fun td htd => ?_
    obtain ⟨hc, hs⟩ := hpcOk td htd
    cases hp : td.phase <;> simp_all [nrStartedWeight]
  · rw [hcounts.nrRunning]
    refine tally_congr fun td htd => ?_
    rw [indicator, (hjob td htd).1]
    cases hp : td.phase <;> simp [nrRunningWeight, hp]
  · rw [hcounts.tRate]
    refine tally_congr fun td htd => ?_
    rw [(hjob td htd).1]
    cases hp : td.phase <;> simp [rateWeight, hp]
  · rw [hcounts.mRate]
    refine tally_congr fun td htd => ?_
    rw [(hjob td htd).1]
    cases hp : td.phase <;> simp [rateWeight, hp]

/-- A step of the program, as data. -/
inductive Act
  | main (env : MainEnv)
  | job (i : Nat) (r : Runstate)
  | terminateAll

/-- The state after some steps, when all of them are steps of `RunnerStep P`. -/
def replayActs (P : Runner → Prop) [DecidablePred P] : List Act → Runner → Option Runner
  | [], s => some s
  | .main env :: acts, s => if P s then replayActs P acts (mainStep s env) else none
  | .job i r :: acts, s =>
    match s.jobs[i]? with
    | some td =>
      if td.hasThread = true ∧ td.runstate.next r = true then
        replayActs P acts { s with jobs := s.jobs.set i (changeRunstate td r) }
      else none
    | none => none
  | .terminateAll :: acts, s => replayActs P acts { s with jobs := s.jobs.map terminateJob }

theorem replayActs_run {P : Runner → Prop} [DecidablePred P] {acts : List Act} {s s' : Runner}
    (h : replayActs P acts s = some s') : ∃ es, Run (RunnerStep P) s es s' := by
  induction acts generalizing s with
  | nil =>
    cases h
    exact ⟨[], .nil⟩
  | cons act acts ih =>
    have hfirst : ∀ s₁, RunnerStep P s () s₁ → replayActs P acts s₁ = some s' →
        ∃ es, Run (RunnerStep P) s es s' := by
      intro s₁ hstep hrest
      obtain ⟨es, hrun⟩ := ih hrest
      exact ⟨[()] ++ es, Run.append (Run.nil.snoc hstep) hrun⟩
    cases act with
    | main env =>
      rw [replayActs] at h
      split at h
      · next hP => exact hfirst _ (.main hP env) h
      · cases h
    | job i r =>
      rw [replayActs] at h
      split at h
      · next td hi =>
        split at h
        · next hcond => exact hfirst _ (.job r hi hcond.1 hcond.2) h
        · cases h
      · cases h
    | terminateAll =>
      rw [replayActs] at h
      exact hfirst _ (.terminate fun _ => true) h

/-- A job of the given rate, held back by earlier jobs or not. -/
def exampleJob (stonewall : Bool) (rate : UInt32) : Job where
  runstate := .notCreated
  terminate := false
  startDelay := 0
  stonewall := stonewall
  createSerialize := false
  useThread := true
  rate := rate
  ratemin := 0
  groupid := 0
  cpuio := false
  hasThread := false
  phase := .waiting

/-- A step of `run_threads` in which nothing special happens outside. -/
def plainStep : Act := .main ⟨0, false, false⟩

end Rtfsc.Fio
