import Rtfsc.Fio.JobTable
import Rtfsc.Machine.Run
import Mathlib.Tactic.Ring

/-!
# fio: the live jobs

`threads[0..thread_number)` is the list of live jobs, and `add_job` adds all copies of a job or
none, as long as nobody puts a job twice and the clones of a job either all fit or the job itself
takes the last slot.
-/

namespace Rtfsc.Fio

open Rtfsc.Machine

/-- `live` is what the table holds: the first `thread_number` slots, numbered from one. -/
structure Live (t : JobTable) (live : List ThreadSlot) : Prop where
  slots : live <+: t.slots
  number : t.threadNumber = live.length
  numbered : ∀ (i : Nat) td, live[i]? = some td → td.threadNumber = i + 1

@[simp] theorem getD_append_length {α : Type} (l : List α) (a : α) (r : List α) (d : α) :
    (l ++ a :: r).getD l.length d = a := by
  simp [List.getD_eq_getElem?_getD]

@[simp] theorem set_append_length {α : Type} (l : List α) (a b : α) (r : List α) :
    (l ++ a :: r).set l.length b = l ++ b :: r := by
  simp [List.set_append_right]

/-- Numbering a list with one more slot at its end. -/
theorem numbered_concat {live : List ThreadSlot} {td : ThreadSlot}
    (h : ∀ (i : Nat) td, live[i]? = some td → td.threadNumber = i + 1)
    (htd : td.threadNumber = live.length + 1) :
    ∀ (i : Nat) a, (live ++ [td])[i]? = some a → a.threadNumber = i + 1 := by
  intro i a hi
  rcases Nat.lt_or_ge i live.length with hlt | hge
  · rw [List.getElem?_append_left hlt] at hi
    exact h i a hi
  · rw [List.getElem?_append_right hge] at hi
    have hzero : i - live.length = 0 := by
      by_contra hpos
      rw [List.getElem?_eq_none (by simp; omega)] at hi
      cases hi
    rw [hzero] at hi
    simp only [List.getElem?_cons_zero, Option.some.injEq] at hi
    rw [← hi, htd]
    omega

theorem numbered_append_left {l r : List ThreadSlot}
    (h : ∀ (i : Nat) td, (l ++ r)[i]? = some td → td.threadNumber = i + 1) :
    ∀ (i : Nat) td, l[i]? = some td → td.threadNumber = i + 1 := by
  intro i td hi
  refine h i td ?_
  rw [List.getElem?_append_left (List.getElem?_eq_some_iff.mp hi).1]
  exact hi

/-- The slot of the last job and what follows it. -/
theorem Live.split {t : JobTable} {saved : List ThreadSlot} {td : ThreadSlot}
    (h : Live t (saved ++ [td])) : ∃ rest, t.slots = saved ++ td :: rest := by
  obtain ⟨rest, hrest⟩ := h.slots
  exact ⟨rest, by rw [← hrest, List.append_assoc, List.singleton_append]⟩

theorem Live.lastNumber {t : JobTable} {saved : List ThreadSlot} {td : ThreadSlot}
    (h : Live t (saved ++ [td])) : td.threadNumber = saved.length + 1 :=
  h.numbered saved.length td (by simp)

/-- `get_new_job` adds a slot while there is one. -/
theorem getNewJob_live {t : JobTable} {live : List ThreadSlot} (h : Live t live)
    (parent : ThreadSlot) :
    (live.length = t.slots.length ∧ getNewJob t parent = none) ∨
      (live.length < t.slots.length ∧ ∃ t', getNewJob t parent = some (t', live.length) ∧
        t'.slots.length = t.slots.length ∧ t'.groupid = t.groupid ∧
        Live t' (live ++ [{ parent with threadNumber := live.length + 1 }])) := by
  have hle := h.slots.length_le
  rcases Nat.eq_or_lt_of_le hle with heq | hlt
  · exact .inl ⟨heq, if_pos (by rw [h.number, heq])⟩
  · have hget : getNewJob t parent = some ({ t with
        slots := t.slots.set live.length { parent with threadNumber := live.length + 1 }
        threadNumber := live.length + 1 }, live.length) := by
      rw [getNewJob, if_neg (by rw [h.number]; omega), h.number]
      rfl
    refine .inr ⟨hlt, _, hget, by simp, rfl, ?_⟩
    obtain ⟨rest, hrest⟩ := h.slots
    cases rest with
    | nil =>
      rw [← hrest, List.append_nil] at hlt
      exact absurd hlt (lt_irrefl _)
    | cons a rest =>
      refine ⟨⟨rest, ?_⟩, ?_, numbered_concat h.numbered rfl⟩
      · rw [← hrest, set_append_length, List.append_assoc, List.singleton_append]
      · rw [List.length_append]
        rfl

/-- `put_job` on the last job takes it away. -/
theorem putJob_live {t : JobTable} {saved : List ThreadSlot} {td : ThreadSlot}
    (h : Live t (saved ++ [td])) :
    ∃ t', putJob t saved.length = .ok t' ∧ t'.slots.length = t.slots.length ∧
      t'.groupid = t.groupid ∧ Live t' saved ∧
      t'.slots.getD saved.length zeroSlot = zeroSlot := by
  obtain ⟨rest, hrest⟩ := h.split
  have hn := h.lastNumber
  have hlen : saved.length < t.slots.length := by
    rw [hrest]
    simp
  unfold putJob
  dsimp only
  rw [hrest, getD_append_length, hn]
  have hidx : ((saved.length : Int) + 1 - 1) = saved.length := by ring
  rw [hidx, if_pos ⟨by omega, by rw [← hrest]; omega⟩, Int.toNat_natCast, set_append_length]
  refine ⟨_, rfl, by simp, rfl, ⟨⟨zeroSlot :: rest, rfl⟩, ?_, numbered_append_left h.numbered⟩, ?_⟩
  · dsimp only
    rw [h.number, List.length_append]
    simp
  · exact getD_append_length _ _ _ _

/-- Writing the slot of the last job. -/
theorem Live.setLast {t : JobTable} {saved : List ThreadSlot} {td td' : ThreadSlot} {g : Int}
    (h : Live t (saved ++ [td])) (hnum : td'.threadNumber = td.threadNumber) :
    Live { t with slots := t.slots.set saved.length td', groupid := g } (saved ++ [td']) := by
  obtain ⟨rest, hrest⟩ := h.split
  refine ⟨⟨rest, ?_⟩, ?_, ?_⟩
  · dsimp only
    rw [hrest, set_append_length, List.append_assoc, List.singleton_append]
  · have hn := h.number
    rw [List.length_append] at hn ⊢
    exact hn
  · exact numbered_concat (numbered_append_left h.numbered) (hnum.trans h.lastNumber)

theorem Live.getD {t : JobTable} {saved : List ThreadSlot} {td : ThreadSlot}
    (h : Live t (saved ++ [td])) : t.slots.getD saved.length zeroSlot = td := by
  obtain ⟨rest, hrest⟩ := h.split
  rw [hrest, getD_append_length]

/-! ## What `add_job` makes of one job -/

/-- The job that `add_job` makes of `td`: `none` when it has no engine or its rates contradict each
other. -/
def addedJob (env : AddEnv) (jobname : String) (groupid : Int) (td : ThreadSlot) :
    Outcome (Option ThreadSlot) :=
  match loadDefaultEngine env td.settings with
  | none => .ok none
  | some s => do
    let p := prepareJob env jobname (nextGroupid groupid td.threadNumber s)
      { td with settings := s }
    return (← setupRate p.settings).map fun cycle => finishJob jobname cycle p

/-- `add_job` up to its clone loop. -/
theorem addOne_live {env : AddEnv} {jobname : String} {t : JobTable} {saved : List ThreadSlot}
    {td : ThreadSlot} {r : Option ThreadSlot} (h : Live t (saved ++ [td]))
    (hr : addedJob env jobname t.groupid td = .ok r) :
    (loadDefaultEngine env td.settings = none ∧ addOne env jobname t saved.length = .ok (1, t)) ∨
    ((loadDefaultEngine env td.settings).isSome ∧
      ∃ ret t', addOne env jobname t saved.length = .ok (ret, t') ∧
        t'.slots.length = t.slots.length ∧
        ((r = none ∧ ret = -1 ∧ Live t' saved) ∨
          ∃ p, r = some p ∧ ret = 0 ∧ t'.groupid = p.settings.groupid ∧
            Live t' (saved ++ [p]))) := by
  unfold addedJob at hr
  unfold addOne
  rw [h.getD]
  cases hs : loadDefaultEngine env td.settings with
  | none => exact .inl ⟨rfl, by simp only [hs]⟩
  | some s =>
    refine .inr ⟨rfl, ?_⟩
    simp only [hs] at hr ⊢
    generalize hp : prepareJob env jobname (nextGroupid t.groupid td.threadNumber s)
      { td with settings := s } = p at hr ⊢
    have hnum : p.threadNumber = td.threadNumber := by rw [← hp]; rfl
    have hgroup : p.settings.groupid = nextGroupid t.groupid td.threadNumber s := by rw [← hp]; rfl
    obtain ⟨cycle, hcycle, hval⟩ := bind_eq_ok.mp hr
    rw [hcycle]
    cases cycle with
    | none =>
      obtain ⟨t', hput, hlen, -, hlive, -⟩ := putJob_live
        (h.setLast (g := nextGroupid t.groupid td.threadNumber s) hnum)
      refine ⟨-1, t', ?_, by rw [hlen, List.length_set], .inl ⟨?_, rfl, hlive⟩⟩
      · simp only [ok_bind]
        rw [hput]
        rfl
      · cases hval
        rfl
    | some c =>
      refine ⟨0, _, rfl, by simp, .inr ⟨finishJob jobname c p, ?_, rfl, ?_, ?_⟩⟩
      · cases hval
        rfl
      · exact hgroup.symm
      · simp only [List.set_set]
        exact h.setLast hnum

/-! ## The clones of a job -/

theorem fixupOptions_blockSizes (o : Options) :
    (fixupOptions o).minBs = orBs o.minBs o.bs ∧ (fixupOptions o).bs = o.bs := by
  rw [fixupOptions_eq]
  exact ⟨rfl, rfl⟩

/-- Preparing a job again does not change its minimum block sizes. -/
theorem prepareSettings_minBs (env : AddEnv) (jobname : String) (s s' : JobSettings)
    (h : s'.opts = (prepareSettings env jobname s).opts) :
    (prepareSettings env jobname s').opts.minBs = s'.opts.minBs := by
  have hfirst : s'.opts.minBs = orBs s.opts.minBs s.opts.bs ∧ s'.opts.bs = s.opts.bs := by
    rw [h]
    exact fixupOptions_blockSizes _
  have hagain : (prepareSettings env jobname s').opts.minBs = orBs s'.opts.minBs s'.opts.bs :=
    (fixupOptions_blockSizes _).1
  rw [hagain, hfirst.1, hfirst.2, orBs_orBs]

theorem setupRate_again {s s' : JobSettings} {cycle : Int} (h : setupRate s = .ok (some cycle))
    (hrate : s'.rate = s.rate) (hmin : s'.ratemin = s.ratemin)
    (hbs : s'.opts.minBs = s.opts.minBs) (hcycle : s'.rateUsecCycle = cycle) :
    setupRate s' = .ok (some cycle) := by
  unfold setupRate at h ⊢
  rw [hrate, hmin, hbs, hcycle]
  by_cases hzero : s.rate = 0
  · rw [if_pos hzero]
  · rw [if_neg hzero] at h ⊢
    exact h

/-- The files of a job do not depend on its number of clones: it has one file, or its name or
`filename` names files and not a device. -/
def UniformFiles (env : AddEnv) (jobname : String) (s : JobSettings) : Prop :=
  (env.stat jobname).getD .file = .file ∨ s.filename.isSome ∨ s.opts.nrFiles = 1

theorem fixupOptions_nrFiles (o : Options) : (fixupOptions o).nrFiles = o.nrFiles := by
  rw [fixupOptions_eq]
  rfl

/-- The options of a job with uniform files are what `fixup_options` made of them. -/
theorem prepareSettings_opts {env : AddEnv} {jobname : String} {s : JobSettings}
    (h : UniformFiles env jobname s) :
    (prepareSettings env jobname s).opts = fixupOptions { s.opts with
      flags := rawFlags s.opts, filetype := (env.stat jobname).getD .file } := by
  unfold prepareSettings
  dsimp only
  split
  · rfl
  · next hno =>
    have hone : s.opts.nrFiles = 1 := by
      rcases h with h | h | h
      · rw [h] at hno
        exact absurd rfl hno
      · rw [h, Bool.or_true] at hno
        exact absurd rfl hno
      · exact h
    have hval := fixupOptions_nrFiles { s.opts with
      flags := rawFlags s.opts, filetype := (env.stat jobname).getD .file }
    rw [hone] at hval
    rw [← hval]

/-- Preparing a job that was prepared, and has the same files, changes nothing. -/
theorem prepareSettings_again {env : AddEnv} {jobname : String} {s s' : JobSettings}
    (h : UniformFiles env jobname s) (hopts : s'.opts = (prepareSettings env jobname s).opts)
    (hname : s'.filename = s.filename)
    (huniq : s'.nrUniqFiles = (prepareSettings env jobname s).nrUniqFiles) :
    prepareSettings env jobname s' = s' := by
  have hval := fixupOptions_eq { s.opts with
    flags := rawFlags s.opts, filetype := (env.stat jobname).getD .file }
  rw [prepareSettings_opts h] at hopts
  have hsettled := settled_fixupOptions { s.opts with
    flags := rawFlags s.opts, filetype := (env.stat jobname).getD .file }
  have hnr : s'.opts.nrFiles = s.opts.nrFiles := by rw [hopts, hval]; rfl
  have hfixed : { s'.opts with
      flags := rawFlags s'.opts, filetype := (env.stat jobname).getD .file } = s'.opts := by
    have hflags : rawFlags s'.opts = s'.opts.flags := by
      rw [hopts, hval]
      simp only [rawFlags, fixupBs, fixupMode]
      split <;> simp
    have htype : (env.stat jobname).getD .file = s'.opts.filetype := by rw [hopts, hval]; rfl
    rw [hflags, htype]
  have huniform : UniformFiles env jobname s' := by
    rw [UniformFiles, hname, hnr]
    exact h
  have hopts' : (prepareSettings env jobname s').opts = s'.opts := by
    rw [prepareSettings_opts huniform, hfixed, hopts, hsettled.fixupOptions]
  have huniq' : (prepareSettings env jobname s').nrUniqFiles = s'.nrUniqFiles := by
    rw [huniq]
    simp only [prepareSettings, fixupOptions_nrFiles, hnr, hname]
  calc prepareSettings env jobname s'
      = { s' with
          nrUniqFiles := (prepareSettings env jobname s').nrUniqFiles
          opts := (prepareSettings env jobname s').opts } := rfl
    _ = s' := by rw [hopts', huniq']

/-- The `n`-th job as a clone of `p`. -/
def cloneJob (env : AddEnv) (jobname : String) (p : ThreadSlot) (n : Int) : ThreadSlot :=
  let s := prepareSettings env jobname (cloneSettings p.settings)
  ⟨n, s, jobFiles jobname n s⟩

/-- What the clone loop relies on in a job that was added. -/
structure Added (env : AddEnv) (jobname : String) (td p : ThreadSlot) : Prop where
  ioOps : p.settings.ioOps = true
  name : p.settings.name.isSome
  rate : setupRate (prepareSettings env jobname (cloneSettings p.settings)) =
    .ok (some p.settings.rateUsecCycle)
  threadNumber : p.threadNumber = td.threadNumber
  numjobs : p.settings.numjobs = td.settings.numjobs
  uniform : UniformFiles env jobname td.settings →
    prepareSettings env jobname (cloneSettings p.settings) = cloneSettings p.settings

/-- Loading the default engine changes the engine only. -/
theorem loadDefaultEngine_eq {env : AddEnv} {s s' : JobSettings}
    (h : loadDefaultEngine env s = some s') :
    ∃ flags, s' = { s with ioOps := true, opts := { s.opts with flags := flags } } := by
  unfold loadDefaultEngine at h
  split at h
  · next hio =>
    cases h
    exact ⟨s.opts.flags, by rw [← hio]⟩
  · split at h
    · cases h
      exact ⟨_, rfl⟩
    · cases h

theorem addedJob_added {env : AddEnv} {jobname : String} {groupid : Int} {td p : ThreadSlot}
    (h : addedJob env jobname groupid td = .ok (some p)) : Added env jobname td p := by
  unfold addedJob at h
  cases hs : loadDefaultEngine env td.settings with
  | none =>
    rw [hs] at h
    cases h
  | some s =>
    rw [hs] at h
    obtain ⟨cycle, hcycle, hval⟩ := bind_eq_ok.mp h
    cases cycle with
    | none => cases hval
    | some c =>
      cases hval
      obtain ⟨flags, rfl⟩ := loadDefaultEngine_eq hs
      refine ⟨rfl, ?_, ?_, rfl, rfl, fun huniform => ?_⟩
      · cases td.settings.name <;> simp [finishJob, prepareJob, prepareSettings]
      · exact setupRate_again hcycle rfl rfl (prepareSettings_minBs env jobname _ _ rfl) rfl
      · exact prepareSettings_again (s := { td.settings with
          ioOps := true, opts := { td.settings.opts with flags := flags } }) huniform rfl rfl rfl

/-- A clone of a job that was added can be added, in the same group. -/
theorem Added.clone {env : AddEnv} {jobname : String} {td p : ThreadSlot}
    (h : Added env jobname td p) (n : Int) :
    addedJob env jobname p.settings.groupid
      { p with threadNumber := n, settings := cloneSettings p.settings } =
        .ok (some (cloneJob env jobname p n)) := by
  obtain ⟨name, hname⟩ := Option.isSome_iff_exists.mp h.name
  have hload : loadDefaultEngine env (cloneSettings p.settings) = some (cloneSettings p.settings) :=
    if_pos h.ioOps
  have hgroup : nextGroupid p.settings.groupid n (cloneSettings p.settings) = p.settings.groupid :=
    if_neg fun hc => hc.1 rfl
  unfold addedJob
  rw [hload]
  dsimp only
  rw [hgroup]
  refine bind_eq_ok.mpr ⟨some p.settings.rateUsecCycle, h.rate, ?_⟩
  simp only [Option.map_some, pure_eq_ok, Except.ok.injEq, Option.some.injEq]
  simp [finishJob, prepareJob, cloneJob, prepareSettings, cloneSettings, hname]

/-- The first `k` clones of `p`. -/
def clones (env : AddEnv) (jobname : String) (p : ThreadSlot) (k : Nat) : List ThreadSlot :=
  (List.range k).map fun x : Nat => cloneJob env jobname p (p.threadNumber + 1 + x)

@[simp] theorem clones_length {env : AddEnv} {jobname : String} {p : ThreadSlot} {k : Nat} :
    (clones env jobname p k).length = k := by
  simp [clones]

theorem clones_succ (env : AddEnv) (jobname : String) (p : ThreadSlot) (k : Nat) :
    clones env jobname p (k + 1) =
      clones env jobname p k ++ [cloneJob env jobname p (p.threadNumber + 1 + k)] := by
  simp [clones, List.range_succ]

theorem Live.getD_mid {t : JobTable} {saved r : List ThreadSlot} {td : ThreadSlot}
    (h : Live t (saved ++ td :: r)) : t.slots.getD saved.length zeroSlot = td := by
  obtain ⟨rest, hrest⟩ := h.slots
  rw [← hrest, List.append_assoc, List.cons_append, getD_append_length]

/-- The clone loop with `k` clones to go adds them all when there is room. -/
theorem cloneLoop_live {env : AddEnv} {jobname : String} {td p : ThreadSlot}
    {saved : List ThreadSlot} (hp : Added env jobname td p) {k : Nat} {t : JobTable} {d room : Nat}
    (h : Live t (saved ++ p :: clones env jobname p d)) (hgroup : t.groupid = p.settings.groupid)
    (hroom : saved.length + (d + 1) + room = t.slots.length) (hk : k ≤ room) :
    ∃ t', cloneLoop env jobname saved.length room (k + 1) t = .ok (0, t') ∧
      t'.slots.length = t.slots.length ∧
      Live t' (saved ++ p :: clones env jobname p (d + k)) := by
  induction k generalizing t d room with
  | zero =>
    rw [cloneLoop, if_pos (by simp)]
    exact ⟨t, rfl, rfl, h⟩
  | succ k ih =>
    have hlen : (saved ++ p :: clones env jobname p d).length = saved.length + (d + 1) := by simp
    have hnum : p.threadNumber = saved.length + 1 :=
      h.numbered saved.length p (by simp)
    rw [cloneLoop, if_neg (by push_cast; omega), h.getD_mid]
    dsimp only
    rcases getNewJob_live h { p with settings := cloneSettings p.settings } with
      ⟨hfull, -⟩ | ⟨-, t₁, hnew, hslots, hgroupid, hlive⟩
    · omega
    · rw [hnew]
      cases room with
      | zero => exact absurd hk (by omega)
      | succ room =>
        have hclone := hp.clone (saved.length + (d + 1) + 1)
        have hnumber : (((saved ++ p :: clones env jobname p d).length : Nat) : Int) + 1 =
            (saved.length : Int) + (d + 1) + 1 := by rw [hlen]; push_cast; ring
        rw [hnumber] at hlive
        rcases addOne_live hlive (by rw [hgroupid, hgroup]; exact hclone) with
          ⟨hnone, -⟩ | ⟨-, ret, t₂, hone, hslots₂, ⟨hno, -⟩ | ⟨q, hq, rfl, hgroup₂, hlive₂⟩⟩
        · rw [loadDefaultEngine, if_pos (by exact hp.ioOps)] at hnone
          cases hnone
        · cases hno
        · cases hq
          rw [List.append_assoc, List.cons_append, show (saved.length : Int) + (d + 1) + 1 =
            p.threadNumber + 1 + d by omega, ← clones_succ] at hlive₂
          have hroom₂ : saved.length + (d + 1 + 1) + room = t₂.slots.length := by omega
          obtain ⟨t₃, hloop, hslots₃, hlive₃⟩ := ih hlive₂ hgroup₂ hroom₂ (by omega)
          refine ⟨t₃, ?_, by omega, ?_⟩
          · simp only [hone, ok_bind, ne_eq, not_true_eq_false, if_false]
            rw [show ((k + 1 : Nat) : Int) + 1 - 1 = k + 1 by omega]
            exact hloop
          · rw [show d + (k + 1) = d + 1 + k by omega]
            exact hlive₃

/-- The clone loop of a job that takes the last slot undoes the job. -/
theorem cloneLoop_full (env : AddEnv) (jobname : String) {p : ThreadSlot} {numjobs : Int}
    {saved : List ThreadSlot} {t : JobTable} (h : Live t (saved ++ [p])) (hn : numjobs ≠ 1) :
    ∃ t', cloneLoop env jobname saved.length 0 numjobs t = .ok (-1, t') ∧
      t'.slots.length = t.slots.length ∧ Live t' saved := by
  obtain ⟨t', hput, hslots, -, hlive, -⟩ := putJob_live h
  refine ⟨t', ?_, hslots, hlive⟩
  rw [cloneLoop, if_neg (by omega)]
  dsimp only
  split
  · next heq => cases heq
  · rw [hput]
    rfl

/-! ## Copies -/

/-- A copy of `p` with number `n`: the settings of `p`, apart from `numjobs` and `stonewall`, and
its own files. -/
def copyOf (jobname : String) (p : ThreadSlot) (n : Int) : ThreadSlot :=
  ⟨n, cloneSettings p.settings, jobFiles jobname n p.settings⟩

/-- `p` and its copies, `n` jobs in all. -/
def copies (jobname : String) (p : ThreadSlot) : Nat → List ThreadSlot
  | 0 => []
  | k + 1 => p :: (List.range k).map fun x : Nat => copyOf jobname p (p.threadNumber + 1 + x)

/-- The clones of a job with uniform files are copies of it. -/
theorem Added.clones_eq {env : AddEnv} {jobname : String} {td p : ThreadSlot}
    (hp : Added env jobname td p) (h : UniformFiles env jobname td.settings) (k : Nat) :
    p :: clones env jobname p k = copies jobname p (k + 1) := by
  have hclone : ∀ n, cloneJob env jobname p n = copyOf jobname p n := by
    intro n
    rw [cloneJob, hp.uniform h]
    rfl
  simp only [clones, copies, hclone]

/-! ## Calls of `add_job` -/

/-- What `add_job` is for: with return value 0 there are now `numjobs` copies of the job behind the
earlier jobs, and otherwise there are the earlier jobs only. -/
def AddPost (env : AddEnv) (jobname : String) (groupid : Int) (saved : List ThreadSlot)
    (td : ThreadSlot) (ret : Int) (t : JobTable) : Prop :=
  (ret = 0 ∧ ∃ p, addedJob env jobname groupid td = .ok (some p) ∧
    Live t (saved ++ copies jobname p td.settings.numjobs.toNat)) ∨
  (ret ≠ 0 ∧ Live t saved)

/-- The calls of `add_job` that do what it is for, with `earlier` jobs in a table of `maxJobs`: the
job has no engine and the caller puts it, or its rates contradict each other and only `add_job` puts
it, or all its copies fit and are alike, or it takes the last slot and only `add_job` puts it. -/
def AddSound (env : AddEnv) (caller : Caller) (jobname : String) (groupid : Int)
    (earlier maxJobs : Nat) (td : ThreadSlot) : Prop :=
  match addedJob env jobname groupid td with
  | .error _ => False
  | .ok none => caller = if (loadDefaultEngine env td.settings).isNone then .cmdLine else .jobsIni
  | .ok (some _) =>
    let n := td.settings.numjobs.toNat
    (1 ≤ n ∧ earlier + n ≤ maxJobs ∧ (n = 1 ∨ UniformFiles env jobname td.settings)) ∨
      (n ≠ 1 ∧ earlier + 1 = maxJobs ∧ caller = .jobsIni)

/-- `add_job` without a clone loop: the return value is not 0. -/
theorem addJob_of_addOne {env : AddEnv} {jobname : String} {t t' : JobTable} {i : Nat} {ret : Int}
    (h : addOne env jobname t i = .ok (ret, t')) (hret : ret ≠ 0) :
    addJob env jobname t i = .ok (ret, t') := by
  rw [addJob, h, ok_bind]
  dsimp only
  rw [if_pos hret]
  rfl

/-- `parse_cmd_line` puts a job that `add_job` has refused and not put. -/
theorem cmdAddJob_refused {env : AddEnv} {jobname : String} {t t₁ : JobTable}
    {saved : List ThreadSlot} {td : ThreadSlot} {ret : Int} (h : Live t₁ (saved ++ [td]))
    (hadd : addJob env jobname t saved.length = .ok (ret, t₁)) (hret : ret ≠ 0) :
    ∃ t', cmdAddJob env jobname t saved.length = .ok (ret, t') ∧
      t'.slots.length = t₁.slots.length ∧ Live t' saved := by
  obtain ⟨t', hput, hslots, -, hlive, -⟩ := putJob_live h
  refine ⟨t', ?_, hslots, hlive⟩
  rw [cmdAddJob, hadd, ok_bind]
  dsimp only
  rw [if_pos hret, hput]
  rfl

/-- Both callers leave the table alone when `add_job` has added the job. -/
theorem callAddJob_added {env : AddEnv} {caller : Caller} {jobname : String} {t t' : JobTable}
    {i : Nat} (h : addJob env jobname t i = .ok (0, t')) :
    callAddJob caller env jobname t i = .ok (0, t') := by
  cases caller with
  | cmdLine =>
    rw [callAddJob, cmdAddJob, h]
    rfl
  | jobsIni => exact h

/-- `numjobs` as the `int` that `add_job` counts down. -/
theorem numjobs_int (n : UInt32) :
    n.toInt32.toInt = if n.toNat < 2 ^ 31 then (n.toNat : Int) else n.toNat - 2 ^ 32 := by
  have hval : n.toInt32.toInt = _ := BitVec.toInt_eq_toNat_cond n.toBitVec
  have hnat : n.toBitVec.toNat = n.toNat := rfl
  rw [hval, hnat]
  split <;> split <;> omega

theorem addJob_live {env : AddEnv} {caller : Caller} {jobname : String} {t : JobTable}
    {saved : List ThreadSlot} {td : ThreadSlot} (h : Live t (saved ++ [td]))
    (hmax : t.slots.length < 2 ^ 31)
    (hsound : AddSound env caller jobname t.groupid saved.length t.slots.length td) :
    ∃ ret t', callAddJob caller env jobname t saved.length = .ok (ret, t') ∧
      t'.slots.length = t.slots.length ∧ AddPost env jobname t.groupid saved td ret t' := by
  unfold AddSound at hsound
  cases hadd : addedJob env jobname t.groupid td with
  | error e =>
    rw [hadd] at hsound
    exact hsound.elim
  | ok r =>
    rw [hadd] at hsound
    rcases addOne_live h hadd with ⟨hnone, hone⟩ | ⟨hsome, ret, t₁, hone, hslots, hcase⟩
    · -- no engine: the job is still there
      have hr : r = none := by
        rw [addedJob, hnone] at hadd
        cases hadd
        rfl
      subst hr
      rw [hnone] at hsound
      obtain ⟨t', hcmd, hslots, hlive⟩ :=
        cmdAddJob_refused h (addJob_of_addOne hone (by decide)) (by decide)
      cases hsound
      exact ⟨1, t', hcmd, hslots, .inr ⟨by decide, hlive⟩⟩
    · rcases hcase with ⟨rfl, rfl, hlive⟩ | ⟨p, rfl, rfl, hgroup, hlive⟩
      · -- the rates contradict each other: `add_job` has put the job
        obtain ⟨s, hs⟩ := Option.isSome_iff_exists.mp hsome
        rw [hs] at hsound
        cases hsound
        exact ⟨-1, t₁, addJob_of_addOne hone (by decide), hslots, .inr ⟨by decide, hlive⟩⟩
      · have hp := addedJob_added hadd
        have hloop : addJob env jobname t saved.length = cloneLoop env jobname saved.length
            (t₁.slots.length - (saved.length + 1)) td.settings.numjobs.toInt32.toInt t₁ := by
          have hnumber : t₁.threadNumber.toNat = saved.length + 1 := by
            rw [hlive.number, Int.toNat_natCast, List.length_append]
            rfl
          rw [addJob, hone, ok_bind]
          dsimp only
          rw [if_neg (by decide), hlive.getD, hp.numjobs, hnumber]
        rcases hsound with ⟨hpos, hfit, halike⟩ | ⟨hclones, hlast, rfl⟩
        · obtain ⟨k, hk⟩ := Nat.exists_eq_add_of_le' hpos
          obtain ⟨t', hrun, hslots', hlive'⟩ := cloneLoop_live (d := 0) (k := k) hp hlive hgroup
            (show saved.length + (0 + 1) + (t₁.slots.length - (saved.length + 1)) = t₁.slots.length
              by omega) (by omega)
          refine ⟨0, t', callAddJob_added ?_, by omega, .inl ⟨rfl, p, hadd, ?_⟩⟩
          · rw [hloop, numjobs_int, if_pos (by omega), hk]
            exact_mod_cast hrun
          · rw [Nat.zero_add] at hlive'
            rw [hk]
            rcases halike with hone | hu
            · have hzero : k = 0 := by omega
              subst hzero
              exact hlive'
            · rw [← hp.clones_eq hu]
              exact hlive'
        · have hlt := UInt32.toNat_lt td.settings.numjobs
          have hne : td.settings.numjobs.toInt32.toInt ≠ 1 := by
            rw [numjobs_int]
            split <;> omega
          obtain ⟨t', hrun, hslots', hlive'⟩ := cloneLoop_full env jobname hlive hne
          refine ⟨-1, t', ?_, by omega, .inr ⟨by decide, hlive'⟩⟩
          rw [callAddJob, hloop, show t₁.slots.length - (saved.length + 1) = 0 by omega]
          exact hrun

/-! ## The parsers -/

/-- What `td` points to while options are parsed. -/
inductive JobPtr
  | defThread
  | slot (i : Nat)
deriving DecidableEq, Repr

/-- The jobs there should be: those that were added, and the one that is being described. -/
structure Ledger where
  added : List ThreadSlot
  current : Option ThreadSlot

/-- All jobs of a ledger, in the order they were created. -/
def Ledger.live (l : Ledger) : List ThreadSlot := l.added ++ l.current.toList

/-- `parse_cmd_line` and `parse_jobs_ini` between two calls on the job table, and the ledger of what
they were asked for. -/
structure Parser where
  table : JobTable
  defThread : ThreadSlot
  td : Option JobPtr
  ledger : Ledger

/-- A call of the parsers. Options may leave any settings. -/
inductive Call
  | getNewJob (global : Bool)
  | parseOption (s : JobSettings)
  | putJob
  | addJob (caller : Caller) (jobname : String)

/-- The slot of a job with other settings. -/
def ThreadSlot.configure (td : ThreadSlot) (s : JobSettings) : ThreadSlot :=
  { td with settings := s }

/-- The ledger after `add_job` has returned. -/
def Ledger.afterAdd (l : Ledger) (env : AddEnv) (jobname : String) (groupid : Int) (ret : Int) :
    Ledger :=
  match l.current with
  | none => l
  | some td =>
    match addedJob env jobname groupid td, ret with
    | .ok (some p), 0 => ⟨l.added ++ copies jobname p td.settings.numjobs.toNat, none⟩
    | _, _ => ⟨l.added, none⟩

/-- One call. There is no job to work on while `td` is the null pointer. -/
def Parser.call (env : AddEnv) (s : Parser) : Call → Outcome Parser
  | .getNewJob true => .ok { s with td := some .defThread }
  | .getNewJob false =>
    match Fio.getNewJob s.table s.defThread with
    | none => .ok s
    | some (t, i) =>
      .ok { s with
        table := t
        td := some (.slot i)
        ledger := { s.ledger with
          current := some { s.defThread with threadNumber := s.ledger.added.length + 1 } } }
  | .parseOption o =>
    match s.td with
    | none => .error .nullPointer
    | some .defThread => .ok { s with defThread := s.defThread.configure o }
    | some (.slot i) =>
      .ok { s with
        table := { s.table with
          slots := s.table.slots.set i ((s.table.slots.getD i zeroSlot).configure o) }
        ledger := { s.ledger with current := s.ledger.current.map (·.configure o) } }
  | .putJob =>
    match s.td with
    | none => .error .nullPointer
    | some .defThread => .ok { s with td := none }
    | some (.slot i) => do
      let t ← Fio.putJob s.table i
      return { s with table := t, td := none, ledger := { s.ledger with current := none } }
  | .addJob caller jobname =>
    match s.td with
    | none => .error .nullPointer
    | some .defThread => .ok { s with td := none }
    | some (.slot i) => do
      let (ret, t) ← callAddJob caller env jobname s.table i
      return { s with
        table := t
        td := none
        ledger := s.ledger.afterAdd env jobname s.table.groupid ret }

/-- The parsers ask for a job when they have none, and work on the one they have. -/
def Parser.Enabled (s : Parser) : Call → Prop
  | .getNewJob _ => s.td = none
  | _ => s.td ≠ none

/-- A call of `add_job` that does what it is for; any other call. -/
def Parser.Sound (env : AddEnv) (s : Parser) : Call → Prop
  | .addJob caller jobname =>
    ∀ i, s.td = some (.slot i) →
      AddSound env caller jobname s.table.groupid i s.table.slots.length
        (s.table.slots.getD i zeroSlot)
  | _ => True

/-- A call the parsers make, within `P`. -/
def ParserStep (env : AddEnv) (P : Parser → Call → Prop) (s : Parser) (c : Call) (s' : Parser) :
    Prop :=
  s.Enabled c ∧ P s c ∧ s.call env c = .ok s'

/-- The parsers before their first call. -/
def Parser.start (maxJobs : Nat) (defThread : ThreadSlot) : Parser :=
  ⟨emptyTable maxJobs, defThread, none, ⟨[], none⟩⟩

/-- The table holds the jobs of the ledger, and `td` points to the one that is being described. -/
structure TableOk (maxJobs : Nat) (s : Parser) : Prop where
  live : Live s.table s.ledger.live
  size : s.table.slots.length = maxJobs
  current : ∀ i, s.td = some (.slot i) ↔ s.ledger.current.isSome ∧ i = s.ledger.added.length

theorem tableOk_start (maxJobs : Nat) (d : ThreadSlot) :
    TableOk maxJobs (Parser.start maxJobs d) where
  live := ⟨List.nil_prefix, rfl, fun _ _ h => nomatch h⟩
  size := List.length_replicate
  current := fun _ => ⟨fun h => (nomatch h), fun h => (nomatch h.1)⟩

/-- A job that is being described is the last of the table. -/
theorem TableOk.slot {maxJobs : Nat} {t : JobTable} {d : ThreadSlot} {i : Nat}
    {added : List ThreadSlot} {current : Option ThreadSlot}
    (h : TableOk maxJobs ⟨t, d, some (.slot i), ⟨added, current⟩⟩) :
    i = added.length ∧ ∃ td, current = some td ∧ Live t (added ++ [td]) := by
  obtain ⟨hsome, hi⟩ := (h.current i).mp rfl
  obtain ⟨td, htd⟩ := Option.isSome_iff_exists.mp hsome
  cases htd
  exact ⟨hi, td, rfl, h.live⟩

/-- Without a job to work on, the table holds the jobs that were added. -/
theorem TableOk.idle {maxJobs : Nat} {t : JobTable} {d : ThreadSlot} {p : Option JobPtr}
    {added : List ThreadSlot} {current : Option ThreadSlot}
    (h : TableOk maxJobs ⟨t, d, p, ⟨added, current⟩⟩) (hp : ∀ i, p ≠ some (.slot i)) :
    current = none ∧ Live t added := by
  have hnone : current = none := by
    cases current with
    | none => rfl
    | some td => exact absurd ((h.current _).mpr ⟨rfl, rfl⟩) (hp _)
  have hlive := h.live
  rw [hnone] at hlive
  rw [Ledger.live, Option.toList_none, List.append_nil] at hlive
  exact ⟨hnone, hlive⟩

/-- A table with the jobs `added`, while no job is being described. -/
theorem tableOk_idle {maxJobs : Nat} {t : JobTable} {d : ThreadSlot} {added : List ThreadSlot}
    {p : Option JobPtr} (h : Live t added) (hsize : t.slots.length = maxJobs)
    (hp : ∀ i, p ≠ some (.slot i)) : TableOk maxJobs ⟨t, d, p, ⟨added, none⟩⟩ where
  live := by
    rw [Ledger.live, Option.toList_none, List.append_nil]
    exact h
  size := hsize
  current := fun i => ⟨fun hc => absurd hc (hp i), fun hc => nomatch hc.1⟩

/-- A table with the jobs `added` and the job `td` that is being described. -/
theorem tableOk_busy {maxJobs : Nat} {t : JobTable} {d td : ThreadSlot} {added : List ThreadSlot}
    (h : Live t (added ++ [td])) (hsize : t.slots.length = maxJobs) :
    TableOk maxJobs ⟨t, d, some (.slot added.length), ⟨added, some td⟩⟩ where
  live := h
  size := hsize
  current := fun i => by simp [eq_comm]

/-- `add_job` that does what it is for leaves the jobs of the ledger. -/
theorem AddPost.afterAdd {env : AddEnv} {jobname : String} {groupid ret : Int}
    {added : List ThreadSlot} {td : ThreadSlot} {t : JobTable}
    (h : AddPost env jobname groupid added td ret t) :
    ∃ jobs, (⟨added, some td⟩ : Ledger).afterAdd env jobname groupid ret = ⟨jobs, none⟩ ∧
      Live t jobs := by
  rcases h with ⟨rfl, p, hadd, hlive⟩ | ⟨hret, hlive⟩
  · refine ⟨_, ?_, hlive⟩
    simp only [Ledger.afterAdd, hadd]
  · refine ⟨added, ?_, hlive⟩
    unfold Ledger.afterAdd
    dsimp only
    split
    · exact absurd rfl hret
    · rfl

/-- Every call the parsers make, if its `add_job` does what it is for, has a value and leaves the
table with the jobs of the ledger. -/
theorem TableOk.call {maxJobs : Nat} {env : AddEnv} {s : Parser} {c : Call} (h : TableOk maxJobs s)
    (hmax : maxJobs < 2 ^ 31) (hen : s.Enabled c) (hsound : s.Sound env c) :
    ∃ s', s.call env c = .ok s' ∧ TableOk maxJobs s' := by
  obtain ⟨t, d, p, added, current⟩ := s
  cases c with
  | getNewJob global =>
    have hp : p = none := hen
    subst hp
    obtain ⟨hcur, hlive⟩ := h.idle fun i hi => nomatch hi
    cases hcur
    cases global with
    | true => exact ⟨_, rfl, tableOk_idle hlive h.size fun i hi => nomatch hi⟩
    | false =>
      rcases getNewJob_live hlive d with ⟨-, hnone⟩ | ⟨-, t', hnew, hslots, -, hlive'⟩
      · exact ⟨⟨t, d, none, ⟨added, none⟩⟩, by rw [Parser.call, hnone], h⟩
      · refine ⟨_, by rw [Parser.call, hnew], ?_⟩
        exact tableOk_busy hlive' (hslots.trans h.size)
  | parseOption o =>
    cases p with
    | none => exact absurd rfl hen
    | some ptr =>
      cases ptr with
      | defThread =>
        obtain ⟨hcur, hlive⟩ := h.idle fun i hi => nomatch hi
        cases hcur
        exact ⟨_, rfl, tableOk_idle hlive h.size fun i hi => nomatch hi⟩
      | slot i =>
        obtain ⟨rfl, td, hcur, hlive⟩ := h.slot
        cases hcur
        refine ⟨_, rfl, ?_⟩
        dsimp only
        rw [hlive.getD]
        refine tableOk_busy (hlive.setLast rfl) ?_
        rw [List.length_set]
        exact h.size
  | putJob =>
    cases p with
    | none => exact absurd rfl hen
    | some ptr =>
      cases ptr with
      | defThread =>
        obtain ⟨hcur, hlive⟩ := h.idle fun i hi => nomatch hi
        cases hcur
        exact ⟨_, rfl, tableOk_idle hlive h.size fun i hi => nomatch hi⟩
      | slot i =>
        obtain ⟨rfl, td, hcur, hlive⟩ := h.slot
        cases hcur
        obtain ⟨t', hput, hslots, -, hlive', -⟩ := putJob_live hlive
        refine ⟨⟨t', d, none, ⟨added, none⟩⟩, ?_,
          tableOk_idle hlive' (hslots.trans h.size) fun i hi => nomatch hi⟩
        rw [Parser.call]
        dsimp only
        rw [hput]
        rfl
  | addJob caller jobname =>
    cases p with
    | none => exact absurd rfl hen
    | some ptr =>
      cases ptr with
      | defThread =>
        obtain ⟨hcur, hlive⟩ := h.idle fun i hi => nomatch hi
        cases hcur
        exact ⟨_, rfl, tableOk_idle hlive h.size fun i hi => nomatch hi⟩
      | slot i =>
        obtain ⟨rfl, td, hcur, hlive⟩ := h.slot
        cases hcur
        have hs := hsound _ rfl
        rw [hlive.getD] at hs
        obtain ⟨ret, t', hadd, hslots, hpost⟩ :=
          addJob_live hlive (by rw [h.size]; exact hmax) hs
        obtain ⟨jobs, hjobs, hlive'⟩ := hpost.afterAdd
        refine ⟨⟨t', d, none, ⟨jobs, none⟩⟩, ?_,
          tableOk_idle hlive' (hslots.trans h.size) fun i hi => nomatch hi⟩
        rw [Parser.call]
        dsimp only
        rw [hadd, ok_bind]
        dsimp only
        rw [hjobs]
        rfl

/-- A parser that has read one job section with the settings `o`. -/
def exampleParser (o : JobSettings) : Parser where
  table := ⟨[⟨1, o, []⟩, zeroSlot, zeroSlot], 1, 0⟩
  defThread := ⟨0, defSettings, []⟩
  td := some (.slot 0)
  ledger := ⟨[], some ⟨1, o, []⟩⟩

theorem exampleParser_run (env : AddEnv) (P : Parser → Call → Prop) (o : JobSettings)
    (hget : ∀ s g, P s (.getNewJob g)) (hoption : ∀ s, P s (.parseOption o)) :
    Run (ParserStep env P) (Parser.start 3 ⟨0, defSettings, []⟩) [.getNewJob false, .parseOption o]
      (exampleParser o) := by
  have hfirst : ParserStep env P (Parser.start 3 ⟨0, defSettings, []⟩) (.getNewJob false)
      (exampleParser defSettings) := ⟨rfl, hget _ _, rfl⟩
  have hsecond : ParserStep env P (exampleParser defSettings) (.parseOption o) (exampleParser o) :=
    ⟨nofun, hoption _, rfl⟩
  exact (Run.nil.snoc hfirst).snoc hsecond

/-- An engine can be loaded, and no file exists yet. -/
def exampleEnv : AddEnv := ⟨true, fun _ => none⟩

end Rtfsc.Fio
