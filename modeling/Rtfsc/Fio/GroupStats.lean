import Rtfsc.Fio.Types
import Rtfsc.Machine.Samples
import Mathlib.Data.List.Perm.Basic
import Mathlib.Logic.Function.Basic

/-!
# fio: group statistics

`show_run_stats` goes over the jobs once. The smallest runtime starts at the largest number and is also
taken for unset where it is zero: what comes after a job without a runtime replaces its zero.
-/

namespace Rtfsc.Fio

open Rtfsc.Machine

/-- `~0UL`, which is also the largest number that a member holds. -/
def wordMax : Nat := 2 ^ 64 - 1

/-- What `show_run_stats` reads of a job. -/
structure FinishedJob where
  groupid : Nat
  error : Int
  runtime : DataDdir → Nat
  ioBytes : DataDdir → Nat
  runtime_le : ∀ d, runtime d ≤ wordMax
  ioBytes_le : ∀ d, ioBytes d ≤ wordMax

/-- `struct group_run_stats`, in one direction. -/
@[ext]
structure GroupRunStats where
  maxRun : Nat
  minRun : Nat
  maxBw : Nat
  minBw : Nat
  ioKb : Nat
  agg : Nat

/-- The statistics before the first job. -/
def GroupRunStats.init : GroupRunStats := ⟨0, wordMax, 0, wordMax, 0, 0⟩

/-- The bandwidth of a job. -/
def bandwidth (runtime ioBytes : Nat) : Nat := if runtime ≠ 0 then ioBytes / runtime else 0

/-- The smallest runtime, where zero is taken for unset. -/
def keepMin (m runtime : Nat) : Nat := if runtime < m ∨ m = 0 then runtime else m

/-- The loop over the jobs, for one of them and one direction. -/
def GroupRunStats.account (rs : GroupRunStats) (runtime ioBytes : Nat) : GroupRunStats where
  maxRun := runningMax rs.maxRun runtime
  minRun := keepMin rs.minRun runtime
  maxBw := runningMax rs.maxBw (bandwidth runtime ioBytes)
  minBw := runningMin rs.minBw (bandwidth runtime ioBytes)
  ioKb := (rs.ioKb + ioBytes / 1024) % (wordMax + 1)
  agg := rs.agg

/-- The loop over the groups. -/
def GroupRunStats.aggregate (rs : GroupRunStats) : GroupRunStats :=
  { rs with agg :=
      if rs.maxRun ≠ 0 then rs.ioKb * 1024 % (wordMax + 1) / rs.maxRun else rs.agg }

/-- `runstats`, by group and direction. -/
abbrev RunStats := Nat → DataDdir → GroupRunStats

/-- One turn of the loop over the jobs. -/
def RunStats.job (runstats : RunStats) (job : FinishedJob) : RunStats :=
  if job.error ≠ 0 then runstats
  else Function.update runstats job.groupid fun d =>
    (runstats job.groupid d).account (job.runtime d) (job.ioBytes d)

/-- `show_run_stats`, up to the output. -/
def showRunStats (jobs : List FinishedJob) : RunStats := fun group d =>
  (jobs.foldl RunStats.job (fun _ _ => GroupRunStats.init) group d).aggregate

/-! ## One group -/

variable {jobs jobs' : List FinishedJob} {group : Nat} {d : DataDdir}

/-- The jobs of a group that have no error. -/
def finished (jobs : List FinishedJob) (group : Nat) : List FinishedJob :=
  jobs.filter fun job => job.error = 0 ∧ job.groupid = group

theorem finished_perm (h : jobs.Perm jobs') (group : Nat) :
    (finished jobs group).Perm (finished jobs' group) :=
  h.filter _

theorem foldl_job (runstats : RunStats) (jobs : List FinishedJob) (group : Nat) (d : DataDdir) :
    jobs.foldl RunStats.job runstats group d =
      (finished jobs group).foldl (fun rs job => rs.account (job.runtime d) (job.ioBytes d))
        (runstats group d) := by
  induction jobs generalizing runstats with
  | nil => rfl
  | cons job jobs ih =>
    rw [List.foldl_cons, ih, finished, finished, List.filter_cons, RunStats.job]
    by_cases herror : job.error = 0
    · rw [if_neg (not_not.mpr herror)]
      by_cases hgroup : job.groupid = group
      · rw [if_pos (decide_eq_true ⟨herror, hgroup⟩), List.foldl_cons, ← hgroup, Function.update_self]
      · have hskip : ¬decide (job.error = 0 ∧ job.groupid = group) = true := by simp [hgroup]
        rw [if_neg hskip, Function.update_of_ne (Ne.symm hgroup)]
    · have hskip : ¬decide (job.error = 0 ∧ job.groupid = group) = true := by simp [herror]
      rw [if_pos herror, if_neg hskip]

/-- A member that every job updates on its own. -/
theorem showRunStats_member (f : GroupRunStats → Nat) (op : Nat → Nat → Nat)
    (value : FinishedJob → Nat) (jobs : List FinishedJob) (group : Nat) (d : DataDdir)
    (hop : ∀ rs (job : FinishedJob), f (rs.account (job.runtime d) (job.ioBytes d)) =
      op (f rs) (value job)) (hagg : ∀ rs, f rs.aggregate = f rs) :
    f (showRunStats jobs group d) =
      ((finished jobs group).map value).foldl op (f .init) := by
  rw [showRunStats, hagg, foldl_job, List.foldl_map]
  exact (List.foldl_hom f fun rs job => (hop rs job).symm).symm

theorem showRunStats_maxRun (jobs : List FinishedJob) (group : Nat) (d : DataDdir) :
    (showRunStats jobs group d).maxRun =
      ((finished jobs group).map fun job => job.runtime d).foldl runningMax 0 :=
  showRunStats_member (·.maxRun) runningMax _ jobs group d (fun _ _ => rfl) fun _ => rfl

theorem showRunStats_minRun (jobs : List FinishedJob) (group : Nat) (d : DataDdir) :
    (showRunStats jobs group d).minRun =
      ((finished jobs group).map fun job => job.runtime d).foldl keepMin wordMax :=
  showRunStats_member (·.minRun) keepMin _ jobs group d (fun _ _ => rfl) fun _ => rfl

theorem showRunStats_maxBw (jobs : List FinishedJob) (group : Nat) (d : DataDdir) :
    (showRunStats jobs group d).maxBw = ((finished jobs group).map fun job =>
      bandwidth (job.runtime d) (job.ioBytes d)).foldl runningMax 0 :=
  showRunStats_member (·.maxBw) runningMax _ jobs group d (fun _ _ => rfl) fun _ => rfl

theorem showRunStats_minBw (jobs : List FinishedJob) (group : Nat) (d : DataDdir) :
    (showRunStats jobs group d).minBw = ((finished jobs group).map fun job =>
      bandwidth (job.runtime d) (job.ioBytes d)).foldl runningMin wordMax :=
  showRunStats_member (·.minBw) runningMin _ jobs group d (fun _ _ => rfl) fun _ => rfl

theorem showRunStats_ioKb (jobs : List FinishedJob) (group : Nat) (d : DataDdir) :
    (showRunStats jobs group d).ioKb = ((finished jobs group).map fun job => job.ioBytes d).foldl
      (fun kb bytes => (kb + bytes / 1024) % (wordMax + 1)) 0 :=
  showRunStats_member (·.ioKb) (fun kb bytes => (kb + bytes / 1024) % (wordMax + 1)) _ jobs group d
    (fun _ _ => rfl) fun _ => rfl

/-! ## The smallest runtime -/

theorem wordMax_pos : 0 < wordMax := by
  decide

theorem keepMin_eq {m x : Nat} (hm : m ≠ 0) : keepMin m x = runningMin m x := by
  simp [keepMin, runningMin, hm]

/-- Without a zero the test for unset makes no difference. -/
theorem foldl_keepMin {m : Nat} {xs : List Nat} (hm : m ≠ 0) (hxs : ∀ x ∈ xs, x ≠ 0) :
    xs.foldl keepMin m = xs.foldl runningMin m := by
  induction xs generalizing m with
  | nil => rfl
  | cons x xs ih =>
    rw [List.foldl_cons, List.foldl_cons, keepMin_eq hm]
    refine ih ?_ fun y hy => hxs y (.tail _ hy)
    unfold runningMin
    split
    · exact hxs x List.mem_cons_self
    · exact hm

/-- It is zero after a zero only. -/
theorem keepMin_eq_zero (m x : Nat) : keepMin m x = 0 ↔ x = 0 := by
  unfold keepMin
  split <;> omega

/-- The fold finds the smallest one where there is no zero, or a zero comes last. -/
theorem foldl_keepMin_isLeast {xs : List Nat} (hne : xs ≠ []) (htop : ∀ x ∈ xs, x ≤ wordMax) :
    IsLeast {x | x ∈ xs} (xs.foldl keepMin wordMax) ↔
      (∀ x ∈ xs, x ≠ 0) ∨ xs.getLast? = some 0 := by
  have hlast : xs.foldl keepMin wordMax = 0 ↔ xs.getLast? = some 0 := by
    rcases List.eq_nil_or_concat xs with rfl | ⟨ys, y, rfl⟩
    · exact absurd rfl hne
    · rw [List.concat_eq_append, List.foldl_append, List.getLast?_concat, Option.some_inj]
      exact keepMin_eq_zero _ y
  constructor
  · rintro ⟨-, hle⟩
    by_cases hzero : 0 ∈ xs
    · exact .inr (hlast.mp (Nat.le_zero.mp (hle hzero)))
    · exact .inl fun x hx heq => hzero (heq ▸ hx)
  · rintro (hnone | hzero)
    · rw [foldl_keepMin wordMax_pos.ne' hnone]
      exact isLeast_foldl hne htop
    · rw [hlast.mpr hzero]
      exact ⟨List.mem_of_getLast? hzero, fun x _ => Nat.zero_le x⟩

/-! ## What is shown -/

/-- The four members are the extremes over the jobs of the group that have no error. -/
structure Extremes (jobs : List FinishedJob) (group : Nat) (d : DataDdir) (rs : GroupRunStats) :
    Prop where
  maxRun : IsGreatest {x | x ∈ (finished jobs group).map fun job => job.runtime d} rs.maxRun
  minRun : IsLeast {x | x ∈ (finished jobs group).map fun job => job.runtime d} rs.minRun
  maxBw : IsGreatest {x | x ∈ (finished jobs group).map fun job =>
    bandwidth (job.runtime d) (job.ioBytes d)} rs.maxBw
  minBw : IsLeast {x | x ∈ (finished jobs group).map fun job =>
    bandwidth (job.runtime d) (job.ioBytes d)} rs.minBw

theorem bandwidth_le (job : FinishedJob) (d : DataDdir) :
    bandwidth (job.runtime d) (job.ioBytes d) ≤ wordMax := by
  unfold bandwidth
  split
  · exact (Nat.div_le_self _ _).trans (job.ioBytes_le d)
  · exact Nat.zero_le _

/-- The members of one group are right where none of its jobs has no runtime, or the last one. -/
theorem showRunStats_extremes (hne : finished jobs group ≠ []) :
    Extremes jobs group d (showRunStats jobs group d) ↔
      (∀ job ∈ finished jobs group, job.runtime d ≠ 0) ∨
        ∃ job, (finished jobs group).getLast? = some job ∧ job.runtime d = 0 := by
  have hmap {f : FinishedJob → Nat} : (finished jobs group).map f ≠ [] :=
    fun h => hne (List.map_eq_nil_iff.mp h)
  have hleast := foldl_keepMin_isLeast (hmap (f := fun job => job.runtime d))
    (List.forall_mem_map.mpr fun job _ => job.runtime_le d)
  rw [← showRunStats_minRun, List.forall_mem_map, List.getLast?_map, Option.map_eq_some_iff] at hleast
  rw [← hleast]
  constructor
  · exact fun h => h.minRun
  · intro hmin
    refine ⟨?_, hmin, ?_, ?_⟩
    · rw [showRunStats_maxRun]
      exact isGreatest_foldl hmap fun x _ => Nat.zero_le x
    · rw [showRunStats_maxBw]
      exact isGreatest_foldl hmap fun x _ => Nat.zero_le x
    · rw [showRunStats_minBw]
      exact isLeast_foldl hmap (List.forall_mem_map.mpr fun job _ => bandwidth_le job d)

/-- The extremes are those of any other order of the jobs. -/
theorem Extremes.perm {rs : GroupRunStats} (h : jobs.Perm jobs') (he : Extremes jobs group d rs) :
    Extremes jobs' group d rs := by
  have hset (f : FinishedJob → Nat) :
      {x | x ∈ (finished jobs group).map f} = {x | x ∈ (finished jobs' group).map f} :=
    Set.ext fun x => ((finished_perm h group).map f).mem_iff
  exact ⟨hset _ ▸ he.maxRun, hset _ ▸ he.minRun, hset _ ▸ he.maxBw, hset _ ▸ he.minBw⟩

/-! ## The order of the jobs -/

theorem showRunStats_agg (jobs : List FinishedJob) (group : Nat) (d : DataDdir) :
    (showRunStats jobs group d).agg =
      if (showRunStats jobs group d).maxRun ≠ 0 then
        (showRunStats jobs group d).ioKb * 1024 % (wordMax + 1) / (showRunStats jobs group d).maxRun
      else 0 := by
  have hagg (rs : GroupRunStats) (jobs : List FinishedJob) :
      (jobs.foldl (fun rs job => rs.account (job.runtime d) (job.ioBytes d)) rs).agg = rs.agg := by
    induction jobs generalizing rs with
    | nil => rfl
    | cons job jobs ih => exact ih _
  unfold showRunStats
  rw [foldl_job]
  unfold GroupRunStats.aggregate
  dsimp only
  rw [hagg]
  rfl

theorem showRunStats_ioKb_perm (h : jobs.Perm jobs') (group : Nat) (d : DataDdir) :
    (showRunStats jobs group d).ioKb = (showRunStats jobs' group d).ioKb := by
  rw [showRunStats_ioKb, showRunStats_ioKb]
  refine ((finished_perm h group).map _).foldl_eq' (fun x _ y _ kb => ?_) 0
  rw [Nat.mod_add_mod, Nat.mod_add_mod, Nat.add_right_comm]

/-- Where the extremes are right in both orders, both orders show the same. -/
theorem showRunStats_eq_of_extremes (h : jobs.Perm jobs')
    (he : Extremes jobs group d (showRunStats jobs group d))
    (he' : Extremes jobs' group d (showRunStats jobs' group d)) :
    showRunStats jobs' group d = showRunStats jobs group d := by
  have hsame := he.perm h
  have hmaxRun := he'.maxRun.unique hsame.maxRun
  have hioKb := (showRunStats_ioKb_perm h group d).symm
  ext
  · exact hmaxRun
  · exact he'.minRun.unique hsame.minRun
  · exact he'.maxBw.unique hsame.maxBw
  · exact he'.minBw.unique hsame.minBw
  · exact hioKb
  · rw [showRunStats_agg, showRunStats_agg, hmaxRun, hioKb]

theorem showRunStats_empty (hempty : finished jobs group = []) :
    showRunStats jobs group d = GroupRunStats.init.aggregate := by
  rw [showRunStats, foldl_job, hempty, List.foldl_nil]

/-- Any job of a group can be the last one. -/
theorem exists_perm_last {job : FinishedJob} (hjob : job ∈ finished jobs group) :
    ∃ jobs', jobs.Perm jobs' ∧ (finished jobs' group).getLast? = some job := by
  obtain ⟨hmem, hgroup⟩ := List.mem_filter.mp hjob
  obtain ⟨front, back, rfl⟩ := List.append_of_mem hmem
  refine ⟨front ++ back ++ [job], ?_, ?_⟩
  · rw [List.append_assoc]
    exact (List.perm_append_singleton job back).symm.append_left front
  · have hlast : finished [job] group = [job] := List.filter_eq_self.mpr (by simpa using hgroup)
    rw [finished, List.filter_append, ← finished, ← finished, hlast]
    exact List.getLast?_concat

/-- Every group and direction has either no job without a runtime, or no job with one. -/
def Uniform (jobs : List FinishedJob) : Prop :=
  ∀ group d, (∀ job ∈ finished jobs group, job.runtime d ≠ 0) ∨
    ∀ job ∈ finished jobs group, job.runtime d = 0

theorem Uniform.perm (h : jobs.Perm jobs') (hu : Uniform jobs) : Uniform jobs' := by
  intro group d
  have hmem (job) : job ∈ finished jobs' group ↔ job ∈ finished jobs group :=
    (finished_perm h group).mem_iff.symm
  simp only [hmem]
  exact hu group d

theorem Uniform.extremes (hu : Uniform jobs) (hne : finished jobs group ≠ []) :
    Extremes jobs group d (showRunStats jobs group d) := by
  rw [showRunStats_extremes hne]
  rcases hu group d with hnone | hall
  · exact .inl hnone
  · have hlast := List.getLast?_eq_some_getLast hne
    exact .inr ⟨_, hlast, hall _ (List.getLast_mem hne)⟩

/-- The extremes are right in the given order where in every group and direction no job has no runtime,
or the last one has none. They are right, and the same in every order, where all jobs of a group have a
runtime in a direction, or none has. -/
theorem showRunStats_exact (jobs : List FinishedJob) :
    ((∀ group d, finished jobs group ≠ [] → Extremes jobs group d (showRunStats jobs group d)) ↔
      ∀ group d, (∀ job ∈ finished jobs group, job.runtime d ≠ 0) ∨
        ∃ job, (finished jobs group).getLast? = some job ∧ job.runtime d = 0) ∧
    ((∀ group d, finished jobs group ≠ [] → Extremes jobs group d (showRunStats jobs group d)) ∧
        (∀ jobs', jobs.Perm jobs' → showRunStats jobs' = showRunStats jobs) ↔
      Uniform jobs) := by
  constructor
  · constructor
    · intro hall group d
      by_cases hne : finished jobs group = []
      · exact .inl (by simp [hne])
      · exact (showRunStats_extremes hne).mp (hall group d hne)
    · intro hall group d hne
      exact (showRunStats_extremes hne).mpr (hall group d)
  · constructor
    · rintro ⟨hall, hperm⟩ group d
      by_contra hmixed
      simp only [not_or, not_forall] at hmixed
      obtain ⟨⟨zero, hzero, hruntime⟩, ⟨last, hmem, hlast⟩⟩ := hmixed
      -- with a job that has a runtime at the end, the zero is lost
      obtain ⟨jobs', h, hgetLast⟩ := exists_perm_last hmem
      have hne' : finished jobs' group ≠ [] := by
        intro hempty
        rw [hempty] at hgetLast
        cases hgetLast
      have he := (hall group d (List.ne_nil_of_mem hmem)).perm h
      rw [← hperm jobs' h, showRunStats_extremes hne'] at he
      rcases he with hnone | ⟨job, hjob, hzero'⟩
      · exact hruntime (hnone zero ((finished_perm h group).mem_iff.mp hzero))
      · rw [hgetLast] at hjob
        cases hjob
        exact hlast hzero'
    · intro hu
      refine ⟨fun group d hne => hu.extremes hne, fun jobs' h => funext fun group => funext fun d => ?_⟩
      by_cases hempty : finished jobs group = []
      · have hempty' : finished jobs' group = [] := by
          have hnil := finished_perm h group
          rw [hempty] at hnil
          exact hnil.nil_eq.symm
        rw [showRunStats_empty hempty, showRunStats_empty hempty']
      · have hne' : finished jobs' group ≠ [] := fun hnil => hempty (by
          have hperm := finished_perm h group
          rw [hnil] at hperm
          exact hperm.eq_nil)
        exact showRunStats_eq_of_extremes h (hu.extremes hempty) ((hu.perm h).extremes hne')

/-- A job that only writes, for five milliseconds. -/
def onlyWrites : FinishedJob where
  groupid := 0
  error := 0
  runtime d := if d = .write then 5 else 0
  ioBytes _ := 4096
  runtime_le := fun d => by cases d <;> decide
  ioBytes_le := fun _ => by decide

/-- A job that only reads, for five milliseconds. -/
def onlyReads : FinishedJob where
  groupid := 0
  error := 0
  runtime d := if d = .read then 5 else 0
  ioBytes _ := 4096
  runtime_le := fun d => by cases d <;> decide
  ioBytes_le := fun _ => by decide

/-- The smallest runtime in the read direction is five, and not the zero of the job that only writes. -/
theorem showRunStats_unset : ¬∀ jobs group d, finished jobs group ≠ [] →
    Extremes jobs group d (showRunStats jobs group d) := by
  intro hall
  have hmin := (hall [onlyWrites, onlyReads] 0 .read (List.cons_ne_nil _ _)).minRun.2
    (show (0 : Nat) ∈ [0, 5] by decide)
  exact absurd hmin (by decide)

end Rtfsc.Fio
