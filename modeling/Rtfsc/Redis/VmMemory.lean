import Rtfsc.Redis.VmStep

/-!
# redis: counts, pages and live jobs in every run

The count of an object in memory is the number of its holders, and nothing that has been freed is
used. Among the holders is the rest of the server: the arguments of a blocked client are held by its
`argv` all the time it waits. The pages of the swap file and the jobs are right as long as no thread fails
to write to it.
-/

namespace Rtfsc.Redis.Vm

open Rtfsc.Machine

namespace State

variable {s : State} {pages : Nat} {maxThreads : Int} {es : List Event}

/-- The reasons to stop that a freed object or job gives. -/
def UsesFreed (stop : Stop) : Prop :=
  stop = .badPointer ∨ stop = .freedJob ∨ stop = .refcount ∨ stop = .tooDeep

/-- In every state of every run the count of an object is the number of references to it from the
databases, the jobs, the waiting clients and the rest of the server; the next step does not use what
has been freed; and what is allocated has a holder. -/
theorem run_counted (h : Run Steps (init pages maxThreads) es s) :
    (∀ a o, s.heap a = some (.robj o) →
      o.refcount = (s.dictRefs a + s.jobRefs a + s.waitRefs a + s.held.count a : Nat)) ∧
      (∀ e stop, s.step e = .error stop → ¬ UsesFreed stop) ∧
      ∀ a, s.heap a ≠ none →
        0 < s.dictRefs a + s.jobRefs a + s.waitRefs a + s.held.count a := by
  have hinv := run_inv h
  refine ⟨fun a o ha => ?_, fun e stop he => ?_, fun a ha => ?_⟩
  · have hcount := (hinv.counted.robj ha).1
    rw [hcount, List.count_nil]
    unfold otherRefs
    omega
  · rcases (step_ends hinv (e := e) False.elim).of_error he with rfl | ⟨-, rfl | rfl⟩
    all_goals
      rintro (h | h | h | h)
      all_goals cases h
  · cases hcell : s.heap a with
    | none => exact absurd hcell ha
    | some cell =>
      cases cell with
      | robj o =>
        have hpos := (hinv.counted.robj hcell).2
        rw [List.count_nil] at hpos
        unfold otherRefs at hpos
        omega
      | vmpointer v =>
        have hone := (hinv.counted.pointer hcell).1
        rw [List.count_nil] at hone
        omega

/-- A client is blocked on a key that is being loaded. -/
def blocked : List Event :=
  [.client 0 0, .argument 1 [], .store (0, ['a']) 1, .swapBlocking (0, ['a']) 1 (fun _ => 0) true 2,
    .argument 3 ['a'], .wait 0 3 0 0, .block 0]

theorem run_counted_blocked : ∃ s, Run Steps (init 8 1) blocked s ∧
    (∀ a o, s.heap a = some (.robj o) →
      o.refcount = (s.dictRefs a + s.jobRefs a + s.waitRefs a + s.held.count a : Nat)) ∧
      (∀ e stop, s.step e = .error stop → ¬ UsesFreed stop) ∧
      ∀ a, s.heap a ≠ none →
        0 < s.dictRefs a + s.jobRefs a + s.waitRefs a + s.held.count a := by
  obtain ⟨s, hs, -⟩ := Run.exists_of_foldlM (f := ready) (b := [])
    (show (blocked.foldlM step (init 8 1)).map ready = .ok [] by decide)
  exact ⟨s, hs, run_counted hs⟩

/-- The key a blocked client waits for has one reference more than the databases, the jobs and the
waiting clients account for: the one of the command's arguments. -/
theorem argv_not_counted : ¬ ∀ pages maxThreads es s, Run Steps (init pages maxThreads) es s →
    s.queues.main = .idle → ∀ a o, s.heap a = some (.robj o) →
      o.refcount = (s.dictRefs a + s.jobRefs a + s.waitRefs a : Nat) := by
  intro hall
  let view : State → Main × Option Cell × Nat := fun s =>
    (s.queues.main, s.heap 3, s.dictRefs 3 + s.jobRefs 3 + s.waitRefs 3)
  obtain ⟨s, hs, hview⟩ := Run.exists_of_foldlM (f := view)
    (b := (.idle, some (.robj ⟨4, false, ['a']⟩), 3))
    (show (blocked.foldlM step (init 8 1)).map view = _ by decide)
  have hmain : s.queues.main = .idle := congrArg Prod.fst hview
  have hcell : s.heap 3 = some (.robj ⟨4, false, ['a']⟩) := congrArg (fun v => v.2.1) hview
  have hrefs : s.dictRefs 3 + s.jobRefs 3 + s.waitRefs 3 = 3 := congrArg (fun v => v.2.2) hview
  have hcount := hall 8 1 blocked s hs hmain 3 _ hcell
  rw [hrefs] at hcount
  exact absurd hcount (by decide)

end State

/-!
## The pages of the swap file

As long as no thread fails to write to the swap file, every page in use belongs to one value or to one
job, and no assert can fire. A thread that fails marks its job as cancelled and tells nobody: the
pages of the job are never freed, and the value is being swapped out without a job.
-/

namespace State

variable {s s' : State} {e : Event} {stop : Stop} {a : Addr} {j : JobId} {job : IoJob} {pages : Nat}
  {maxThreads : Int} {es : List Event}

/-- Less is known once a write may have failed. -/
theorem Inv.mono {ok ok' : Prop} {owed : List Addr} (h : s.Inv ok owed) (hok : ok' → ok) :
    s.Inv ok' owed :=
  ⟨h.counted, { h.jobs with undone := fun hok' => h.jobs.undone (hok hok') }, h.waits,
    { h.pages with owned := fun hok' => h.pages.owned (hok hok') }, h.placed⟩

/-! ## No assert fires -/

theorem failedWrite_stops (he : e.FailedWrite s) :
    Ends (fun stop => stop = .badPointer) (fun _ => True) (s.step e) := by
  cases e with
  | ioProcess t val bytes pages written =>
    cases written with
    | true => exact he.elim
    | false =>
      obtain ⟨j, job, ht, hj, htype⟩ := he
      have hprocess : Ends (fun stop => stop = .badPointer) (fun _ => True)
          (s.processJob j val bytes pages false) := by
        unfold processJob
        rw [hj, need_some, value_bind, htype]
        refine Ends.need_bind (fun v _ => ?_) fun _ => rfl
        unfold object
        split
        · exact trivial
        · exact rfl
      rw [step, ht]
      exact hprocess.bind fun _ _ _ => trivial
  | _ => exact he.elim

/-- As long as no write has failed, a step stops only because it cannot be taken now. -/
theorem step_stops (h : s.Inv True []) (hs : s.step e = .error stop) : stop = .disabled := by
  by_cases hfailed : e.FailedWrite s
  · have hbad := (failedWrite_stops hfailed).of_error hs
    rcases (step_ends (h.mono False.elim) (e := e) False.elim).of_error hs with rfl | ⟨-, rfl | rfl⟩
    · rfl
    · cases hbad
    · cases hbad
  · rcases (step_ends h fun _ => hfailed).of_error hs with hstop | ⟨hnot, -⟩
    · exact hstop
    · exact absurd trivial hnot

/-! ## Who owns a page -/

/-- The pages in use are the disjoint union of the pages of the values and of the jobs, and both
counters are right. -/
structure PagesOwned (s : State) : Prop where
  owned : ∀ p, s.owners p = if s.swap.Used p then 1 else 0
  tallied : s.swap.Tallied
  pointers : s.swappedObjects = (total (fun _ v => if (s.pagesOf v).isSome then 1 else 0) s.dict : Nat)

/-- In every state of every run without a failed write every page in use has one owner, and no assert
on a page fires in the next step. -/
theorem run_pages (h : Run StepsWritten (init pages maxThreads) es s) :
    s.PagesOwned ∧ ∀ e, s.step e ≠ .error .pageInUse ∧ s.step e ≠ .error .pageNotInUse := by
  have hinv := writtenRun_inv h
  refine ⟨⟨hinv.pages.owned trivial, hinv.pages.tallied, hinv.pages.pointers⟩, fun e => ?_⟩
  exact ⟨fun he => (nomatch step_stops hinv he), fun he => (nomatch step_stops hinv he)⟩

/-- A value is swapped out by a thread and loaded again by a lookup. -/
def swappedOut : List Event :=
  [.argument 1 [], .store (0, ['a']) 1, .swapThreaded (0, ['a']) 2 0 0,
    .ioTake 0, .ioProcess 0 0 [] 1 true, .ioAppend 0, .ioSignal 0,
    .wake, .take, .complete true (fun _ => 0) 1 0,
    .ioTake 0, .ioProcess 0 0 [] 1 true, .ioAppend 0, .ioSignal 0,
    .wake, .take, .complete true (fun _ => 0) 1 3]

/-- No event of the run is a write that fails. -/
theorem swappedOut_written : ∀ e ∈ swappedOut, ∀ s, ¬ e.FailedWrite s := by
  intro e he s hfailed
  cases e with
  | ioProcess t val bytes pages written =>
    cases written with
    | true => exact hfailed
    | false => simp [swappedOut] at he
  | _ => exact hfailed

theorem run_pages_swappedOut : ∃ s, Run StepsWritten (init 8 1) swappedOut s ∧ s.swap.Used 0 ∧
    s.PagesOwned ∧ ∀ e, s.step e ≠ .error .pageInUse ∧ s.step e ≠ .error .pageNotInUse := by
  let view : State → Bool := fun s => decide (s.swap.Used 0)
  obtain ⟨s, hs, hused⟩ := Run.exists_of_foldlM (f := view) (b := true)
    (show (swappedOut.foldlM step (init 8 1)).map view = .ok true by decide)
  have hwritten := hs.and (P := fun s e => ¬ e.FailedWrite s) swappedOut_written
  exact ⟨s, hwritten, of_decide_eq_true hused, run_pages hwritten⟩

/-- A write that fails: the thread cancels the job, which keeps its page until it is freed. -/
def writeFails : List Event :=
  [.argument 1 [], .store (0, ['a']) 1, .swapThreaded (0, ['a']) 2 0 0,
    .ioTake 0, .ioProcess 0 0 [] 1 true, .ioAppend 0, .ioSignal 0,
    .wake, .take, .complete true (fun _ => 0) 1 0,
    .ioTake 0, .ioProcess 0 0 [] 1 false, .ioAppend 0, .ioSignal 0,
    .wake, .take, .complete true (fun _ => 0) 1 3]

/-- After the job has been freed its page is in use and belongs to nobody. -/
theorem writeFails_leaks : ¬ ∀ pages maxThreads es s, Run Steps (init pages maxThreads) es s →
    s.PagesOwned ∧ ∀ e, s.step e ≠ .error .pageInUse ∧ s.step e ≠ .error .pageNotInUse := by
  intro hall
  let view : State → Nat × Bool × Main := fun s =>
    (s.owners 0, decide (s.swap.Used 0), s.queues.main)
  obtain ⟨s, hs, hview⟩ := Run.exists_of_foldlM (f := view) (b := (0, true, .idle))
    (show (writeFails.foldlM step (init 8 1)).map view = _ by decide)
  have howners : s.owners 0 = 0 := congrArg Prod.fst hview
  have hused : s.swap.Used 0 := of_decide_eq_true (congrArg (fun v => v.2.1) hview)
  have howned := (hall 8 1 writeFails s hs).1.owned 0
  rw [howners, if_pos hused] at howned
  cases howned

end State

/-!
## One live job for a value

As long as no thread fails to write to the swap file, a value that is being loaded or swapped out has
exactly one job that is not cancelled, and a value that is not has none.
-/

namespace State

variable {s : State} {a : Addr} {j : JobId} {job : IoJob} {owed : List Addr} {pages : Nat}
  {maxThreads : Int} {es : List Event}

/-- Whether the job is about the value and not cancelled. -/
def IsLive (s : State) (a : Addr) (j : JobId) : Bool :=
  match s.jobs.lookup j with
  | some job => !job.canceled && decide (job.id = a)
  | none => false

/-- The number of jobs about the value that are in `io_newjobs`, `io_processing` or `io_processed`, or
in the main thread's hand while it completes one, and not cancelled. -/
def liveJobs (s : State) (a : Addr) : Nat := s.queues.placed.countP (s.IsLive a)

/-- `storage` is `REDIS_VM_LOADING` or `REDIS_VM_SWAPPING`. -/
def Busy (s : State) (a : Addr) : Prop := s.isLoading a = true ∨ s.isSwapping a = true

instance (s : State) (a : Addr) : Decidable (s.Busy a) := inferInstanceAs (Decidable (_ ∨ _))

/-- The number of swap-out jobs of a value that are not cancelled. -/
def liveSwapJobs (s : State) (a : Addr) : Nat :=
  total (fun _ job => if job.type ≠ .load ∧ job.canceled = false ∧ job.id = a then 1 else 0) s.jobs

/-- Without a failed write a swap-out job of a value being swapped out is not cancelled. -/
theorem liveSwapJobs_eq (h : s.JobShape True) (a : Addr) :
    s.liveSwapJobs a = if s.isSwapping a = true then 1 else 0 := by
  split
  · next hsw =>
    rw [← (h.swapping a hsw).2.2]
    refine total_congr fun j job hj => if_congr ⟨?_, ?_⟩ rfl rfl
    · rintro ⟨htype, hlive, hid⟩
      refine ⟨htype, ?_⟩
      rw [(h.dict_swapping hj hlive htype).1, hid]
    · rintro ⟨htype, hval⟩
      have hlive : job.canceled = false := by
        by_contra hcan
        have hnot := h.undone trivial j job hj htype (Bool.eq_true_of_not_eq_false hcan) a hval
        rw [hsw] at hnot
        cases hnot
      refine ⟨htype, hlive, ?_⟩
      have hid := (h.dict_swapping hj hlive htype).1
      rw [hval] at hid
      exact (Option.some.inj hid).symm
  · next hnot =>
    refine total_eq_zero.mpr fun j job hj => if_neg ?_
    rintro ⟨htype, hlive, rfl⟩
    exact hnot (h.dict_swapping hj hlive htype).2

/-- Live jobs load or swap out. -/
theorem liveJobs_eq_add (h : s.Inv True owed) (a : Addr) :
    s.liveJobs a = s.loadJobs a + s.liveSwapJobs a := by
  unfold liveJobs loadJobs liveSwapJobs
  rw [h.placed.jobs.countP_eq, countP_keys, ← total_add]
  refine total_congr fun j job hj => ?_
  unfold IsLive
  rw [hj]
  cases htype : job.type with
  | load => simp
  | prepareSwap => simp
  | doSwap => simp

/-- The jobs that are not cancelled are those of the values that are being moved. -/
theorem Inv.liveJobs (h : s.Inv True owed) (a : Addr) :
    s.liveJobs a = if s.Busy a then 1 else 0 := by
  rw [liveJobs_eq_add h, h.jobs.loading, liveSwapJobs_eq h.jobs]
  by_cases hsw : s.isSwapping a = true
  · rw [if_neg (by rw [isLoading_of_swapping hsw]; exact nofun), if_pos hsw,
      if_pos (show s.Busy a from .inr hsw)]
  · rw [if_neg hsw, Nat.add_zero]
    refine if_congr ?_ rfl rfl
    exact ⟨.inl, fun hbusy => hbusy.resolve_right hsw⟩

/-- One live job for a value that is being moved, none for any other, and the job's key is the value's
key. -/
structure OneLiveJob (s : State) : Prop where
  one : ∀ a, s.liveJobs a = if s.Busy a then 1 else 0
  entry : ∀ j ∈ s.queues.placed, ∀ job, s.jobs.lookup j = some job → job.canceled = false →
    ∃ k, s.bytesOf job.key = some k ∧ s.dict.lookup (job.db, k) = some job.id

/-- In every state of every run without a failed write a value that is being moved has one live job,
and no assert about jobs and storages fires in the next step. -/
theorem run_live (h : Run StepsWritten (init pages maxThreads) es s) :
    s.OneLiveJob ∧ ∀ e, s.step e ≠ .error .jobNotFound ∧ s.step e ≠ .error .noEntry ∧
      s.step e ≠ .error .notSwapping := by
  have hinv := writtenRun_inv h
  refine ⟨⟨hinv.liveJobs, fun j _ job hj hlive => ?_⟩, fun e => ?_⟩
  · obtain ⟨k, hk, hentry, -⟩ := hinv.jobs.linked j job hj hlive
    exact ⟨k, hk, hentry⟩
  · refine ⟨fun he => ?_, fun he => ?_, fun he => ?_⟩
    all_goals exact nomatch step_stops hinv he

/-- A value is about to be written by a thread, and another is being loaded for a client. -/
def twoJobs : List Event :=
  [.client 0 0, .argument 1 [], .store (0, ['a']) 1, .swapBlocking (0, ['a']) 1 (fun _ => 0) true 2,
    .argument 3 ['a'], .wait 0 3 0 0, .argument 4 [], .store (0, ['b']) 4,
    .swapThreaded (0, ['b']) 5 1 1, .ioTake 0, .ioTake 1, .ioProcess 1 0 [] 1 true]

theorem twoJobs_written : ∀ e ∈ twoJobs, ∀ s, ¬ e.FailedWrite s := by
  intro e he s hfailed
  cases e with
  | ioProcess t val bytes pages written =>
    cases written with
    | true => exact hfailed
    | false => simp [twoJobs] at he
  | _ => exact hfailed

theorem run_live_twoJobs : ∃ s, Run StepsWritten (init 8 2) twoJobs s ∧
    (s.liveJobs 2 = 1 ∧ s.liveJobs 4 = 1) ∧ s.OneLiveJob ∧
      ∀ e, s.step e ≠ .error .jobNotFound ∧ s.step e ≠ .error .noEntry ∧
        s.step e ≠ .error .notSwapping := by
  let view : State → Nat × Nat := fun s => (s.liveJobs 2, s.liveJobs 4)
  obtain ⟨s, hs, hlive⟩ := Run.exists_of_foldlM (f := view) (b := (1, 1))
    (show (twoJobs.foldlM step (init 8 2)).map view = _ by decide)
  have hwritten := hs.and (P := fun s e => ¬ e.FailedWrite s) twoJobs_written
  exact ⟨s, hwritten, Prod.mk.inj hlive, run_live hwritten⟩

/-- A write has failed and the thread still has the job. -/
def justFailed : List Event :=
  [.argument 1 [], .store (0, ['a']) 1, .swapThreaded (0, ['a']) 2 0 0,
    .ioTake 0, .ioProcess 0 0 [] 1 true, .ioAppend 0, .ioSignal 0,
    .wake, .take, .complete true (fun _ => 0) 1 0, .ioTake 0, .ioProcess 0 0 [] 1 false]

/-- The value is being swapped out and has no live job, and the assert of `vmCancelThreadedIOJob` fires
when the key is deleted. -/
theorem justFailed_stuck : ∃ s, Run Steps (init 8 1) justFailed s ∧ ¬ s.OneLiveJob ∧
    s.step (.delete (0, ['a'])) = .error .jobNotFound := by
  let view : State → Nat × Bool × Option Stop := fun s =>
    (s.liveJobs 1, decide (s.Busy 1), match s.step (.delete (0, ['a'])) with
      | .ok _ => none
      | .error stop => some stop)
  obtain ⟨s, hs, hview⟩ := Run.exists_of_foldlM (f := view) (b := (0, true, some .jobNotFound))
    (show (justFailed.foldlM step (init 8 1)).map view = _ by decide)
  have hnone : s.liveJobs 1 = 0 := congrArg Prod.fst hview
  have hbusy : s.Busy 1 := of_decide_eq_true (congrArg (fun v => v.2.1) hview)
  have hstop := congrArg (fun v => v.2.2) hview
  refine ⟨s, hs, fun hone => ?_, ?_⟩
  · have hlive := hone.one 1
    rw [hnone, if_pos hbusy] at hlive
    cases hlive
  · dsimp only [view] at hstop
    split at hstop
    · cases hstop
    · next stop hstep =>
      rw [hstep, Option.some.inj hstop]

end State

end Rtfsc.Redis.Vm
