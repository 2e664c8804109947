import Rtfsc.Machine.Run
import Mathlib.Data.List.Basic
import Mathlib.Logic.Function.Basic

/-!
# Waiting for an event

Any number of threads in `wait_event` and any number that make the condition true and call `wake_up`,
one access at a time: the sections of `q->lock`, the sections of `pi_lock` inside `__wake_up`, and the
single reads and writes of the condition and of a task's state.
-/

namespace Rtfsc.Linux

open Rtfsc.Machine

/-- `p->state`. -/
inductive TaskState
  | running
  | uninterruptible
  | waking
deriving DecidableEq

/-- Where a waiter is: outside of `wait_event`, at its first check, in front of
`prepare_to_wait_event`, at the check behind it, in `schedule`, or in `finish_wait`: before the state is
set, before the list is looked at, and before the entry is removed. -/
inductive WaiterPc
  | outside
  | firstCheck
  | prepare
  | check
  | schedule
  | finish
  | finishEmpty
  | finishRemove
deriving DecidableEq

/-- A waiter: its task, and whether the task is on a run queue. -/
structure Waiter where
  pc : WaiterPc
  state : TaskState
  onRq : Bool
deriving DecidableEq

/-- Where a thread is that makes the condition true: it has nothing to do, it has made it true and has
not entered `__wake_up`, or it has `q->lock` and the entries that it has still to call. -/
inductive WakerPc
  | idle
  | mustWake
  | waking (rest : List Nat)
deriving DecidableEq

/-- The condition, the queue with its lock, and the threads. -/
structure EventState where
  condition : Bool
  taskList : List Nat
  lock : Option Nat
  waiter : Nat → Waiter
  waker : Nat → WakerPc

namespace EventState

/-- Before the first call. -/
def new (condition : Bool) : EventState :=
  ⟨condition, [], none, fun _ => ⟨.outside, .running, true⟩, fun _ => .idle⟩

/-- The state with another waiter `i`. -/
def setWaiter (s : EventState) (i : Nat) (w : Waiter) : EventState :=
  { s with waiter := Function.update s.waiter i w }

/-- Waiter `i` goes on at `pc`. -/
def goto (s : EventState) (i : Nat) (pc : WaiterPc) : EventState :=
  s.setWaiter i { s.waiter i with pc := pc }

/-- The state with another control point of waker `j`. -/
def setWaker (s : EventState) (j : Nat) (pc : WakerPc) : EventState :=
  { s with waker := Function.update s.waker j pc }

/-- `prepare_to_wait_event` of an entry that is not exclusive; no signal is pending for a state of
`TASK_UNINTERRUPTIBLE`. -/
def prepareToWaitEvent (s : EventState) (i : Nat) : EventState :=
  { s with taskList := if i ∈ s.taskList then s.taskList else i :: s.taskList }.setWaiter i
    { s.waiter i with pc := .check, state := .uninterruptible }

/-- `try_to_wake_up` with `TASK_NORMAL`: a task that is still on its run queue runs on, another one is
given to a run queue. -/
def tryToWakeUp (s : EventState) (i : Nat) : EventState :=
  if (s.waiter i).state = .uninterruptible then
    s.setWaiter i { s.waiter i with
      state := if (s.waiter i).onRq then .running else .waking }
  else s

end EventState

/-- One access of a thread. -/
inductive WaitEventStep
  | waiter (i : Nat)
  | activated (i : Nat)
  | waker (j : Nat)
  | makeTrue (j : Nat)
  | makeFalse
deriving DecidableEq

namespace EventState

/-- The next access of a waiter. A task that enters `schedule` with another state than
`TASK_UNINTERRUPTIBLE` stays on its run queue; `schedule` returns to a running one. -/
def waiterStep (s : EventState) (i : Nat) : Option EventState :=
  match (s.waiter i).pc with
  | .outside => some (s.goto i .firstCheck)
  | .firstCheck => some (s.goto i (if s.condition then .outside else .prepare))
  | .prepare => if s.lock = none then some (s.prepareToWaitEvent i) else none
  | .check => some (s.goto i (if s.condition then .finish else .schedule))
  | .schedule =>
    if (s.waiter i).state = .uninterruptible ∧ (s.waiter i).onRq then
      some (s.setWaiter i { s.waiter i with onRq := false })
    else if (s.waiter i).state = .running ∧ (s.waiter i).onRq then some (s.goto i .prepare)
    else none
  | .finish => some (s.setWaiter i { s.waiter i with pc := .finishEmpty, state := .running })
  | .finishEmpty => some (s.goto i (if i ∈ s.taskList then .finishRemove else .outside))
  | .finishRemove =>
    if s.lock = none then
      some ({ s with taskList := s.taskList.filter (· ≠ i) }.goto i .outside)
    else none

/-- The next access of a waker inside `__wake_up`: it takes the lock, calls the next entry, or gives the
lock back. No entry is exclusive, so the scan does not stop. -/
def wakerStep (s : EventState) (j : Nat) : Option EventState :=
  match s.waker j with
  | .idle => none
  | .mustWake =>
    if s.lock = none then some ({ s with lock := some j }.setWaker j (.waking s.taskList)) else none
  | .waking (i :: rest) => some ((s.tryToWakeUp i).setWaker j (.waking rest))
  | .waking [] => some ({ s with lock := none }.setWaker j .idle)

/-- One access. -/
def step (s : EventState) : WaitEventStep → Option EventState
  | .waiter i => s.waiterStep i
  | .activated i =>
    -- the run queue takes a task that was given to it
    if (s.waiter i).state = .waking then
      some (s.setWaiter i { s.waiter i with state := .running, onRq := true })
    else none
  | .waker j => s.wakerStep j
  | .makeTrue j =>
    if s.waker j = .idle then some ({ s with condition := true }.setWaker j .mustWake) else none
  | .makeFalse => some { s with condition := false }

/-- An access takes the state to the next one. -/
def Step (s : EventState) (e : WaitEventStep) (s' : EventState) : Prop := s.step e = some s'

/-- Waker `j` has made the condition true and will still call waiter `i`. -/
def WillCall (s : EventState) (i j : Nat) : Prop :=
  s.waker j = .mustWake ∨ ∃ rest, s.waker j = .waking rest ∧ i ∈ rest

/-- A waiter that may sleep is on the queue, and while the condition is true somebody will call it;
outside of `wait_event` it is not on the queue. -/
structure Inv (s : EventState) : Prop where
  queued : ∀ i, (s.waiter i).pc = .check ∨ (s.waiter i).pc = .schedule → i ∈ s.taskList
  called : ∀ i, (s.waiter i).pc = .schedule → (s.waiter i).state = .uninterruptible →
    s.condition = true → ∃ j, s.WillCall i j
  out : ∀ i, (s.waiter i).pc = .outside ∨ (s.waiter i).pc = .firstCheck → i ∉ s.taskList

variable {s s' : EventState} {e : WaitEventStep} {i j k : Nat}

theorem new_inv (condition : Bool) : (new condition).Inv where
  queued := fun i h => by rcases h with h | h <;> cases h
  called := fun i h => by cases h
  out := fun i _ hmem => by cases hmem

theorem setWaiter_self (s : EventState) (i : Nat) (w : Waiter) : (s.setWaiter i w).waiter i = w :=
  Function.update_self ..

theorem setWaiter_of_ne (w : Waiter) (h : k ≠ i) : (s.setWaiter i w).waiter k = s.waiter k :=
  Function.update_of_ne h ..

/-- What one waiter does keeps the invariant if it keeps it for that waiter and leaves the others on the
queue. -/
theorem Inv.setWaiter (h : s.Inv) {w : Waiter} {l : List Nat}
    (hothers : ∀ k, k ≠ i → (k ∈ l ↔ k ∈ s.taskList))
    (hqueued : w.pc = .check ∨ w.pc = .schedule → i ∈ l)
    (hcalled : w.pc = .schedule → w.state = .uninterruptible → s.condition = true →
      ∃ j, s.WillCall i j)
    (hout : w.pc = .outside ∨ w.pc = .firstCheck → i ∉ l) :
    ({ s with taskList := l }.setWaiter i w).Inv where
  queued k hk := by
    by_cases hki : k = i
    · subst hki
      rw [setWaiter_self] at hk
      exact hqueued hk
    · rw [setWaiter_of_ne _ hki] at hk
      exact (hothers k hki).mpr (h.queued k hk)
  called k hk hstate hcond := by
    by_cases hki : k = i
    · subst hki
      rw [setWaiter_self] at hk hstate
      exact hcalled hk hstate hcond
    · rw [setWaiter_of_ne _ hki] at hk hstate
      exact h.called k hk hstate hcond
  out k hk := by
    by_cases hki : k = i
    · subst hki
      rw [setWaiter_self] at hk
      exact hout hk
    · rw [setWaiter_of_ne _ hki] at hk
      exact fun hmem => h.out k hk ((hothers k hki).mp hmem)

theorem waiterStep_inv (h : s.Inv) (hstep : s.waiterStep i = some s') : s'.Inv := by
  have hsame : ∀ k, k ≠ i → (k ∈ s.taskList ↔ k ∈ s.taskList) := fun _ _ => Iff.rfl
  unfold waiterStep at hstep
  split at hstep
  · next hpc =>
    cases hstep
    exact h.setWaiter hsame (fun hk => by rcases hk with hk | hk <;> cases hk)
      (fun hk => by cases hk) fun _ => h.out i (.inl hpc)
  · next hpc =>
    cases hstep
    have hnot := h.out i (.inr hpc)
    refine h.setWaiter hsame (fun hk => ?_) (fun hk => ?_) fun _ => hnot
    · dsimp only at hk
      split at hk <;> rcases hk with hk | hk <;> cases hk
    · dsimp only at hk
      split at hk <;> cases hk
  · split at hstep
    · cases hstep
      refine h.setWaiter (fun k hk => ?_) (fun _ => ?_) (fun hk => by cases hk)
        (fun hk => by rcases hk with hk | hk <;> cases hk)
      · split
        · exact Iff.rfl
        · rw [List.mem_cons]
          exact or_iff_right hk
      · split
        · next hmem => exact hmem
        · exact List.mem_cons_self
    · cases hstep
  · next hpc =>
    cases hstep
    have hmem := h.queued i (.inl hpc)
    refine h.setWaiter hsame (fun _ => hmem) (fun hk _ hcond => ?_) (fun hk => ?_)
    · -- the condition was false when it was read
      rw [if_pos hcond] at hk
      cases hk
    · dsimp only at hk
      split at hk <;> rcases hk with hk | hk <;> cases hk
  · next hpc =>
    split at hstep
    · cases hstep
      exact h.setWaiter hsame (fun _ => h.queued i (.inr hpc)) (fun hk hstate => h.called i hk hstate)
        (fun hk => h.out i hk)
    · split at hstep
      · cases hstep
        exact h.setWaiter hsame (fun hk => by rcases hk with hk | hk <;> cases hk)
          (fun hk => by cases hk) (fun hk => by rcases hk with hk | hk <;> cases hk)
      · cases hstep
  · cases hstep
    exact h.setWaiter hsame (fun hk => by rcases hk with hk | hk <;> cases hk)
      (fun hk => by cases hk) (fun hk => by rcases hk with hk | hk <;> cases hk)
  · cases hstep
    refine h.setWaiter hsame (fun hk => ?_) (fun hk => ?_) (fun hk => ?_)
    · dsimp only at hk
      split at hk <;> rcases hk with hk | hk <;> cases hk
    · dsimp only at hk
      split at hk <;> cases hk
    · dsimp only at hk
      split at hk
      · rcases hk with hk | hk <;> cases hk
      · next hnot => exact hnot
  · split at hstep
    · cases hstep
      refine h.setWaiter (fun k hk => ?_) (fun hk => by rcases hk with hk | hk <;> cases hk)
        (fun hk => by cases hk) fun _ hmem => ?_
      · rw [List.mem_filter]
        exact and_iff_left (decide_eq_true hk)
      · exact of_decide_eq_true (List.mem_filter.mp hmem).2 rfl
    · cases hstep

theorem tryToWakeUp_pc (s : EventState) (i k : Nat) :
    ((s.tryToWakeUp i).waiter k).pc = (s.waiter k).pc := by
  unfold tryToWakeUp
  split
  · by_cases hki : k = i
    · subst hki
      rw [setWaiter_self]
    · rw [setWaiter_of_ne _ hki]
  · rfl

/-- Only the waiter that is called changes its state, and it sleeps no longer. -/
theorem tryToWakeUp_state (s : EventState) (i k : Nat)
    (h : ((s.tryToWakeUp i).waiter k).state = .uninterruptible) :
    k ≠ i ∧ (s.waiter k).state = .uninterruptible := by
  unfold tryToWakeUp at h
  split at h
  · by_cases hki : k = i
    · subst hki
      rw [setWaiter_self] at h
      dsimp only at h
      split at h <;> cases h
    · rw [setWaiter_of_ne _ hki] at h
      exact ⟨hki, h⟩
  · next hnot =>
    refine ⟨?_, h⟩
    rintro rfl
    exact hnot h

theorem tryToWakeUp_rest (s : EventState) (i : Nat) :
    (s.tryToWakeUp i).taskList = s.taskList ∧ (s.tryToWakeUp i).condition = s.condition ∧
      (s.tryToWakeUp i).waker = s.waker := by
  unfold tryToWakeUp
  split
  · exact ⟨rfl, rfl, rfl⟩
  · exact ⟨rfl, rfl, rfl⟩

theorem setWaker_self (s : EventState) (j : Nat) (pc : WakerPc) : (s.setWaker j pc).waker j = pc :=
  Function.update_self ..

theorem setWaker_of_ne (pc : WakerPc) (h : k ≠ j) : (s.setWaker j pc).waker k = s.waker k :=
  Function.update_of_ne h ..

theorem wakerStep_inv (h : s.Inv) (hstep : s.wakerStep j = some s') : s'.Inv := by
  unfold wakerStep at hstep
  split at hstep
  · cases hstep
  · next hpc =>
    split at hstep
    · cases hstep
      refine ⟨h.queued, fun i hi hstate hcond => ?_, h.out⟩
      -- the waiter is on the list that is scanned
      have hmem : i ∈ s.taskList := h.queued i (.inr hi)
      exact ⟨j, .inr ⟨s.taskList, setWaker_self .., hmem⟩⟩
    · cases hstep
  · next i rest hpc =>
    cases hstep
    obtain ⟨hlist, hcondition, hwaker⟩ := s.tryToWakeUp_rest i
    refine ⟨fun k hk => ?_, fun k hk hstate hcond => ?_, fun k hk => ?_⟩
    · show k ∈ (s.tryToWakeUp i).taskList
      rw [hlist]
      exact h.queued k (by simpa only [setWaker, tryToWakeUp_pc] using hk)
    · obtain ⟨hki, hstate⟩ := tryToWakeUp_state s i k hstate
      have hpck : (s.waiter k).pc = .schedule := (tryToWakeUp_pc s i k).symm.trans hk
      obtain ⟨j', hcall⟩ := h.called k hpck hstate (hcondition.symm.trans hcond)
      refine ⟨j', ?_⟩
      by_cases hj : j' = j
      · subst hj
        refine .inr ⟨rest, setWaker_self .., ?_⟩
        rcases hcall with hcall | ⟨rest', hcall, hmem⟩
        · rw [hpc] at hcall
          cases hcall
        · rw [hpc] at hcall
          cases hcall
          exact (List.mem_cons.mp hmem).resolve_left hki
      · unfold WillCall
        rw [setWaker_of_ne _ hj, hwaker]
        exact hcall
    · show k ∉ (s.tryToWakeUp i).taskList
      rw [hlist]
      exact h.out k (by simpa only [setWaker, tryToWakeUp_pc] using hk)
  · next hpc =>
    cases hstep
    refine ⟨h.queued, fun k hk hstate hcond => ?_, h.out⟩
    obtain ⟨j', hcall⟩ := h.called k hk hstate hcond
    refine ⟨j', ?_⟩
    by_cases hj : j' = j
    · subst hj
      rcases hcall with hcall | ⟨rest, hcall, hmem⟩
      · rw [hpc] at hcall
        cases hcall
      · rw [hpc] at hcall
        cases hcall
        cases hmem
    · unfold WillCall
      rw [setWaker_of_ne _ hj]
      exact hcall

theorem step_inv (h : s.Inv) (hstep : s.Step e s') : s'.Inv := by
  unfold Step step at hstep
  cases e with
  | waiter i => exact waiterStep_inv h hstep
  | activated i =>
    dsimp only at hstep
    split at hstep
    · cases hstep
      exact h.setWaiter (fun _ _ => Iff.rfl) (h.queued i) (fun _ hstate => by cases hstate) (h.out i)
    · cases hstep
  | waker j => exact wakerStep_inv h hstep
  | makeTrue j =>
    dsimp only at hstep
    split at hstep
    · cases hstep
      exact ⟨h.queued, fun i _ _ _ => ⟨j, .inl (setWaker_self ..)⟩, h.out⟩
    · cases hstep
  | makeFalse =>
    cases hstep
    exact ⟨h.queued, fun i _ _ hcond => (by cases hcond), h.out⟩

/-- No wake-up is lost: a waiter that sleeps while the condition is true will be called by a thread that
has made it true and is not done with `__wake_up`; and a waiter that has left is not on the queue. -/
theorem waitEvent_noLostWakeUp {condition : Bool} {es : List WaitEventStep}
    (h : Run Step (new condition) es s) :
    (∀ i, (s.waiter i).pc = .schedule → (s.waiter i).state = .uninterruptible →
      s.condition = true → ∃ j, s.waker j ≠ .idle ∧ s.WillCall i j) ∧
      ∀ i, (s.waiter i).pc = .outside → i ∉ s.taskList := by
  have hinv : s.Inv :=
    h.stateInvariant (I := Inv) (new_inv condition) fun _ _ _ => step_inv
  refine ⟨fun i hi hstate hcond => ?_, fun i hi => hinv.out i (.inl hi)⟩
  obtain ⟨j, hcall⟩ := hinv.called i hi hstate hcond
  refine ⟨j, fun hidle => ?_, hcall⟩
  rcases hcall with hcall | ⟨rest, hcall, -⟩
  · rw [hidle] at hcall
    cases hcall
  · rw [hidle] at hcall
    cases hcall

/-- A waiter is asleep when the condition becomes true. -/
theorem waitEvent_noLostWakeUp_asleep :
    ∃ s : EventState, s.condition = true ∧ (s.waiter 0).onRq = false ∧
      ∃ j, s.waker j ≠ .idle ∧ s.WillCall 0 j := by
  obtain ⟨s, hrun, hseen⟩ := Run.exists_of_foldlM_option step (new false)
    [.waiter 0, .waiter 0, .waiter 0, .waiter 0, .waiter 0, .makeTrue 0]
    (fun s => (s.condition, s.waiter 0)) (b := (true, ⟨.schedule, .uninterruptible, false⟩))
    (by decide)
  obtain ⟨hcond, hwaiter⟩ := Prod.mk.inj hseen
  refine ⟨s, hcond, by rw [hwaiter], ?_⟩
  exact (waitEvent_noLostWakeUp hrun).1 0 (by rw [hwaiter]) (by rw [hwaiter]) hcond

end EventState

end Rtfsc.Linux
