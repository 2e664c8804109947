import Rtfsc.Machine.Run
import Mathlib.Data.List.Nodup
import Mathlib.Data.List.Perm.Basic
import Mathlib.Logic.Function.Basic
import Mathlib.Algebra.Group.Nat.Defs

/-!
# Wait queues

The operations on a wait queue, each a critical section of `q->lock`, and `__wake_up`, whose scan stops
at the last exclusive waiter that it may wake. The comment on `__wake_up_common` promises that all
non-exclusive waiters are woken. The queue keeps its exclusive waiters behind the others, except that
`__add_wait_queue_exclusive` puts one at the head.
-/

namespace Rtfsc.Linux

open Rtfsc.Machine

/-- The entries on the list, head first, and the `WQ_FLAG_EXCLUSIVE` of every entry. -/
structure WaitQueue where
  taskList : List Nat
  exclusive : Nat → Bool

namespace WaitQueue

/-- A new queue. -/
def empty (exclusive : Nat → Bool) : WaitQueue := ⟨[], exclusive⟩

/-- What `___wait_event` does to its entry first. -/
def initWait (q : WaitQueue) (wait : Nat) (exclusive : Bool) : WaitQueue :=
  { q with exclusive := Function.update q.exclusive wait exclusive }

/-- `add_wait_queue`. -/
def addWaitQueue (q : WaitQueue) (wait : Nat) : WaitQueue :=
  ⟨wait :: q.taskList, Function.update q.exclusive wait false⟩

/-- `add_wait_queue_exclusive`. -/
def addWaitQueueExclusive (q : WaitQueue) (wait : Nat) : WaitQueue :=
  ⟨q.taskList ++ [wait], Function.update q.exclusive wait true⟩

/-- `__add_wait_queue_exclusive`, for callers that have the lock. -/
def addWaitQueueExclusiveLocked (q : WaitQueue) (wait : Nat) : WaitQueue :=
  ⟨wait :: q.taskList, Function.update q.exclusive wait true⟩

/-- `remove_wait_queue`. -/
def removeWaitQueue (q : WaitQueue) (wait : Nat) : WaitQueue :=
  { q with taskList := q.taskList.erase wait }

/-- `prepare_to_wait_event`; `list_del_init` does nothing to an entry that is not linked. -/
def prepareToWaitEvent (q : WaitQueue) (wait : Nat) (signalPending : Bool) : WaitQueue :=
  if signalPending then { q with taskList := q.taskList.erase wait }
  else if wait ∈ q.taskList then q
  else if q.exclusive wait then { q with taskList := q.taskList ++ [wait] }
  else { q with taskList := wait :: q.taskList }

/-- `finish_wait`. -/
def finishWait (q : WaitQueue) (wait : Nat) : WaitQueue :=
  if wait ∈ q.taskList then { q with taskList := q.taskList.erase wait } else q

end WaitQueue

/-- What is done to a queue. -/
inductive WaitOp
  | initWait (wait : Nat) (exclusive : Bool)
  | addWaitQueue (wait : Nat)
  | addWaitQueueExclusive (wait : Nat)
  | addWaitQueueExclusiveLocked (wait : Nat)
  | removeWaitQueue (wait : Nat)
  | prepareToWaitEvent (wait : Nat) (signalPending : Bool)
  | finishWait (wait : Nat)
deriving DecidableEq

namespace WaitQueue

/-- An operation. An entry is only initialised or added while it is not on the queue, and only removed
with `remove_wait_queue` while it is. -/
def step (q : WaitQueue) : WaitOp → Option WaitQueue
  | .initWait wait exclusive => if wait ∈ q.taskList then none else some (q.initWait wait exclusive)
  | .addWaitQueue wait => if wait ∈ q.taskList then none else some (q.addWaitQueue wait)
  | .addWaitQueueExclusive wait =>
    if wait ∈ q.taskList then none else some (q.addWaitQueueExclusive wait)
  | .addWaitQueueExclusiveLocked wait =>
    if wait ∈ q.taskList then none else some (q.addWaitQueueExclusiveLocked wait)
  | .removeWaitQueue wait => if wait ∈ q.taskList then some (q.removeWaitQueue wait) else none
  | .prepareToWaitEvent wait signalPending => some (q.prepareToWaitEvent wait signalPending)
  | .finishWait wait => some (q.finishWait wait)

/-- An operation takes the queue to the next one. -/
def Step (q : WaitQueue) (op : WaitOp) (q' : WaitQueue) : Prop := q.step op = some q'

/-- A step that does not put an exclusive waiter in front of one that is not. -/
def OrderedStep (q : WaitQueue) (op : WaitOp) (q' : WaitQueue) : Prop :=
  q.Step op q' ∧ ∀ wait, op = .addWaitQueueExclusiveLocked wait →
    ∀ w ∈ q.taskList, q.exclusive w = true

end WaitQueue

/-! ## Waking -/

/-- Whether an entry is an exclusive one whose wake function succeeds; `func` says which do. -/
def isWoken (exclusive func : Nat → Bool) (curr : Nat) : Bool := func curr && exclusive curr

/-- The loop of `__wake_up_common`: the entries whose wake function is called, in order. -/
def wakeUpCommon (exclusive func : Nat → Bool) : Int32 → List Nat → List Nat
  | _, [] => []
  | nrExclusive, curr :: rest =>
    if isWoken exclusive func curr then
      let nrExclusive := nrExclusive - 1
      if nrExclusive = 0 then [curr] else curr :: wakeUpCommon exclusive func nrExclusive rest
    else curr :: wakeUpCommon exclusive func nrExclusive rest

namespace WaitQueue

/-- `__wake_up`. -/
def wakeUp (q : WaitQueue) (nrExclusive : Int32) (func : Nat → Bool) : List Nat :=
  wakeUpCommon q.exclusive func nrExclusive q.taskList

/-- What the comment on `__wake_up_common` promises. -/
def Promised (q : WaitQueue) (nrExclusive : Int32) (func : Nat → Bool) : Prop :=
  if nrExclusive = 0 then q.wakeUp nrExclusive func = q.taskList
  else (∀ w ∈ q.taskList, q.exclusive w = false → w ∈ q.wakeUp nrExclusive func) ∧
    ((q.wakeUp nrExclusive func).countP (isWoken q.exclusive func) : Int) =
      min nrExclusive.toInt (q.taskList.countP (isWoken q.exclusive func))

end WaitQueue

/-- How many exclusive waiters are woken before the scan stops; an `int` counts down from 0 until it has
wrapped. -/
def wakeLimit (nrExclusive : Int32) : Nat :=
  if nrExclusive = 0 then 2 ^ 32 else nrExclusive.toBitVec.toNat

variable {exclusive func : Nat → Bool} {nr : Int32} {l a b : List Nat} {w : Nat}
variable {q q' : WaitQueue} {op : WaitOp} {ops : List WaitOp}

theorem Int32.eq_zero_iff : nr = 0 ↔ nr.toBitVec.toNat = 0 := by
  constructor
  · rintro rfl
    rfl
  · intro h
    exact Int32.toBitVec_inj.mp (BitVec.eq_of_toNat_eq h)

theorem wakeLimit_pos (nr : Int32) : 0 < wakeLimit nr := by
  unfold wakeLimit
  split
  · exact Nat.two_pow_pos 32
  · next h => exact Nat.pos_of_ne_zero fun h0 => h (Int32.eq_zero_iff.mpr h0)

theorem toBitVec_pred (nr : Int32) :
    (nr - 1).toBitVec.toNat = (2 ^ 32 - 1 + nr.toBitVec.toNat) % 2 ^ 32 := by
  rw [Int32.toBitVec_sub, BitVec.toNat_sub]
  rfl

/-- The last exclusive waiter that may be woken. -/
theorem wakeLimit_last (h : nr - 1 = 0) : wakeLimit nr = 1 := by
  have hpred := toBitVec_pred nr
  have hlt := nr.toBitVec.isLt
  rw [Int32.eq_zero_iff.mp h] at hpred
  have hone : nr.toBitVec.toNat = 1 := by omega
  have hne : nr ≠ 0 := fun h0 => by
    rw [Int32.eq_zero_iff, hone] at h0
    cases h0
  rw [wakeLimit, if_neg hne, hone]

theorem wakeLimit_pred (h : nr - 1 ≠ 0) : wakeLimit (nr - 1) + 1 = wakeLimit nr := by
  have hpred := toBitVec_pred nr
  have hlt := nr.toBitVec.isLt
  have hne : (nr - 1).toBitVec.toNat ≠ 0 := fun h0 => h (Int32.eq_zero_iff.mpr h0)
  rw [wakeLimit, if_neg h, wakeLimit]
  split
  · next hzero =>
    rw [Int32.eq_zero_iff] at hzero
    omega
  · next hzero =>
    rw [Int32.eq_zero_iff] at hzero
    omega

/-- A waiter that fewer than the limit are woken in front of is called. -/
theorem wakeUpCommon_reaches (exclusive : Nat → Bool)
    (h : a.countP (isWoken exclusive func) < wakeLimit nr) :
    ∃ b', wakeUpCommon exclusive func nr (a ++ w :: b) = a ++ w :: b' := by
  induction a generalizing nr with
  | nil =>
    show ∃ b', wakeUpCommon exclusive func nr (w :: b) = w :: b'
    unfold wakeUpCommon
    split
    · dsimp only
      split
      · exact ⟨[], rfl⟩
      · exact ⟨_, rfl⟩
    · exact ⟨_, rfl⟩
  | cons v a ih =>
    show ∃ b', wakeUpCommon exclusive func nr (v :: (a ++ w :: b)) = v :: (a ++ w :: b')
    unfold wakeUpCommon
    split
    · next hwakes =>
      rw [List.countP_cons_of_pos (p := isWoken exclusive func) hwakes] at h
      dsimp only
      split
      · next hzero =>
        rw [wakeLimit_last hzero] at h
        exact absurd h (Nat.not_lt.mpr (Nat.le_add_left ..))
      · next hmore =>
        have hless : a.countP (isWoken exclusive func) < wakeLimit (nr - 1) := by
          have hpred := wakeLimit_pred hmore
          omega
        obtain ⟨b', hb'⟩ := ih hless
        exact ⟨b', by rw [hb']⟩
    · next hnot =>
      rw [List.countP_cons_of_neg (p := isWoken exclusive func) hnot] at h
      obtain ⟨b', hb'⟩ := ih h
      exact ⟨b', by rw [hb']⟩

/-- Once the limit is reached nothing behind is called. -/
theorem wakeUpCommon_stops
    (h : wakeLimit nr ≤ a.countP (isWoken exclusive func)) :
    wakeUpCommon exclusive func nr (a ++ b) = wakeUpCommon exclusive func nr a := by
  induction a generalizing nr with
  | nil => exact absurd h (Nat.not_le.mpr (wakeLimit_pos nr))
  | cons v a ih =>
    rw [List.cons_append]
    unfold wakeUpCommon
    split
    · next hwakes =>
      rw [List.countP_cons_of_pos (p := isWoken exclusive func) hwakes] at h
      dsimp only
      split
      · rfl
      · next hmore =>
        have hless : wakeLimit (nr - 1) ≤ a.countP (isWoken exclusive func) := by
          have hpred := wakeLimit_pred hmore
          omega
        rw [ih hless]
    · next hnot =>
      rw [List.countP_cons_of_neg (p := isWoken exclusive func) hnot] at h
      rw [ih h]

/-- As many exclusive waiters are woken as there are, up to the limit. -/
theorem countP_wakeUpCommon :
    (wakeUpCommon exclusive func nr l).countP (isWoken exclusive func) =
      min (wakeLimit nr) (l.countP (isWoken exclusive func)) := by
  induction l generalizing nr with
  | nil => exact (Nat.min_zero _).symm
  | cons v l ih =>
    unfold wakeUpCommon
    split
    · next hwakes =>
      dsimp only
      rw [List.countP_cons_of_pos (p := isWoken exclusive func) hwakes]
      split
      · next hzero =>
        rw [wakeLimit_last hzero, List.countP_cons_of_pos (p := isWoken exclusive func) hwakes, List.countP_nil]
        omega
      · next hmore =>
        have hpred := wakeLimit_pred hmore
        rw [List.countP_cons_of_pos (p := isWoken exclusive func) hwakes, ih]
        omega
    · next hnot => rw [List.countP_cons_of_neg (p := isWoken exclusive func) hnot, List.countP_cons_of_neg (p := isWoken exclusive func) hnot, ih]

theorem wakeUpCommon_front : wakeUpCommon exclusive func nr l <+: l := by
  induction l generalizing nr with
  | nil => exact List.nil_prefix
  | cons v l ih =>
    unfold wakeUpCommon
    split
    · dsimp only
      split
      · exact List.prefix_cons_iff.mpr (.inr ⟨[], rfl, List.nil_prefix⟩)
      · exact List.prefix_cons_iff.mpr (.inr ⟨_, rfl, ih⟩)
    · exact List.prefix_cons_iff.mpr (.inr ⟨_, rfl, ih⟩)

/-- On a queue without duplicates a waiter is called exactly if fewer than the limit are woken in front
of it. -/
theorem mem_wakeUpCommon (hnodup : (a ++ w :: b).Nodup) :
    w ∈ wakeUpCommon exclusive func nr (a ++ w :: b) ↔
      a.countP (isWoken exclusive func) < wakeLimit nr := by
  constructor
  · intro hmem
    by_contra hge
    rw [wakeUpCommon_stops (Nat.not_lt.mp hge)] at hmem
    exact (List.nodup_append.mp hnodup).2.2 w (wakeUpCommon_front.subset hmem) w List.mem_cons_self rfl
  · intro hlt
    obtain ⟨b', hb'⟩ := wakeUpCommon_reaches exclusive hlt
    rw [hb']
    exact List.mem_append_right a List.mem_cons_self

/-! ## Reachable queues -/

namespace WaitQueue

theorem step_nodup (h : q.taskList.Nodup) (hstep : q.Step op q') : q'.taskList.Nodup := by
  unfold Step step at hstep
  cases op with
  | initWait wait exclusive =>
    dsimp only at hstep
    split at hstep
    · cases hstep
    · cases hstep
      exact h
  | addWaitQueue wait =>
    dsimp only at hstep
    split at hstep
    · cases hstep
    · next hnot =>
      cases hstep
      exact List.nodup_cons.mpr ⟨hnot, h⟩
  | addWaitQueueExclusive wait =>
    dsimp only at hstep
    split at hstep
    · cases hstep
    · next hnot =>
      cases hstep
      exact (List.perm_append_singleton wait q.taskList).nodup_iff.mpr
        (List.nodup_cons.mpr ⟨hnot, h⟩)
  | addWaitQueueExclusiveLocked wait =>
    dsimp only at hstep
    split at hstep
    · cases hstep
    · next hnot =>
      cases hstep
      exact List.nodup_cons.mpr ⟨hnot, h⟩
  | removeWaitQueue wait =>
    dsimp only at hstep
    split at hstep
    · cases hstep
      exact h.erase wait
    · cases hstep
  | prepareToWaitEvent wait signalPending =>
    cases hstep
    unfold prepareToWaitEvent
    split
    · exact h.erase wait
    · split
      · exact h
      · next hnot =>
        split
        · exact (List.perm_append_singleton wait q.taskList).nodup_iff.mpr
            (List.nodup_cons.mpr ⟨hnot, h⟩)
        · exact List.nodup_cons.mpr ⟨hnot, h⟩
  | finishWait wait =>
    cases hstep
    unfold finishWait
    split
    · exact h.erase wait
    · exact h

theorem run_nodup (h : Run Step (empty exclusive) ops q) : q.taskList.Nodup :=
  h.stateInvariant (I := fun q => q.taskList.Nodup) List.nodup_nil fun _ _ _ => step_nodup

/-- No waiter that is not exclusive stands behind an exclusive one. -/
def Ordered (q : WaitQueue) : Prop :=
  q.taskList.Pairwise fun v w => q.exclusive v = true → q.exclusive w = true

theorem Ordered.erase (h : q.Ordered) (wait : Nat) :
    Ordered { q with taskList := q.taskList.erase wait } := h.sublist List.erase_sublist

/-- The flag of an entry that is not linked says nothing about the queue. -/
theorem Ordered.setFlag (h : q.Ordered) (hnot : w ∉ q.taskList) (flag : Bool) :
    q.taskList.Pairwise fun u v =>
      Function.update q.exclusive w flag u = true → Function.update q.exclusive w flag v = true := by
  refine h.imp_of_mem fun {u v} hu hv huv => ?_
  rwa [Function.update_of_ne (ne_of_mem_of_not_mem hu hnot),
    Function.update_of_ne (ne_of_mem_of_not_mem hv hnot)]

theorem step_ordered (h : q.Ordered) (hstep : q.OrderedStep op q') : q'.Ordered := by
  obtain ⟨hstep, hhead⟩ := hstep
  unfold Step step at hstep
  cases op with
  | initWait wait exclusive =>
    dsimp only at hstep
    split at hstep
    · cases hstep
    · next hnot =>
      cases hstep
      exact h.setFlag hnot exclusive
  | addWaitQueue wait =>
    dsimp only at hstep
    split at hstep
    · cases hstep
    · next hnot =>
      cases hstep
      refine List.pairwise_cons.mpr ⟨fun v _ hflag => ?_, h.setFlag hnot false⟩
      have hset : Function.update q.exclusive wait false wait = true := hflag
      rw [Function.update_self] at hset
      cases hset
  | addWaitQueueExclusive wait =>
    dsimp only at hstep
    split at hstep
    · cases hstep
    · next hnot =>
      cases hstep
      refine List.pairwise_append.mpr ⟨h.setFlag hnot true, List.pairwise_singleton .., ?_⟩
      intro u _ v hv _
      rw [List.mem_singleton.mp hv]
      exact Function.update_self ..
  | addWaitQueueExclusiveLocked wait =>
    dsimp only at hstep
    split at hstep
    · cases hstep
    · next hnot =>
      cases hstep
      refine List.pairwise_cons.mpr ⟨fun v hv _ => ?_, h.setFlag hnot true⟩
      show Function.update q.exclusive wait true v = true
      rw [Function.update_of_ne (ne_of_mem_of_not_mem hv hnot)]
      exact hhead wait rfl v hv
  | removeWaitQueue wait =>
    dsimp only at hstep
    split at hstep
    · cases hstep
      exact h.erase wait
    · cases hstep
  | prepareToWaitEvent wait signalPending =>
    cases hstep
    unfold prepareToWaitEvent
    split
    · exact h.erase wait
    · split
      · exact h
      · split
        · next hflag =>
          refine List.pairwise_append.mpr ⟨h, List.pairwise_singleton .., ?_⟩
          intro u _ v hv _
          rw [List.mem_singleton.mp hv]
          exact hflag
        · next hflag =>
          exact List.pairwise_cons.mpr ⟨fun v _ hset => absurd hset hflag, h⟩
  | finishWait wait =>
    cases hstep
    unfold finishWait
    split
    · exact h.erase wait
    · exact h

/-! ## The promise -/

/-- The scan goes past every waiter that is to be woken. -/
def Reaches (q : WaitQueue) (nrExclusive : Int32) (func : Nat → Bool) : Prop :=
  ∀ a w b, q.taskList = a ++ w :: b → nrExclusive = 0 ∨ q.exclusive w = false →
    a.countP (isWoken q.exclusive func) < wakeLimit nrExclusive

theorem wakeUp_all (hnodup : q.taskList.Nodup) :
    q.wakeUp nr func = q.taskList ↔
      ∀ a w b, q.taskList = a ++ w :: b → a.countP (isWoken q.exclusive func) < wakeLimit nr := by
  constructor
  · intro hall a w b hsplit
    have hmem : w ∈ q.wakeUp nr func := by
      rw [hall, hsplit]
      exact List.mem_append_right a List.mem_cons_self
    unfold wakeUp at hmem
    rw [hsplit] at hmem hnodup
    exact (mem_wakeUpCommon hnodup).mp hmem
  · intro hreach
    rcases List.eq_nil_or_concat q.taskList with hnil | ⟨a, w, hlast⟩
    · unfold wakeUp
      rw [hnil]
      rfl
    · rw [List.concat_eq_append] at hlast
      have hreach := hreach a w [] hlast
      have hcalls : ∃ b', q.wakeUp nr func = a ++ w :: b' := by
        unfold wakeUp
        rw [hlast]
        exact wakeUpCommon_reaches _ hreach
      obtain ⟨b', hb'⟩ := hcalls
      refine wakeUpCommon_front.eq_of_length_le ?_
      show q.taskList.length ≤ (q.wakeUp nr func).length
      rw [hb', hlast, List.length_append, List.length_append]
      exact Nat.add_le_add_left (Nat.le_add_left ..) _

/-- Exactly as many exclusive waiters are woken as are asked for, as far as there are any. -/
theorem countP_wakeUp (hpos : 0 < nr.toInt) :
    ((q.wakeUp nr func).countP (isWoken q.exclusive func) : Int) =
      min nr.toInt (q.taskList.countP (isWoken q.exclusive func)) := by
  have hlimit : (wakeLimit nr : Int) = nr.toInt := by
    have hne : nr ≠ 0 := fun h0 => by
      rw [h0] at hpos
      cases hpos
    rw [wakeLimit, if_neg hne]
    exact (BitVec.toInt_eq_toNat_of_lt (BitVec.toInt_pos_iff.mp (Int.le_of_lt hpos))).symm
  rw [wakeUp, countP_wakeUpCommon, ← hlimit]
  omega

/-- On a queue without duplicates the promise is kept exactly if the scan goes far enough. -/
theorem promised_iff (func : Nat → Bool) (hnodup : q.taskList.Nodup) (hnr : 0 ≤ nr.toInt) :
    q.Promised nr func ↔ q.Reaches nr func := by
  unfold Promised Reaches
  split
  · next hzero =>
    rw [wakeUp_all hnodup]
    exact ⟨fun h a w b hsplit _ => h a w b hsplit, fun h a w b hsplit => h a w b hsplit (.inl hzero)⟩
  · next hne =>
    have hpos : 0 < nr.toInt := by
      refine Int.lt_iff_le_and_ne.mpr ⟨hnr, fun h0 => hne ?_⟩
      exact Int32.toInt_inj.mp h0.symm
    rw [and_iff_left (countP_wakeUp hpos)]
    constructor
    · intro h a w b hsplit hflag
      have hflag := hflag.resolve_left hne
      have hmem := h w (by rw [hsplit]; exact List.mem_append_right a List.mem_cons_self) hflag
      unfold wakeUp at hmem
      rw [hsplit] at hmem hnodup
      exact (mem_wakeUpCommon hnodup).mp hmem
    · intro h w hw hflag
      obtain ⟨a, b, hsplit⟩ := List.append_of_mem hw
      unfold wakeUp
      rw [hsplit] at hnodup ⊢
      exact (mem_wakeUpCommon hnodup).mpr (h a w b hsplit (.inr hflag))

/-- On an ordered queue no exclusive waiter stands in front of one that is not. -/
theorem Ordered.reaches (h : q.Ordered) (hnr : nr ≠ 0) : q.Reaches nr func := by
  intro a w b hsplit hflag
  have hflag := hflag.resolve_left hnr
  have hnone : a.countP (isWoken q.exclusive func) = 0 := by
    refine List.countP_eq_zero.mpr fun v hv hwoken => ?_
    have hpair := h
    unfold Ordered at hpair
    rw [hsplit] at hpair
    have hexclusive : q.exclusive v = true := (Bool.and_eq_true_iff.mp hwoken).2
    have hset := (List.pairwise_append.mp hpair).2.2 v hv w List.mem_cons_self hexclusive
    rw [hflag] at hset
    cases hset
  rw [hnone]
  exact wakeLimit_pos nr

theorem run_ordered (h : Run OrderedStep (empty exclusive) ops q) : q.Ordered :=
  h.stateInvariant (I := Ordered) (show Ordered (empty exclusive) from List.Pairwise.nil)
    fun _ _ _ => step_ordered

/-- `__wake_up` keeps the promise exactly if no waiter that is to be woken stands behind as many
exclusive waiters as the call may wake; and it keeps it for every positive number on a queue where
`__add_wait_queue_exclusive` has never passed a waiter that is not exclusive. -/
theorem wakeUp_promised (h : Run Step (empty exclusive) ops q) (nr : Int32) (hnr : 0 ≤ nr.toInt)
    (func : Nat → Bool) :
    (q.Promised nr func ↔ q.Reaches nr func) ∧
      (Run OrderedStep (empty exclusive) ops q → nr ≠ 0 → q.Promised nr func) := by
  have hiff := promised_iff func (run_nodup h) hnr
  exact ⟨hiff, fun hrun hne => hiff.mpr ((run_ordered hrun).reaches hne)⟩

/-- One waiter of each kind. -/
theorem wakeUp_promised_twoWaiters :
    ∃ q, Run Step (empty fun _ => false) [.addWaitQueueExclusive 1, .addWaitQueue 0] q ∧
      q.Promised 1 fun _ => true := by
  have hfirst : OrderedStep (empty fun _ => false) (.addWaitQueueExclusive 1)
      (addWaitQueueExclusive (empty fun _ => false) 1) := ⟨rfl, fun _ h => by cases h⟩
  have hsecond : OrderedStep (addWaitQueueExclusive (empty fun _ => false) 1) (.addWaitQueue 0)
      (addWaitQueue (addWaitQueueExclusive (empty fun _ => false) 1) 0) :=
    ⟨rfl, fun _ h => by cases h⟩
  have hrun := (Run.nil.snoc hfirst).snoc hsecond
  have hplain := hrun.mono fun _ _ _ hstep => hstep.1
  exact ⟨_, hplain, (wakeUp_promised hplain 1 (by decide) fun _ => true).2 hrun (by decide)⟩

/-- An exclusive waiter at the head keeps the one behind it from being woken. -/
theorem wakeUp_exclusiveAtHead :
    ¬∀ (exclusive : Nat → Bool) (ops : List WaitOp) (q : WaitQueue),
      Run Step (empty exclusive) ops q → ∀ (nr : Int32) (func : Nat → Bool), 0 ≤ nr.toInt →
        q.Promised nr func := by
  intro hall
  have hfirst : Step (empty fun _ => false) (.addWaitQueue 0)
      (addWaitQueue (empty fun _ => false) 0) := rfl
  have hsecond : Step (addWaitQueue (empty fun _ => false) 0) (.addWaitQueueExclusiveLocked 1)
      (addWaitQueueExclusiveLocked (addWaitQueue (empty fun _ => false) 0) 1) := rfl
  have hrun := (Run.nil.snoc hfirst).snoc hsecond
  have hpromised := hall _ _ _ hrun 1 (fun _ => true) (by decide)
  have hmem := hpromised.1 0 (by decide) (by decide)
  exact absurd hmem (by decide)

end WaitQueue

end Rtfsc.Linux
