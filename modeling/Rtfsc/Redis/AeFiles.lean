import Rtfsc.Machine.Run
import Mathlib.Data.Fin.Basic
import Mathlib.Data.List.Induction
import Mathlib.Logic.Function.Basic

/-!
# redis: file events

The masks of an event loop and its largest descriptor. A descriptor is an index into `events`, so it is
not negative; whether the poller takes it comes from outside.
-/

namespace Rtfsc.Redis.AeFiles

open Rtfsc.Machine

/-- `AE_SETSIZE` -/
def setSize : Nat := 1024 * 10

/-- `AE_NONE` -/
def aeNone : BitVec 32 := 0

/-- `AE_READABLE` -/
def aeReadable : BitVec 32 := 1

/-- `AE_WRITABLE` -/
def aeWritable : BitVec 32 := 2

/-- `AE_OK` -/
def aeOk : Int := 0

/-- `AE_ERR` -/
def aeErr : Int := -1

/-- `aeFileEvent`. Procedures and their data are addresses. -/
structure FileEvent where
  mask : BitVec 32
  rfileProc : Nat
  wfileProc : Nat
  clientData : Nat

/-- What `aeEventLoop` knows of file events. -/
structure EventLoop where
  maxfd : Int
  events : Fin setSize → FileEvent

/-- `aeCreateEventLoop`: of the memory it gets, only the masks are set. -/
def aeCreateEventLoop (memory : Fin setSize → FileEvent) : EventLoop where
  maxfd := -1
  events fd := { memory fd with mask := aeNone }

/-- What `aeCreateFileEvent` writes into the event. -/
def FileEvent.add (fe : FileEvent) (mask : BitVec 32) (proc clientData : Nat) : FileEvent where
  mask := fe.mask ||| mask
  rfileProc := if mask &&& aeReadable ≠ 0 then proc else fe.rfileProc
  wfileProc := if mask &&& aeWritable ≠ 0 then proc else fe.wfileProc
  clientData := clientData

/-- `aeCreateFileEvent`, where `added` is what `aeApiAddEvent` returns. -/
def aeCreateFileEvent (loop : EventLoop) (fd : Nat) (mask : BitVec 32) (proc clientData : Nat)
    (added : Int) : EventLoop × Int :=
  if h : fd ≥ setSize then (loop, aeErr)
  else if added = -1 then (loop, aeErr)
  else
    let slot : Fin setSize := ⟨fd, Nat.lt_of_not_ge h⟩
    ({ maxfd := if fd > loop.maxfd then fd else loop.maxfd
       events := Function.update loop.events slot ((loop.events slot).add mask proc clientData) },
      aeOk)

/-- The loop of `aeDeleteFileEvent`, from `k - 1` downwards. -/
def scanDown (events : Fin setSize → FileEvent) : (k : Nat) → k ≤ setSize → Int
  | 0, _ => -1
  | j + 1, h =>
    if (events ⟨j, h⟩).mask ≠ aeNone then j else scanDown events j (Nat.le_of_succ_le h)

/-- `aeDeleteFileEvent`. The poller is told afterwards. -/
def aeDeleteFileEvent (loop : EventLoop) (fd : Nat) (mask : BitVec 32) : EventLoop :=
  if h : fd ≥ setSize then loop
  else
    let slot : Fin setSize := ⟨fd, Nat.lt_of_not_ge h⟩
    let fe := loop.events slot
    if fe.mask = aeNone then loop
    else
      let left := { fe with mask := fe.mask &&& ~~~mask }
      let events := Function.update loop.events slot left
      if fd = loop.maxfd ∧ left.mask = aeNone then
        { maxfd := scanDown events fd (Nat.le_of_lt (Nat.lt_of_not_ge h)), events := events }
      else { loop with events := events }

/-- A call, and what the poller says to it. -/
inductive Call
  | create (fd : Nat) (mask : BitVec 32) (proc clientData : Nat) (added : Int)
  | delete (fd : Nat) (mask : BitVec 32)

namespace Call

def exec (loop : EventLoop) : Call → EventLoop
  | create fd mask proc clientData added =>
    (aeCreateFileEvent loop fd mask proc clientData added).1
  | delete fd mask => aeDeleteFileEvent loop fd mask

def mask : Call → BitVec 32
  | create _ mask _ _ _ => mask
  | delete _ mask => mask

/-- The call puts an event into the mask of a descriptor, and the poller takes it. -/
def Adds (fd : Fin setSize) (b : Nat) : Call → Prop
  | create fd' mask _ _ added => fd' = fd.val ∧ added ≠ -1 ∧ mask.getLsbD b = true
  | delete _ _ => False

/-- The call takes an event out of the mask of a descriptor. -/
def Deletes (fd : Fin setSize) (b : Nat) : Call → Prop
  | create _ _ _ _ _ => False
  | delete fd' mask => fd' = fd.val ∧ mask.getLsbD b = true

end Call

/-! ## The largest descriptor -/

variable {loop : EventLoop} {events : Fin setSize → FileEvent} {fe : FileEvent}
  {fd : Nat} {slot : Fin setSize} {mask : BitVec 32} {proc clientData : Nat} {added : Int}

/-- `top` is the largest of the descriptors below `k` whose mask is not empty, or -1. -/
def IsTop (events : Fin setSize → FileEvent) (k : Nat) (top : Int) : Prop :=
  (top = -1 ∧ ∀ fd, fd.val < k → (events fd).mask = aeNone) ∨
    ∃ fd : Fin setSize, top = fd.val ∧ fd.val < k ∧ (events fd).mask ≠ aeNone ∧
      ∀ fd', fd'.val < k → (events fd').mask ≠ aeNone → fd' ≤ fd

theorem scanDown_isTop {k : Nat} (h : k ≤ setSize) : IsTop events k (scanDown events k h) := by
  induction k with
  | zero => exact .inl ⟨rfl, fun fd hfd => absurd hfd (Nat.not_lt_zero _)⟩
  | succ j ih =>
    unfold scanDown
    split
    · rename_i hset
      exact .inr ⟨⟨j, h⟩, rfl, Nat.lt_succ_self j, hset, fun fd' hfd' _ => Nat.le_of_lt_succ hfd'⟩
    · rename_i hnone
      -- the one that has just been looked at is empty
      have hlow (fd : Fin setSize) (hfd : fd.val < j + 1) (hset : (events fd).mask ≠ aeNone) :
          fd.val < j := by
        refine Nat.lt_of_le_of_ne (Nat.le_of_lt_succ hfd) fun heq => hset ?_
        rw [show fd = ⟨j, h⟩ from Fin.ext heq]
        exact not_not.mp hnone
      rcases ih (Nat.le_of_succ_le h) with ⟨htop, hall⟩ | ⟨fd, htop, hfd, hset, hmax⟩
      · refine .inl ⟨htop, fun fd hfd => by_contra fun hset => hset ?_⟩
        exact hall fd (hlow fd hfd hset)
      · refine .inr ⟨fd, htop, Nat.lt_succ_of_lt hfd, hset, fun fd' hfd' hset' => ?_⟩
        exact hmax fd' (hlow fd' hfd' hset') hset'

/-- The invariant of an event loop. -/
def Topped (loop : EventLoop) : Prop := IsTop loop.events setSize loop.maxfd

/-- No descriptor with events is above the largest one. -/
theorem Topped.le (h : Topped loop) (hset : (loop.events slot).mask ≠ aeNone) :
    (slot.val : Int) ≤ loop.maxfd := by
  rcases h with ⟨-, hall⟩ | ⟨fd, htop, -, -, hmax⟩
  · exact absurd (hall slot slot.isLt) hset
  · rw [htop]
    exact Int.ofNat_le.mpr (hmax slot slot.isLt hset)

/-- The converse: it is enough that the largest one has events. -/
theorem Topped.of_le {maxfd : Int} (hup : ∀ fd, (events fd).mask ≠ aeNone → (fd.val : Int) ≤ maxfd)
    (htop : maxfd = -1 ∨ ∃ fd : Fin setSize, maxfd = fd.val ∧ (events fd).mask ≠ aeNone) :
    Topped ⟨maxfd, events⟩ := by
  rcases htop with rfl | ⟨fd, rfl, hset⟩
  · refine .inl ⟨rfl, fun fd _ => by_contra fun hset => ?_⟩
    have hle := hup fd hset
    omega
  · exact .inr ⟨fd, rfl, fd.isLt, hset, fun fd' _ hset' => Int.ofNat_le.mp (hup fd' hset')⟩

theorem Topped.top (h : Topped loop) :
    loop.maxfd = -1 ∨
      ∃ fd : Fin setSize, loop.maxfd = fd.val ∧ (loop.events fd).mask ≠ aeNone := by
  rcases h with ⟨htop, -⟩ | ⟨fd, htop, -, hset, -⟩
  · exact .inl htop
  · exact .inr ⟨fd, htop, hset⟩

theorem aeCreateEventLoop_topped (memory : Fin setSize → FileEvent) :
    Topped (aeCreateEventLoop memory) :=
  .inl ⟨rfl, fun _ _ => rfl⟩

theorem or_ne_none {m m' : BitVec 32} (h : m ≠ aeNone ∨ m' ≠ aeNone) : m ||| m' ≠ aeNone := by
  intro hor
  obtain ⟨hl, hr⟩ := BitVec.or_eq_zero_iff.mp hor
  exact h.elim (absurd hl) (absurd hr)

theorem aeCreateFileEvent_topped (h : Topped loop) (hmask : mask ≠ aeNone) :
    Topped (aeCreateFileEvent loop fd mask proc clientData added).1 := by
  unfold aeCreateFileEvent
  split
  · exact h
  · rename_i hfd
    split
    · exact h
    · dsimp only
      generalize hslot : (⟨fd, Nat.lt_of_not_ge hfd⟩ : Fin setSize) = slot
      have hval : slot.val = fd := by rw [← hslot]
      have hadd : (Function.update loop.events slot
          ((loop.events slot).add mask proc clientData) slot).mask ≠ aeNone := by
        rw [Function.update_self]
        exact or_ne_none (.inr hmask)
      refine Topped.of_le (fun fd' hset => ?_) ?_
      · by_cases hsame : fd' = slot
        · rw [hsame, hval]
          split <;> omega
        · rw [Function.update_of_ne hsame] at hset
          have hle := h.le hset
          split <;> omega
      · split
        · exact .inr ⟨slot, by rw [hval], hadd⟩
        · rcases h.top with htop | ⟨top, htop, hset⟩
          · omega
          · refine .inr ⟨top, htop, ?_⟩
            by_cases hsame : top = slot
            · rwa [hsame]
            · rwa [Function.update_of_ne hsame]

theorem aeDeleteFileEvent_topped (h : Topped loop) : Topped (aeDeleteFileEvent loop fd mask) := by
  unfold aeDeleteFileEvent
  split
  · exact h
  · rename_i hfd
    dsimp only
    split
    · exact h
    · generalize hslot : (⟨fd, Nat.lt_of_not_ge hfd⟩ : Fin setSize) = slot
      have hval : slot.val = fd := by rw [← hslot]
      generalize hleft : (loop.events slot).mask &&& ~~~mask = left
      -- a mask only loses events
      have hset {fd' : Fin setSize} (hset : (Function.update loop.events slot
          { loop.events slot with mask := left } fd').mask ≠ aeNone) :
          (loop.events fd').mask ≠ aeNone := by
        by_cases hsame : fd' = slot
        · subst hsame hleft
          rw [Function.update_self] at hset
          intro hnone
          exact hset (by dsimp only; rw [hnone]; exact BitVec.zero_and)
        · rwa [Function.update_of_ne hsame] at hset
      split
      · rename_i hlast
        obtain ⟨hmax, hempty⟩ := hlast
        have hlow {fd' : Fin setSize} (hset' : (Function.update loop.events slot
            { loop.events slot with mask := left } fd').mask ≠ aeNone) : fd'.val < fd := by
          have hle := h.le (hset hset')
          refine Nat.lt_of_le_of_ne (by omega) fun heq => hset' ?_
          rw [show fd' = slot from Fin.ext (heq.trans hval.symm), Function.update_self]
          exact hempty
        rcases scanDown_isTop (Nat.le_of_lt (Nat.lt_of_not_ge hfd)) with
          ⟨htop, hall⟩ | ⟨top, htop, -, hset', hup⟩
        · exact .inl ⟨htop, fun fd' _ => by_contra fun hset' => hset' (hall fd' (hlow hset'))⟩
        · exact .inr ⟨top, htop, top.isLt, hset', fun fd' _ hset' => hup fd' (hlow hset') hset'⟩
      · rename_i hother
        refine Topped.of_le (fun fd' hset' => h.le (hset hset')) ?_
        rcases h.top with htop | ⟨top, htop, hset'⟩
        · exact .inl htop
        · refine .inr ⟨top, htop, ?_⟩
          by_cases hsame : top = slot
          · rw [hsame, Function.update_self]
            exact fun hempty => hother ⟨by rw [htop, hsame, hval], hempty⟩
          · rwa [Function.update_of_ne hsame]

theorem Call.exec_topped {call : Call} (h : Topped loop) (hmask : call.mask ≠ aeNone) :
    Topped (call.exec loop) := by
  cases call with
  | create fd mask proc clientData added => exact aeCreateFileEvent_topped h hmask
  | delete fd mask => exact aeDeleteFileEvent_topped h

/-! ## The masks -/

variable {call : Call} {calls : List Call} {memory : Fin setSize → FileEvent} {b : Nat}

theorem aeCreateFileEvent_mask :
    ((aeCreateFileEvent loop fd mask proc clientData added).1.events slot).mask.getLsbD b = true ↔
      (fd = slot.val ∧ added ≠ -1 ∧ mask.getLsbD b = true) ∨
        (loop.events slot).mask.getLsbD b = true := by
  unfold aeCreateFileEvent
  split
  · rename_i hfd
    have hne : fd ≠ slot.val := fun heq => absurd slot.isLt (Nat.not_lt.mpr (heq ▸ hfd))
    simp [hne]
  · split
    · rename_i hfailed
      simp [hfailed]
    · rename_i hfd hadded
      dsimp only
      by_cases hsame : fd = slot.val
      · subst hsame
        rw [Function.update_self]
        simp [FileEvent.add, hadded, or_comm]
      · rw [Function.update_of_ne fun heq => hsame (by rw [heq])]
        simp [hsame]

theorem aeDeleteFileEvent_mask :
    ((aeDeleteFileEvent loop fd mask).events slot).mask.getLsbD b = true ↔
      (loop.events slot).mask.getLsbD b = true ∧ ¬(fd = slot.val ∧ mask.getLsbD b = true) := by
  have hlow {m : BitVec 32} (h : m.getLsbD b = true) : b < 32 := BitVec.lt_of_getLsbD h
  unfold aeDeleteFileEvent
  split
  · rename_i hfd
    have hne : fd ≠ slot.val := fun heq => absurd slot.isLt (Nat.not_lt.mpr (heq ▸ hfd))
    simp [hne]
  · rename_i hfd
    dsimp only
    by_cases hsame : fd = slot.val
    · subst hsame
      split
      · rename_i hempty
        simp [hempty, aeNone]
      · have hevents (maxfd : Int) :
            (Function.update loop.events slot { loop.events slot with
              mask := (loop.events slot).mask &&& ~~~mask } slot).mask.getLsbD b = true ↔
            (loop.events slot).mask.getLsbD b = true ∧ ¬mask.getLsbD b = true := by
          rw [Function.update_self]
          simp only [BitVec.getLsbD_and, BitVec.getLsbD_not, Bool.and_eq_true, decide_eq_true_eq,
            Bool.not_eq_true', Bool.not_eq_true]
          exact ⟨fun h => ⟨h.1, h.2.2⟩, fun h => ⟨h.1, hlow h.1, h.2⟩⟩
        split
        · simpa using hevents 0
        · simpa using hevents 0
    · have hother (left : FileEvent) :
          Function.update loop.events ⟨fd, Nat.lt_of_not_ge hfd⟩ left slot = loop.events slot :=
        Function.update_of_ne (fun heq => hsame (by rw [heq])) left loop.events
      split
      · simp [hsame]
      · split
        · simp [hother, hsame]
        · simp [hother, hsame]

/-- One call, for the mask of any descriptor. -/
theorem Call.exec_mask : ((call.exec loop).events slot).mask.getLsbD b = true ↔
    call.Adds slot b ∨ (loop.events slot).mask.getLsbD b = true ∧ ¬call.Deletes slot b := by
  cases call with
  | create fd mask proc clientData added =>
    refine aeCreateFileEvent_mask.trans (or_congr Iff.rfl ?_)
    exact ⟨fun h => ⟨h, not_false⟩, And.left⟩
  | delete fd mask =>
    refine aeDeleteFileEvent_mask.trans ⟨.inr, fun h => h.elim False.elim id⟩

theorem aeCreateFileEvent_refused (loop : EventLoop) (fd : Nat) (mask : BitVec 32)
    (proc clientData : Nat) :
    (aeCreateFileEvent loop fd mask proc clientData (-1)).2 = aeErr := by
  unfold aeCreateFileEvent
  split
  · rfl
  · rw [if_pos rfl]

/-- A call that fails leaves the event loop as it was. -/
theorem aeCreateFileEvent_failed (loop : EventLoop) (fd : Nat) (mask : BitVec 32)
    (proc clientData : Nat) (added : Int)
    (h : (aeCreateFileEvent loop fd mask proc clientData added).2 ≠ aeOk) :
    (aeCreateFileEvent loop fd mask proc clientData added).1 = loop := by
  unfold aeCreateFileEvent at h ⊢
  split
  · rfl
  · rename_i hfd
    rw [dif_neg hfd] at h
    split
    · rfl
    · rename_i hadded
      rw [if_neg hadded] at h
      exact absurd rfl h

/-! ## Every sequence of calls -/

/-- After every sequence of calls with masks that are not empty, `maxfd` is the largest descriptor with
events, and an event is in the mask of a descriptor where a call that succeeded put it there and none
since took it out. A call that the poller refuses fails, and one that fails changes nothing. -/
theorem run_files (hmasks : ∀ call ∈ calls, call.mask ≠ aeNone) :
    Topped (calls.foldl Call.exec (aeCreateEventLoop memory)) ∧
    (∀ fd b, ((calls.foldl Call.exec (aeCreateEventLoop memory)).events fd).mask.getLsbD b = true ↔
      Standing (Call.Adds fd b) (Call.Deletes fd b) calls) ∧
    ∀ (loop : EventLoop) (fd : Nat) (mask : BitVec 32) (proc clientData : Nat),
      (aeCreateFileEvent loop fd mask proc clientData (-1)).2 = aeErr ∧
      ∀ added, (aeCreateFileEvent loop fd mask proc clientData added).2 ≠ aeOk →
        (aeCreateFileEvent loop fd mask proc clientData added).1 = loop := by
  refine ⟨?_, fun fd b => ?_, fun loop fd mask proc clientData => ⟨?_, fun added => ?_⟩⟩
  · induction calls using List.reverseRecOn with
    | nil => exact aeCreateEventLoop_topped memory
    | append_singleton calls call ih =>
      rw [List.foldl_append]
      refine Call.exec_topped (ih fun c hc => hmasks c (List.mem_append_left _ hc)) ?_
      exact hmasks call (List.mem_append_right _ (List.mem_singleton_self call))
  · clear hmasks
    induction calls using List.reverseRecOn with
    | nil => simp [aeCreateEventLoop, aeNone, Standing.not_nil]
    | append_singleton calls call ih =>
      rw [List.foldl_append, Standing.snoc_iff, ← ih]
      exact Call.exec_mask
  · exact aeCreateFileEvent_refused loop fd mask proc clientData
  · exact aeCreateFileEvent_failed loop fd mask proc clientData added

/-- Two descriptors; the poller refuses a third, and the larger one goes. -/
theorem run_files_two :
    Topped (([.create 7 1 100 0 0, .create 9 2 200 0 0, .create 11 1 100 0 (-1), .delete 9 3] :
      List Call).foldl Call.exec (aeCreateEventLoop fun _ => ⟨5, 0, 0, 0⟩)) ∧
    (([.create 7 1 100 0 0, .create 9 2 200 0 0, .create 11 1 100 0 (-1), .delete 9 3] :
      List Call).foldl Call.exec (aeCreateEventLoop fun _ => ⟨5, 0, 0, 0⟩)).maxfd = 7 :=
  ⟨(run_files (by decide)).1, rfl⟩

end Rtfsc.Redis.AeFiles
