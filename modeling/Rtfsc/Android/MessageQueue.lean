import Rtfsc.Android.Messages
import Rtfsc.Machine.Run
import Mathlib.Logic.Function.Basic

/-!
# MessageQueue

A `MessageQueue` with its looper, one synchronized block after the other: the looper is outside of
`next`, inside a poll, behind a poll or runs its idle handlers; other calls come at any time. What the
clock says comes with the calls, and so does what `removeAllMessagesLocked` and
`removeAllFutureMessagesLocked` leave of the list.
-/

namespace Rtfsc.Android

open Rtfsc.Machine

/-- Where the looper is, with the variables of `next`: the timeout of the poll and the time at which it
was set, and `pendingIdleHandlerCount`. -/
inductive Looper
  | outside
  | polling (timeout : Int) (since : Nat) (pendingIdleHandlerCount : Int)
  | polled (pendingIdleHandlerCount : Int)
  | idling
deriving DecidableEq

/-- The queue, the flags of message objects, whether a wake is pending in native code, the looper, and
for the record the messages that were ever inserted, those that `next` has returned and those that were
removed. -/
structure QueueState where
  mMessages : List Message
  mQuitting : Bool
  mBlocked : Bool
  mNextBarrierToken : UInt32
  disposed : Bool
  inUse : Nat → Bool
  wake : Bool
  looper : Looper
  inserted : List Message
  returned : List Message
  removed : List Message

/-- What a call answers. -/
inductive Answer
  | done
  | threw
  | accepted (b : Bool)
  | token (t : UInt32)
  | message (m : Message)
  | noMessage
deriving DecidableEq

/-- `Integer.MAX_VALUE`. -/
def intMax : Int := 2147483647

namespace QueueState

/-- A new queue. -/
def new : QueueState where
  mMessages := []
  mQuitting := false
  mBlocked := false
  mNextBarrierToken := 0
  disposed := false
  inUse := fun _ => false
  wake := false
  looper := .outside
  inserted := []
  returned := []
  removed := []

/-- No message of the queue is this object: so it is when `Message.obtain` returns it. -/
def Unlinked (s : QueueState) (object : Nat) : Prop := object ∉ s.mMessages.map Message.object

instance (s : QueueState) (object : Nat) : Decidable (s.Unlinked object) := by
  unfold Unlinked
  infer_instance

/-- A message is inserted: the list has it, and its object is in use. -/
def insert (s : QueueState) (m : Message) (l : List Message) : QueueState :=
  { s with
    mMessages := l
    inUse := Function.update s.inUse m.object true
    inserted := s.inserted ++ [m] }

/-- `enqueueMessage`. -/
def enqueueMessage (s : QueueState) (object : Nat) (hasTarget isAsynchronous : Bool) (arg1 : UInt32)
    (when : Nat) : Answer × QueueState :=
  if !hasTarget then (.threw, s)
  else if s.inUse object then (.threw, s)
  else if s.mQuitting then
    -- the message is recycled
    (.accepted false, { s with inUse := Function.update s.inUse object true })
  else
    let msg : Message := ⟨object, when, hasTarget, isAsynchronous, arg1, s.inserted.length⟩
    let (needWake, l) := insertMessage msg s.mBlocked s.mMessages
    (.accepted true, { s.insert msg l with wake := s.wake || needWake })

/-- `postSyncBarrier`, with the object that it obtains. -/
def postSyncBarrier (s : QueueState) (object when : Nat) : Answer × QueueState :=
  let msg : Message := ⟨object, when, false, false, s.mNextBarrierToken, s.inserted.length⟩
  (.token s.mNextBarrierToken,
    { s.insert msg (insertBarrier msg s.mMessages) with
      mNextBarrierToken := s.mNextBarrierToken + 1 })

/-- `removeSyncBarrier`. -/
def removeSyncBarrier (s : QueueState) (token : UInt32) : Answer × QueueState :=
  match removeBarrier token s.mMessages with
  | none => (.threw, s)
  | some (p, needWake, l) =>
    (.done, { s with
      mMessages := l
      removed := s.removed ++ [p]
      wake := s.wake || (needWake && !s.mQuitting) })

/-- `quit`, with what it leaves of the list. -/
def quit (s : QueueState) (kept gone : List Message) : Answer × QueueState :=
  if s.mQuitting then (.done, s)
  else (.done, { s with
    mQuitting := true
    mMessages := kept
    removed := s.removed ++ gone
    wake := true })

/-- The synchronized block of `next`, when no message is returned: the poll gets its timeout, unless the
queue quits or there are idle handlers to run. -/
def settle (s : QueueState) (now idlers : Nat) (pending timeout : Int) : Answer × QueueState :=
  if s.mQuitting then (.noMessage, { s with disposed := true, looper := .outside })
  else
    let isIdle := s.mMessages.head?.all fun m => now < m.when
    let pending := if pending < 0 ∧ isIdle = true then (idlers : Int) else pending
    if pending ≤ 0 then
      (.done, { s with mBlocked := true, looper := .polling timeout now pending })
    else (.done, { s with looper := .idling })

/-- The synchronized block of `next`. -/
def nextBlock (s : QueueState) (now idlers : Nat) (pending : Int) : Answer × QueueState :=
  match takeEligible s.mMessages with
  | none => s.settle now idlers pending (-1)
  | some (m, rest) =>
    if now < m.when then s.settle now idlers pending (min (m.when - now) intMax)
    else (.message m, { s with
      mBlocked := false
      mMessages := rest
      inUse := Function.update s.inUse m.object true
      looper := .outside
      returned := s.returned ++ [m] })

end QueueState

/-- A call, or a step of the looper. -/
inductive QueueEvent
  | obtain (object : Nat)
  | enqueueMessage (object : Nat) (hasTarget isAsynchronous : Bool) (arg1 : UInt32) (when : Nat)
  | postSyncBarrier (object now : Nat)
  | removeSyncBarrier (token : UInt32)
  | quit (kept gone : List Message)
  | callNext (now : Nat)
  | pollReturns (awoken : Bool)
  | nextBlock (now idlers : Nat)
  | idlersDone (now : Nat)

open QueueState

/-- One step, with its answer. An object that is obtained is in no queue, what `quit` leaves is a part of
the list, and each step of the looper has its place. -/
def queueStep (s : QueueState) : QueueEvent → Option (Answer × QueueState)
  | .obtain object =>
    if s.Unlinked object then some (.done, { s with inUse := Function.update s.inUse object false })
    else none
  | .enqueueMessage object hasTarget isAsynchronous arg1 when =>
    some (s.enqueueMessage object hasTarget isAsynchronous arg1 when)
  | .postSyncBarrier object now =>
    if s.Unlinked object then some (s.postSyncBarrier object now) else none
  | .removeSyncBarrier token => some (s.removeSyncBarrier token)
  | .quit kept gone =>
    if kept.Sublist s.mMessages ∧ (kept ++ gone).Perm s.mMessages then some (s.quit kept gone) else none
  | .callNext now =>
    match s.looper with
    | .outside =>
      if s.disposed then some (.noMessage, s)
      else some (.done, { s with looper := .polling 0 now (-1) })
    | _ => none
  | .pollReturns awoken =>
    match s.looper with
    | .polling _ _ pending => some (.done, { s with looper := .polled pending, wake := s.wake && !awoken })
    | _ => none
  | .nextBlock now idlers =>
    match s.looper with
    | .polled pending => some (s.nextBlock now idlers pending)
    | _ => none
  | .idlersDone now =>
    match s.looper with
    | .idling => some (.done, { s with looper := .polling 0 now 0 })
    | _ => none

/-- Runs of a queue: the events with their answers. -/
abbrev QueueRun : QueueState → List (QueueEvent × Answer) → QueueState → Prop :=
  Run fun s e s' => queueStep s e.1 = some (e.2, s')

end Rtfsc.Android
