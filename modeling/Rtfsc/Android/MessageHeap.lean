import Rtfsc.Machine.Chains
import Mathlib.Data.UInt

/-!
# Message: the pool and the queues on the heap

`Message` objects with the fields that the pool and the queues share: `next` links the messages of the
pool and those of every queue, `flags` marks a message that is queued, delivered or pooled. Calls are
whole; a call of `next` is its passes through the synchronized block, the last of which returns. When
calls wake the looper is a matter of `QueueState`.
-/

namespace Rtfsc.Android

open Rtfsc.Machine

/-- `Message.UID_NONE` -/
def uidNone : Int32 := -1

/-- `FLAG_IN_USE` -/
def flagInUse : UInt32 := (1 : UInt32) <<< 0

/-- `FLAG_ASYNCHRONOUS` -/
def flagAsynchronous : UInt32 := (1 : UInt32) <<< 1

/-- `MAX_POOL_SIZE` -/
def maxPoolSize : Int := 50

/-- The fields of a `Message` besides `next` and `flags`, with what they are in a new one. Objects are
numbers, `null` is `none`. -/
structure MessageContent where
  what : Int32 := 0
  arg1 : Int32 := 0
  arg2 : Int32 := 0
  obj : Option Nat := none
  replyTo : Option Nat := none
  sendingUid : Int32 := uidNone
  workSourceUid : Int32 := uidNone
  when : Int64 := 0
  data : Option Nat := none
  target : Option Nat := none
  callback : Option Nat := none
deriving DecidableEq

/-- What `recycleUnchecked` assigns. -/
def recycledContent : MessageContent where
  what := 0
  arg1 := 0
  arg2 := 0
  obj := none
  replyTo := none
  sendingUid := uidNone
  workSourceUid := uidNone
  when := 0
  target := none
  callback := none
  data := none

theorem recycledContent_eq : recycledContent = {} := rfl

/-- The messages, field by field, of which the first `created` ones exist; the static fields of `Message`;
and the fields of the queues, of which `disposed` stands for `mPtr == 0`. -/
structure MessageHeap where
  next : Nat → Option Nat
  flags : Nat → UInt32
  content : Nat → MessageContent
  created : Nat
  sPool : Option Nat
  sPoolSize : Int
  gCheckRecycle : Bool
  mMessages : Nat → Option Nat
  mQuitting : Nat → Bool
  mNextBarrierToken : Nat → Int32
  disposed : Nat → Bool

/-- What is thrown: the exceptions of `enqueueMessage`, of `recycle` and of `removeSyncBarrier`. -/
inductive MessageException
  | mustHaveTarget
  | alreadyInUse (m : Nat)
  | stillInUse
  | noSuchBarrier
deriving DecidableEq

/-- What a call comes to. `waits`: a pass of `next` that ends in another poll or in idle handlers. -/
inductive MessageResult
  | done
  | message (m : Nat)
  | noMessage
  | accepted (b : Bool)
  | token (t : Int32)
  | waits
  | threw (e : MessageException)
deriving DecidableEq

namespace MessageHeap

/-- No message yet, and empty queues. -/
def new (gCheckRecycle : Bool) : MessageHeap where
  next := fun _ => none
  flags := fun _ => 0
  content := fun _ => {}
  created := 0
  sPool := none
  sPoolSize := 0
  gCheckRecycle := gCheckRecycle
  mMessages := fun _ => none
  mQuitting := fun _ => false
  mNextBarrierToken := fun _ => 0
  disposed := fun _ => false

/-! ## Messages -/

/-- `isInUse` -/
def isInUse (σ : MessageHeap) (m : Nat) : Bool := (σ.flags m &&& flagInUse) == flagInUse

/-- `isAsynchronous` -/
def isAsynchronous (σ : MessageHeap) (m : Nat) : Bool := (σ.flags m &&& flagAsynchronous) != 0

/-- `markInUse` -/
def markInUse (σ : MessageHeap) (m : Nat) : MessageHeap :=
  { σ with flags := Function.update σ.flags m (σ.flags m ||| flagInUse) }

/-- `setAsynchronous` -/
def setAsynchronous (σ : MessageHeap) (m : Nat) (async : Bool) : MessageHeap :=
  let flags := if async then σ.flags m ||| flagAsynchronous else σ.flags m &&& ~~~flagAsynchronous
  { σ with flags := Function.update σ.flags m flags }

/-- Fields of a message are written. -/
def setContent (σ : MessageHeap) (m : Nat) (c : MessageContent) : MessageHeap :=
  { σ with content := Function.update σ.content m c }

def setNext (σ : MessageHeap) (m : Nat) (v : Option Nat) : MessageHeap :=
  { σ with next := Function.update σ.next m v }

/-- `new Message()` -/
def construct (σ : MessageHeap) : Nat × MessageHeap :=
  (σ.created, { σ with
    created := σ.created + 1
    next := Function.update σ.next σ.created none
    flags := Function.update σ.flags σ.created 0
    content := Function.update σ.content σ.created {} })

/-- `Message.obtain` -/
def obtain (σ : MessageHeap) : Nat × MessageHeap :=
  match σ.sPool with
  | some m => (m, { σ with
      sPool := σ.next m
      next := Function.update σ.next m none
      flags := Function.update σ.flags m 0
      sPoolSize := σ.sPoolSize - 1 })
  | none => σ.construct

/-- `recycleUnchecked` -/
def recycleUnchecked (σ : MessageHeap) (m : Nat) : MessageHeap :=
  let σ := { σ with
    flags := Function.update σ.flags m flagInUse
    content := Function.update σ.content m recycledContent }
  -- a full pool leaves the message to the collector, with its `next` as it is
  if σ.sPoolSize < maxPoolSize then
    { σ with
      next := Function.update σ.next m σ.sPool
      sPool := some m
      sPoolSize := σ.sPoolSize + 1 }
  else σ

/-- `recycle` -/
def recycle (σ : MessageHeap) (m : Nat) : MessageResult × MessageHeap :=
  if σ.isInUse m then
    if σ.gCheckRecycle then (.threw .stillInUse, σ) else (.done, σ)
  else (.done, σ.recycleUnchecked m)

/-! ## Queues -/

/-- A message is put between `prev` and `p`: at the head when there is no `prev`. -/
def link (σ : MessageHeap) (q : Nat) (prev p : Option Nat) (msg : Nat) : MessageHeap :=
  match prev with
  | some prev => (σ.setNext msg p).setNext prev (some msg)
  | none => { σ.setNext msg p with mMessages := Function.update σ.mMessages q (some msg) }

/-- The message behind `prev` is taken out: the head when there is no `prev`. -/
def unlink (σ : MessageHeap) (q : Nat) (prev : Option Nat) (p : Nat) : MessageHeap :=
  match prev with
  | some prev => σ.setNext prev (σ.next p)
  | none => { σ with mMessages := Function.update σ.mMessages q (σ.next p) }

/-- A walk along a queue. No queue has more messages than there are. -/
def walkQueue (σ : MessageHeap) (goesOn : Nat → Bool) (prev p : Option Nat) :
    Option (Option Nat × Option Nat) :=
  walk σ.next goesOn σ.created prev p

/-- The insertion of `enqueueMessage`. -/
def insertEnqueued (σ : MessageHeap) (q msg : Nat) (when : Int64) : Option MessageHeap :=
  match σ.mMessages q with
  | none => some (σ.link q none none msg)
  | some p =>
    if when = 0 ∨ when < (σ.content p).when then some (σ.link q none (some p) msg)
    else do
      let (prev, p) ← σ.walkQueue (fun p => ¬when < (σ.content p).when) (some p) (σ.next p)
      some (σ.link q prev p msg)

/-- `enqueueMessage` -/
def enqueueMessage (σ : MessageHeap) (q msg : Nat) (when : Int64) :
    Option (MessageResult × MessageHeap) :=
  if (σ.content msg).target = none then some (.threw .mustHaveTarget, σ)
  else if σ.isInUse msg then some (.threw (.alreadyInUse msg), σ)
  else if σ.mQuitting q then
    -- what `recycle` throws would come out of the call
    match σ.recycle msg with
    | (.threw e, σ) => some (.threw e, σ)
    | (_, σ) => some (.accepted false, σ)
  else do
    let σ := (σ.markInUse msg).setContent msg { σ.content msg with when := when }
    let σ ← σ.insertEnqueued q msg when
    some (.accepted true, σ)

/-- The insertion of `postSyncBarrier`. -/
def insertPosted (σ : MessageHeap) (q msg : Nat) (when : Int64) : Option MessageHeap := do
  let (prev, p) ←
    if when ≠ 0 then σ.walkQueue (fun p => (σ.content p).when ≤ when) none (σ.mMessages q)
    else some (none, σ.mMessages q)
  some (σ.link q prev p msg)

/-- `postSyncBarrier` -/
def postSyncBarrier (σ : MessageHeap) (q : Nat) (when : Int64) :
    Option (MessageResult × MessageHeap) := do
  let token := σ.mNextBarrierToken q
  let σ := { σ with mNextBarrierToken := Function.update σ.mNextBarrierToken q (token + 1) }
  let (msg, σ) := σ.obtain
  let σ := (σ.markInUse msg).setContent msg { σ.content msg with when := when, arg1 := token }
  let σ ← σ.insertPosted q msg when
  some (.token token, σ)

/-- `removeSyncBarrier` -/
def removeSyncBarrier (σ : MessageHeap) (q : Nat) (token : Int32) :
    Option (MessageResult × MessageHeap) := do
  let (prev, p) ← σ.walkQueue
    (fun p => (σ.content p).target ≠ none ∨ (σ.content p).arg1 ≠ token) none (σ.mMessages q)
  match p with
  | none => some (.threw .noSuchBarrier, σ)
  | some p => some (.done, (σ.unlink q prev p).recycleUnchecked p)

/-- The message that `next` looks at, with the one in front of it: the head, or the first asynchronous
message behind a barrier. -/
def findNext (σ : MessageHeap) (q : Nat) : Option (Option Nat × Option Nat) :=
  match σ.mMessages q with
  | none => some (none, none)
  | some msg =>
    if (σ.content msg).target = none then
      σ.walkQueue (fun p => !σ.isAsynchronous p) (some msg) (σ.next msg)
    else some (none, some msg)

/-- A pass of `next` that finds no message: the queue is disposed of when it quits. -/
def settle (σ : MessageHeap) (q : Nat) : MessageResult × MessageHeap :=
  if σ.mQuitting q then
    (.noMessage, { σ with disposed := Function.update σ.disposed q true })
  else (.waits, σ)

/-- A pass of `next`, at time `now`. -/
def nextPass (σ : MessageHeap) (q : Nat) (now : Int64) : Option (MessageResult × MessageHeap) :=
  if σ.disposed q then some (.noMessage, σ)
  else do
    let (prev, msg) ← σ.findNext q
    match msg with
    | none => some (σ.settle q)
    | some m =>
      if now < (σ.content m).when then some (σ.settle q)
      else some (.message m, ((σ.unlink q prev m).setNext m none).markInUse m)

end MessageHeap

/-- A call. `write` stands for the writes of callers to the fields of a message, `quits` for the moment
at which a queue starts to quit. -/
inductive MessageCall
  | obtain
  | construct
  | write (m : Nat) (c : MessageContent)
  | setAsynchronous (m : Nat) (async : Bool)
  | recycle (m : Nat)
  | recycleUnchecked (m : Nat)
  | enqueueMessage (q m : Nat) (when : Int64)
  | postSyncBarrier (q : Nat) (when : Int64)
  | removeSyncBarrier (q : Nat) (token : Int32)
  | next (q : Nat) (now : Int64)
  | quits (q : Nat)
deriving DecidableEq

/-- The heap, and the messages that `next` has delivered and that are still to be recycled. -/
structure MessageWorld where
  heap : MessageHeap
  delivered : List Nat

namespace MessageWorld

def new (gCheckRecycle : Bool) : MessageWorld := ⟨.new gCheckRecycle, []⟩

/-- What callers do: they name messages that exist, write fields only of messages that are not in use,
and a delivered message goes to `recycleUnchecked` once. -/
def Allowed (w : MessageWorld) : MessageCall → Prop
  | .write m _ => m < w.heap.created ∧ w.heap.isInUse m = false
  | .setAsynchronous m _ => m < w.heap.created
  | .recycle m => m < w.heap.created
  | .recycleUnchecked m => m ∈ w.delivered
  | .enqueueMessage _ m _ => m < w.heap.created
  | _ => True

instance (w : MessageWorld) (c : MessageCall) : Decidable (w.Allowed c) := by
  cases c <;> unfold Allowed <;> infer_instance

/-- The call on the heap. -/
def callHeap (σ : MessageHeap) : MessageCall → Option (MessageResult × MessageHeap)
  | .obtain => some (.message σ.obtain.1, σ.obtain.2)
  | .construct => some (.message σ.construct.1, σ.construct.2)
  | .write m c => some (.done, σ.setContent m c)
  | .setAsynchronous m async => some (.done, σ.setAsynchronous m async)
  | .recycle m => some (σ.recycle m)
  | .recycleUnchecked m => some (.done, σ.recycleUnchecked m)
  | .enqueueMessage q m when => σ.enqueueMessage q m when
  | .postSyncBarrier q when => σ.postSyncBarrier q when
  | .removeSyncBarrier q token => σ.removeSyncBarrier q token
  | .next q now => σ.nextPass q now
  | .quits q => some (.done, { σ with mQuitting := Function.update σ.mQuitting q true })

/-- The messages that are delivered after a call. -/
def deliveredAfter (delivered : List Nat) : MessageCall → MessageResult → List Nat
  | .next _ _, .message m => m :: delivered
  | .recycleUnchecked m, _ => delivered.erase m
  | _, _ => delivered

/-- A call that is allowed. `none`: it is not, or it does not return. -/
def call (w : MessageWorld) (c : MessageCall) : Option (MessageResult × MessageWorld) :=
  if w.Allowed c then
    (callHeap w.heap c).map fun (r, σ) => (r, ⟨σ, deliveredAfter w.delivered c r⟩)
  else none

/-- The world after a call. -/
def step (w : MessageWorld) (c : MessageCall) : Option MessageWorld := (w.call c).map Prod.snd

end MessageWorld

end Rtfsc.Android
