import Mathlib.Logic.Function.Basic
import Rtfsc.Machine.Run

/-!
# AbstractQueuedSynchronizer

The queue of the threads that wait for a `Mutex`, the one of the class comment, with any number of
threads that lock and unlock it. A step is one access of a thread to a volatile field, together with what
it does by itself behind the access. A thread that waits in an interruptible or a timed mode may give up.
-/

namespace Rtfsc.Jdk

/-- `Node.CANCELLED` -/
def cancelledStatus : Int := 1

/-- `Node.SIGNAL` -/
def signalStatus : Int := -1

/-- The loop over cancelled predecessors stands in two functions. -/
inductive SkipLoop
  | shouldParkAfterFailedAcquire
  | cancelAcquire
deriving DecidableEq

/-- Where a thread is, in front of an access. With a node in `unparkSuccessor` goes whether it is called
from `cancelAcquire` or from `release`. -/
inductive SyncPc (Θ ν : Type)
  | idle
  | held
  /-- an exception has been thrown -/
  | threw
  /-- `addWaiter` and `enq`, which end alike -/
  | addWaiter (node : ν)
  | enq (node : ν)
  | initHead (node : ν)
  | readHead (node : ν)
  | initTail (node : ν) (h : Option ν)
  | linkPrev (node t : ν)
  | casTail (node t : ν)
  | linkNext (node t : ν)
  /-- `acquireQueued`, `doAcquireInterruptibly` and `doAcquireNanos`, with `setHead` -/
  | predecessor (node : ν)
  | isHead (node p : ν)
  | tryAcquire (node p : ν)
  | setHead (node p : ν)
  | clearThread (node p : ν)
  | clearPrev (node p : ν)
  | clearNext (p : ν)
  /-- `shouldParkAfterFailedAcquire`, `parkAndCheckInterrupt` -/
  | predStatus (node pred : ν)
  | skip (loop : SkipLoop) (node pred : ν)
  | skipTo (loop : SkipLoop) (node : ν) (pred : Option ν)
  | skipStatus (loop : SkipLoop) (node pred : ν)
  | skipped (node pred : ν)
  | signal (node pred : ν) (ws : Int)
  | park (node : ν)
  /-- `cancelAcquire` -/
  | cancel (node : ν)
  | cancelPrev (node : ν)
  | cancelNext (node pred : ν)
  | cancelMark (node pred : ν) (predNext : Option ν)
  | cancelTail (node pred : ν) (predNext : Option ν)
  | cancelCasTail (node pred : ν) (predNext : Option ν)
  | cancelCut (node pred : ν) (predNext : Option ν)
  | cancelHead (node pred : ν) (predNext : Option ν)
  | cancelPredStatus (node pred : ν) (predNext : Option ν)
  | cancelSignal (node pred : ν) (predNext : Option ν) (ws : Int)
  | cancelPredThread (node pred : ν) (predNext : Option ν)
  | cancelReadNext (node pred : ν) (predNext : Option ν)
  | cancelNextStatus (node pred : ν) (predNext : Option ν) (next : ν)
  | cancelLink (node pred : ν) (predNext : Option ν) (next : ν)
  | cancelSelf (node : ν)
  /-- `release` -/
  | unlock
  | releaseHead
  | releaseStatus (h : ν)
  /-- `unparkSuccessor` -/
  | unparkStatus (cancels : Bool) (node : ν)
  | unparkClear (cancels : Bool) (node : ν) (ws : Int)
  | unparkNext (cancels : Bool) (node : ν)
  | unparkNextStatus (cancels : Bool) (node s : ν)
  | unparkTail (cancels : Bool) (node : ν)
  | scanStatus (cancels : Bool) (node t : ν) (s : Option ν)
  | scanPrev (cancels : Bool) (node t : ν) (s : Option ν)
  | unparkThread (cancels : Bool) (node s : ν)
  | unpark (cancels : Bool) (node : ν) (thread : Option Θ)

/-- The fields of the synchronizer and of the nodes, the permits of `LockSupport`, and the threads. For the
record: the place of each node in the order in which nodes were appended, from one on. -/
structure Sync (Θ ν : Type) where
  state : Int
  head : Option ν
  tail : Option ν
  waitStatus : ν → Int
  prev : ν → Option ν
  next : ν → Option ν
  thread : ν → Option Θ
  made : ν → Bool
  permit : Θ → Bool
  pc : Θ → SyncPc Θ ν
  place : ν → Nat
  appended : Nat

/-- What happens: a call, with the node that is made for it; the `new Node()` of `enq`; the next access of a
thread; a thread that waits gives up, or comes back from `park` for no reason. -/
inductive SyncEvent (Θ ν : Type)
  | acquire (θ : Θ) (node : ν)
  | tryLock (θ : Θ)
  | release (θ : Θ)
  | newHead (θ : Θ) (node : ν)
  | access (θ : Θ)
  | giveUp (θ : Θ)
  | wake (θ : Θ)

namespace Sync

variable {Θ ν : Type}

def init : Sync Θ ν where
  state := 0
  head := none
  tail := none
  waitStatus _ := 0
  prev _ := none
  next _ := none
  thread _ := none
  made _ := false
  permit _ := false
  pc _ := .idle
  place _ := 0
  appended := 0

/-- A node that has given up. -/
def Cancelled (s : Sync Θ ν) (x : ν) : Prop := 0 < s.waitStatus x

instance (s : Sync Θ ν) (x : ν) : Decidable (s.Cancelled x) := inferInstanceAs (Decidable (0 < _))

variable [DecidableEq Θ] [DecidableEq ν]

def setPc (s : Sync Θ ν) (θ : Θ) (pc : SyncPc Θ ν) : Sync Θ ν :=
  { s with pc := Function.update s.pc θ pc }

def setPrev (s : Sync Θ ν) (x : ν) (v : Option ν) : Sync Θ ν :=
  { s with prev := Function.update s.prev x v }

def setNext (s : Sync Θ ν) (x : ν) (v : Option ν) : Sync Θ ν :=
  { s with next := Function.update s.next x v }

def setThread (s : Sync Θ ν) (x : ν) (v : Option Θ) : Sync Θ ν :=
  { s with thread := Function.update s.thread x v }

def setStatus (s : Sync Θ ν) (x : ν) (v : Int) : Sync Θ ν :=
  { s with waitStatus := Function.update s.waitStatus x v }

/-- `compareAndSetNext` -/
def casNext (s : Sync Θ ν) (x : ν) (expect update : Option ν) : Sync Θ ν :=
  if s.next x = expect then s.setNext x update else s

/-- A `new Node`, with its thread. -/
def newNode (s : Sync Θ ν) (node : ν) (thread : Option Θ) : Sync Θ ν :=
  { ((s.setPrev node none).setNext node none).setThread node thread |>.setStatus node 0 with
    made := Function.update s.made node true }

/-- The node is the new `tail`. -/
def append (s : Sync Θ ν) (node : ν) : Sync Θ ν :=
  { s with
    tail := some node
    place := Function.update s.place node (s.appended + 1)
    appended := s.appended + 1 }

/-- `LockSupport.unpark` -/
def unparkThread (s : Sync Θ ν) : Option Θ → Sync Θ ν
  | none => s
  | some θ => { s with permit := Function.update s.permit θ true }

/-- Behind `unparkSuccessor`. -/
def afterUnpark (cancels : Bool) (node : ν) : SyncPc Θ ν :=
  if cancels then .cancelSelf node else .idle

/-- The condition of the loop from the tail, and what follows on it. -/
def scan (cancels : Bool) (node : ν) (s : Option ν) : Option ν → SyncPc Θ ν
  | some t => if t = node then found s else .scanStatus cancels node t s
  | none => found s
where
  /-- `if (s != null) LockSupport.unpark(s.thread)` -/
  found : Option ν → SyncPc Θ ν
  | none => afterUnpark cancels node
  | some s => .unparkThread cancels node s

/-- The next access of a thread. -/
def access (s : Sync Θ ν) (θ : Θ) : Option (Sync Θ ν) :=
  match s.pc θ with
  | .idle => none
  | .held => none
  | .threw => none
  | .addWaiter node =>
    match s.tail with
    | some pred => some (s.setPc θ (.linkPrev node pred))
    | none => some (s.setPc θ (.enq node))
  | .enq node =>
    match s.tail with
    | none => some (s.setPc θ (.initHead node))
    | some t => some (s.setPc θ (.linkPrev node t))
  | .initHead _ => none
  | .readHead node => some (s.setPc θ (.initTail node s.head))
  | .initTail node h => some ({ s with tail := h }.setPc θ (.enq node))
  | .linkPrev node t => some ((s.setPrev node (some t)).setPc θ (.casTail node t))
  | .casTail node t =>
    if s.tail = some t then some ((s.append node).setPc θ (.linkNext node t)) else some (s.setPc θ (.enq node))
  | .linkNext node t => some ((s.setNext t (some node)).setPc θ (.predecessor node))
  | .predecessor node =>
    match s.prev node with
    | none => some (s.setPc θ .threw)
    | some p => some (s.setPc θ (.isHead node p))
  | .isHead node p =>
    if s.head = some p then some (s.setPc θ (.tryAcquire node p)) else some (s.setPc θ (.predStatus node p))
  | .tryAcquire node p =>
    if s.state = 0 then some ({ s with state := 1 }.setPc θ (.setHead node p))
    else some (s.setPc θ (.predStatus node p))
  | .setHead node p => some ({ s with head := some node }.setPc θ (.clearThread node p))
  | .clearThread node p => some ((s.setThread node none).setPc θ (.clearPrev node p))
  | .clearPrev node p => some ((s.setPrev node none).setPc θ (.clearNext p))
  | .clearNext p => some ((s.setNext p none).setPc θ .held)
  | .predStatus node pred =>
    if s.waitStatus pred = signalStatus then some (s.setPc θ (.park node))
    else if 0 < s.waitStatus pred then some (s.setPc θ (.skip .shouldParkAfterFailedAcquire node pred))
    else some (s.setPc θ (.signal node pred (s.waitStatus pred)))
  | .skip loop node pred => some (s.setPc θ (.skipTo loop node (s.prev pred)))
  | .skipTo loop node pred =>
    match pred with
    | none => some ((s.setPrev node none).setPc θ .threw)
    | some p => some ((s.setPrev node (some p)).setPc θ (.skipStatus loop node p))
  | .skipStatus loop node pred =>
    if 0 < s.waitStatus pred then some (s.setPc θ (.skip loop node pred))
    else
      match loop with
      | .shouldParkAfterFailedAcquire => some (s.setPc θ (.skipped node pred))
      | .cancelAcquire => some (s.setPc θ (.cancelNext node pred))
  | .skipped node pred => some ((s.setNext pred (some node)).setPc θ (.predecessor node))
  | .signal node pred ws =>
    if s.waitStatus pred = ws then some ((s.setStatus pred signalStatus).setPc θ (.predecessor node))
    else some (s.setPc θ (.predecessor node))
  | .park node =>
    if s.permit θ then
      some ({ s with permit := Function.update s.permit θ false }.setPc θ (.predecessor node))
    else none
  | .cancel node => some ((s.setThread node none).setPc θ (.cancelPrev node))
  | .cancelPrev node =>
    match s.prev node with
    | none => some (s.setPc θ .threw)
    | some pred => some (s.setPc θ (.skipStatus .cancelAcquire node pred))
  | .cancelNext node pred => some (s.setPc θ (.cancelMark node pred (s.next pred)))
  | .cancelMark node pred predNext =>
    some ((s.setStatus node cancelledStatus).setPc θ (.cancelTail node pred predNext))
  | .cancelTail node pred predNext =>
    if s.tail = some node then some (s.setPc θ (.cancelCasTail node pred predNext))
    else some (s.setPc θ (.cancelHead node pred predNext))
  | .cancelCasTail node pred predNext =>
    if s.tail = some node then some ({ s with tail := some pred }.setPc θ (.cancelCut node pred predNext))
    else some (s.setPc θ (.cancelHead node pred predNext))
  | .cancelCut _ pred predNext => some ((s.casNext pred predNext none).setPc θ .idle)
  | .cancelHead node pred predNext =>
    if s.head = some pred then some (s.setPc θ (.unparkStatus true node))
    else some (s.setPc θ (.cancelPredStatus node pred predNext))
  | .cancelPredStatus node pred predNext =>
    if s.waitStatus pred = signalStatus then some (s.setPc θ (.cancelPredThread node pred predNext))
    else if s.waitStatus pred ≤ 0 then
      some (s.setPc θ (.cancelSignal node pred predNext (s.waitStatus pred)))
    else some (s.setPc θ (.unparkStatus true node))
  | .cancelSignal node pred predNext ws =>
    if s.waitStatus pred = ws then
      some ((s.setStatus pred signalStatus).setPc θ (.cancelPredThread node pred predNext))
    else some (s.setPc θ (.unparkStatus true node))
  | .cancelPredThread node pred predNext =>
    if s.thread pred ≠ none then some (s.setPc θ (.cancelReadNext node pred predNext))
    else some (s.setPc θ (.unparkStatus true node))
  | .cancelReadNext node pred predNext =>
    match s.next node with
    | none => some (s.setPc θ (.cancelSelf node))
    | some next => some (s.setPc θ (.cancelNextStatus node pred predNext next))
  | .cancelNextStatus node pred predNext next =>
    if s.waitStatus next ≤ 0 then some (s.setPc θ (.cancelLink node pred predNext next))
    else some (s.setPc θ (.cancelSelf node))
  | .cancelLink node pred predNext next =>
    some ((s.casNext pred predNext (some next)).setPc θ (.cancelSelf node))
  | .cancelSelf node => some ((s.setNext node (some node)).setPc θ .idle)
  | .unlock => some ({ s with state := 0 }.setPc θ .releaseHead)
  | .releaseHead =>
    match s.head with
    | none => some (s.setPc θ .idle)
    | some h => some (s.setPc θ (.releaseStatus h))
  | .releaseStatus h =>
    if s.waitStatus h ≠ 0 then some (s.setPc θ (.unparkStatus false h)) else some (s.setPc θ .idle)
  | .unparkStatus cancels node =>
    if s.waitStatus node < 0 then some (s.setPc θ (.unparkClear cancels node (s.waitStatus node)))
    else some (s.setPc θ (.unparkNext cancels node))
  | .unparkClear cancels node ws =>
    if s.waitStatus node = ws then some ((s.setStatus node 0).setPc θ (.unparkNext cancels node))
    else some (s.setPc θ (.unparkNext cancels node))
  | .unparkNext cancels node =>
    match s.next node with
    | none => some (s.setPc θ (.unparkTail cancels node))
    | some next => some (s.setPc θ (.unparkNextStatus cancels node next))
  | .unparkNextStatus cancels node next =>
    if 0 < s.waitStatus next then some (s.setPc θ (.unparkTail cancels node))
    else some (s.setPc θ (.unparkThread cancels node next))
  | .unparkTail cancels node => some (s.setPc θ (scan cancels node none s.tail))
  | .scanStatus cancels node t found =>
    some (s.setPc θ (.scanPrev cancels node t (if s.waitStatus t ≤ 0 then some t else found)))
  | .scanPrev cancels node t found => some (s.setPc θ (scan cancels node found (s.prev t)))
  | .unparkThread cancels node next => some (s.setPc θ (.unpark cancels node (s.thread next)))
  | .unpark cancels node thread => some ((s.unparkThread thread).setPc θ (afterUnpark cancels node))

/-- A call of `acquire`, `acquireInterruptibly` or `tryAcquireNanos`, with its first `tryAcquire`. -/
def acquire (s : Sync Θ ν) (θ : Θ) (node : ν) : Option (Sync Θ ν) :=
  match s.pc θ with
  | .idle =>
    if s.made node then none
    else if s.state = 0 then some ({ s with state := 1 }.setPc θ .held)
    else some ((s.newNode node (some θ)).setPc θ (.addWaiter node))
  | _ => none

/-- `tryLock` -/
def tryLock (s : Sync Θ ν) (θ : Θ) : Option (Sync Θ ν) :=
  match s.pc θ with
  | .idle => if s.state = 0 then some ({ s with state := 1 }.setPc θ .held) else some s
  | _ => none

/-- A call of `release`, up to the check of `tryRelease`. -/
def release (s : Sync Θ ν) (θ : Θ) : Option (Sync Θ ν) :=
  match s.pc θ with
  | .held => if s.state = 0 then some (s.setPc θ .threw) else some (s.setPc θ .unlock)
  | _ => none

/-- `if (compareAndSetHead(new Node()))` -/
def newHead (s : Sync Θ ν) (θ : Θ) (dummy : ν) : Option (Sync Θ ν) :=
  match s.pc θ with
  | .initHead node =>
    if s.made dummy then none
    else if s.head = none then
      some ({ s.newNode dummy none with
        head := some dummy
        place := Function.update s.place dummy (s.appended + 1)
        appended := s.appended + 1 }.setPc θ (.readHead node))
    else some ((s.newNode dummy none).setPc θ (.enq node))
  | _ => none

/-- A wait that is interrupted or out of time: at the deadline, behind `park`, and where a timed wait looks
for an interrupt. -/
def giveUp (s : Sync Θ ν) (θ : Θ) : Option (Sync Θ ν) :=
  match s.pc θ with
  | .predStatus node _ => some (s.setPc θ (.cancel node))
  | .park node => some (s.setPc θ (.cancel node))
  | .predecessor node => some (s.setPc θ (.cancel node))
  | _ => none

/-- `park` may return at any time. -/
def wake (s : Sync Θ ν) (θ : Θ) : Option (Sync Θ ν) :=
  match s.pc θ with
  | .park node => some (s.setPc θ (.predecessor node))
  | _ => none

def step (s : Sync Θ ν) : SyncEvent Θ ν → Option (Sync Θ ν)
  | .acquire θ node => s.acquire θ node
  | .tryLock θ => s.tryLock θ
  | .release θ => s.release θ
  | .newHead θ node => s.newHead θ node
  | .access θ => s.access θ
  | .giveUp θ => s.giveUp θ
  | .wake θ => s.wake θ

end Sync

end Rtfsc.Jdk
