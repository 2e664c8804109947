import Rtfsc.Machine.Links
import Rtfsc.Machine.Run
import Mathlib.Data.List.Nodup
import Mathlib.Data.List.Perm.Basic

/-!
# The ready lists of epoll

Callbacks put an item on `rdllist`, or on the chain `ovflist` while a scan hands events to the user. The
scan takes `rdllist` over as `txlist` and walks it without the lock. `ep->lock` and `ep->wq.lock` are one
lock here: its sections are steps, except that the walk over `ovflist` at the end of a scan takes one
step for each item, with the lock held. Without the lock a scan makes a step up to the call of
`ep_item_poll`, up to its return and up to the end of `__put_user`.
-/

namespace Rtfsc.Linux

open Rtfsc.Machine

/-- The bits of `event.events` that the code tests by name. -/
structure EpollBits where
  epPrivateBits : BitVec 32
  epollOneshot : BitVec 32
  epollEt : BitVec 32

/-- `struct ep_send_events_data` -/
structure EpSendEventsData where
  maxevents : Int
  res : Int
deriving DecidableEq

/-- Where the holder of `ep->mtx` is. -/
inductive EpPc (α : Type)
  /-- nobody holds `ep->mtx` -/
  | free
  /-- in `ep_send_events_proc`: at the condition of the loop, in `ep_item_poll`, before `__put_user` -/
  | send
  | polling (epi : α)
  | putUser (epi : α) (revents : BitVec 32)
  /-- in `ep_scan_ready_list`: before the lock is taken again, and in the walk over `ovflist` with it -/
  | relock
  | drain (nepi : Option α)
  /-- in `ep_insert`: in `ep_item_poll`, before the lock, and behind `ep_unregister_pollwait` -/
  | insertPoll (epi : α)
  | insertLink (epi : α) (revents : BitVec 32)
  | insertUndo (epi : α)
deriving DecidableEq

/-- Between the first section of `ep_scan_ready_list` and the end of the second one. -/
def EpPc.Scanning {α : Type} : EpPc α → Prop
  | .send | .polling _ | .putUser _ _ | .relock | .drain _ => True
  | _ => False

/-- The item that a scan has taken off `txlist` and has not done with. -/
def EpPc.inHand {α : Type} : EpPc α → List α
  | .polling epi | .putUser epi _ => [epi]
  | _ => []

/-- `struct eventpoll` with its items. A pointer of the chain is `none` for `EP_UNACTIVE_PTR` and
`some none` for `NULL`. `registered` items have their callback on a wait queue. The last four fields are
kept for the properties only: the items for which a callback has passed both mask tests since they were
last polled, those that the last scan has taken over, those that it has reported, and those whose poll
gave it no event. -/
structure EpState (α : Type) where
  rdllist : List α
  txlist : List α
  ovflist : Option (Option α)
  next : α → Option (Option α)
  events : α → BitVec 32
  registered : α → Bool
  esed : EpSendEventsData
  pc : EpPc α
  pending : α → Bool
  taken : List α
  reported : List α
  notReady : List α

/-- A step. -/
inductive EpStep (α : Type)
  | callback (epi : α) (pollflags : BitVec 32)
  | scan (maxevents : Int)
  | send
  | polled (res : BitVec 32)
  | putUser (failed : Bool)
  | relock
  | drain
  | insert (epi : α) (events : BitVec 32)
  | insertPolled (res : BitVec 32) (failed : Bool)
  | insertLock
deriving DecidableEq

variable {α : Type} [DecidableEq α]

namespace EpState

/-- The lock is free between the steps. -/
def LockFree (s : EpState α) : Prop :=
  ∀ nepi, s.pc ≠ .drain nepi

/-- A scan is between its two sections of the lock, or in the second one. -/
def Scanning (s : EpState α) : Prop :=
  s.pc.Scanning

/-- `ep_is_linked` -/
def isLinked (s : EpState α) (epi : α) : Bool :=
  epi ∈ s.rdllist || epi ∈ s.txlist

/-- `rdllist` after `if (!ep_is_linked(&epi->rdllink)) list_add_tail(&epi->rdllink, &ep->rdllist);` -/
def addTail (s : EpState α) (epi : α) : List α :=
  if s.isLinked epi then s.rdllist else s.rdllist ++ [epi]

/-- `ep_events_available` -/
def eventsAvailable (s : EpState α) : Bool :=
  !s.rdllist.isEmpty || s.ovflist.isSome

/-- `ep_poll_callback`, up to the release of the lock, and whether it wakes a thread up. -/
def epPollCallback (b : EpollBits) (epi : α) (pollflags : BitVec 32) (s : EpState α) :
    Bool × EpState α :=
  if s.events epi &&& ~~~b.epPrivateBits = 0 then (false, s)
  else if pollflags ≠ 0 ∧ pollflags &&& s.events epi = 0 then (false, s)
  else
    let s := { s with pending := Function.update s.pending epi true }
    if s.ovflist ≠ none then
      if s.next epi = none then
        (false, { s with next := Function.update s.next epi s.ovflist, ovflist := some (some epi) })
      else (false, s)
    else
      (true, { s with rdllist := s.addTail epi })

/-- The first section of `ep_scan_ready_list`; the locals of the scan are new. -/
def scanReadyList (maxevents : Int) (s : EpState α) : EpState α :=
  { s with
    txlist := s.rdllist
    rdllist := []
    ovflist := some none
    esed := ⟨maxevents, 0⟩
    pc := .send
    taken := s.rdllist
    reported := []
    notReady := [] }

/-- The condition of the loop of `ep_send_events_proc`, and up to the call of `ep_item_poll`. -/
def sendNext (s : EpState α) : EpState α :=
  match s.txlist with
  | epi :: rest =>
    if s.esed.res < s.esed.maxevents then
      { s with txlist := rest, pc := .polling epi, pending := Function.update s.pending epi false }
    else { s with pc := .relock }
  | [] => { s with pc := .relock }

/-- `ep_item_poll` returns to `ep_send_events_proc`. -/
def sendPolled (epi : α) (res : BitVec 32) (s : EpState α) : EpState α :=
  let revents := res &&& s.events epi
  if revents ≠ 0 then { s with pc := .putUser epi revents }
  else { s with pc := .send, notReady := s.notReady ++ [epi] }

/-- `EFAULT` -/
def efault : Int := 14

/-- `__put_user`, and the rest of the body of the loop. -/
def sendPutUser (b : EpollBits) (epi : α) (failed : Bool) (s : EpState α) : EpState α :=
  if failed then
    { s with
      txlist := epi :: s.txlist
      esed := ⟨s.esed.maxevents, if s.esed.res = 0 then -efault else s.esed.res⟩
      pc := .relock }
  else
    let s := { s with
      esed := ⟨s.esed.maxevents, s.esed.res + 1⟩
      pc := .send
      reported := s.reported ++ [epi] }
    if s.events epi &&& b.epollOneshot ≠ 0 then
      { s with events := Function.update s.events epi (s.events epi &&& b.epPrivateBits) }
    else if s.events epi &&& b.epollEt = 0 then { s with rdllist := s.rdllist ++ [epi] }
    else s

/-- The walk over `ovflist` looks at the next item. -/
def drainNext (epi : α) (s : EpState α) : EpState α :=
  { s with
    rdllist := s.addTail epi
    pc := .drain (s.next epi).join
    next := Function.update s.next epi none }

/-- The rest of the second section of `ep_scan_ready_list`, and whether it wakes a thread up. -/
def scanEnd (s : EpState α) : Bool × EpState α :=
  (!(s.txlist ++ s.rdllist).isEmpty,
    { s with ovflist := none, rdllist := s.txlist ++ s.rdllist, txlist := [], pc := .free })

/-- `ep_insert` of a new item, up to the call of `ep_item_poll` that registers its callback. -/
def epInsert (epi : α) (events : BitVec 32) (s : EpState α) : EpState α :=
  { s with
    next := Function.update s.next epi none
    events := Function.update s.events epi events
    registered := Function.update s.registered epi true
    pending := Function.update s.pending epi false
    pc := .insertPoll epi }

/-- `ep_item_poll` returns to `ep_insert`; when it has `failed`, `nwait` is negative and
`ep_unregister_pollwait` is called. -/
def insertPolled (epi : α) (res : BitVec 32) (failed : Bool) (s : EpState α) : EpState α :=
  if failed then
    { s with registered := Function.update s.registered epi false, pc := .insertUndo epi }
  else { s with pc := .insertLink epi (res &&& s.events epi) }

/-- The last section of `ep_insert`, and whether it wakes a thread up. -/
def insertLink (epi : α) (revents : BitVec 32) (s : EpState α) : Bool × EpState α :=
  if revents ≠ 0 ∧ s.isLinked epi = false then
    (true, { s with rdllist := s.rdllist ++ [epi], pc := .free })
  else (false, { s with pc := .free })

/-- The section of `ep_insert` that takes a new item back, which is then freed. -/
def insertUndo (epi : α) (s : EpState α) : EpState α :=
  { s with
    rdllist := s.rdllist.erase epi
    txlist := s.txlist.erase epi
    pending := Function.update s.pending epi false
    pc := .free }

/-- A step, and whether it wakes a thread up on `ep->wq`. `ep_scan_ready_list` and `ep_insert` have to
wait for `ep->mtx`, callbacks for the lock. -/
def step (b : EpollBits) (s : EpState α) : EpStep α → Option (Bool × EpState α)
  | .callback epi pollflags =>
    match s.pc with
    | .drain _ => none
    | _ => if s.registered epi then some (s.epPollCallback b epi pollflags) else none
  | .scan maxevents =>
    if s.pc = .free ∧ 1 ≤ maxevents then some (false, s.scanReadyList maxevents) else none
  | .send => if s.pc = .send then some (false, s.sendNext) else none
  | .polled res =>
    match s.pc with
    | .polling epi => some (false, s.sendPolled epi res)
    | _ => none
  | .putUser failed =>
    match s.pc with
    | .putUser epi _ => some (false, s.sendPutUser b epi failed)
    | _ => none
  | .relock => if s.pc = .relock then some (false, { s with pc := .drain s.ovflist.join }) else none
  | .drain =>
    match s.pc with
    | .drain (some epi) => some (false, s.drainNext epi)
    | .drain none => some s.scanEnd
    | _ => none
  | .insert epi events =>
    if s.pc = .free ∧ s.registered epi = false then some (false, s.epInsert epi events) else none
  | .insertPolled res failed =>
    match s.pc with
    | .insertPoll epi => some (false, s.insertPolled epi res failed)
    | _ => none
  | .insertLock =>
    match s.pc with
    | .insertLink epi revents => some (s.insertLink epi revents)
    | .insertUndo epi => some (false, s.insertUndo epi)
    | _ => none

/-- An eventpoll without items. -/
def new : EpState α where
  rdllist := []
  txlist := []
  ovflist := none
  next _ := none
  events _ := 0
  registered _ := false
  esed := ⟨0, 0⟩
  pc := .free
  pending _ := false
  taken := []
  reported := []
  notReady := []

/-- One step, whether it wakes a thread up or not. -/
def Steps (b : EpollBits) (s : EpState α) (e : EpStep α) (t : EpState α) : Prop :=
  ∃ wake, s.step b e = some (wake, t)

end EpState

end Rtfsc.Linux
