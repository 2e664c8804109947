import Rtfsc.Machine.Keyed
import Rtfsc.Machine.Run

/-!
# redis: time events

The list of time events of an event loop, and `processTimeEvents` one event of its walk after the
other. What the clock says and what handlers and finalizers do comes from outside. A pointer to an
event is the id of that event: an event that has been freed is one that is not in the list.
-/

namespace Rtfsc.Redis.Ae

open Rtfsc.Machine

/-- What `aeGetTime` gives: `ms` is `tv_usec / 1000`. -/
structure Clock where
  sec : Int
  ms : Fin 1000
deriving DecidableEq

def Clock.total (now : Clock) : Int := now.sec * 1000 + now.ms.val

/-- `aeTimeEvent`. What is called, and with which data, is up to the run. -/
structure TimeEvent where
  id : Int
  whenSec : Int
  whenMs : Int
  hasFinalizer : Bool
deriving DecidableEq

namespace TimeEvent

/-- The time of the event, in milliseconds. -/
def total (te : TimeEvent) : Int := te.whenSec * 1000 + te.whenMs

/-- The test of `processTimeEvents`. -/
def due (now : Clock) (te : TimeEvent) : Bool :=
  te.whenSec < now.sec || (now.sec == te.whenSec && te.whenMs ≤ now.ms.val)

end TimeEvent

/-- `aeAddMillisecondsToNow`; the division of C truncates. -/
def aeAddMillisecondsToNow (now : Clock) (milliseconds : Int) : Int × Int :=
  let whenSec := now.sec + milliseconds.tdiv 1000
  let whenMs := now.ms.val + milliseconds.tmod 1000
  if whenMs ≥ 1000 then (whenSec + 1, whenMs - 1000) else (whenSec, whenMs)

theorem aeAddMillisecondsToNow_total (now : Clock) (milliseconds : Int) :
    (aeAddMillisecondsToNow now milliseconds).1 * 1000 + (aeAddMillisecondsToNow now milliseconds).2 =
      now.total + milliseconds := by
  have hdiv := Int.tdiv_mul_add_tmod milliseconds 1000
  unfold aeAddMillisecondsToNow Clock.total
  dsimp only
  split
  · dsimp only
    omega
  · dsimp only
    omega

theorem aeAddMillisecondsToNow_lt (now : Clock) (milliseconds : Int) :
    (aeAddMillisecondsToNow now milliseconds).2 < 1000 := by
  have hms : (now.ms.val : Int) < 1000 := Int.ofNat_lt.mpr now.ms.isLt
  have hmod := Int.tmod_lt_of_pos milliseconds (show (0 : Int) < 1000 by decide)
  unfold aeAddMillisecondsToNow
  dsimp only
  split
  · dsimp only
    omega
  · dsimp only
    omega

/-- The time events of an `aeEventLoop`. Ids are given out once, and the milliseconds of a time are
less than a second. -/
structure EventLoop where
  timeEventHead : List TimeEvent
  timeEventNextId : Int
  nodup : (timeEventHead.map TimeEvent.id).Nodup
  below : ∀ te ∈ timeEventHead, te.id < timeEventNextId
  normal : ∀ te ∈ timeEventHead, te.whenMs < 1000

/-- `aeCreateEventLoop`. -/
def aeCreateEventLoop : EventLoop where
  timeEventHead := []
  timeEventNextId := 0
  nodup := List.nodup_nil
  below := nofun
  normal := nofun

namespace EventLoop

/-- The event behind a pointer, unless it has been freed. -/
def find (loop : EventLoop) (id : Int) : Option TimeEvent :=
  Keyed.lookup TimeEvent.id id loop.timeEventHead

/-- The event at the head. -/
def head (loop : EventLoop) : Option Int := loop.timeEventHead.head?.map TimeEvent.id

/-- `te->next`. -/
def next (loop : EventLoop) (id : Int) : Option Int :=
  ((loop.timeEventHead.dropWhile fun te => te.id ≠ id).drop 1).head?.map TimeEvent.id

/-- `aeCreateTimeEvent`. Without memory an id is spent and nothing else happens. -/
def aeCreateTimeEvent (loop : EventLoop) (now : Clock) (milliseconds : Int) (hasFinalizer : Bool)
    (oom : Bool) : EventLoop :=
  if oom then
    { loop with
      timeEventNextId := loop.timeEventNextId + 1
      below := fun te hte => Int.lt_trans (loop.below te hte) (Int.lt_succ _) }
  else
    { timeEventHead :=
        { id := loop.timeEventNextId
          whenSec := (aeAddMillisecondsToNow now milliseconds).1
          whenMs := (aeAddMillisecondsToNow now milliseconds).2
          hasFinalizer := hasFinalizer } :: loop.timeEventHead
      timeEventNextId := loop.timeEventNextId + 1
      nodup := by
        refine List.nodup_cons.mpr ⟨fun hmem => ?_, loop.nodup⟩
        obtain ⟨te, hte, hid⟩ := List.mem_map.mp hmem
        exact Int.lt_irrefl _ (hid ▸ loop.below te hte)
      below := by
        rintro te (_ | ⟨_, hte⟩)
        · exact Int.lt_succ _
        · exact Int.lt_trans (loop.below te hte) (Int.lt_succ _)
      normal := by
        rintro te (_ | ⟨_, hte⟩)
        · exact aeAddMillisecondsToNow_lt now milliseconds
        · exact loop.normal te hte }

/-- `aeDeleteTimeEvent`, up to the call of the finalizer. -/
def aeDeleteTimeEvent (loop : EventLoop) (id : Int) : EventLoop :=
  { loop with
    timeEventHead := Keyed.remove TimeEvent.id id loop.timeEventHead
    nodup := Keyed.remove_nodup loop.nodup
    below := fun te hte => loop.below te (Keyed.remove_sublist.subset hte)
    normal := fun te hte => loop.normal te (Keyed.remove_sublist.subset hte) }

/-- `aeAddMillisecondsToNow(retval, &te->when_sec, &te->when_ms)`. -/
def reschedule (loop : EventLoop) (id : Int) (now : Clock) (milliseconds : Int) : EventLoop :=
  let write (te : TimeEvent) : TimeEvent := { te with
    whenSec := (aeAddMillisecondsToNow now milliseconds).1
    whenMs := (aeAddMillisecondsToNow now milliseconds).2 }
  { loop with
    timeEventHead := Keyed.modify TimeEvent.id id write loop.timeEventHead
    nodup := by
      have hkeys : (Keyed.modify TimeEvent.id id write loop.timeEventHead).map TimeEvent.id =
          loop.timeEventHead.map TimeEvent.id := Keyed.modify_keys fun _ => rfl
      rw [hkeys]
      exact loop.nodup
    below := by
      intro te hte
      rcases Keyed.mem_modify hte with hte | ⟨te', hte', -, rfl⟩
      · exact loop.below te hte
      · exact loop.below te' hte'
    normal := by
      intro te hte
      rcases Keyed.mem_modify hte with hte | ⟨te', -, -, rfl⟩
      · exact loop.normal te hte
      · exact aeAddMillisecondsToNow_lt now milliseconds }

end EventLoop

/-- What a handler or a finalizer does to the list. The finalizer of an event that it deletes runs then
and there: its actions are the next ones. -/
inductive Action
  | create (now : Clock) (milliseconds : Int) (hasFinalizer oom : Bool)
  | delete (id : Int)
deriving DecidableEq

open EventLoop

def act (loop : EventLoop) : Action → EventLoop
  | .create now milliseconds hasFinalizer oom =>
    loop.aeCreateTimeEvent now milliseconds hasFinalizer oom
  | .delete id => loop.aeDeleteTimeEvent id

/-- `AE_NOMORE`. -/
def aeNoMore : Int := -1

/-- What comes from outside while the walk is at an event: the clock, what the handler does and
returns, the clock when the event is rescheduled, and what its finalizer does. -/
structure Answers where
  now : Clock
  acts : List Action
  retval : Int
  after : Clock
  finalizer : List Action

/-- `processTimeEvents`: the event the walk is at, and whether it has touched an event that had been
freed. -/
structure Pass where
  loop : EventLoop
  te : Option Int
  maxId : Int
  processed : Nat
  stale : Bool

/-- The start of `processTimeEvents`. -/
def processTimeEvents (loop : EventLoop) : Pass where
  loop := loop
  te := loop.head
  maxId := loop.timeEventNextId - 1
  processed := 0
  stale := false

/-- `aeDeleteTimeEvent` on an event whose handler is done, with its finalizer. -/
def finish (loop : EventLoop) (id : Int) (finalizer : List Action) : EventLoop :=
  let deleted := loop.aeDeleteTimeEvent id
  match loop.find id with
  | some te => if te.hasFinalizer then finalizer.foldl act deleted else deleted
  | none => deleted

/-- The walk goes one event further. Returns the event that has fired. -/
def Pass.turn (s : Pass) (a : Answers) : Option (Option TimeEvent × Pass) :=
  match s.te with
  | none => none
  | some id =>
    match s.loop.find id with
    | none => some (none, { s with te := none, stale := true })
    | some te =>
      if s.maxId < te.id then some (none, { s with te := s.loop.next id })
      else if te.due a.now then
        let called := a.acts.foldl act s.loop
        let loop :=
          if a.retval ≠ aeNoMore then called.reschedule id a.after a.retval
          else finish called id a.finalizer
        -- only the new time is written through the pointer
        let freed := a.retval ≠ aeNoMore ∧ called.find id = none
        some (some te, { s with
          loop := loop
          te := loop.head
          processed := s.processed + 1
          stale := s.stale || decide freed })
      else some (none, { s with te := s.loop.next id })

/-- Runs of the walk: what came from outside, and what has fired. -/
abbrev PassRun : Pass → List (Answers × Option TimeEvent) → Pass → Prop :=
  Run fun s e s' => s.turn e.1 = some (e.2, s')

end Rtfsc.Redis.Ae
