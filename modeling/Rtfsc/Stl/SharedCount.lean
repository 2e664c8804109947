import Rtfsc.Machine.TwoCounts
import Rtfsc.Machine.Table
import Rtfsc.Machine.Run

/-!
# Shared counts

`__shared_count` and `__weak_count` objects are held by threads; each points to a `_Sp_counted_base`,
numbered by creation, or to nothing. A step is one atomic operation of one thread, together with the
accesses to its own objects next to it; the call of `_M_dispose` and its return are steps of their own,
and the code that a disposer runs acts as a thread of its own. Under `_S_single` there is one thread; the
steps are the same but for the attempt to lock, and nothing below needs it to be alone. Counts stay below
2 ^ 31, so they are integers.
-/

namespace Rtfsc.Stl

open Rtfsc.Machine

/-- `_Lock_policy` -/
inductive LockPolicy
  | single
  | mutex
  | atomic
deriving DecidableEq, Repr

/-- `_Sp_counted_base`, with the calls of `_M_dispose` that have begun and returned and those of
`_M_destroy`. -/
structure CountedBase where
  useCount : Int
  weakCount : Int
  mutexHeld : Bool
  disposes : Nat
  returns : Nat
  destroys : Nat

/-- A call of a constructor of `__shared_count` from a `__weak_count`: `atZero` remembers that the use
count was 0 when it began. -/
structure Attempt where
  block : Nat
  nothrow : Bool
  atZero : Bool
deriving DecidableEq

/-- Where a thread is inside of an operation. -/
inductive Pc
  /-- `operator=`: `__tmp` has its reference, the old one is still to be released -/
  | assign (dst : Nat) (tmp : Option Nat)
  | weakAssign (dst : Nat) (tmp : Option Nat)
  /-- `_M_release` behind its first atomic operation -/
  | dispose (b : Nat)
  | disposing (b : Nat)
  | release (b : Nat)
  | destroy (b : Nat)
  /-- `_M_add_ref_lock` of `_S_single` -/
  | lockSingle (a : Attempt)
  /-- `_M_add_ref_lock` of `_S_mutex`: before the lock, with it, with a count of 0 raised, behind it -/
  | lockMutex (a : Attempt)
  | lockAdd (a : Attempt)
  | lockReset (a : Attempt)
  | lockLeave (a : Attempt) (ok : Bool)
  /-- `_M_add_ref_lock` of `_S_atomic`: before the load, and with `__count` -/
  | lockLoad (a : Attempt)
  | lockCas (a : Attempt) (count : Int)
deriving DecidableEq

/-- Where `_M_add_ref_lock` of a policy begins. -/
def addRefLock : LockPolicy → Attempt → Pc
  | .single, a => .lockSingle a
  | .mutex, a => .lockMutex a
  | .atomic, a => .lockLoad a

/-- The `_Sp_counted_base` objects, the objects that point to them with the thread that holds each, and
where the threads are; a thread that is nowhere is between operations. `attempts` lists the attempts
that have ended, with what came of them. -/
structure CountState where
  blocks : Nat → CountedBase
  next : Nat
  shared : Table Nat (Nat × Option Nat)
  weaks : Table Nat (Nat × Option Nat)
  pcs : Table Nat Pc
  attempts : List (Attempt × Bool)

namespace CountState

def setBlock (s : CountState) (b : Nat) (c : CountedBase) : CountState :=
  { s with blocks := Function.update s.blocks b c }

def setShared (s : CountState) (v : Nat) (n : Option (Nat × Option Nat)) : CountState :=
  { s with shared := put s.shared v n }

def setWeak (s : CountState) (w : Nat) (n : Option (Nat × Option Nat)) : CountState :=
  { s with weaks := put s.weaks w n }

def setPc (s : CountState) (t : Nat) (n : Option Pc) : CountState := { s with pcs := put s.pcs t n }

def ended (s : CountState) (a : Attempt) (ok : Bool) : CountState :=
  { s with attempts := (a, ok) :: s.attempts }

/-- What an object points to, when the thread holds it. -/
def held (table : Table Nat (Nat × Option Nat)) (t v : Nat) : Option (Option Nat) :=
  match table.lookup v with
  | some (t', p) => if t' = t then some p else none
  | none => none

/-- `_M_add_ref_copy` on what is pointed to. -/
def addRefCopy (s : CountState) : Option Nat → CountState
  | none => s
  | some b => s.setBlock b { s.blocks b with useCount := (s.blocks b).useCount + 1 }

/-- `_M_weak_add_ref` on what is pointed to. -/
def weakAddRef (s : CountState) : Option Nat → CountState
  | none => s
  | some b => s.setBlock b { s.blocks b with weakCount := (s.blocks b).weakCount + 1 }

/-- The first atomic operation of `_M_release`: who takes the use count to 0 goes on. -/
def release (s : CountState) (t : Nat) : Option Nat → CountState
  | none => s.setPc t none
  | some b =>
    (s.setBlock b { s.blocks b with useCount := (s.blocks b).useCount - 1 }).setPc t
      (if (s.blocks b).useCount = 1 then some (.dispose b) else none)

/-- The atomic operation of `_M_weak_release`, and the last one of `_M_release`. -/
def weakRelease (s : CountState) (t : Nat) : Option Nat → CountState
  | none => s.setPc t none
  | some b =>
    (s.setBlock b { s.blocks b with weakCount := (s.blocks b).weakCount - 1 }).setPc t
      (if (s.blocks b).weakCount = 1 then some (.destroy b) else none)

/-- The attempt has its reference: the new object points to the block. -/
def locked (s : CountState) (t dst : Nat) (a : Attempt) (n : Option Pc) : CountState :=
  ((s.setShared dst (some (t, some a.block))).setPc t n).ended a true

/-- The attempt has failed: the new object is empty, or an exception is thrown and there is none. -/
def notLocked (s : CountState) (t dst : Nat) (a : Attempt) : CountState :=
  ((if a.nothrow then s.setShared dst (some (t, none)) else s).setPc t none).ended a false

end CountState

/-- What a thread does: an operation that it begins, or the next step of the one it is in. `hand` gives
an object to another thread. A step that makes an object is told its name. -/
inductive Event
  | construct (t v : Nat)
  | default (t v : Nat)
  | copy (t v r : Nat)
  | assign (t v r : Nat)
  | swap (t v r : Nat)
  | drop (t v : Nat)
  | hand (t v t' : Nat)
  | weakDefault (t w : Nat)
  | weakOfShared (t w r : Nat)
  | weakCopy (t w r : Nat)
  | weakMove (t w r : Nat)
  | weakAssignShared (t w r : Nat)
  | weakAssign (t w r : Nat)
  | weakAssignMove (t w r : Nat)
  | weakSwap (t w r : Nat)
  | weakDrop (t w : Nat)
  | weakHand (t w t' : Nat)
  | lock (t r : Nat) (nothrow : Bool) (v : Nat)
  | run (t : Nat) (spurious : Bool) (v : Nat)
deriving DecidableEq

namespace CountState

/-- An operation that a thread begins; one atomic operation at most. -/
def begin (policy : LockPolicy) (s : CountState) : Event → Option CountState
  | .construct t v =>
    if s.shared.lookup v = none then
      some { s with
        blocks := Function.update s.blocks s.next ⟨1, 1, false, 0, 0, 0⟩
        next := s.next + 1
        shared := put s.shared v (some (t, some s.next)) }
    else none
  | .default t v => if s.shared.lookup v = none then some (s.setShared v (some (t, none))) else none
  | .copy t v r =>
    if s.shared.lookup v = none then do
      let p ← held s.shared t r
      return (s.addRefCopy p).setShared v (some (t, p))
    else none
  | .assign t v r => do
    let old ← held s.shared t v
    let tmp ← held s.shared t r
    return if tmp = old then s else (s.addRefCopy tmp).setPc t (some (.assign v tmp))
  | .swap t v r => do
    let p ← held s.shared t v
    let q ← held s.shared t r
    return (s.setShared r (some (t, p))).setShared v (some (t, q))
  | .drop t v => do
    let p ← held s.shared t v
    return (s.setShared v none).release t p
  | .hand t v t' => do
    let p ← held s.shared t v
    return s.setShared v (some (t', p))
  | .weakDefault t w => if s.weaks.lookup w = none then some (s.setWeak w (some (t, none))) else none
  | .weakOfShared t w r =>
    if s.weaks.lookup w = none then do
      let p ← held s.shared t r
      return (s.weakAddRef p).setWeak w (some (t, p))
    else none
  | .weakCopy t w r =>
    if s.weaks.lookup w = none then do
      let p ← held s.weaks t r
      return (s.weakAddRef p).setWeak w (some (t, p))
    else none
  | .weakMove t w r =>
    if s.weaks.lookup w = none then do
      let p ← held s.weaks t r
      return (s.setWeak w (some (t, p))).setWeak r (some (t, none))
    else none
  | .weakAssignShared t w r => do
    let _ ← held s.weaks t w
    let tmp ← held s.shared t r
    return (s.weakAddRef tmp).setPc t (some (.weakAssign w tmp))
  | .weakAssign t w r => do
    let _ ← held s.weaks t w
    let tmp ← held s.weaks t r
    return (s.weakAddRef tmp).setPc t (some (.weakAssign w tmp))
  | .weakAssignMove t w r => do
    let old ← held s.weaks t w
    let p ← held s.weaks t r
    return ((s.setWeak w (some (t, p))).setWeak r (some (t, none))).weakRelease t old
  | .weakSwap t w r => do
    let p ← held s.weaks t w
    let q ← held s.weaks t r
    return (s.setWeak r (some (t, p))).setWeak w (some (t, q))
  | .weakDrop t w => do
    let p ← held s.weaks t w
    return (s.setWeak w none).weakRelease t p
  | .weakHand t w t' => do
    let p ← held s.weaks t w
    return s.setWeak w (some (t', p))
  | .lock t r nothrow v =>
    if s.shared.lookup v = none then do
      match ← held s.weaks t r with
      | none => return if nothrow then s.setShared v (some (t, none)) else s
      | some b =>
        let a : Attempt := ⟨b, nothrow, decide ((s.blocks b).useCount = 0)⟩
        return s.setPc t (some (addRefLock policy a))
    else none
  | .run .. => none

/-- The next step of a thread that is at `pc`; `v` names the object that an attempt to lock makes, and
`spurious` says that a compare-and-exchange fails for no reason. -/
def goOn (s : CountState) (t : Nat) (spurious : Bool) (v : Nat) : Pc → Option CountState
  | .assign dst tmp =>
    match s.shared.lookup dst with
    | some (_, old) => some ((s.setShared dst (some (t, tmp))).release t old)
    | none => none
  | .weakAssign dst tmp =>
    match s.weaks.lookup dst with
    | some (_, old) => some ((s.setWeak dst (some (t, tmp))).weakRelease t old)
    | none => none
  | .dispose b =>
    some ((s.setBlock b { s.blocks b with disposes := (s.blocks b).disposes + 1 }).setPc t
      (some (.disposing b)))
  | .disposing b =>
    some ((s.setBlock b { s.blocks b with returns := (s.blocks b).returns + 1 }).setPc t
      (some (.release b)))
  | .release b => some (s.weakRelease t (some b))
  | .destroy b =>
    some ((s.setBlock b { s.blocks b with destroys := (s.blocks b).destroys + 1 }).setPc t none)
  | .lockSingle a =>
    if (s.blocks a.block).useCount = 0 then some (s.notLocked t v a)
    else some ((s.addRefCopy (some a.block)).locked t v a none)
  | .lockMutex a =>
    if (s.blocks a.block).mutexHeld then none
    else
      some ((s.setBlock a.block { s.blocks a.block with mutexHeld := true }).setPc t
        (some (.lockAdd a)))
  | .lockAdd a =>
    let s' := s.addRefCopy (some a.block)
    if (s.blocks a.block).useCount = 0 then some (s'.setPc t (some (.lockReset a)))
    else some (s'.locked t v a (some (.lockLeave a true)))
  | .lockReset a =>
    some ((s.setBlock a.block { s.blocks a.block with useCount := 0 }).setPc t
      (some (.lockLeave a false)))
  | .lockLeave a ok =>
    let s' := s.setBlock a.block { s.blocks a.block with mutexHeld := false }
    some (if ok then s'.setPc t none else s'.notLocked t v a)
  | .lockLoad a => some (s.setPc t (some (.lockCas a (s.blocks a.block).useCount)))
  | .lockCas a count =>
    if count = 0 then some (s.notLocked t v a)
    else if (s.blocks a.block).useCount = count ∧ ¬spurious then
      some ((s.setBlock a.block { s.blocks a.block with useCount := count + 1 }).locked t v a none)
    else some (s.setPc t (some (.lockCas a (s.blocks a.block).useCount)))

/-- The thread of an event. -/
def actor : Event → Nat
  | .construct t _ | .default t _ | .copy t _ _ | .assign t _ _ | .swap t _ _ | .drop t _
  | .hand t _ _ | .weakDefault t _ | .weakOfShared t _ _ | .weakCopy t _ _ | .weakMove t _ _
  | .weakAssignShared t _ _ | .weakAssign t _ _ | .weakAssignMove t _ _ | .weakSwap t _ _
  | .weakDrop t _ | .weakHand t _ _ | .lock t _ _ _ | .run t _ _ => t

/-- One step: a thread goes on with its operation, or begins one when it is in none. -/
def exec (policy : LockPolicy) (s : CountState) (e : Event) : Option CountState :=
  match s.pcs.lookup (actor e), e with
  | some pc, .run t spurious v =>
    if s.shared.lookup v = none then s.goOn t spurious v pc else none
  | some _, _ => none
  | none, e => s.begin policy e

/-- Nothing has been made yet. -/
def init : CountState := ⟨fun _ => ⟨0, 0, false, 0, 0, 0⟩, 0, ∅, ∅, ∅, []⟩

end CountState

end Rtfsc.Stl
