import Rtfsc.Stl.DequeSplice

/-!
# Insertion and erasure in a vector

The slots of a storage are numbered from `_M_start` on. An access to an element that is not there ends the
computation, and so does the construction of one where there is one already or behind the storage, and the
release of a storage that still has elements. Where a new storage is filled the copy of an element may
throw; in place it does not.
-/

namespace Rtfsc.Stl

variable {T : Type}

/-- The slots of a storage. -/
abbrev Slots (T : Type) := Nat → Option T

/-- What the type of the elements and the allocator do: whether `move_if_noexcept` moves, and whether
`_S_use_relocate()`; the copy to which slots of a new storage throws; `max_size()`, and whether
`_M_allocate` throws. -/
structure VecEnv (T : Type) where
  ms : MoveSem T
  moves : Bool
  relocates : Bool
  copyThrows : Nat → Bool
  maxSize : Nat
  allocThrows : Bool

/-- `vector`: `_M_start` is slot 0. -/
structure Vec (T : Type) where
  slots : Slots T
  finish : Nat
  endOfStorage : Nat

/-- A `const value_type&`: to a value that is not in the vector, or to an element of it. -/
inductive ElemRef (T : Type)
  | value (x : T)
  | element (k : Nat)
deriving DecidableEq

/-- What a call comes to: the index of the iterator that it returns, or an exception. -/
inductive VecResult (T : Type)
  | returned (v : Vec T) (position : Nat)
  | threw (v : Vec T)

namespace Slots

variable (cap : Nat) (ms : MoveSem T)

def construct (p : Nat) (x : T) (t : Slots T) : Option (Slots T) :=
  if p < cap ∧ t p = none then some (Function.update t p (some x)) else none

def assign (p : Nat) (x : T) (t : Slots T) : Option (Slots T) :=
  if (t p).isSome then some (Function.update t p (some x)) else none

def destroy (p : Nat) (t : Slots T) : Option (Slots T) :=
  if (t p).isSome then some (Function.update t p none) else none

/-- `*q = std::move(*p)` -/
def moveAssign (p q : Nat) (t : Slots T) : Option (Slots T) := do
  let x ← t p
  if p = q then assign q (ms.selfMove x) t
  else assign q x (Function.update t p (some (ms.movedFrom x)))

def moveConstruct (p q : Nat) (t : Slots T) : Option (Slots T) := do
  let x ← t p
  construct cap q x (Function.update t p (some (ms.movedFrom x)))

/-- `_GLIBCXX_MOVE3` -/
def move (first last result : Nat) (t : Slots T) : Option (Slots T) :=
  eachPlace (moveAssign ms) first result t (last - first)

/-- `_GLIBCXX_MOVE_BACKWARD3` -/
def moveBackward (first last result : Nat) (t : Slots T) : Option (Slots T) :=
  eachPlaceBackward (moveAssign ms) first (result - (last - first)) t (last - first)

/-- `std::__uninitialized_move_a`, in place -/
def uninitializedMove (first last result : Nat) (t : Slots T) : Option (Slots T) :=
  eachPlace (moveConstruct cap ms) first result t (last - first)

/-- `std::copy` of a range from elsewhere, and `std::fill` -/
def copy : List T → Nat → Slots T → Option (Slots T)
  | [], _, t => some t
  | x :: xs, p, t => do
    let t ← assign p x t
    copy xs (p + 1) t

/-- `std::__uninitialized_copy_a` and `std::__uninitialized_fill_n_a`, in place -/
def uninitializedCopy : List T → Nat → Slots T → Option (Slots T)
  | [], _, t => some t
  | x :: xs, p, t => do
    let t ← construct cap p x t
    uninitializedCopy xs (p + 1) t

/-- `std::_Destroy` of the `n` elements from `p` on -/
def destroyRange (p : Nat) (t : Slots T) : Nat → Option (Slots T)
  | 0 => some t
  | n + 1 => do
    let t ← destroy p t
    destroyRange (p + 1) t n

/-- `_M_deallocate`, after which no element may be left. -/
def deallocate (t : Slots T) : Option Unit :=
  if ∀ p ∈ List.range cap, t p = none then some () else none

end Slots

/-! ## A new storage -/

section Storage

variable (env : VecEnv T) (cap : Nat)

/-- The loop of `__uninitialized_copy_a` in a new storage, with the slot that is reached and whether the
copy to it has thrown. -/
def buildLoop : List T → Nat → Slots T → Option (Slots T × Nat × Bool)
  | [], p, u => some (u, p, false)
  | x :: xs, p, u =>
    if env.copyThrows p then some (u, p, true)
    else do
      let u ← Slots.construct cap p x u
      buildLoop xs (p + 1) u

/-- `std::__uninitialized_copy_a` and `std::__uninitialized_fill_n_a`: what is returned is the end. Where a
copy throws, what has been built is destroyed. -/
def build (xs : List T) (p : Nat) (u : Slots T) : Option (Slots T × Option Nat) := do
  let (u, cur, threw) ← buildLoop env cap xs p u
  if threw then do
    let u ← Slots.destroyRange p u (cur - p)
    return (u, none)
  else return (u, some cur)

/-- The loop of `__uninitialized_move_if_noexcept_a`, from the old storage to the new one. -/
def transferLoop : Nat → Nat → Nat → Slots T → Slots T → Option (Slots T × Slots T × Nat × Bool)
  | 0, _, q, t, u => some (t, u, q, false)
  | n + 1, p, q, t, u => do
    let x ← t p
    if env.moves then do
      let u ← Slots.construct cap q x u
      transferLoop n (p + 1) (q + 1) (Function.update t p (some (env.ms.movedFrom x))) u
    else if env.copyThrows q then return (t, u, q, true)
    else do
      let u ← Slots.construct cap q x u
      transferLoop n (p + 1) (q + 1) t u

/-- `std::__uninitialized_move_if_noexcept_a` -/
def transfer (first last result : Nat) (t u : Slots T) :
    Option (Slots T × Slots T × Option Nat) := do
  let (t, u, cur, threw) ← transferLoop env cap (last - first) first result t u
  if threw then do
    let u ← Slots.destroyRange result u (cur - result)
    return (t, u, none)
  else return (t, u, some cur)

/-- `_S_relocate`: each element is moved, and destroyed where it was. -/
def relocate : Nat → Nat → Nat → Slots T → Slots T → Option (Slots T × Slots T × Nat)
  | 0, _, q, t, u => some (t, u, q)
  | n + 1, p, q, t, u => do
    let x ← t p
    let u ← Slots.construct cap q x u
    let t ← Slots.destroy p (Function.update t p (some (env.ms.movedFrom x)))
    relocate n (p + 1) (q + 1) t u

end Storage

namespace Vec

variable (env : VecEnv T) (v : Vec T)

/-- What a reference refers to. -/
def read : ElemRef T → Option T
  | .value x => some x
  | .element k => if k < v.finish then v.slots k else none

/-- `_M_check_len`, where it does not throw. -/
def checkLen (n : Nat) : Option Nat :=
  if env.maxSize - v.finish < n then none
  else
    let len := v.finish + max v.finish n
    some (if len < v.finish ∨ env.maxSize < len then env.maxSize else len)

/-- `_M_erase_at_end` -/
def eraseAtEnd (pos : Nat) : Option (Vec T) :=
  let n := v.finish - pos
  if n ≠ 0 then do
    let slots ← Slots.destroyRange pos v.slots n
    return { v with slots := slots, finish := pos }
  else some v

/-! ## In place -/

/-- `_M_insert_aux` -/
def insertAux (pos : Nat) (x : T) : Option (Vec T) := do
  let slots ← Slots.moveConstruct v.endOfStorage env.ms (v.finish - 1) v.finish v.slots
  let finish := v.finish + 1
  let slots ← Slots.moveBackward env.ms pos (finish - 2) (finish - 1) slots
  let slots ← Slots.assign pos x slots
  return { v with slots := slots, finish := finish }

/-- The part of `_M_fill_insert` and of `_M_range_insert` for a storage that is large enough. `std::copy`
and `__uninitialized_copy_a` take the new elements from where they are, and for `std::fill` and
`__uninitialized_fill_n_a` they are all the same. -/
def insertInPlace (pos : Nat) (ys : List T) : Option (Vec T) :=
  let elemsAfter := v.finish - pos
  let oldFinish := v.finish
  let n := ys.length
  if n < elemsAfter then do
    let slots ← Slots.uninitializedMove v.endOfStorage env.ms (v.finish - n) v.finish v.finish v.slots
    let slots ← Slots.moveBackward env.ms pos (oldFinish - n) oldFinish slots
    let slots ← Slots.copy ys pos slots
    return { v with slots := slots, finish := v.finish + n }
  else do
    let slots ← Slots.uninitializedCopy v.endOfStorage (ys.drop elemsAfter) v.finish v.slots
    let finish := v.finish + (n - elemsAfter)
    let slots ← Slots.uninitializedMove v.endOfStorage env.ms pos oldFinish finish slots
    let slots ← Slots.copy (ys.take elemsAfter) pos slots
    return { v with slots := slots, finish := finish + elemsAfter }

/-! ## In a new storage -/

/-- The handler: `_Destroy` of what there is in the new storage, and `_M_deallocate`. -/
def giveUp (first last len : Nat) (t u : Slots T) : Option (VecResult T) := do
  let u ← Slots.destroyRange first u (last - first)
  Slots.deallocate len u
  return .threw { v with slots := t }

/-- The new storage takes the place of the old one. -/
def replaceStorage (pos newFinish len : Nat) (t u : Slots T) : Option (VecResult T) := do
  Slots.deallocate v.endOfStorage t
  return .returned ⟨u, newFinish, len⟩ pos

/-- The part of `_M_realloc_insert` and of `_M_fill_insert` that fills a new storage: the new elements
first, and then those around them. `__new_finish` is null in between. -/
def reallocAround (relocates : Bool) (pos : Nat) (ys : List T) (len : Nat) : Option (VecResult T) := do
  let (u, built) ← build env len ys pos fun _ => none
  match built with
  | none => v.giveUp 0 0 len v.slots u
  | some _ =>
    if relocates then do
      let (t, u, newFinish) ← relocate env len pos 0 0 v.slots u
      let (t, u, newFinish) ← relocate env len (v.finish - pos) pos (newFinish + ys.length) t u
      v.replaceStorage pos newFinish len t u
    else do
      let (t, u, newFinish) ← transfer env len 0 pos 0 v.slots u
      match newFinish with
      | none => v.giveUp pos (pos + ys.length) len t u
      | some newFinish =>
        let newFinish := newFinish + ys.length
        let (t, u, moved) ← transfer env len pos v.finish newFinish t u
        match moved with
        | none => v.giveUp 0 newFinish len t u
        | some newFinish => do
          let t ← Slots.destroyRange 0 t v.finish
          v.replaceStorage pos newFinish len t u

/-- The part of `_M_range_insert` that fills a new storage, from the front to the back. -/
def reallocThrough (pos : Nat) (ys : List T) (len : Nat) : Option (VecResult T) := do
  let (t, u, newFinish) ← transfer env len 0 pos 0 v.slots fun _ => none
  match newFinish with
  | none => v.giveUp 0 0 len t u
  | some newFinish =>
    let (u, built) ← build env len ys newFinish u
    match built with
    | none => v.giveUp 0 newFinish len t u
    | some newFinish =>
      let (t, u, moved) ← transfer env len pos v.finish newFinish t u
      match moved with
      | none => v.giveUp 0 newFinish len t u
      | some newFinish => do
        let t ← Slots.destroyRange 0 t v.finish
        v.replaceStorage pos newFinish len t u

/-- `_M_check_len` and `_M_allocate`, and what comes then. -/
def withStorage (n : Nat) (fill : Nat → Option (VecResult T)) : Option (VecResult T) :=
  match v.checkLen env n with
  | none => some (.threw v)
  | some len => if env.allocThrows then some (.threw v) else fill len

/-! ## The functions -/

/-- `insert` of an element -/
def insert (pos : Nat) (arg : ElemRef T) : Option (VecResult T) :=
  if v.finish ≠ v.endOfStorage then
    if pos = v.finish then do
      let x ← v.read arg
      let slots ← Slots.construct v.endOfStorage v.finish x v.slots
      return .returned { v with slots := slots, finish := v.finish + 1 } pos
    else do
      let x ← v.read arg
      let v ← v.insertAux env pos x
      return .returned v pos
  else
    v.withStorage env 1 fun len => do
      let x ← v.read arg
      v.reallocAround env env.relocates pos [x] len

/-- `_M_fill_insert` -/
def fillInsert (pos n : Nat) (arg : ElemRef T) : Option (VecResult T) :=
  if n ≠ 0 then
    if n ≤ v.endOfStorage - v.finish then do
      let x ← v.read arg
      let v ← v.insertInPlace env pos (List.replicate n x)
      return .returned v pos
    else
      v.withStorage env n fun len => do
        let x ← v.read arg
        v.reallocAround env false pos (List.replicate n x) len
  else some (.returned v pos)

/-- `_M_range_insert` of a range from elsewhere -/
def rangeInsert (pos : Nat) (ys : List T) : Option (VecResult T) :=
  if ys.length ≠ 0 then
    if ys.length ≤ v.endOfStorage - v.finish then do
      let v ← v.insertInPlace env pos ys
      return .returned v pos
    else v.withStorage env ys.length (v.reallocThrough env pos ys)
  else some (.returned v pos)

/-- `_M_erase` of an element -/
def erase (pos : Nat) : Option (VecResult T) := do
  let slots ←
    (if pos + 1 ≠ v.finish then Slots.move env.ms (pos + 1) v.finish pos v.slots else some v.slots)
  let finish := v.finish - 1
  let slots ← Slots.destroy finish slots
  return .returned { v with slots := slots, finish := finish } pos

/-- `_M_erase` of a range -/
def eraseRange (first last : Nat) : Option (VecResult T) :=
  if first ≠ last then do
    let slots ←
      (if last ≠ v.finish then Slots.move env.ms last v.finish first v.slots else some v.slots)
    let v ← eraseAtEnd { v with slots := slots } (first + (v.finish - last))
    return .returned v first
  else some (.returned v first)

end Vec

/-- A call. -/
inductive VecOp (T : Type)
  | insert (pos : Nat) (arg : ElemRef T)
  | fillInsert (pos n : Nat) (arg : ElemRef T)
  | rangeInsert (pos : Nat) (ys : List T)
  | erase (pos : Nat)
  | eraseRange (first last : Nat)

def Vec.run (env : VecEnv T) (v : Vec T) : VecOp T → Option (VecResult T)
  | .insert pos arg => v.insert env pos arg
  | .fillInsert pos n arg => v.fillInsert env pos n arg
  | .rangeInsert pos ys => v.rangeInsert env pos ys
  | .erase pos => v.erase env pos
  | .eraseRange first last => v.eraseRange env first last

end Rtfsc.Stl
