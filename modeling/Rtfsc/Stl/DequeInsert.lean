import Rtfsc.Stl.Deque
import Rtfsc.Stl.DequeLoops

/-!
# Insertion and erasure in a deque

An access to an element that is not there ends the computation, and so does the construction of one where
there is one already or where no buffer is; constructors do not throw here. What is moved leaves behind
what its type says (`MoveSem`).
-/

namespace Rtfsc.Stl

variable {T : Type}

/-- What is left of an element that has been moved to another one, and what becomes of one that is
assigned to itself by a move. -/
structure MoveSem (T : Type) where
  movedFrom : T → T
  selfMove : T → T

/-! ## Elements -/

section Elements

variable (live : Finset Nat) (ms : MoveSem T)

def constructAt (p : EltPtr) (x : T) (cells : EltPtr → Option T) : Option (EltPtr → Option T) :=
  if p.buf ∈ live ∧ cells p = none then some (Function.update cells p (some x)) else none

def assignAt (p : EltPtr) (x : T) (cells : EltPtr → Option T) : Option (EltPtr → Option T) :=
  if (cells p).isSome then some (Function.update cells p (some x)) else none

def destroyAt (p : EltPtr) (cells : EltPtr → Option T) : Option (EltPtr → Option T) :=
  if (cells p).isSome then some (Function.update cells p none) else none

/-- `*dst = std::move(*src)` -/
def moveAssign (src dst : EltPtr) (cells : EltPtr → Option T) : Option (EltPtr → Option T) := do
  let x ← cells src
  if src = dst then assignAt dst (ms.selfMove x) cells
  else assignAt dst x (Function.update cells src (some (ms.movedFrom x)))

def moveConstruct (src dst : EltPtr) (cells : EltPtr → Option T) : Option (EltPtr → Option T) := do
  let x ← cells src
  constructAt live dst x (Function.update cells src (some (ms.movedFrom x)))

end Elements

/-! ## Loops in one buffer -/

section Segments

variable (ms : MoveSem T)

def movePtrs (src dst : EltPtr) (cells : EltPtr → Option T) : Nat → Option (EltPtr → Option T)
  | 0 => some cells
  | n + 1 => do
    let cells ← moveAssign ms src dst cells
    movePtrs (src.add 1) (dst.add 1) cells n

def movePtrsBackward (src dst : EltPtr) (cells : EltPtr → Option T) : Nat → Option (EltPtr → Option T)
  | 0 => some cells
  | n + 1 => do
    let cells ← moveAssign ms (src.add n) (dst.add n) cells
    movePtrsBackward src dst cells n

/-- `std::move` of plain pointers. -/
def moveSegment (first last result : EltPtr) (cells : EltPtr → Option T) :
    Option (EltPtr → Option T) :=
  movePtrs ms first result cells (last.off - first.off)

/-- `std::move_backward` of plain pointers. -/
def moveSegmentBackward (first last result : EltPtr) (cells : EltPtr → Option T) :
    Option (EltPtr → Option T) :=
  let n := last.off - first.off
  if n ≤ result.off then movePtrsBackward ms first (result.sub n) cells n else none

/-- The same is done with `n` elements, one after the other. -/
def eachPtr (act : EltPtr → (EltPtr → Option T) → Option (EltPtr → Option T)) (p : EltPtr)
    (cells : EltPtr → Option T) : Nat → Option (EltPtr → Option T)
  | 0 => some cells
  | n + 1 => do
    let cells ← act p cells
    eachPtr act (p.add 1) cells n

/-- The loop of `fill` and `_M_destroy_data_aux` over the nodes between, with `n` to go. -/
def betweenNodes (b : BufferSize) (entry : Nat → Nat)
    (act : EltPtr → (EltPtr → Option T) → Option (EltPtr → Option T)) (node : Nat)
    (cells : EltPtr → Option T) : Nat → Option (EltPtr → Option T)
  | 0 => some cells
  | n + 1 => do
    let cells ← eachPtr act ⟨entry node, 0⟩ cells b.elems
    betweenNodes b entry act (node + 1) cells n

/-- `fill` and `_M_destroy_data_aux`: the nodes between first, and then what is left at both ends. -/
def segmentedRange (b : BufferSize) (entry : Nat → Nat)
    (act : EltPtr → (EltPtr → Option T) → Option (EltPtr → Option T)) (first last : DequeIter)
    (cells : EltPtr → Option T) : Option (EltPtr → Option T) := do
  let cells ← betweenNodes b entry act (first.node + 1) cells (last.node - (first.node + 1))
  if first.node ≠ last.node then do
    let cells ← eachPtr act first.cur cells (first.last.off - first.cur.off)
    eachPtr act last.first cells (last.cur.off - last.first.off)
  else eachPtr act first.cur cells (last.cur.off - first.cur.off)

end Segments

namespace Deque

variable (env : DequeEnv) (ms : MoveSem T) (d : Deque T)

def withCells (cells : EltPtr → Option T) : Deque T := { d with cells := cells }

/-! ## Ranges -/

/-- `move` -/
def moveRange (first last result : DequeIter) : Option (Deque T) := do
  let len := last.minus env.buffer first
  let (_, cells) ← segmentedLoop env.buffer d.entry (moveSegment ms) len.toNat len first result d.cells
  return d.withCells cells

/-- `move_backward` -/
def moveRangeBackward (first last result : DequeIter) : Option (Deque T) := do
  let len := last.minus env.buffer first
  let (_, cells) ← segmentedLoopBackward env.buffer d.entry (moveSegmentBackward ms) len.toNat len last
    result d.cells
  return d.withCells cells

/-- `fill` -/
def fill (first last : DequeIter) (x : T) : Option (Deque T) := do
  let cells ← segmentedRange env.buffer d.entry (fun p => assignAt p x) first last d.cells
  return d.withCells cells

/-- `_M_destroy_data` -/
def destroyData (first last : DequeIter) : Option (Deque T) := do
  let cells ← segmentedRange env.buffer d.entry destroyAt first last d.cells
  return d.withCells cells

/-- `std::__uninitialized_move_a` -/
def uninitializedMove (first last result : DequeIter) : Option (DequeIter × Deque T) := do
  let (it, cells) ← eachIter env.buffer d.entry (moveConstruct d.live ms) first result d.cells
    (last.minus env.buffer first).toNat
  return (it, d.withCells cells)

/-- `std::copy` from a list. -/
def copyList (d : Deque T) (it : DequeIter) : List T → Option (Deque T)
  | [] => some d
  | x :: xs => do
    let cells ← assignAt it.cur x d.cells
    copyList (d.withCells cells) (d.next env it) xs

/-- `std::__uninitialized_copy_a` from a list. -/
def uninitializedCopy (d : Deque T) (it : DequeIter) : List T → Option (DequeIter × Deque T)
  | [] => some (it, d)
  | x :: xs => do
    let cells ← constructAt d.live it.cur x d.cells
    uninitializedCopy (d.withCells cells) (d.next env it) xs

/-- The loop of `std::__uninitialized_fill_a`, with `n` elements to go. The value may be an element. -/
def fillUninitialized (x : Maker T) (d : Deque T) (it : DequeIter) : Nat → Option (Deque T)
  | 0 => some d
  | n + 1 => do
    let value ← x d.cells
    let cells ← constructAt d.live it.cur value d.cells
    fillUninitialized x (d.withCells cells) (d.next env it) n

/-- `std::__uninitialized_fill_a` -/
def uninitializedFill (first last : DequeIter) (x : Maker T) : Option (Deque T) :=
  d.fillUninitialized env x first (last.minus env.buffer first).toNat

/-! ## Insertion of one element -/

/-- `push_front` of an element that is moved. -/
def pushFrontMoved (p : EltPtr) : Option (Deque T) :=
  match d.pushFront env fun cells => cells p with
  | (false, _) => none
  | (true, d) => some (d.withCells (Function.update d.cells p ((d.cells p).map ms.movedFrom)))

/-- `push_back` of an element that is moved. -/
def pushBackMoved (p : EltPtr) : Option (Deque T) :=
  match d.pushBack env fun cells => cells p with
  | (false, _) => none
  | (true, d) => some (d.withCells (Function.update d.cells p ((d.cells p).map ms.movedFrom)))

/-- `_M_insert_aux` of one element. -/
def insertAux (pos : DequeIter) (x : Maker T) : Option (DequeIter × Deque T) := do
  let xCopy ← x d.cells
  let index := pos.minus env.buffer d.start
  if index.toNat < d.size env / 2 then do
    let d ← d.pushFrontMoved env ms d.start.cur
    let front1 := d.next env d.start
    let front2 := d.next env front1
    let pos := d.plus env d.start index
    let pos1 := d.next env pos
    let d ← d.moveRange env ms front2 pos1 front1
    let cells ← assignAt pos.cur xCopy d.cells
    return (pos, d.withCells cells)
  else do
    let d ← d.pushBackMoved env ms (d.prev env d.finish).cur
    let back1 := d.prev env d.finish
    let back2 := d.prev env back1
    let pos := d.plus env d.start index
    let d ← d.moveRangeBackward env ms pos back2 back1
    let cells ← assignAt pos.cur xCopy d.cells
    return (pos, d.withCells cells)

/-- `insert` of one element. -/
def insert (pos : DequeIter) (x : Maker T) : Option (DequeIter × Deque T) :=
  if pos.cur = d.start.cur then
    match d.pushFront env x with
    | (false, _) => none
    | (true, d) => some (d.start, d)
  else if pos.cur = d.finish.cur then
    match d.pushBack env x with
    | (false, _) => none
    | (true, d) => some (d.prev env d.finish, d)
  else d.insertAux env ms pos x

/-! ## Insertion of many elements -/

/-- `_M_insert_aux` of a number of copies. -/
def insertAuxFill (pos : DequeIter) (n : Nat) (x : Maker T) : Option (Deque T) := do
  let elemsBefore := pos.minus env.buffer d.start
  let length := d.size env
  let xCopy ← x d.cells
  if elemsBefore < (length / 2 : Nat) then
    match d.reserveElementsAtFront env n with
    | (none, _) => none
    | (some newStart, d) => do
      let oldStart := d.start
      let pos := d.plus env d.start elemsBefore
      if elemsBefore ≥ n then do
        let startN := d.plus env d.start n
        let (_, d) ← d.uninitializedMove env ms d.start startN newStart
        let d := d.withStart newStart
        let d ← d.moveRange env ms startN pos oldStart
        d.fill env (d.plus env pos (-n)) pos xCopy
      else do
        let (mid, d) ← d.uninitializedMove env ms d.start pos newStart
        let d ← d.uninitializedFill env mid d.start fun _ => some xCopy
        let d := d.withStart newStart
        d.fill env oldStart pos xCopy
  else
    match d.reserveElementsAtBack env n with
    | (none, _) => none
    | (some newFinish, d) => do
      let oldFinish := d.finish
      let elemsAfter := (length : Int) - elemsBefore
      let pos := d.plus env d.finish (-elemsAfter)
      if elemsAfter > n then do
        let finishN := d.plus env d.finish (-n)
        let (_, d) ← d.uninitializedMove env ms finishN d.finish d.finish
        let d := d.withFinish newFinish
        let d ← d.moveRangeBackward env ms pos finishN oldFinish
        d.fill env pos (d.plus env pos n) xCopy
      else do
        let mid := d.plus env pos n
        let d ← d.uninitializedFill env d.finish mid fun _ => some xCopy
        let (_, d) ← d.uninitializedMove env ms pos d.finish mid
        let d := d.withFinish newFinish
        d.fill env pos oldFinish xCopy

/-- `_M_insert_aux` of a range. -/
def insertAuxRange (pos : DequeIter) (ys : List T) : Option (Deque T) :=
  let n := ys.length
  let elemsBefore := pos.minus env.buffer d.start
  let length := d.size env
  if elemsBefore < (length / 2 : Nat) then
    match d.reserveElementsAtFront env n with
    | (none, _) => none
    | (some newStart, d) => do
      let oldStart := d.start
      let pos := d.plus env d.start elemsBefore
      if elemsBefore ≥ n then do
        let startN := d.plus env d.start n
        let (_, d) ← d.uninitializedMove env ms d.start startN newStart
        let d := d.withStart newStart
        let d ← d.moveRange env ms startN pos oldStart
        d.copyList env (d.plus env pos (-n)) ys
      else do
        let mid := ((n : Int) - elemsBefore).toNat
        let (it, d) ← d.uninitializedMove env ms d.start pos newStart
        let (_, d) ← d.uninitializedCopy env it (ys.take mid)
        let d := d.withStart newStart
        d.copyList env oldStart (ys.drop mid)
  else
    match d.reserveElementsAtBack env n with
    | (none, _) => none
    | (some newFinish, d) => do
      let oldFinish := d.finish
      let elemsAfter := (length : Int) - elemsBefore
      let pos := d.plus env d.finish (-elemsAfter)
      if elemsAfter > n then do
        let finishN := d.plus env d.finish (-n)
        let (_, d) ← d.uninitializedMove env ms finishN d.finish d.finish
        let d := d.withFinish newFinish
        let d ← d.moveRangeBackward env ms pos finishN oldFinish
        d.copyList env pos ys
      else do
        let mid := elemsAfter.toNat
        let (it, d) ← d.uninitializedCopy env d.finish (ys.drop mid)
        let (_, d) ← d.uninitializedMove env ms pos d.finish it
        let d := d.withFinish newFinish
        d.copyList env pos (ys.take mid)

/-- `_M_fill_insert` -/
def fillInsert (pos : DequeIter) (n : Nat) (x : Maker T) : Option (Deque T) :=
  if pos.cur = d.start.cur then
    match d.reserveElementsAtFront env n with
    | (none, _) => none
    | (some newStart, d) => do
      let d ← d.uninitializedFill env newStart d.start x
      return d.withStart newStart
  else if pos.cur = d.finish.cur then
    match d.reserveElementsAtBack env n with
    | (none, _) => none
    | (some newFinish, d) => do
      let d ← d.uninitializedFill env d.finish newFinish x
      return d.withFinish newFinish
  else d.insertAuxFill env ms pos n x

/-- `_M_range_insert_aux` -/
def rangeInsertAux (pos : DequeIter) (ys : List T) : Option (Deque T) :=
  if pos.cur = d.start.cur then
    match d.reserveElementsAtFront env ys.length with
    | (none, _) => none
    | (some newStart, d) => do
      let (_, d) ← d.uninitializedCopy env newStart ys
      return d.withStart newStart
  else if pos.cur = d.finish.cur then
    match d.reserveElementsAtBack env ys.length with
    | (none, _) => none
    | (some newFinish, d) => do
      let (_, d) ← d.uninitializedCopy env d.finish ys
      return d.withFinish newFinish
  else d.insertAuxRange env ms pos ys

/-- `_M_range_insert_aux` where the range can be read only once: `std::copy` to an inserter. -/
def rangeInsertInput (d : Deque T) (pos : DequeIter) : List T → Option (Deque T)
  | [] => some d
  | y :: ys => do
    let (pos, d) ← d.insert env ms pos fun _ => some y
    rangeInsertInput d (d.next env pos) ys

/-- `insert` of a number of copies. -/
def insertFill (pos : DequeIter) (n : Nat) (x : Maker T) : Option (DequeIter × Deque T) := do
  let offset := pos.minus env.buffer d.start
  let d ← d.fillInsert env ms pos n x
  return (d.plus env d.start offset, d)

/-- `insert` of a range. -/
def insertRange (pos : DequeIter) (ys : List T) : Option (DequeIter × Deque T) := do
  let offset := pos.minus env.buffer d.start
  let d ← d.rangeInsertAux env ms pos ys
  return (d.plus env d.start offset, d)

/-- The same for input iterators. -/
def insertInput (pos : DequeIter) (ys : List T) : Option (DequeIter × Deque T) := do
  let offset := pos.minus env.buffer d.start
  let d ← d.rangeInsertInput env ms pos ys
  return (d.plus env d.start offset, d)

/-! ## Erasure -/

/-- `_M_erase` of one element. -/
def erase (position : DequeIter) : Option (DequeIter × Deque T) := do
  let next := d.next env position
  let index := position.minus env.buffer d.start
  if index.toNat < d.size env / 2 then do
    let d ← if position.cur ≠ d.start.cur then d.moveRangeBackward env ms d.start position next else some d
    let d := d.popFront env
    return (d.plus env d.start index, d)
  else do
    let d ← if next.cur ≠ d.finish.cur then d.moveRange env ms next d.finish position else some d
    let d := d.popBack env
    return (d.plus env d.start index, d)

/-- `_M_erase_at_begin` -/
def eraseAtBegin (pos : DequeIter) : Option (Deque T) := do
  let d ← d.destroyData env d.start pos
  let d := d.destroyNodes d.start.node pos.node
  return d.withStart pos

/-- `_M_erase_at_end` -/
def eraseAtEnd (pos : DequeIter) : Option (Deque T) := do
  let d ← d.destroyData env pos d.finish
  let d := d.destroyNodes (pos.node + 1) (d.finish.node + 1)
  return d.withFinish pos

/-- `_M_erase` of a range. -/
def eraseRange (first last : DequeIter) : Option (DequeIter × Deque T) :=
  if first.cur = last.cur then some (first, d)
  else if first.cur = d.start.cur ∧ last.cur = d.finish.cur then do
    -- `clear()`
    let d ← d.eraseAtEnd env d.start
    return (d.finish, d)
  else do
    let n := last.minus env.buffer first
    let elemsBefore := first.minus env.buffer d.start
    if elemsBefore.toNat ≤ (d.size env - n.toNat) / 2 then do
      let d ← if first.cur ≠ d.start.cur then d.moveRangeBackward env ms d.start first last else some d
      let d ← d.eraseAtBegin env (d.plus env d.start n)
      return (d.plus env d.start elemsBefore, d)
    else do
      let d ← if last.cur ≠ d.finish.cur then d.moveRange env ms last d.finish first else some d
      let d ← d.eraseAtEnd env (d.plus env d.finish (-n))
      return (d.plus env d.start elemsBefore, d)

end Deque

end Rtfsc.Stl
