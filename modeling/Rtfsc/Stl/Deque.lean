import Rtfsc.Machine.Moved
import Rtfsc.Machine.Segments
import Rtfsc.Stl.DequeIter
import Rtfsc.Machine.LaidOut

/-!
# `std::deque`

The map lists the buffers, a node pointer is the number of an entry of it, and the two iterators say from
where to where there are elements. A call that can throw says first whether it returned. What may throw is
the allocator, for a buffer or for a new map, and the construction of an element.
-/

namespace Rtfsc.Stl

open Rtfsc.Machine

/-- The element type and the allocator: how many elements a buffer has, `max_size()`, and what the
allocator answers when it is called for the `n`-th time. -/
structure DequeEnv where
  buffer : BufferSize
  maxSize : Nat
  allocBuffer : Nat → (live : Finset Nat) → Option { c : Nat // c ∉ live }
  allocMap : Nat → Nat → Bool

/-- `_Deque_impl`, with the buffers that the allocator has given and not got back, and the elements in
them. -/
structure Deque (T : Type) where
  entry : Nat → Nat
  mapSize : Nat
  start : DequeIter
  finish : DequeIter
  live : Finset Nat
  cells : EltPtr → Option T
  calls : Nat

/-- What an element is constructed from. It may be another element, and the constructor may throw. -/
abbrev Maker (T : Type) := (EltPtr → Option T) → Option T

namespace Deque

variable {T : Type} (env : DequeEnv) (d : Deque T)

/-! ## Iterators -/

def setNode (it : DequeIter) (newNode : Nat) : DequeIter := it.setNode env.buffer d.entry newNode

def next (it : DequeIter) : DequeIter := it.next env.buffer d.entry

def prev (it : DequeIter) : DequeIter := it.prev env.buffer d.entry

def plus (it : DequeIter) (n : Int) : DequeIter := it.plus env.buffer d.entry n

def withStart (it : DequeIter) : Deque T := { d with start := it }

def withFinish (it : DequeIter) : Deque T := { d with finish := it }

/-- `size()` -/
def size : Nat := (d.finish.minus env.buffer d.start).toNat

/-- `operator[]` -/
def subscript (n : Nat) : Option T := d.cells (d.plus env d.start n).cur

/-- `construct` -/
def construct (p : EltPtr) (mk : Maker T) : Bool × Deque T :=
  match mk d.cells with
  | none => (false, d)
  | some x => (true, { d with cells := Function.update d.cells p (some x) })

/-- `destroy` -/
def destroy (p : EltPtr) : Deque T := { d with cells := Function.update d.cells p none }

/-! ## Buffers -/

/-- `_M_allocate_node` -/
def allocateNode : Option Nat × Deque T :=
  match env.allocBuffer d.calls d.live with
  | none => (none, { d with calls := d.calls + 1 })
  | some c => (some c.1, { d with live := insert c.1 d.live, calls := d.calls + 1 })

/-- A map entry is set. -/
def setEntry (node c : Nat) : Deque T := { d with entry := Function.update d.entry node c }

/-- `_M_deallocate_node` -/
def deallocateNode (c : Nat) : Deque T := { d with live := d.live.erase c }

/-- The loop of `_M_destroy_nodes`, with `n` nodes to go. -/
def destroyNodesFrom (d : Deque T) (nstart : Nat) : Nat → Deque T
  | 0 => d
  | n + 1 => (d.deallocateNode (d.entry nstart)).destroyNodesFrom (nstart + 1) n

/-- `_M_destroy_nodes` -/
def destroyNodes (nstart nfinish : Nat) : Deque T := d.destroyNodesFrom nstart (nfinish - nstart)

/-- `_S_initial_map_size` -/
def initialMapSize : Nat := 8

/-! ## The map -/

/-- The end of `_M_reallocate_map`. -/
def setNodes (newNstart oldNumNodes : Nat) : Deque T :=
  (d.withStart (d.setNode env d.start newNstart)).withFinish
    (d.setNode env d.finish (newNstart + oldNumNodes - 1))

/-- `_M_reallocate_map` -/
def reallocateMap (nodesToAdd : Nat) (addAtFront : Bool) : Bool × Deque T :=
  let oldNumNodes := d.finish.node - d.start.node + 1
  let newNumNodes := oldNumNodes + nodesToAdd
  if d.mapSize > 2 * newNumNodes then
    let newNstart := (d.mapSize - newNumNodes) / 2 + (if addAtFront then nodesToAdd else 0)
    let entry :=
      if newNstart < d.start.node then
        moveForward (d.start.node + ·) (newNstart + ·) d.entry oldNumNodes
      else moveBackward (d.start.node + ·) (newNstart + ·) d.entry oldNumNodes
    (true, { d with entry := entry }.setNodes env newNstart oldNumNodes)
  else
    let newMapSize := d.mapSize + max d.mapSize nodesToAdd + 2
    if env.allocMap d.calls newMapSize then
      let newNstart := (newMapSize - newNumNodes) / 2 + (if addAtFront then nodesToAdd else 0)
      -- the entries are copied to the new map
      let entry := fun j =>
        if newNstart ≤ j ∧ j < newNstart + oldNumNodes then d.entry (d.start.node + (j - newNstart))
        else 0
      (true, { d with entry := entry, mapSize := newMapSize, calls := d.calls + 1 }.setNodes env
        newNstart oldNumNodes)
    else (false, { d with calls := d.calls + 1 })

/-- `_M_reserve_map_at_back` -/
def reserveMapAtBack (nodesToAdd : Nat) : Bool × Deque T :=
  if nodesToAdd + 1 > d.mapSize - d.finish.node then d.reallocateMap env nodesToAdd false
  else (true, d)

/-- `_M_reserve_map_at_front` -/
def reserveMapAtFront (nodesToAdd : Nat) : Bool × Deque T :=
  if nodesToAdd > d.start.node then d.reallocateMap env nodesToAdd true else (true, d)

/-! ## One element -/

/-- `_M_push_back_aux` -/
def pushBackAux (mk : Maker T) : Bool × Deque T :=
  if d.size env = env.maxSize then (false, d)
  else match d.reserveMapAtBack env 1 with
    | (false, d) => (false, d)
    | (true, d) =>
      match d.allocateNode env with
      | (none, d) => (false, d)
      | (some c, d) =>
        let d := d.setEntry (d.finish.node + 1) c
        match d.construct d.finish.cur mk with
        | (false, d) => (false, d.deallocateNode (d.entry (d.finish.node + 1)))
        | (true, d) =>
          let finish := d.setNode env d.finish (d.finish.node + 1)
          (true, d.withFinish { finish with cur := finish.first })

/-- `_M_push_front_aux` -/
def pushFrontAux (mk : Maker T) : Bool × Deque T :=
  if d.size env = env.maxSize then (false, d)
  else match d.reserveMapAtFront env 1 with
    | (false, d) => (false, d)
    | (true, d) =>
      match d.allocateNode env with
      | (none, d) => (false, d)
      | (some c, d) =>
        let d := d.setEntry (d.start.node - 1) c
        let start := d.setNode env d.start (d.start.node - 1)
        let d := d.withStart { start with cur := start.last.sub 1 }
        match d.construct d.start.cur mk with
        | (false, d) =>
          let d := d.withStart (d.next env d.start)
          (false, d.deallocateNode (d.entry (d.start.node - 1)))
        | (true, d) => (true, d)

/-- `_M_pop_back_aux` -/
def popBackAux : Deque T :=
  let d := d.deallocateNode d.finish.first.buf
  let finish := d.setNode env d.finish (d.finish.node - 1)
  let d := d.withFinish { finish with cur := finish.last.sub 1 }
  d.destroy d.finish.cur

/-- `_M_pop_front_aux` -/
def popFrontAux : Deque T :=
  let d := d.destroy d.start.cur
  let d := d.deallocateNode d.start.first.buf
  let start := d.setNode env d.start (d.start.node + 1)
  d.withStart { start with cur := start.first }

/-- `push_back`, `emplace_back` -/
def pushBack (mk : Maker T) : Bool × Deque T :=
  if d.finish.cur ≠ d.finish.last.sub 1 then
    match d.construct d.finish.cur mk with
    | (false, d) => (false, d)
    | (true, d) => (true, d.withFinish { d.finish with cur := d.finish.cur.add 1 })
  else d.pushBackAux env mk

/-- `push_front`, `emplace_front` -/
def pushFront (mk : Maker T) : Bool × Deque T :=
  if d.start.cur ≠ d.start.first then
    match d.construct (d.start.cur.sub 1) mk with
    | (false, d) => (false, d)
    | (true, d) => (true, d.withStart { d.start with cur := d.start.cur.sub 1 })
  else d.pushFrontAux env mk

/-- `pop_back` -/
def popBack : Deque T :=
  if d.finish.cur ≠ d.finish.first then
    let d := d.withFinish { d.finish with cur := d.finish.cur.sub 1 }
    d.destroy d.finish.cur
  else d.popBackAux env

/-- `pop_front` -/
def popFront : Deque T :=
  if d.start.cur ≠ d.start.last.sub 1 then
    let d := d.destroy d.start.cur
    d.withStart { d.start with cur := d.start.cur.add 1 }
  else d.popFrontAux env

/-! ## Room for many elements -/

/-- `__new_nodes` -/
def newNodes (newElems : Nat) : Nat := (newElems + env.buffer.elems - 1) / env.buffer.elems

/-- The handler of `_M_new_elements_at_front` and `_M_new_elements_at_back`: the buffers of the first `n`
new nodes go back. -/
def giveBack (place : Nat → Nat) (d : Deque T) : Nat → Deque T
  | 0 => d
  | n + 1 =>
    let d := giveBack place d n
    d.deallocateNode (d.entry (place (n + 1)))

/-- Their loop that adds nodes, after `i` of them and with `n` to go. -/
def addNodes (place : Nat → Nat) (d : Deque T) (i : Nat) : Nat → Bool × Deque T
  | 0 => (true, d)
  | n + 1 =>
    match d.allocateNode env with
    | (none, d) => (false, giveBack place d i)
    | (some c, d) => addNodes place (d.setEntry (place (i + 1)) c) (i + 1) n

/-- `_M_new_elements_at_front` -/
def newElementsAtFront (newElems : Nat) : Bool × Deque T :=
  if env.maxSize - d.size env < newElems then (false, d)
  else match d.reserveMapAtFront env (newNodes env newElems) with
    | (false, d) => (false, d)
    | (true, d) => addNodes env (fun i => d.start.node - i) d 0 (newNodes env newElems)

/-- `_M_new_elements_at_back` -/
def newElementsAtBack (newElems : Nat) : Bool × Deque T :=
  if env.maxSize - d.size env < newElems then (false, d)
  else match d.reserveMapAtBack env (newNodes env newElems) with
    | (false, d) => (false, d)
    | (true, d) => addNodes env (fun i => d.finish.node + i) d 0 (newNodes env newElems)

/-- `_M_reserve_elements_at_front` -/
def reserveElementsAtFront (n : Nat) : Option DequeIter × Deque T :=
  let vacancies := d.start.cur.off - d.start.first.off
  match if n > vacancies then d.newElementsAtFront env (n - vacancies) else (true, d) with
  | (false, d) => (none, d)
  | (true, d) => (some (d.plus env d.start (-n)), d)

/-- `_M_reserve_elements_at_back` -/
def reserveElementsAtBack (n : Nat) : Option DequeIter × Deque T :=
  let vacancies := d.finish.last.off - d.finish.cur.off - 1
  match if n > vacancies then d.newElementsAtBack env (n - vacancies) else (true, d) with
  | (false, d) => (none, d)
  | (true, d) => (some (d.plus env d.finish n), d)

end Deque

/-!
## What a deque holds

The entries of a range own the buffers in use, and what the elements of these buffers hold is on a tape
(`Held`). Where the tape is a list between the two iterators, this is what the deque contains (`Rep`). As
a rule the range goes from the node of the one iterator to that of the other (`Holds`).
-/

namespace Deque

variable {T : Type}

/-- The places of the nodes from `lo` to `hi`. -/
def nodePlaces (b : BufferSize) (lo hi : Nat) : Set Nat :=
  {p | lo ≤ p / b.elems ∧ p / b.elems ≤ hi}

structure Held (env : DequeEnv) (d : Deque T) (lo hi : Nat) (tape : Nat → Option T) : Prop where
  hi_lt : hi < d.mapSize
  owns : Owns d.entry d.live lo hi
  laid : LaidOut (eltAt env.buffer d.entry) (nodePlaces env.buffer lo hi) d.cells tape

structure Rep (env : DequeEnv) (d : Deque T) (lo hi s : Nat) (xs : List T) : Prop where
  held : d.Held env lo hi (laidFrom s xs)
  lo_le : lo ≤ s / env.buffer.elems
  le_hi : (s + xs.length) / env.buffer.elems ≤ hi
  start : d.start = iterAt env.buffer d.entry s
  finish : d.finish = iterAt env.buffer d.entry (s + xs.length)

/-- No other nodes have buffers. -/
def Holds (env : DequeEnv) (d : Deque T) (s : Nat) (xs : List T) : Prop :=
  d.Rep env (s / env.buffer.elems) ((s + xs.length) / env.buffer.elems) s xs

variable {env : DequeEnv} {d : Deque T} {lo hi s p j : Nat} {xs : List T} {tape : Nat → Option T}

/-- A node gets a buffer that the allocator gives. -/
def withNode (d : Deque T) (node c : Nat) : Deque T :=
  { d with
    entry := Function.update d.entry node c
    live := insert c d.live
    calls := d.calls + 1 }

/-! ## Places and nodes -/

section Places

variable {b : BufferSize} {entry entry' : Nat → Nat} {live : Finset Nat}

theorem nodePlaces_mono {lo' hi' : Nat} (hlo : lo' ≤ lo) (hhi : hi ≤ hi') :
    nodePlaces b lo hi ⊆ nodePlaces b lo' hi' :=
  fun _ hp => ⟨hlo.trans hp.1, hp.2.trans hhi⟩

/-- Places between two others are in their nodes or in nodes between. -/
theorem mem_nodePlaces {q : Nat} (hlo : lo ≤ q / b.elems) (hqp : q ≤ p) {r : Nat} (hpr : p ≤ r)
    (hhi : r / b.elems ≤ hi) : p ∈ nodePlaces b lo hi :=
  ⟨hlo.trans (Nat.div_le_div_right hqp), (Nat.div_le_div_right hpr).trans hhi⟩

theorem eltAt_injOn (h : Owns entry live lo hi) :
    Set.InjOn (eltAt b entry) (nodePlaces b lo hi) := by
  intro p hp q hq heq
  obtain ⟨hbuf, hoff⟩ := EltPtr.mk.inj heq
  have hdiv : p / b.elems = q / b.elems := h.injOn hp hq hbuf
  rw [← place_eq (b := b) (p := p), hdiv, hoff, place_eq]

theorem eltAt_congr (h : entry' (p / b.elems) = entry (p / b.elems)) :
    eltAt b entry' p = eltAt b entry p := by
  simp only [eltAt, h]

theorem iterAt_congr (h : entry' (p / b.elems) = entry (p / b.elems)) :
    iterAt b entry' p = iterAt b entry p := by
  simp only [iterAt, eltAt, h]

end Places

/-! ## Steps -/

namespace Held

/-- A place gets a new content. -/
theorem store (h : d.Held env lo hi tape) (hp : p ∈ nodePlaces env.buffer lo hi) (v : Option T) :
    Held env { d with cells := Function.update d.cells (eltAt env.buffer d.entry p) v } lo hi
      (Function.update tape p v) :=
  ⟨h.hi_lt, h.owns, h.laid.store hp v⟩

theorem congr_entry {entry' : Nat → Nat} (h : d.Held env lo hi tape)
    (heq : ∀ j, lo ≤ j → j ≤ hi → entry' j = d.entry j) :
    Held env { d with entry := entry' } lo hi tape :=
  ⟨h.hi_lt, h.owns.congr heq,
    h.laid.place (Set.bijOn_id _) (fun _ hp => eltAt_congr (heq _ hp.1 hp.2)) (fun _ _ => rfl)
      h.laid.support⟩

/-- One more node at the end gets a buffer. -/
theorem pushBack (h : d.Held env lo hi tape) (hle : lo ≤ hi + 1) (hlt : hi + 1 < d.mapSize) {c : Nat}
    (hfresh : c ∉ d.live) :
    (d.withNode (hi + 1) c).Held env lo (hi + 1) tape := by
  have hset : Held env { d with entry := Function.update d.entry (hi + 1) c } lo hi tape :=
    h.congr_entry fun j _ hj => Function.update_of_ne (by omega) _ _
  have howns : Owns (Function.update d.entry (hi + 1) c) (insert c d.live) lo (hi + 1) :=
    hset.owns.pushBack hle (Function.update_self ..) hfresh
  exact ⟨hlt, howns, hset.laid.grow (nodePlaces_mono le_rfl (Nat.le_succ hi)) (eltAt_injOn howns)⟩

/-- One more node at the front. -/
theorem pushFront (h : d.Held env (lo + 1) hi tape) (hle : lo ≤ hi) {c : Nat} (hfresh : c ∉ d.live) :
    (d.withNode lo c).Held env lo hi tape := by
  have hset : Held env { d with entry := Function.update d.entry lo c } (lo + 1) hi tape :=
    h.congr_entry fun j hj _ => Function.update_of_ne (by omega) _ _
  have howns : Owns (Function.update d.entry lo c) (insert c d.live) lo hi :=
    hset.owns.pushFront hle (Function.update_self ..) hfresh
  exact ⟨h.hi_lt, howns,
    hset.laid.grow (nodePlaces_mono (Nat.le_succ lo) le_rfl) (eltAt_injOn howns)⟩

/-- The buffer of the last node goes back. -/
theorem popBack (h : d.Held env lo (hi + 1) tape) (hle : lo ≤ hi + 1)
    (hempty : ∀ p, p / env.buffer.elems = hi + 1 → tape p = none) :
    (d.deallocateNode (d.entry (hi + 1))).Held env lo hi tape := by
  refine ⟨Nat.lt_of_succ_lt h.hi_lt, h.owns.popBack hle,
    h.laid.shrink (nodePlaces_mono le_rfl (Nat.le_succ hi)) fun p hp => ?_⟩
  by_cases hin : p ∈ nodePlaces env.buffer lo (hi + 1)
  · refine hempty p (Nat.le_antisymm hin.2 (Nat.lt_of_not_le fun hlt => hp ⟨hin.1, hlt⟩))
  · exact h.laid.support p hin

/-- The buffer of the first node goes back. -/
theorem popFront (h : d.Held env lo hi tape) (hle : lo ≤ hi)
    (hempty : ∀ p, p / env.buffer.elems = lo → tape p = none) :
    (d.deallocateNode (d.entry lo)).Held env (lo + 1) hi tape := by
  refine ⟨h.hi_lt, h.owns.popFront hle,
    h.laid.shrink (nodePlaces_mono (Nat.le_succ lo) le_rfl) fun p hp => ?_⟩
  by_cases hin : p ∈ nodePlaces env.buffer lo hi
  · refine hempty p (Nat.le_antisymm (Nat.le_of_lt_succ (Nat.lt_of_not_le fun hlt => hp ⟨hlt, hin.2⟩))
      hin.1)
  · exact h.laid.support p hin

end Held

end Deque

end Rtfsc.Stl
