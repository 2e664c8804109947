import Rtfsc.Machine.Extents
import Rtfsc.Machine.Memory
import Rtfsc.Machine.Run

/-!
# The second-level allocator

`__default_alloc_template`: sixteen free lists, threaded through the free nodes themselves, and a pool
from which they are filled. A call comes with what `malloc` and `realloc` answer while it runs, 0 for a
failure. When `malloc_alloc` has no answer left, its handler throws or there is none.
-/

namespace Rtfsc.Stl

open Rtfsc.Machine

/-- `_ALIGN`. -/
def align : Nat := 8

/-- `_MAX_BYTES`. -/
def maxBytes : Nat := 128

/-- `_NFREELISTS`. -/
def nFreeLists : Nat := 16

/-- The static members, with the memory they point into and, for the record, the chunks that were
obtained from `malloc`. -/
structure AllocState where
  mem : Memory
  freeList : Nat → Nat
  startFree : Nat
  endFree : Nat
  heapSize : Nat
  chunks : List Extent

/-- `_S_round_up`. -/
def roundUp (bytes : Nat) : Nat := (bytes + (align - 1)) % 2 ^ 64 / align * align

/-- `_S_freelist_index`. -/
def freelistIndex (bytes : Nat) : Nat := (bytes + (align - 1)) % 2 ^ 64 / align - 1

/-! ## `malloc_alloc` -/

/-- A call of `malloc` or `realloc`. -/
def malloc : List Nat → Nat × List Nat
  | [] => (0, [])
  | a :: answers => (a, answers)

/-- `_S_oom_malloc`. -/
def oomMalloc : List Nat → Option (Nat × List Nat)
  | [] => none
  | a :: answers => if a = 0 then oomMalloc answers else some (a, answers)

/-- `malloc_alloc::allocate`. -/
def mallocAllocate (answers : List Nat) : Option (Nat × List Nat) :=
  let (result, answers) := malloc answers
  if result = 0 then oomMalloc answers else some (result, answers)

namespace AllocState

/-- A node goes to the front of a free list. -/
def push (s : AllocState) (i p : Nat) : AllocState :=
  { s with
    mem := s.mem.store p (s.freeList i) 8
    freeList := Function.update s.freeList i p }

/-- The first node leaves its free list. -/
def pop (s : AllocState) (i : Nat) : AllocState :=
  { s with freeList := Function.update s.freeList i (s.mem.load (s.freeList i) 8) }

/-- The pool is a chunk from `malloc`. -/
def grown (s : AllocState) (p bytes : Nat) : AllocState :=
  { s with
    startFree := p
    endFree := p + bytes
    heapSize := (s.heapSize + bytes) % 2 ^ 64
    chunks := ⟨p, bytes⟩ :: s.chunks }

/-- The loop of `_S_chunk_alloc` over the free lists for at least `i` bytes: the first node it finds
becomes the pool. -/
def scan (s : AllocState) (i : Nat) : Option AllocState :=
  if i ≤ maxBytes then
    let p := s.freeList (freelistIndex i)
    if p ≠ 0 then some { s.pop (freelistIndex i) with startFree := p, endFree := p + i }
    else s.scan (i + align)
  else none
termination_by maxBytes + 1 - i
decreasing_by
  unfold align maxBytes at *
  omega

/-- `bytes_left`. -/
def bytesLeft (s : AllocState) : Nat := (s.endFree + 2 ^ 64 - s.startFree) % 2 ^ 64

/-- The left-over piece of the pool goes to its free list. -/
def keepLeftOver (s : AllocState) : AllocState :=
  if 0 < s.bytesLeft then s.push (freelistIndex s.bytesLeft) s.startFree else s

/-- `bytes_to_get`. -/
def bytesToGet (s : AllocState) (totalBytes : Nat) : Nat :=
  (2 * totalBytes + roundUp (s.heapSize >>> 4)) % 2 ^ 64

/-- The pool is a chunk or a node of a free list, or `malloc_alloc` has thrown. -/
def newPool (s : AllocState) (size bytes : Nat) (answers : List Nat) :
    Option (List Nat) × AllocState :=
  let (p, answers) := malloc answers
  if p ≠ 0 then (some answers, s.grown p bytes)
  else match { s with startFree := 0 }.scan size with
    | some s => (some answers, s)
    | none =>
      match mallocAllocate answers with
      | some (p, answers) => (some answers, s.grown p bytes)
      | none => (none, { s with startFree := 0, endFree := 0 })

/-- The last branch of `_S_chunk_alloc` up to its call of itself. -/
def replenish (s : AllocState) (size bytes : Nat) (answers : List Nat) :
    Option (List Nat) × AllocState :=
  s.keepLeftOver.newPool size bytes answers

/-- `_S_chunk_alloc`: the chunk with the number of objects in it, or nothing when it throws. -/
def chunkAlloc : Nat → AllocState → Nat → Nat → List Nat → Option (Option (Nat × Nat) × AllocState)
  | 0, _, _, _, _ => none
  | depth + 1, s, size, nobjs, answers =>
    let totalBytes := size * nobjs % 2 ^ 64
    if totalBytes ≤ s.bytesLeft then
      some (some (s.startFree, nobjs), { s with startFree := s.startFree + totalBytes })
    else if size ≤ s.bytesLeft then
      let nobjs := s.bytesLeft / size
      some (some (s.startFree, nobjs), { s with startFree := s.startFree + size * nobjs })
    else match s.replenish size (s.bytesToGet totalBytes) answers with
      | (some answers, s) => chunkAlloc depth s size nobjs answers
      | (none, s) => some (none, s)

end AllocState

/-- The loop of `_S_refill` that links the nodes, with `n` more of them behind `cur`. -/
def linkNodes (m : Memory) (cur size : Nat) : Nat → Memory
  | 0 => m.store cur 0 8
  | n + 1 => linkNodes (m.store cur (cur + size) 8) (cur + size) size n

namespace AllocState

/-- `_S_refill`. -/
def refill (depth : Nat) (s : AllocState) (n : Nat) (answers : List Nat) :
    Option (Option Nat × AllocState) :=
  match chunkAlloc depth s n 20 answers with
  | none => none
  | some (none, s) => some (none, s)
  | some (some (chunk, nobjs), s) =>
    if nobjs = 1 then some (some chunk, s)
    else some (some chunk, { s with
      freeList := Function.update s.freeList (freelistIndex n) (chunk + n)
      mem := linkNodes s.mem (chunk + n) n (nobjs - 2) })

/-- `allocate`: a pointer, or nothing when it throws. -/
def allocate (depth : Nat) (s : AllocState) (n : Nat) (answers : List Nat) :
    Option (Option Nat × AllocState) :=
  if maxBytes < n then some ((mallocAllocate answers).map Prod.fst, s)
  else
    let result := s.freeList (freelistIndex n)
    if result = 0 then s.refill depth (roundUp n) answers
    else some (some result, s.pop (freelistIndex n))

/-- `deallocate`. -/
def deallocate (s : AllocState) (p n : Nat) : AllocState :=
  if maxBytes < n then s else s.push (freelistIndex n) p

/-- `reallocate`. Between two large sizes it is `realloc`, which answers 0 when it leaves the block. -/
def reallocate (depth : Nat) (s : AllocState) (p oldSz newSz : Nat) (answers : List Nat) :
    Option (Option Nat × AllocState) :=
  if maxBytes < oldSz ∧ maxBytes < newSz then
    let result := (malloc answers).1
    some (some result,
      if result = 0 then s else { s with mem := s.mem.copy result p (min oldSz newSz) })
  else if roundUp oldSz = roundUp newSz then some (some p, s)
  else match s.allocate depth newSz answers with
    | none => none
    | some (none, s) => some (none, s)
    | some (some result, s) =>
      let copySz := if newSz > oldSz then oldSz else newSz
      some (some result, { s with mem := s.mem.copy result p copySz }.deallocate p oldSz)

/-- Before the first call. -/
def new (mem : Memory) : AllocState := ⟨mem, fun _ => 0, 0, 0, 0, []⟩

end AllocState

/-! ## A program that uses it -/

/-- The allocator, and the blocks that the program has from it, as long as they were asked for. -/
structure World where
  alloc : AllocState
  blocks : List Extent

/-- A call of the program, or a byte that it writes. -/
inductive AllocEvent
  | allocate (n : Nat) (answers : List Nat)
  | deallocate (b : Extent)
  | reallocate (b : Extent) (newSz : Nat) (answers : List Nat)
  | write (a : Nat) (v : UInt8)

namespace World

/-- The blocks that come from `malloc` themselves. -/
def large (w : World) : List Extent := w.blocks.filter fun b => maxBytes < b.len

/-- The blocks from the pool. -/
def small (w : World) : List Extent := w.blocks.filter fun b => !decide (maxBytes < b.len)

/-- Memory that `malloc` may answer with: it is apart from what it has given and not got back. -/
def Fresh (w : World) (a len : Nat) : Prop :=
  0 < a ∧ a + len < 2 ^ 64 ∧ (∀ c ∈ w.alloc.chunks, (Extent.mk a len).Apart c) ∧
    ∀ b ∈ w.large, (Extent.mk a len).Apart b

/-- What `malloc` is asked for when `n` bytes are allocated. -/
def asked (w : World) (n : Nat) : Nat :=
  if maxBytes < n then n else w.alloc.bytesToGet (roundUp n * 20)

/-- What the program and `malloc` keep to. -/
def Valid (w : World) : AllocEvent → Prop
  | .allocate n answers =>
    0 < n ∧ n < 2 ^ 64 ∧ ∀ a ∈ answers, a ≠ 0 → w.Fresh a (w.asked n)
  | .deallocate b => b ∈ w.blocks
  | .reallocate b newSz answers =>
    b ∈ w.blocks ∧ 0 < newSz ∧ newSz < 2 ^ 64 ∧ ∀ a ∈ answers, a ≠ 0 →
      if maxBytes < b.len ∧ maxBytes < newSz then
        World.Fresh { w with blocks := w.blocks.erase b } a newSz
      else w.Fresh a (w.asked newSz)
  | .write a _ => ∃ b ∈ w.blocks, b.Has a

/-- An event. -/
def exec (depth : Nat) (w : World) : AllocEvent → Option World
  | .allocate n answers =>
    (w.alloc.allocate depth n answers).map fun (r, s) =>
      ⟨s, match r with
        | none => w.blocks
        | some p => ⟨p, n⟩ :: w.blocks⟩
  | .deallocate b => some ⟨w.alloc.deallocate b.addr b.len, w.blocks.erase b⟩
  | .reallocate b newSz answers =>
    (w.alloc.reallocate depth b.addr b.len newSz answers).map fun (r, s) =>
      ⟨s, match r with
        | none => w.blocks
        | some p => if p = 0 then w.blocks else ⟨p, newSz⟩ :: w.blocks.erase b⟩
  | .write a v =>
    some { w with alloc := { w.alloc with mem := Function.update w.alloc.mem a v } }

/-- A step of the program: the call returns or throws. -/
def Step (w : World) (e : AllocEvent) (w' : World) : Prop :=
  w.Valid e ∧ ∃ depth, w.exec depth e = some w'

end World

end Rtfsc.Stl
