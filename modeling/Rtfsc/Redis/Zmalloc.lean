import Rtfsc.Machine.Memory
import Rtfsc.Machine.Run
import Rtfsc.Machine.Table

/-!
# redis: zmalloc

A block of the C library begins with a prefix that holds the size the caller asked for; the caller gets the
pointer behind it. `used_memory` counts what the live blocks take, rounded up to words. The C library is a
parameter: it answers a call with a block or with `NULL`.

`Heap` is the state between the calls of a program: the state of zmalloc, and the live blocks with the sizes
last asked for. It is `Sound` when every block has room, every prefix holds its size and `used_memory` is the
sum.
-/

namespace Rtfsc.Redis

open Rtfsc.Machine

/-- What a platform fixes, without `HAVE_MALLOC_SIZE`. -/
structure Platform where
  /-- `sizeof(size_t)` -/
  sizeofSize : Nat
  /-- `sizeof(long)` -/
  sizeofLong : Nat
  /-- `PREFIX_SIZE` -/
  prefixSize : Nat
  long_pow : ∃ k, sizeofLong = 2 ^ k
  long_dvd : sizeofLong ∣ prefixSize
  size_pos : 0 < sizeofSize
  size_le : sizeofSize ≤ prefixSize
  prefix_lt : prefixSize < 256 ^ sizeofSize

namespace Platform

variable (P : Platform)

/-- How many values `size_t` has. -/
def modulus : Nat := 256 ^ P.sizeofSize

/-- `size+PREFIX_SIZE` -/
def plusPrefix (size : Nat) : Nat := (size + P.prefixSize) % P.modulus

/-- `_n` of the two macros, after the padding. -/
def padded (n : Nat) : Nat :=
  if n &&& (P.sizeofLong - 1) ≠ 0 then (n + (P.sizeofLong - (n &&& (P.sizeofLong - 1)))) % P.modulus else n

end Platform

/-- The static variables, and the memory. -/
structure Zmalloc where
  usedMemory : Nat
  zmallocThreadSafe : Bool
  /-- `used_memory_mutex` is locked. -/
  usedMemoryMutex : Bool
  memory : Machine.Memory
  /-- Whether `used_memory` has wrapped, which the source does not record. -/
  wrapped : Bool

namespace Zmalloc

variable (P : Platform)

/-- `used_memory += n` -/
def plus (z : Zmalloc) (n : Nat) : Zmalloc :=
  { z with
    usedMemory := (z.usedMemory + n) % P.modulus
    wrapped := z.wrapped || decide (P.modulus ≤ z.usedMemory + n) }

/-- `used_memory -= n` -/
def minus (z : Zmalloc) (n : Nat) : Zmalloc :=
  { z with
    usedMemory := (z.usedMemory + (P.modulus - n)) % P.modulus
    wrapped := z.wrapped || decide (z.usedMemory < n) }

/-- `pthread_mutex_lock` -/
def lock (z : Zmalloc) : Zmalloc := { z with usedMemoryMutex := true }

/-- `pthread_mutex_unlock` -/
def unlock (z : Zmalloc) : Zmalloc := { z with usedMemoryMutex := false }

/-- `update_zmalloc_stat_alloc` -/
def updateZmallocStatAlloc (z : Zmalloc) (n : Nat) : Zmalloc :=
  if z.zmallocThreadSafe then (z.lock.plus P (P.padded n)).unlock else z.plus P (P.padded n)

/-- `update_zmalloc_stat_free` -/
def updateZmallocStatFree (z : Zmalloc) (n : Nat) : Zmalloc :=
  if z.zmallocThreadSafe then (z.lock.minus P (P.padded n)).unlock else z.minus P (P.padded n)

/-- `*((size_t*)ptr) = size` -/
def setSize (z : Zmalloc) (ptr size : Nat) : Zmalloc :=
  { z with memory := z.memory.store ptr size P.sizeofSize }

/-- `*((size_t*)ptr)` -/
def size (z : Zmalloc) (ptr : Nat) : Nat := z.memory.load ptr P.sizeofSize

/-- `zmalloc`, with the `malloc` of the C library. `zmalloc_oom` aborts, and there is no result. -/
def zmalloc (malloc : Nat → Nat) (z : Zmalloc) (size : Nat) : Option (Nat × Zmalloc) :=
  let ptr := malloc (P.plusPrefix size)
  if ptr = 0 then none
  else
    let z := (z.setSize P ptr size).updateZmallocStatAlloc P (P.plusPrefix size)
    some (ptr + P.prefixSize, z)

/-- `zcalloc`, with a `calloc` that writes to the memory. -/
def zcalloc (calloc : Nat → Nat → Machine.Memory → Nat × Machine.Memory) (z : Zmalloc) (size : Nat) :
    Option (Nat × Zmalloc) :=
  let (ptr, memory) := calloc 1 (P.plusPrefix size) z.memory
  if ptr = 0 then none
  else
    let z := ({ z with memory := memory }.setSize P ptr size).updateZmallocStatAlloc P (P.plusPrefix size)
    some (ptr + P.prefixSize, z)

/-- `zrealloc`. The prefix is in both of the sizes that are counted, so neither counts it. -/
def zrealloc (malloc : Nat → Nat) (realloc : Nat → Nat → Machine.Memory → Nat × Machine.Memory) (z : Zmalloc)
    (ptr size : Nat) : Option (Nat × Zmalloc) :=
  if ptr = 0 then z.zmalloc P malloc size
  else
    let realptr := ptr - P.prefixSize
    let oldsize := z.size P realptr
    let (newptr, memory) := realloc realptr (P.plusPrefix size) z.memory
    if newptr = 0 then none
    else
      let z := { z with memory := memory }.setSize P newptr size
      let z := (z.updateZmallocStatFree P oldsize).updateZmallocStatAlloc P size
      some (newptr + P.prefixSize, z)

/-- `zfree`, with the pointer that goes to `free`. -/
def zfree (z : Zmalloc) (ptr : Nat) : Zmalloc × Option Nat :=
  if ptr = 0 then (z, none)
  else
    let realptr := ptr - P.prefixSize
    let oldsize := z.size P realptr
    (z.updateZmallocStatFree P (P.plusPrefix oldsize), some realptr)

/-- `zmalloc_enable_thread_safeness` -/
def enableThreadSafeness (z : Zmalloc) : Zmalloc := { z with zmallocThreadSafe := true }

end Zmalloc

/-! ## The heap -/

/-- A live block: how many bytes it has, and the size last asked for. -/
structure Block where
  len : Nat
  size : Nat
deriving DecidableEq, Repr

/-- zmalloc, and the live blocks of the C library by their addresses. -/
structure Heap where
  z : Zmalloc
  blocks : Table Nat Block

/-- What a call of `malloc`, `calloc` or `realloc` was answered with: `NULL`, or the address of a block with
so many bytes. -/
structure Answer where
  ptr : Nat
  len : Nat
deriving DecidableEq, Repr

/-- What a program does: a call of zmalloc with the answer of the C library, or anything that writes to the
memory. -/
inductive Event
  | zmalloc (size : Nat) (answer : Answer)
  | zcalloc (size : Nat) (answer : Answer)
  | zrealloc (ptr size : Nat) (answer : Answer)
  | zfree (ptr : Nat)
  | enableThreadSafeness
  | write (memory : Machine.Memory)

/-- `n` bytes from `ptr` on are zero. -/
def zeroed (m : Machine.Memory) (ptr n : Nat) : Machine.Memory := fun b =>
  if ptr ≤ b ∧ b < ptr + n then 0 else m b

namespace Heap

variable (P : Platform)

/-- What the C library promises of an answer to a request for `n` bytes: `NULL`, or a block of at least that
many bytes, for any type, apart from the live ones. -/
def Granted (blocks : Table Nat Block) (n : Nat) (answer : Answer) : Prop :=
  answer.ptr = 0 ∨
    n ≤ answer.len ∧ P.sizeofLong ∣ answer.ptr ∧ answer.ptr + answer.len < P.modulus ∧
      blocks.lookup answer.ptr = none ∧
      ∀ e ∈ blocks.entries, answer.ptr + answer.len ≤ e.1 ∨ e.1 + e.2.len ≤ answer.ptr

instance (blocks : Table Nat Block) (n : Nat) (answer : Answer) : Decidable (Granted P blocks n answer) := by
  unfold Granted
  infer_instance

/-- A pointer that the program got, and has not passed on yet. -/
def Live (h : Heap) (ptr : Nat) : Prop :=
  P.prefixSize ≤ ptr ∧ (h.blocks.lookup (ptr - P.prefixSize)).isSome

instance (h : Heap) (ptr : Nat) : Decidable (h.Live P ptr) := by
  unfold Live
  infer_instance

/-- The prefixes of the live blocks are left alone. -/
def KeepsPrefixes (h : Heap) (memory : Machine.Memory) : Prop :=
  ∀ e ∈ h.blocks.entries, memory.load e.1 P.sizeofSize = h.z.size P e.1

instance (h : Heap) (memory : Machine.Memory) : Decidable (h.KeepsPrefixes P memory) := by
  unfold KeepsPrefixes
  infer_instance

/-- The block that a call has returned. -/
def returned (blocks : Table Nat Block) (size : Nat) (answer : Answer) (r : Nat × Zmalloc) : Heap :=
  { z := r.2, blocks := blocks.insert (r.1 - P.prefixSize) ⟨answer.len, size⟩ }

/-- The next state, if the event can happen and the call returns. -/
def exec (h : Heap) : Event → Option Heap
  | .zmalloc size answer =>
    if size < P.modulus ∧ Granted P h.blocks (P.plusPrefix size) answer then
      (h.z.zmalloc P (fun _ => answer.ptr) size).map (returned P h.blocks size answer)
    else none
  | .zcalloc size answer =>
    if size < P.modulus ∧ Granted P h.blocks (P.plusPrefix size) answer then
      let calloc (count n : Nat) (m : Machine.Memory) := (answer.ptr, zeroed m answer.ptr (count * n))
      (h.z.zcalloc P calloc size).map (returned P h.blocks size answer)
    else none
  | .zrealloc ptr size answer =>
    let old := h.blocks.lookup (ptr - P.prefixSize)
    let rest := if ptr = 0 then h.blocks else h.blocks.erase (ptr - P.prefixSize)
    if size < P.modulus ∧ (ptr = 0 ∨ h.Live P ptr) ∧ Granted P rest (P.plusPrefix size) answer then
      let realloc (p n : Nat) (m : Machine.Memory) :=
        (answer.ptr, m.copy answer.ptr p (((old.map Block.len).getD 0).min n))
      (h.z.zrealloc P (fun _ => answer.ptr) realloc ptr size).map (returned P rest size answer)
    else none
  | .zfree ptr =>
    if ptr = 0 ∨ h.Live P ptr then
      let r := h.z.zfree P ptr
      some { z := r.1, blocks := r.2.elim h.blocks h.blocks.erase }
    else none
  | .enableThreadSafeness => some { h with z := h.z.enableThreadSafeness }
  | .write memory =>
    if h.KeepsPrefixes P memory then some { h with z := { h.z with memory := memory } } else none

/-- The program has done nothing yet. -/
def start (memory : Machine.Memory) : Heap := ⟨⟨0, false, false, memory, false⟩, ∅⟩

/-- What a live block of a size takes: with the prefix, rounded up to a multiple of `sizeof(long)`. -/
def taken (size : Nat) : Nat := (size + P.prefixSize + (P.sizeofLong - 1)) / P.sizeofLong * P.sizeofLong

/-- Every block has room for its size behind the prefix, the prefix holds it, and `used_memory` is the sum of
what the blocks take and has never wrapped. -/
structure Sound (h : Heap) : Prop where
  room : ∀ a b, h.blocks.lookup a = some b → P.prefixSize + b.size ≤ b.len
  stored : ∀ a b, h.blocks.lookup a = some b → h.z.size P a = b.size
  used : h.z.usedMemory = total (fun _ b => taken P b.size) h.blocks
  freed : h.blocks = ∅ → h.z.usedMemory = 0
  not_wrapped : h.z.wrapped = false

end Heap

/-- The size asked for leaves room for the prefix in a `size_t`. -/
def Event.Fits (P : Platform) : Event → Prop
  | .zmalloc size _ | .zcalloc size _ | .zrealloc _ size _ => size + P.prefixSize < P.modulus
  | .zfree _ | .enableThreadSafeness | .write _ => True

instance (P : Platform) (e : Event) : Decidable (e.Fits P) := by
  unfold Event.Fits
  split <;> infer_instance

end Rtfsc.Redis
