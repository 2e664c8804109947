import Rtfsc.Machine.Links
import Rtfsc.Machine.Run
import Rtfsc.Machine.Shared
import Mathlib.Data.UInt

/-!
# fixed_size_freelist

The free list of indices, with any number of threads that allocate and deallocate. A step is one access
to `pool_` or to the `next` of a node, together with what the thread does by itself behind it. The nodes
that are allocated belong to their owners, who may write into them, over `next` as well, and hand them
on to other threads.
-/

namespace Rtfsc.Lockfree

open Rtfsc.Machine

/-- `tagged_index` -/
structure TaggedIndex where
  index : UInt16
  tag : UInt16
deriving DecidableEq, Repr

/-- `get_next_tag` -/
def TaggedIndex.nextTag (t : TaggedIndex) : UInt16 := t.tag + 1

/-- Where a thread is: in `allocate_impl` or `deallocate_impl`, in front of an access. With a value of
`pool_` goes how many allocations had succeeded when it was loaded, for the record. -/
inductive FreelistPc
  | idle
  /-- in front of the first load of `pool_` -/
  | allocLoad
  /-- `pool_` is loaded: the test of the index, and the load of `next` -/
  | allocNext (oldPool : TaggedIndex) (seen : Nat)
  | allocCas (oldPool newPool : TaggedIndex) (seen : Nat)
  /-- what `allocate_impl` has returned -/
  | allocated (index : UInt16)
  | deallocLoad (index : UInt16)
  /-- `pool_` is loaded: the store to `next` -/
  | deallocNext (index : UInt16) (oldPool : TaggedIndex)
  | deallocCas (index : UInt16) (oldPool : TaggedIndex)
deriving DecidableEq, Repr

/-- The index that a thread is pushing. -/
def FreelistPc.pushes : FreelistPc → List UInt16
  | .deallocLoad i => [i]
  | .deallocNext i _ => [i]
  | .deallocCas i _ => [i]
  | _ => []

/-- A thread that is in no call. -/
def FreelistPc.outside : FreelistPc → Bool
  | .idle => true
  | .allocated _ => true
  | _ => false

variable {Θ : Type}

/-- The nodes of the storage by the index in their `next`, `pool_`, the threads, and what they own. For
the record, the number of allocations that have succeeded. -/
structure Freelist (Θ : Type) where
  nodeCount : Nat
  next : UInt16 → UInt16
  pool : TaggedIndex
  pc : Θ → FreelistPc
  owned : Θ → List UInt16
  allocations : Nat

/-- What happens: a call, the next access of a thread, where a `compare_exchange_weak` may fail for no
reason; or an owner writes into a node, or gives it to another thread. -/
inductive FreelistEvent (Θ : Type)
  | allocate (θ : Θ)
  | deallocate (θ : Θ) (index : UInt16)
  | access (θ : Θ) (fails : Bool)
  | write (θ : Θ) (index v : UInt16)
  | give (θ θ' : Θ) (index : UInt16)
deriving DecidableEq

namespace Freelist

/-- `null_handle` -/
def nullHandle (s : Freelist Θ) : UInt16 := UInt16.ofNat s.nodeCount

/-! ## The list is set up -/

def setNext (s : Freelist Θ) (i v : UInt16) : Freelist Θ :=
  { s with next := Function.update s.next i v }

/-- `deallocate_impl_unsafe` -/
def deallocateUnsafe (s : Freelist Θ) (i : UInt16) : Freelist Θ :=
  { s.setNext i s.pool.index with pool := ⟨i, s.pool.tag⟩ }

/-- One round of the loop in `initialize`. -/
def initializeNode (s : Freelist Θ) (i : Nat) : Freelist Θ :=
  (s.setNext (UInt16.ofNat i) s.nullHandle).deallocateUnsafe (UInt16.ofNat i)

/-- `fixed_size_freelist`, over a storage of `count` nodes with whatever is in them, before `initialize`. -/
def uninitialized (count : Nat) (next : UInt16 → UInt16) : Freelist Θ where
  nodeCount := count
  next := next
  pool := ⟨UInt16.ofNat count, 0⟩
  pc := fun _ => .idle
  owned := fun _ => []
  allocations := 0

/-- `fixed_size_freelist` behind `initialize`. -/
def new (count : Nat) (next : UInt16 → UInt16) : Freelist Θ :=
  (List.range count).foldl initializeNode (uninitialized count next)

/-! ## Steps -/

variable [DecidableEq Θ]

def setPc (s : Freelist Θ) (θ : Θ) (pc : FreelistPc) : Freelist Θ :=
  { s with pc := Function.update s.pc θ pc }

def setOwned (s : Freelist Θ) (θ : Θ) (l : List UInt16) : Freelist Θ :=
  { s with owned := Function.update s.owned θ l }

/-- The next access of a thread. -/
def access (s : Freelist Θ) (θ : Θ) (fails : Bool) : Option (Freelist Θ) :=
  match s.pc θ with
  | .idle => none
  | .allocLoad => some (s.setPc θ (.allocNext s.pool s.allocations))
  | .allocNext oldPool seen =>
    if oldPool.index = s.nullHandle then some (s.setPc θ (.allocated oldPool.index))
    else some (s.setPc θ (.allocCas oldPool ⟨s.next oldPool.index, oldPool.nextTag⟩ seen))
  | .allocCas oldPool newPool _ =>
    if s.pool = oldPool ∧ fails = false then
      some <| { s with pool := newPool, allocations := s.allocations + 1 }
        |>.setOwned θ (oldPool.index :: s.owned θ)
        |>.setPc θ (.allocated oldPool.index)
    else some (s.setPc θ (.allocNext s.pool s.allocations))
  | .allocated _ => none
  | .deallocLoad i => some (s.setPc θ (.deallocNext i s.pool))
  | .deallocNext i oldPool => some ((s.setNext i oldPool.index).setPc θ (.deallocCas i oldPool))
  | .deallocCas i oldPool =>
    if s.pool = oldPool ∧ fails = false then
      some ({ s with pool := ⟨i, oldPool.tag⟩ }.setPc θ .idle)
    else some (s.setPc θ (.deallocNext i s.pool))

/-- An event, where it is possible: a thread is in one call at a time, and deallocates, writes and gives
away what it owns. -/
def step (s : Freelist Θ) : FreelistEvent Θ → Option (Freelist Θ)
  | .allocate θ => if (s.pc θ).outside then some (s.setPc θ .allocLoad) else none
  | .deallocate θ i =>
    if (s.pc θ).outside ∧ i ∈ s.owned θ then
      some ((s.setOwned θ ((s.owned θ).erase i)).setPc θ (.deallocLoad i))
    else none
  | .access θ fails => s.access θ fails
  | .write θ i v => if i ∈ s.owned θ then some (s.setNext i v) else none
  | .give θ θ' i =>
    if i ∈ s.owned θ ∧ θ ≠ θ' then
      some ((s.setOwned θ ((s.owned θ).erase i)).setOwned θ' (i :: s.owned θ'))
    else none

/-- Between a thread's load of `pool_` and its `compare_exchange_weak` fewer allocations succeed than there
are tags. -/
def Timely (s : Freelist Θ) : FreelistEvent Θ → Prop
  | .access θ _ =>
    match s.pc θ with
    | .allocCas _ _ seen => s.allocations < seen + 65536
    | _ => True
  | _ => True

instance (s : Freelist Θ) (e : FreelistEvent Θ) : Decidable (s.Timely e) := by
  unfold Timely
  split
  · split <;> infer_instance
  · infer_instance

/-- A step of a run. -/
def Step (s : Freelist Θ) (e : FreelistEvent Θ) (t : Freelist Θ) : Prop :=
  s.step e = some t ∧ s.Timely e

end Freelist

end Rtfsc.Lockfree
