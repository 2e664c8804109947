import Rtfsc.Machine.Links
import Rtfsc.Machine.Run
import Mathlib.Data.List.Count

/-!
# SLUB: a cpu slab is given up

`deactivate_slab` puts the objects of a cpu free list back on the free list of their page, one
compare-and-exchange each, and then unfreezes the page: it puts the page on the list that it should be
on, and takes that back when the compare-and-exchange that follows fails. Meanwhile other cpus free
objects of the page, and change the lists of the node while its lock is free. A step is one access to
what is shared, together with the accesses to the cpu's own variables and objects next to it. The run
ends with the call.
-/

namespace Rtfsc.Linux

open Rtfsc.Machine

/-- The fields of `page->counters`. -/
structure SlabCounters where
  inuse : Nat
  objects : Nat
  frozen : Bool
deriving DecidableEq, Repr

/-- `enum slab_modes` -/
inductive SlabMode
  | mNone
  | mPartial
  | mFull
  | mFree
deriving DecidableEq, Repr

/-- What the call reads of its `kmem_cache`, and the page that it is for; `storeUser` is the flag
without which `add_full` and `remove_full` do nothing. -/
structure SlabCache where
  page : Nat
  minPartial : Nat
  debug : Bool
  storeUser : Bool

/-- The variables of the call: `freelist`, `lock`, `l`, and whether `tail` is `DEACTIVATE_TO_TAIL`. -/
structure SlabVars where
  freelist : Option Nat
  tail : Bool
  lock : Bool
  l : SlabMode
deriving DecidableEq

/-- Where the call is. -/
inductive SlabPc
  /-- before the test of `page->freelist` -/
  | enter (freelist : Option Nat)
  /-- before the condition of the loop -/
  | drain (freelist : Option Nat) (tail : Bool)
  /-- in the loop, with `freelist` and `nextfree`: before `prior` and `counters` are read, and before the
  compare-and-exchange -/
  | drainPrior (o nextfree : Nat) (tail : Bool)
  | drainCounters (o nextfree : Nat) (tail : Bool) (prior : Option Nat)
  | drainCmpxchg (o nextfree : Nat) (tail : Bool) (prior : Option Nat) (counters : SlabCounters)
  /-- from `redo` on: before `old.freelist` and `old.counters` are read, before `n->nr_partial` is, before
  the lists are changed, and before the compare-and-exchange -/
  | redo (v : SlabVars)
  | oldCounters (v : SlabVars) (oldFreelist : Option Nat)
  | mode (v : SlabVars) (oldFreelist : Option Nat) (old : SlabCounters)
  | place (v : SlabVars) (oldFreelist : Option Nat) (old : SlabCounters) (m : SlabMode)
  | unfreeze (v : SlabVars) (oldFreelist : Option Nat) (old : SlabCounters)
  /-- behind the compare-and-exchange that has succeeded: before the lock is released, before the page is
  discarded, at the end -/
  | unfrozen (v : SlabVars)
  | unlocked (v : SlabVars)
  | done (v : SlabVars)
  /-- `VM_BUG_ON` -/
  | bug
deriving DecidableEq

/-- The free pointers of the objects, the page, the lists of the node, whether the call holds the
list lock, and where the call is. The objects that are still allocated and those that other cpus have
freed, how often the lock was taken and released and whether the page has been discarded are kept
beside. -/
structure SlabState where
  freePointer : Nat → Option Nat
  freelist : Option Nat
  counters : SlabCounters
  partialPages : List Nat
  nrPartial : Nat
  fullPages : List Nat
  locked : Bool
  pc : SlabPc
  allocated : List Nat
  remoteFreed : List Nat
  taken : Nat
  released : Nat
  discarded : Bool

/-- A step of the call, an object that another cpu frees, or lists of the node that others have changed
under the lock. -/
inductive SlabEvent
  | call
  | remoteFree (o : Nat)
  | others (pages : List Nat) (nr : Nat) (full : List Nat)
deriving DecidableEq

namespace SlabState

/-- `set_freepointer` -/
def setFreepointer (s : SlabState) (o : Nat) (fp : Option Nat) : SlabState :=
  { s with freePointer := Function.update s.freePointer o fp }

/-- `spin_lock(&n->list_lock)` -/
def takeLock (s : SlabState) : SlabState := { s with locked := true, taken := s.taken + 1 }

/-- `add_partial` -/
def addPartial (s : SlabState) (page : Nat) (tail : Bool) : SlabState :=
  { s with
    nrPartial := s.nrPartial + 1
    partialPages := if tail then s.partialPages ++ [page] else page :: s.partialPages }

/-- `remove_partial` -/
def removePartial (s : SlabState) (page : Nat) : SlabState :=
  { s with nrPartial := s.nrPartial - 1, partialPages := s.partialPages.erase page }

/-- `add_full` -/
def addFull (cache : SlabCache) (s : SlabState) : SlabState :=
  if cache.storeUser then { s with fullPages := cache.page :: s.fullPages } else s

/-- `remove_full` -/
def removeFull (cache : SlabCache) (s : SlabState) : SlabState :=
  if cache.storeUser then { s with fullPages := s.fullPages.erase cache.page } else s

/-- `new.counters` and `new.freelist`, from the old ones and what is left of the cpu free list. -/
def newCounters (v : SlabVars) (old : SlabCounters) : SlabCounters :=
  { old with inuse := if v.freelist.isSome then old.inuse - 1 else old.inuse, frozen := false }

def newFreelist (v : SlabVars) (oldFreelist : Option Nat) : Option Nat :=
  if v.freelist.isSome then v.freelist else oldFreelist

/-- `m`, from the new state of the slab and `n->nr_partial`. -/
def slabMode (cache : SlabCache) (nrPartial : Nat) (new : SlabCounters) (freelist : Option Nat) :
    SlabMode :=
  if new.inuse = 0 ∧ nrPartial ≥ cache.minPartial then .mFree
  else if freelist.isSome then .mPartial
  else .mFull

/-- The page leaves the list of the last attempt and goes on that of this one. -/
def changeLists (cache : SlabCache) (s : SlabState) (tail : Bool) (l m : SlabMode) : SlabState :=
  if l = m then s
  else
    let s := match l with
      | .mPartial => s.removePartial cache.page
      | .mFull => s.removeFull cache
      | _ => s
    match m with
    | .mPartial => s.addPartial cache.page tail
    | .mFull => s.addFull cache
    | _ => s

/-- One step of `deactivate_slab`. -/
def step (cache : SlabCache) (s : SlabState) : Option SlabState :=
  match s.pc with
  | .enter freelist => some { s with pc := .drain freelist s.freelist.isSome }
  | .drain none tail => some { s with pc := .redo ⟨none, tail, false, .mNone⟩ }
  | .drain (some o) tail =>
    match s.freePointer o with
    | none => some { s with pc := .redo ⟨some o, tail, false, .mNone⟩ }
    | some nextfree => some { s with pc := .drainPrior o nextfree tail }
  | .drainPrior o nextfree tail => some { s with pc := .drainCounters o nextfree tail s.freelist }
  | .drainCounters o nextfree tail prior =>
    some { s.setFreepointer o prior with
      pc := if s.counters.frozen then .drainCmpxchg o nextfree tail prior s.counters else .bug }
  | .drainCmpxchg o nextfree tail prior counters =>
    if s.freelist = prior ∧ s.counters = counters then
      some { s with
        freelist := some o
        counters := { counters with inuse := counters.inuse - 1 }
        pc := .drain (some nextfree) tail }
    else some { s with pc := .drainPrior o nextfree tail }
  | .redo v => some { s with pc := .oldCounters v s.freelist }
  | .oldCounters v oldFreelist =>
    if s.counters.frozen then
      match v.freelist with
      | some o => some { s.setFreepointer o oldFreelist with pc := .mode v oldFreelist s.counters }
      | none => some { s with pc := .mode v oldFreelist s.counters }
    else some { s with pc := .bug }
  | .mode v oldFreelist old =>
    some { s with pc := .place v oldFreelist old (slabMode cache s.nrPartial (newCounters v old)
      (newFreelist v oldFreelist)) }
  | .place v oldFreelist old m =>
    let lock := !v.lock && (m == .mPartial || (m == .mFull && cache.debug))
    let s := if lock then s.takeLock else s
    some { s.changeLists cache v.tail v.l m with
      pc := .unfreeze { v with lock := v.lock || lock, l := m } oldFreelist old }
  | .unfreeze v oldFreelist old =>
    if s.freelist = oldFreelist ∧ s.counters = old then
      some { s with
        freelist := newFreelist v oldFreelist
        counters := newCounters v old
        pc := .unfrozen v }
    else some { s with pc := .redo v }
  | .unfrozen v =>
    some { s with
      locked := if v.lock then false else s.locked
      released := if v.lock then s.released + 1 else s.released
      pc := .unlocked v }
  | .unlocked v =>
    some { s with discarded := if v.l = .mFree then true else s.discarded, pc := .done v }
  | .done _ => none
  | .bug => none

/-- The compare-and-exchange that unfreezes the page has succeeded. -/
def Finished (s : SlabState) : Prop :=
  match s.pc with
  | .unfrozen _ | .unlocked _ | .done _ => True
  | _ => False

instance (s : SlabState) : Decidable s.Finished := by
  unfold Finished
  split <;> infer_instance

/-- One step. Until the page is unfrozen other cpus free objects of it, and change the lists of the node
while the call does not hold the lock; they leave the page, which is frozen, off the lists. -/
def exec (cache : SlabCache) (s : SlabState) : SlabEvent → Option SlabState
  | .call => s.step cache
  | .remoteFree o =>
    if o ∈ s.allocated ∧ ¬s.Finished then
      some { s.setFreepointer o s.freelist with
        freelist := some o
        counters := { s.counters with inuse := s.counters.inuse - 1 }
        allocated := s.allocated.erase o
        remoteFreed := o :: s.remoteFreed }
    else none
  | .others pages nr full =>
    if s.locked = false ∧ ¬s.Finished ∧ cache.page ∉ pages then
      some { s with partialPages := pages, nrPartial := nr, fullPages := full }
    else none

end SlabState

end Rtfsc.Linux
