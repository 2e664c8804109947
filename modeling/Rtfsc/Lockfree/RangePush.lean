import Rtfsc.Machine.Links
import Mathlib.Order.Nat

/-!
# stack: the push of a range

`do_push` on a range, over the free list of pointers, with no other thread running. The nodes are taken one
after the other and linked among themselves; then the chain is put in front of `tos`. A node of the free
list has its `next` where a node of the stack has its own. The allocator and the copy of an element may
throw, and a `compare_exchange_weak` may fail for no reason.
-/

namespace Rtfsc.Lockfree

open Rtfsc.Machine

/-- `tagged_ptr` -/
structure TaggedPtr where
  ptr : Option Nat
  tag : UInt16
deriving DecidableEq

/-- An element of the range, with what happens when its node is constructed. -/
structure RangeItem (α : Type) where
  value : α
  takeFails : Nat
  allocThrows : Bool
  copyThrows : Bool

/-- The template arguments, and how often a `compare_exchange_weak` fails where a node is given back and
where the chain is linked. -/
structure PushMode where
  threadSafe : Bool
  bounded : Bool
  giveFails : Nat → Nat
  linkFails : Nat

/-- What a push throws: `std::bad_alloc`, or what the copy throws. -/
inductive PushThrow
  | badAlloc
  | copy
deriving DecidableEq

/-- The nodes by their `next` and the element that lives in them, `pool_`, `tos`, and how many nodes the
allocator has handed out. -/
structure NodeStack (α : Type) where
  next : Nat → Option Nat
  v : Nat → Option α
  pool : TaggedPtr
  tos : TaggedPtr
  created : Nat

namespace NodeStack

variable {α : Type}

def setNext (s : NodeStack α) (n : Nat) (next : Option Nat) : NodeStack α :=
  { s with next := Function.update s.next n next }

/-! ## The free list -/

/-- `pool_` is empty. -/
def allocateNew (s : NodeStack α) (bounded allocThrows : Bool) :
    NodeStack α × Except PushThrow (Option Nat) :=
  if bounded then (s, .ok none)
  else if allocThrows then (s, .error .badAlloc)
  else ({ s with created := s.created + 1 }, .ok (some s.created))

/-- `allocate_impl_unsafe` -/
def allocateImplUnsafe (s : NodeStack α) (bounded allocThrows : Bool) :
    NodeStack α × Except PushThrow (Option Nat) :=
  match s.pool.ptr with
  | none => s.allocateNew bounded allocThrows
  | some n => ({ s with pool := ⟨s.next n, s.pool.tag + 1⟩ }, .ok (some n))

/-- `allocate_impl`. A failed round loads what it had. -/
def allocateImpl (s : NodeStack α) (bounded allocThrows : Bool) :
    Nat → NodeStack α × Except PushThrow (Option Nat)
  | 0 =>
    match s.pool.ptr with
    | none => s.allocateNew bounded allocThrows
    | some n => ({ s with pool := ⟨s.next n, s.pool.tag + 1⟩ }, .ok (some n))
  | fails + 1 =>
    match s.pool.ptr with
    | none => s.allocateNew bounded allocThrows
    | some _ => s.allocateImpl bounded allocThrows fails

/-- `deallocate_impl_unsafe` -/
def deallocateImplUnsafe (s : NodeStack α) (n : Nat) : NodeStack α :=
  { s.setNext n s.pool.ptr with pool := ⟨some n, s.pool.tag⟩ }

/-- `deallocate_impl` -/
def deallocateImpl (s : NodeStack α) (n : Nat) : Nat → NodeStack α
  | 0 => { s.setNext n s.pool.ptr with pool := ⟨some n, s.pool.tag⟩ }
  | fails + 1 => (s.setNext n s.pool.ptr).deallocateImpl n fails

def allocate (s : NodeStack α) (m : PushMode) (x : RangeItem α) :
    NodeStack α × Except PushThrow (Option Nat) :=
  if m.threadSafe then s.allocateImpl m.bounded x.allocThrows x.takeFails
  else s.allocateImplUnsafe m.bounded x.allocThrows

def deallocate (s : NodeStack α) (m : PushMode) (n : Nat) : NodeStack α :=
  if m.threadSafe then s.deallocateImpl n (m.giveFails n) else s.deallocateImplUnsafe n

/-- `construct`. The exception of the copy leaves it, and nothing is given back. -/
def construct (s : NodeStack α) (m : PushMode) (x : RangeItem α) :
    NodeStack α × Except PushThrow (Option Nat) :=
  match s.allocate m x with
  | (t, .error e) => (t, .error e)
  | (t, .ok none) => (t, .ok none)
  | (t, .ok (some n)) =>
    if x.copyThrows then (t, .error .copy)
    else ({ t with v := Function.update t.v n (some x.value) }, .ok (some n))

/-- `destruct` -/
def destruct (s : NodeStack α) (m : PushMode) (n : Nat) : NodeStack α :=
  deallocate { s with v := Function.update s.v n none } m n

/-! ## The stack -/

/-- `link_nodes_unsafe` -/
def linkNodesUnsafe (s : NodeStack α) (newTopNode endNode : Nat) : NodeStack α :=
  { s.setNext endNode s.tos.ptr with tos := ⟨some newTopNode, s.tos.tag⟩ }

/-- `link_nodes_atomic` -/
def linkNodesAtomic (s : NodeStack α) (newTopNode endNode : Nat) : Nat → NodeStack α
  | 0 => { s.setNext endNode s.tos.ptr with tos := ⟨some newTopNode, s.tos.tag⟩ }
  | fails + 1 => (s.setNext endNode s.tos.ptr).linkNodesAtomic newTopNode endNode fails

def linkNodes (s : NodeStack α) (m : PushMode) (newTopNode endNode : Nat) : NodeStack α :=
  if m.threadSafe then s.linkNodesAtomic newTopNode endNode m.linkFails
  else s.linkNodesUnsafe newTopNode endNode

/-- The handler of `prepare_node_list`: the chain is destructed from its top on, in so many rounds at
most. -/
def destructChain (m : PushMode) : Nat → NodeStack α → Option Nat → Option (NodeStack α)
  | _, s, none => some s
  | 0, _, some _ => none
  | rounds + 1, s, some n => destructChain m rounds (s.destruct m n) (s.next n)

/-- The loop of `prepare_node_list`, with `it` as the number of the elements in front of it; there are as
many nodes in the chain. -/
def prepareRest (m : PushMode) :
    NodeStack α → Nat → Nat → List (RangeItem α) → Option (NodeStack α × Except PushThrow (Nat × Nat))
  | s, newTopNode, it, [] => some (s, .ok (newTopNode, it))
  | s, newTopNode, it, x :: rest =>
    match s.construct m x with
    | (t, .error e) => (destructChain m it t (some newTopNode)).map (·, .error e)
    | (t, .ok none) => some (t, .ok (newTopNode, it))
    | (t, .ok (some newnode)) =>
      prepareRest m (t.setNext newnode (some newTopNode)) newnode (it + 1) rest

/-- `prepare_node_list`: the top and the end of the chain, and `ret`. The first element is read without a
look at `end`. -/
def prepareNodeList (s : NodeStack α) (m : PushMode) :
    List (RangeItem α) → Option (NodeStack α × Except PushThrow (Option (Nat × Nat) × Nat))
  | [] => none
  | x :: rest =>
    match s.construct m x with
    | (t, .error e) => some (t, .error e)
    | (t, .ok none) => some (t, .ok (none, 0))
    | (t, .ok (some endNode)) =>
      match prepareRest m (t.setNext endNode none) endNode 1 rest with
      | none => none
      | some (u, .error e) => some (u, .error e)
      | some (u, .ok (newTopNode, ret)) => some (u, .ok (some (newTopNode, endNode), ret))

/-- `do_push` and `unsynchronized_push` of a range: what is returned is the number of the elements in front
of the iterator. Nothing, where the code reads behind the range or the handler behind the chain. -/
def doPush (s : NodeStack α) (m : PushMode) (range : List (RangeItem α)) :
    Option (NodeStack α × Except PushThrow Nat) :=
  match s.prepareNodeList m range with
  | none => none
  | some (t, .error e) => some (t, .error e)
  | some (t, .ok (none, ret)) => some (t, .ok ret)
  | some (t, .ok (some (newTopNode, endNode), ret)) =>
    some (t.linkNodes m newTopNode endNode, .ok ret)

/-! ## What a failed round leaves -/

variable {s t u : NodeStack α} {m : PushMode} {x : RangeItem α} {n : Nat}

theorem allocateImpl_eq (s : NodeStack α) (bounded allocThrows : Bool) (fails : Nat) :
    s.allocateImpl bounded allocThrows fails = s.allocateImplUnsafe bounded allocThrows := by
  induction fails with
  | zero => rfl
  | succ fails ih =>
    rw [allocateImpl, ih]
    unfold allocateImplUnsafe
    split <;> rfl

theorem deallocateImpl_eq (s : NodeStack α) (n fails : Nat) :
    s.deallocateImpl n fails = s.deallocateImplUnsafe n := by
  induction fails generalizing s with
  | zero => rfl
  | succ fails ih =>
    rw [deallocateImpl, ih]
    unfold deallocateImplUnsafe setNext
    rw [Function.update_idem]

theorem linkNodesAtomic_eq (s : NodeStack α) (newTopNode endNode fails : Nat) :
    s.linkNodesAtomic newTopNode endNode fails = s.linkNodesUnsafe newTopNode endNode := by
  induction fails generalizing s with
  | zero => rfl
  | succ fails ih =>
    rw [linkNodesAtomic, ih]
    unfold linkNodesUnsafe setNext
    rw [Function.update_idem]

theorem allocate_eq (s : NodeStack α) (m : PushMode) (x : RangeItem α) :
    s.allocate m x = s.allocateImplUnsafe m.bounded x.allocThrows := by
  unfold allocate
  rw [allocateImpl_eq, ite_self]

theorem deallocate_eq (s : NodeStack α) (m : PushMode) (n : Nat) :
    s.deallocate m n = s.deallocateImplUnsafe n := by
  unfold deallocate
  rw [deallocateImpl_eq, ite_self]

theorem linkNodes_eq (s : NodeStack α) (m : PushMode) (newTopNode endNode : Nat) :
    s.linkNodes m newTopNode endNode = s.linkNodesUnsafe newTopNode endNode := by
  unfold linkNodes
  rw [linkNodesAtomic_eq, ite_self]

/-! ## The chains -/

/-- The nodes of the chain that a push has made, of the stack and of the free list. -/
def cells (taken stack : List (Nat × α)) (free : List Nat) : List Nat :=
  taken.map Prod.fst ++ (stack.map Prod.fst ++ free)

theorem cells_middle (taken stack : List (Nat × α)) (n : Nat) (free : List Nat) :
    (cells taken stack (n :: free)).Perm (n :: cells taken stack free) := by
  unfold cells
  rw [← List.append_assoc, ← List.append_assoc]
  exact List.perm_middle

/-- The chain of a push starts at `top`, with the nodes and the elements in `taken`; the stack and the free
list are these, and no node is in two places. -/
structure Parts (s : NodeStack α) (top : Option Nat) (taken stack : List (Nat × α))
    (free : List Nat) : Prop where
  takenLinks : Links s.next top (taken.map Prod.fst)
  stackLinks : Links s.next s.tos.ptr (stack.map Prod.fst)
  freeLinks : Links s.next s.pool.ptr free
  values : ∀ c ∈ taken ++ stack, s.v c.1 = some c.2
  nodup : (cells taken stack free).Nodup
  created : ∀ n ∈ cells taken stack free, n < s.created

/-- No push is on its way. -/
def Holds (s : NodeStack α) (stack : List (Nat × α)) (free : List Nat) : Prop :=
  s.Parts none [] stack free

/-- The nodes are those that there were, and those that the allocator has handed out since. -/
structure Conserved (s t : NodeStack α) (ns ns' : List Nat) : Prop where
  created : s.created ≤ t.created
  mem : ∀ n, n ∈ ns' ↔ n ∈ ns ∨ s.created ≤ n ∧ n < t.created

theorem Conserved.trans {ns ns' ns'' : List Nat} (h : Conserved s t ns ns')
    (h' : Conserved t u ns' ns'') : Conserved s u ns ns'' where
  created := h.created.trans h'.created
  mem n := by
    have hs := h.created
    have ht := h'.created
    rw [h'.mem, h.mem, or_assoc]
    refine or_congr_right ⟨?_, fun hn => ?_⟩
    · rintro (hn | hn)
      · exact ⟨hn.1, hn.2.trans_le ht⟩
      · exact ⟨hs.trans hn.1, hn.2⟩
    · rcases Nat.lt_or_ge n t.created with hlt | hge
      · exact .inl ⟨hn.1, hlt⟩
      · exact .inr ⟨hge, hn.2⟩

/-- The same nodes, in other places. -/
theorem Conserved.of_perm {ns ns' : List Nat} (h : ns.Perm ns') (hcreated : t.created = s.created) :
    Conserved s t ns ns' where
  created := hcreated.ge
  mem n := by
    rw [h.mem_iff, hcreated]
    exact (or_iff_left fun hn => absurd (hn.1.trans_lt hn.2) (lt_irrefl _)).symm

namespace Parts

variable {top : Option Nat} {taken stack : List (Nat × α)} {free : List Nat}

/-- The first node of the free list leaves it. -/
theorem unpool (h : s.Parts top taken stack (n :: free)) (tag : UInt16) :
    ({ s with pool := ⟨s.next n, tag⟩ } : NodeStack α).Parts top taken stack free ∧
      n ∉ cells taken stack free ∧ n < s.created := by
  have hperm := cells_middle taken stack n free
  have hnodup := hperm.nodup_iff.1 h.nodup
  rw [List.nodup_cons] at hnodup
  exact ⟨⟨h.takenLinks, h.stackLinks, h.freeLinks.2, h.values, hnodup.2, fun k hk =>
    h.created k (hperm.mem_iff.2 (List.mem_cons_of_mem n hk))⟩, hnodup.1,
    h.created n (hperm.mem_iff.2 List.mem_cons_self)⟩

/-- The allocator hands out a node. -/
theorem create (h : s.Parts top taken stack free) :
    ({ s with created := s.created + 1 } : NodeStack α).Parts top taken stack free ∧
      s.created ∉ cells taken stack free :=
  ⟨⟨h.takenLinks, h.stackLinks, h.freeLinks, h.values, h.nodup, fun k hk => (h.created k hk).trans (Nat.lt_succ_self _)⟩,
    fun hs => absurd (h.created _ hs) (lt_irrefl _)⟩

/-- A node that is nowhere is linked to the chain, with an element. -/
theorem link (h : s.Parts top taken stack free) (hn : n ∉ cells taken stack free)
    (hcreated : n < s.created) (value : α) :
    (({ s with v := Function.update s.v n (some value) } : NodeStack α).setNext n top).Parts
      (some n) ((n, value) :: taken) stack free where
  takenLinks := h.takenLinks.push fun hmem => hn (List.mem_append_left _ hmem)
  stackLinks := h.stackLinks.update (fun hmem => hn (List.mem_append_right _ (List.mem_append_left _ hmem))) top
  freeLinks := h.freeLinks.update (fun hmem => hn (List.mem_append_right _ (List.mem_append_right _ hmem))) top
  values c hc := by
    rw [List.cons_append, List.mem_cons] at hc
    rcases hc with rfl | hc
    · exact Function.update_self ..
    · have hne : c.1 ≠ n := by
        rintro rfl
        refine hn ?_
        rw [cells, ← List.append_assoc, ← List.map_append]
        exact List.mem_append_left _ (List.mem_map_of_mem hc)
      exact (Function.update_of_ne hne _ _).trans (h.values c hc)
  nodup := List.nodup_cons.2 ⟨hn, h.nodup⟩
  created k hk := by
    rcases List.mem_cons.1 hk with rfl | hk
    · exact hcreated
    · exact h.created k hk

/-- The top of the chain is destructed. -/
theorem destruct {value : α} (h : s.Parts top ((n, value) :: taken) stack free) (m : PushMode) :
    (s.destruct m n).Parts (s.next n) taken stack (n :: free) := by
  have hnodup : n ∉ cells taken stack free ∧ (cells taken stack free).Nodup :=
    List.nodup_cons.1 h.nodup
  have hn := hnodup.1
  have hperm := (cells_middle taken stack n free).symm
  unfold NodeStack.destruct
  rw [deallocate_eq]
  exact
    { takenLinks := h.takenLinks.2.update (fun hmem => hn (List.mem_append_left _ hmem)) _
      stackLinks := h.stackLinks.update
        (fun hmem => hn (List.mem_append_right _ (List.mem_append_left _ hmem))) _
      freeLinks := h.freeLinks.push fun hmem => hn (List.mem_append_right _ (List.mem_append_right _ hmem))
      values := fun c hc => by
        have hne : c.1 ≠ n := by
          rintro rfl
          refine hn ?_
          rw [cells, ← List.append_assoc, ← List.map_append]
          exact List.mem_append_left _ (List.mem_map_of_mem hc)
        exact (Function.update_of_ne hne _ _).trans (h.values c (List.mem_cons_of_mem _ hc))
      nodup := hperm.nodup_iff.1 h.nodup
      created := fun k hk => h.created k (hperm.mem_iff.2 hk) }

end Parts

end NodeStack

end Rtfsc.Lockfree
