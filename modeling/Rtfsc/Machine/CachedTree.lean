import Mathlib.Data.Tree.Basic
import Mathlib.Data.List.Nodup
import Mathlib.Data.List.Perm.Basic
import Mathlib.Order.Lattice

/-!
# Search trees with a cached first node

A node is linked below a leaf that a walk from the root finds by comparisons; equal keys go to the
right. Rebalancing and removal are left to the implementation of the tree, which only has to keep the
in-order sequence. The first node is cached: the walk tells whether the new node is it.
-/

namespace Rtfsc.Machine

open BinaryTree

variable {α κ : Type}

/-- The nodes of a tree from left to right. -/
def inorder : BinaryTree α → List α
  | .nil => []
  | .node a l r => inorder l ++ a :: inorder r

@[simp] theorem inorder_nil : inorder (.nil : BinaryTree α) = [] :=
  rfl

@[simp] theorem inorder_node (a : α) (l r : BinaryTree α) :
    inorder (.node a l r) = inorder l ++ a :: inorder r :=
  rfl

/-- Link `x` below the leaf that the walk reaches, which goes left at the nodes that `x` is before, and
tell whether it never went right. -/
def link (before : α → α → Bool) (x : α) : BinaryTree α → BinaryTree α × Bool
  | .nil => (.node x .nil .nil, true)
  | .node a l r =>
    if before x a then (.node a (link before x l).1 r, (link before x l).2)
    else (.node a l (link before x r).1, false)

section Link

variable {before : α → α → Bool} {x : α}

theorem link_node (a : α) (l r : BinaryTree α) :
    link before x (.node a l r) =
      if before x a then (.node a (link before x l).1 r, (link before x l).2)
      else (.node a l (link before x r).1, false) :=
  rfl

theorem inorder_link_perm (t : BinaryTree α) :
    (inorder (link before x t).1).Perm (x :: inorder t) := by
  induction t with
  | nil => exact .refl _
  | node a l r ihl ihr =>
    rw [link_node]
    split
    · exact ihl.append_right _
    · exact ((ihr.cons a).trans (.swap x a _)).append_left _ |>.trans List.perm_middle

/-- A walk that never goes right puts the node in front of all others. -/
theorem inorder_link_leftmost (t : BinaryTree α) (h : (link before x t).2 = true) :
    inorder (link before x t).1 = x :: inorder t := by
  induction t with
  | nil => rfl
  | node a l r ihl =>
    rw [link_node] at h ⊢
    split at h
    · next ha =>
      rw [if_pos ha, inorder_node, ihl h]
      rfl
    · cases h

/-- A walk that goes right leaves the first node the first one. -/
theorem head?_inorder_link (t : BinaryTree α) (h : (link before x t).2 = false) :
    (inorder (link before x t).1).head? = (inorder t).head? := by
  induction t with
  | nil => cases h
  | node a l r ihl =>
    rw [link_node] at h ⊢
    split at h
    · next ha => rw [if_pos ha, inorder_node, inorder_node, List.head?_append, ihl h, List.head?_append]
    · next ha =>
      rw [if_neg ha, inorder_node, inorder_node, List.head?_append, List.head?_append]
      rfl

/-- Where the comparison is that of keys, the walk keeps the sequence sorted. -/
theorem inorder_link_sorted [LinearOrder κ] {key : α → κ} (t : BinaryTree α)
    (hb : ∀ a ∈ inorder t, before x a = true ↔ key x < key a)
    (hs : (inorder t).Pairwise fun a b => key a ≤ key b) :
    (inorder (link before x t).1).Pairwise fun a b => key a ≤ key b := by
  induction t with
  | nil => exact List.pairwise_singleton _ _
  | node a l r ihl ihr =>
    rw [inorder_node] at hb hs
    obtain ⟨hl, hr, hlr⟩ := List.pairwise_append.1 hs
    obtain ⟨har, hr'⟩ := List.pairwise_cons.1 hr
    have hba := hb a (List.mem_append_right _ List.mem_cons_self)
    rw [link_node]
    split
    · next ha =>
      refine List.pairwise_append.2 ⟨ihl (fun b h => hb b (List.mem_append_left _ h)) hl, hr, ?_⟩
      intro b hbl c hc
      rcases List.mem_cons.1 ((inorder_link_perm l).mem_iff.1 hbl) with rfl | hbl
      · have hxa : key b ≤ key a := le_of_lt (hba.1 ha)
        rcases List.mem_cons.1 hc with rfl | hc
        · exact hxa
        · exact le_trans hxa (har c hc)
      · exact hlr b hbl c hc
    · next ha =>
      have hax : key a ≤ key x := not_lt.1 fun h => ha (hba.2 h)
      have hright := ihr (fun b h => hb b (List.mem_append_right _ (List.mem_cons_of_mem _ h))) hr'
      refine List.pairwise_append.2 ⟨hl, List.pairwise_cons.2 ⟨?_, hright⟩, ?_⟩
      · intro b hbr
        rcases List.mem_cons.1 ((inorder_link_perm r).mem_iff.1 hbr) with rfl | hbr
        · exact hax
        · exact har b hbr
      · intro b hbl c hc
        rcases List.mem_cons.1 hc with rfl | hc
        · exact hlr b hbl c List.mem_cons_self
        · rcases List.mem_cons.1 ((inorder_link_perm r).mem_iff.1 hc) with rfl | hc
          · exact le_trans (hlr b hbl a List.mem_cons_self) hax
          · exact hlr b hbl c (List.mem_cons_of_mem _ hc)

end Link

/-- What an implementation of balanced trees offers: rebalancing after a node has been linked, and the
removal of a node. Neither changes the sequence of the other nodes. -/
structure Balancing (α : Type) [DecidableEq α] where
  insertColor : BinaryTree α → BinaryTree α
  erase : α → BinaryTree α → BinaryTree α
  inorder_insertColor : ∀ t, inorder (insertColor t) = inorder t
  inorder_erase : ∀ x t, (inorder t).Nodup → x ∈ inorder t →
    inorder (erase x t) = (inorder t).erase x

/-- The tree whose nodes are those of a list, each with the rest on its right. -/
def spine : List α → BinaryTree α
  | [] => .nil
  | a :: l => .node a .nil (spine l)

theorem inorder_spine (l : List α) : inorder (spine l) = l := by
  induction l with
  | nil => rfl
  | cons a l ih => rw [spine, inorder_node, inorder_nil, List.nil_append, ih]

/-- Trees that are never rebalanced. -/
def Balancing.none (α : Type) [DecidableEq α] : Balancing α where
  insertColor t := t
  erase x t := spine ((inorder t).erase x)
  inorder_insertColor _ := rfl
  inorder_erase _ _ _ _ := inorder_spine _

/-- A tree together with its cached first node. -/
structure CachedTree (α : Type) where
  root : BinaryTree α
  leftmost : Option α

namespace CachedTree

/-- The empty tree. -/
def empty : CachedTree α :=
  ⟨.nil, none⟩

/-- The nodes from left to right. -/
def list (t : CachedTree α) : List α :=
  inorder t.root

/-- No node is in the tree twice, none is before one on its left, and the cached node is the first. -/
structure Ordered (before : α → α → Bool) (t : CachedTree α) : Prop where
  nodup : t.list.Nodup
  sorted : t.list.Pairwise fun a b => before b a = false
  leftmost : t.leftmost = t.list.head?

variable {before before' : α → α → Bool} {x : α} {t : CachedTree α}

theorem empty_ordered : (empty : CachedTree α).Ordered before :=
  ⟨List.nodup_nil, .nil, rfl⟩

theorem Ordered.leftmost_mem (ht : t.Ordered before) (h : t.leftmost = some x) : x ∈ t.list :=
  List.mem_of_head? (ht.leftmost.symm.trans h)

theorem Ordered.congr (ht : t.Ordered before)
    (h : ∀ a ∈ t.list, ∀ b ∈ t.list, before' a b = before a b) : t.Ordered before' where
  nodup := ht.nodup
  sorted := ht.sorted.imp_of_mem fun ha hb hab => (h _ hb _ ha).trans hab
  leftmost := ht.leftmost

variable [DecidableEq α]

/-- The node after `x`. -/
def next (t : CachedTree α) (x : α) : Option α :=
  (t.list.dropWhile (· ≠ x)).tail.head?

/-- Link `x` where the walk ends; a walk that never went right has found a new first node. -/
def insert (bal : Balancing α) (before : α → α → Bool) (x : α) (t : CachedTree α) :
    CachedTree α where
  root := bal.insertColor (link before x t.root).1
  leftmost := if (link before x t.root).2 then some x else t.leftmost

/-- Remove `x`; when it was the first node, the one after it becomes the first. -/
def erase (bal : Balancing α) (x : α) (t : CachedTree α) : CachedTree α where
  root := bal.erase x t.root
  leftmost := if t.leftmost = some x then t.next x else t.leftmost

variable {bal : Balancing α}

theorem next_mem {y : α} (h : t.next x = some y) : y ∈ t.list := by
  have hy := List.mem_of_mem_tail (List.mem_of_head? h)
  exact (List.dropWhile_sublist _).subset hy

theorem list_insert_perm : (t.insert bal before x).list.Perm (x :: t.list) := by
  rw [list, insert, bal.inorder_insertColor]
  exact inorder_link_perm t.root

/-- A new node is linked in order, if the comparison is that of keys. -/
theorem Ordered.insert [LinearOrder κ] (key : α → κ) (ht : t.Ordered before) (hx : x ∉ t.list)
    (hk : ∀ a ∈ x :: t.list, ∀ b ∈ x :: t.list, before a b = true ↔ key a < key b) :
    (t.insert bal before x).Ordered before := by
  have hperm : (t.insert bal before x).list.Perm (x :: t.list) := list_insert_perm
  have hlist : (t.insert bal before x).list = inorder (link before x t.root).1 :=
    bal.inorder_insertColor _
  refine ⟨hperm.nodup_iff.2 (List.nodup_cons.2 ⟨hx, ht.nodup⟩), ?_, ?_⟩
  · have hle : t.list.Pairwise fun a b => key a ≤ key b := by
      refine ht.sorted.imp_of_mem fun {a b} ha hb hab => not_lt.1 fun hlt => ?_
      have h := (hk b (List.mem_cons_of_mem _ hb) a (List.mem_cons_of_mem _ ha)).2 hlt
      exact Bool.false_ne_true (hab.symm.trans h)
    have hsorted := inorder_link_sorted t.root
      (fun a ha => hk x List.mem_cons_self a (List.mem_cons_of_mem _ ha)) hle
    rw [← hlist] at hsorted
    refine hsorted.imp_of_mem fun {a b} ha hb hab => ?_
    rw [← Bool.not_eq_true, hk b (hperm.mem_iff.1 hb) a (hperm.mem_iff.1 ha)]
    exact not_lt.2 hab
  · rw [hlist]
    cases hl : (link before x t.root).2 with
    | true =>
      rw [inorder_link_leftmost _ hl]
      exact if_pos hl
    | false =>
      rw [head?_inorder_link _ hl]
      refine Eq.trans (if_neg ?_) ht.leftmost
      rw [hl]
      exact Bool.false_ne_true

theorem Ordered.list_erase (ht : t.Ordered before) (hx : x ∈ t.list) :
    (t.erase bal x).list = t.list.erase x :=
  bal.inorder_erase x t.root ht.nodup hx

/-- A node of the tree is removed. -/
theorem Ordered.erase (ht : t.Ordered before) (hx : x ∈ t.list) :
    (t.erase bal x).Ordered before := by
  have hlist : (t.erase bal x).list = t.list.erase x := ht.list_erase hx
  refine ⟨?_, ?_, ?_⟩
  · rw [hlist]
    exact ht.nodup.erase x
  · rw [hlist]
    exact ht.sorted.sublist (List.erase_sublist)
  · rw [hlist]
    have hfirst := ht.leftmost
    have hnodup := ht.nodup
    change (if t.leftmost = some x then t.next x else t.leftmost) = _
    unfold next
    cases hl : t.list with
    | nil =>
      rw [hl] at hx
      cases hx
    | cons a l =>
      rw [hl] at hfirst
      rw [hfirst, List.head?_cons]
      split
      · next hax =>
        cases hax
        rw [List.erase_cons_head, List.dropWhile_cons, if_neg (by simp), List.tail_cons]
      · next hax =>
        have hax' : ¬(a == x) = true := fun h => hax (congrArg some (beq_iff_eq.1 h))
        rw [List.erase_cons_tail hax', List.head?_cons]

end CachedTree

end Rtfsc.Machine
