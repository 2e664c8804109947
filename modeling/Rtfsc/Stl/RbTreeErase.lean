import Rtfsc.Stl.RbTreeLookup

/-!
# Erasing a key

`erase` removes the range that `equal_range` delimits, one node after the other or the whole tree at
once. The function that unlinks a node and rebalances the tree is what it is documented to be.
-/

namespace Rtfsc.Stl

open Rtfsc.Machine BinaryTree

variable {N K : Type}

/-- The header knows the first node, the last one and their number, and no node is there twice. -/
structure RbTree.Linked (t : RbTree N) : Prop where
  nodup : (inorder t.root).Nodup
  leftmost : t.leftmost = firstPtr (inorder t.root)
  rightmost : t.rightmost = firstPtr (inorder t.root).reverse
  nodeCount : t.nodeCount = (inorder t.root).length

/-- With `_Rb_tree_rebalance_for_erase`, which tells the node that is to be freed. -/
structure EraseExternals (N : Type) extends RbExternals N where
  rebalanceForErase : N → RbTree N → N × RbTree N

/-- What is documented: the step of an iterator leads to the next node or to the end; and a node is
unlinked, while the header keeps up and rotations keep the sequence. -/
structure EraseExternals.Documented (ext : EraseExternals N) : Prop where
  increment : ∀ t l₁ a l₂, (inorder t.root).Nodup → inorder t.root = l₁ ++ a :: l₂ →
    ext.increment t (.node a) = firstPtr l₂
  rebalanceForErase : ∀ t l₁ a l₂, t.Linked → inorder t.root = l₁ ++ a :: l₂ →
    ∃ t', ext.rebalanceForErase a t = (a, t') ∧ inorder t'.root = l₁ ++ l₂ ∧
      t'.leftmost = firstPtr (l₁ ++ l₂) ∧ t'.rightmost = firstPtr (l₁ ++ l₂).reverse ∧
      t'.nodeCount = t.nodeCount

/-- `_M_erase`: the nodes that are dropped. -/
def mErase : BinaryTree N → List N
  | .nil => []
  | .node n l r => mErase r ++ n :: mErase l

/-- `clear`: the tree, and the nodes that are dropped. -/
def clear (t : RbTree N) : RbTree N × List N := (⟨.nil, .header, .header, 0⟩, mErase t.root)

section Erase

variable (ext : EraseExternals N)

/-- `_M_erase_aux` of one position: the tree, and the node that is dropped. -/
def eraseAux (t : RbTree N) (n : N) : RbTree N × N :=
  let (y, t') := ext.rebalanceForErase n t
  ({ t' with nodeCount := t'.nodeCount - 1 }, y)

variable [DecidableEq N]

/-- The loop of `_M_erase_aux` of a range, which has `fuel` steps to come to the end. -/
def eraseLoop (last : RbPtr N) : Nat → RbTree N → RbPtr N → Option (RbTree N × List N)
  | 0, t, first => if first = last then some (t, []) else none
  | fuel + 1, t, first =>
    if first = last then some (t, [])
    else do
      let n ← first.node?
      let after := ext.increment t first
      let (t', y) := eraseAux ext t n
      let (t'', ys) ← eraseLoop last fuel t' after
      some (t'', y :: ys)

/-- `_M_erase_aux` of a range. -/
def eraseAuxRange (fuel : Nat) (t : RbTree N) (first last : RbPtr N) :
    Option (RbTree N × List N) :=
  if first = t.leftmost ∧ last = .header then some (clear t) else eraseLoop ext last fuel t first

/-- `erase` of a key: the tree, the nodes that are dropped, and their number. -/
def eraseKey (key : N → K) (keyCompare : K → K → Bool) (fuel : Nat) (t : RbTree N) (k : K) :
    Option (RbTree N × List N × Nat) := do
  let (first, last) := equalRange key keyCompare t k
  let (t', ys) ← eraseAuxRange ext fuel t first last
  some (t', ys, t.nodeCount - t'.nodeCount)

end Erase

variable {ext : EraseExternals N} {key : N → K} {keyCompare : K → K → Bool} {t : RbTree N}
variable {l₁ l₂ : List N} {a : N}

theorem mErase_perm (t : BinaryTree N) : (mErase t).Perm (inorder t) := by
  induction t with
  | nil => exact .refl _
  | node n l r ihl ihr =>
    calc
      (mErase r ++ n :: mErase l)
      _ |>.Perm (inorder r ++ n :: inorder l) := ihr.append (ihl.cons n)
      _ |>.Perm (n :: (inorder r ++ inorder l)) := List.perm_middle
      _ |>.Perm (n :: (inorder l ++ inorder r)) := List.perm_append_comm.cons n
      _ |>.Perm (inorder l ++ n :: inorder r) := List.perm_middle.symm

theorem clear_linked (t : RbTree N) : (clear t).1.Linked :=
  ⟨List.nodup_nil, rfl, rfl, rfl⟩

/-- One node is removed. -/
theorem eraseAux_spec (hext : ext.Documented) (h : t.Linked) (hsplit : inorder t.root = l₁ ++ a :: l₂) :
    ∃ t', eraseAux ext t a = (t', a) ∧ t'.Linked ∧ inorder t'.root = l₁ ++ l₂ := by
  obtain ⟨t', hcall, hinorder, hleft, hright, hcount⟩ := hext.rebalanceForErase t l₁ a l₂ h hsplit
  refine ⟨{ t' with nodeCount := t'.nodeCount - 1 }, by rw [eraseAux, hcall], ?_, hinorder⟩
  have hnodup := h.nodup
  rw [hsplit, List.nodup_middle, List.nodup_cons] at hnodup
  refine ⟨hinorder ▸ hnodup.2, hinorder ▸ hleft, hinorder ▸ hright, ?_⟩
  show t'.nodeCount - 1 = (inorder t'.root).length
  rw [hcount, h.nodeCount, hsplit, hinorder, List.length_append, List.length_append, List.length_cons]
  rfl

section Range

variable [DecidableEq N] (hext : ext.Documented)

include hext

/-- A range is removed node after node. -/
theorem eraseLoop_spec {range : List N} {fuel : Nat} (h : t.Linked)
    (hsplit : inorder t.root = l₁ ++ (range ++ l₂)) (hfuel : range.length ≤ fuel) :
    ∃ t', eraseLoop ext (firstPtr l₂) fuel t (firstPtr (range ++ l₂)) = some (t', range) ∧
      t'.Linked ∧ inorder t'.root = l₁ ++ l₂ := by
  induction range generalizing t fuel with
  | nil =>
    refine ⟨t, ?_, h, hsplit⟩
    cases fuel with
    | zero => exact if_pos rfl
    | succ fuel => exact if_pos rfl
  | cons a range ih =>
    obtain ⟨fuel, rfl⟩ : ∃ f, fuel = f + 1 := ⟨fuel - 1, by simp at hfuel; omega⟩
    obtain ⟨t₁, herase, hlinked, hrest⟩ := eraseAux_spec hext h hsplit
    obtain ⟨t', hloop, hdone⟩ := ih hlinked hrest (Nat.le_of_succ_le_succ hfuel)
    have hne : firstPtr (a :: range ++ l₂) ≠ firstPtr l₂ := by
      have hnodup := h.nodup
      rw [hsplit] at hnodup
      cases l₂ with
      | nil => exact nofun
      | cons b l₂ =>
        rintro ⟨⟩
        have hnot := (List.nodup_cons.mp (List.nodup_append.mp hnodup).2.1).1
        exact hnot (by simp)
    refine ⟨t', ?_, hdone⟩
    rw [eraseLoop, if_neg hne]
    show (do
      let (t'', ys) ← eraseLoop ext (firstPtr l₂) fuel (eraseAux ext t a).1
        (ext.increment t (.node a))
      some (t'', (eraseAux ext t a).2 :: ys)) = _
    rw [herase, hext.increment t l₁ a (range ++ l₂) h.nodup hsplit, hloop]
    rfl

theorem eraseAuxRange_spec {range : List N} {fuel : Nat} (h : t.Linked)
    (hsplit : inorder t.root = l₁ ++ (range ++ l₂)) (hfuel : range.length ≤ fuel) :
    ∃ t' ys, eraseAuxRange ext fuel t (firstPtr (range ++ l₂)) (firstPtr l₂) = some (t', ys) ∧
      ys.Perm range ∧ t'.Linked ∧ inorder t'.root = l₁ ++ l₂ := by
  unfold eraseAuxRange
  by_cases hall : firstPtr (range ++ l₂) = t.leftmost ∧ firstPtr l₂ = .header
  · obtain ⟨hfirst, hlast⟩ := hall
    obtain rfl : l₂ = [] := by
      cases l₂ with
      | nil => rfl
      | cons b l₂ => cases hlast
    obtain rfl : l₁ = [] := by
      rw [h.leftmost, hsplit] at hfirst
      have hnodup := h.nodup
      rw [hsplit] at hnodup
      cases l₁ with
      | nil => rfl
      | cons b l₁ =>
        -- the first node would be in the range too
        cases range with
        | nil => cases hfirst
        | cons c range =>
          cases hfirst
          exact absurd hnodup (by simp)
    rw [if_pos ⟨hfirst, hlast⟩]
    refine ⟨(clear t).1, (clear t).2, rfl, ?_, clear_linked t, rfl⟩
    have hperm := mErase_perm t.root
    rwa [hsplit, List.nil_append, List.append_nil] at hperm
  · rw [if_neg hall]
    obtain ⟨t', hloop, hdone⟩ := eraseLoop_spec hext h hsplit hfuel
    exact ⟨t', range, hloop, .refl _, hdone⟩

end Range

/-! ## Trees that are not rebalanced -/

/-- The first node of a tree, and the rest. -/
def detachFirst (a : N) : BinaryTree N → BinaryTree N → N × BinaryTree N
  | .nil, r => (a, r)
  | .node b l l', r =>
    let (m, rest) := detachFirst b l l'
    (m, .node a rest r)

/-- What comes in place of a node: its only child, or the first node on the right. -/
def joinTrees : BinaryTree N → BinaryTree N → BinaryTree N
  | l, .nil => l
  | .nil, r => r
  | l, .node a r r' =>
    let (m, rest) := detachFirst a r r'
    .node m l rest

/-- A node is unlinked. -/
def unlink [DecidableEq N] (a : N) : BinaryTree N → BinaryTree N
  | .nil => .nil
  | .node b l r => if b = a then joinTrees l r else .node b (unlink a l) (unlink a r)

theorem inorder_detachFirst (a : N) (l r : BinaryTree N) :
    (detachFirst a l r).1 :: inorder (detachFirst a l r).2 = inorder l ++ a :: inorder r := by
  induction l generalizing a r with
  | nil => rfl
  | node b l l' ih _ =>
    rw [detachFirst, inorder_node, inorder_node, ← List.cons_append, ih]

theorem inorder_joinTrees (l r : BinaryTree N) : inorder (joinTrees l r) = inorder l ++ inorder r := by
  cases r with
  | nil => simp [joinTrees]
  | node a r r' =>
    cases l with
    | nil => rfl
    | node b l l' =>
      show inorder (.node (detachFirst a r r').1 _ (detachFirst a r r').2) = _
      rw [inorder_node, inorder_detachFirst, inorder_node, inorder_node]

theorem inorder_unlink [DecidableEq N] (t : BinaryTree N) (hnodup : (inorder t).Nodup) :
    inorder (unlink a t) = (inorder t).filter (· ≠ a) := by
  induction t with
  | nil => rfl
  | node b l r ihl ihr =>
    rw [unlink, inorder_node, List.filter_append]
    by_cases hb : b = a
    · subst hb
      have hside (hmem : b ∉ inorder l ∧ b ∉ inorder r) :
          (inorder l).filter (· ≠ b) = inorder l ∧ (inorder r).filter (· ≠ b) = inorder r := by
        simp only [List.filter_eq_self]
        exact ⟨fun n hn => decide_eq_true fun heq => hmem.1 (heq ▸ hn),
          fun n hn => decide_eq_true fun heq => hmem.2 (heq ▸ hn)⟩
      rcases node_cases hnodup (List.mem_append_right _ List.mem_cons_self) with
        ⟨-, hl, hr⟩ | ⟨hne, -, -⟩ | ⟨hne, -, -⟩
      · rw [if_pos rfl, inorder_joinTrees, List.filter_cons_of_neg (by simp), (hside ⟨hl, hr⟩).1,
          (hside ⟨hl, hr⟩).2]
      · exact absurd rfl hne
      · exact absurd rfl hne
    · rw [if_neg hb, inorder_node, ihl (nodup_left hnodup), ihr (nodup_right hnodup),
        List.filter_cons_of_pos (by simp [hb])]

/-- Iterators search the in-order sequence, and a node is unlinked without rotations. -/
def unbalancedErase (N : Type) [DecidableEq N] : EraseExternals N where
  toRbExternals := unbalanced N
  rebalanceForErase a t :=
    let root := unlink a t.root
    (a, { t with root, leftmost := firstPtr (inorder root), rightmost := firstPtr (inorder root).reverse })

theorem unbalancedErase_documented [DecidableEq N] : (unbalancedErase N).Documented where
  increment t l₁ a l₂ hnodup hsplit := by
    have ha : a ∉ l₁ := by
      rw [hsplit, List.nodup_middle, List.nodup_cons] at hnodup
      exact fun ha => hnodup.1 (List.mem_append_left _ ha)
    simp only [unbalancedErase, unbalanced]
    rw [hsplit, dropWhile_ne ha]
    rfl
  rebalanceForErase t l₁ a l₂ h hsplit := by
    have hrest : inorder (unlink a t.root) = l₁ ++ l₂ := by
      have hnodup := h.nodup
      rw [inorder_unlink t.root hnodup, hsplit]
      rw [hsplit, List.nodup_middle, List.nodup_cons, List.mem_append, not_or] at hnodup
      simp only [List.filter_append, ne_eq, List.filter_cons, not_true_eq_false, decide_false,
        Bool.false_eq_true, if_false]
      congr 1 <;> rw [List.filter_eq_self]
      · exact fun n hn => decide_eq_true fun heq => hnodup.1.1 (heq ▸ hn)
      · exact fun n hn => decide_eq_true fun heq => hnodup.1.2 (heq ▸ hn)
    exact ⟨_, rfl, hrest, congrArg firstPtr hrest, congrArg (firstPtr ·.reverse) hrest, rfl⟩

/-! ## The lookups and the range -/

/-- The lookups delimit the nodes with an equivalent key, and `erase` removes exactly these. -/
theorem lookups_delimit [DecidableEq N] (horder : IsStrictWeakOrder K fun a b => keyCompare a b = true)
    (hext : ext.Documented) (hlinked : t.Linked) (hsorted : Sorted key keyCompare (inorder t.root))
    (k : K) :
    ∃ lesser equal greater, inorder t.root = lesser ++ (equal ++ greater) ∧
      Thirds key keyCompare k lesser equal greater ∧
      equalRange key keyCompare t k =
        (lowerBound key keyCompare t k, upperBound key keyCompare t k) ∧
      lowerBound key keyCompare t k = firstPtr (equal ++ greater) ∧
      upperBound key keyCompare t k = firstPtr greater ∧
      find key keyCompare t k = firstPtr equal ∧
      ∀ fuel, equal.length ≤ fuel → ∃ t' ys,
        eraseKey ext key keyCompare fuel t k = some (t', ys, equal.length) ∧ ys.Perm equal ∧
        t'.Linked ∧ inorder t'.root = lesser ++ greater := by
  obtain ⟨lesser, equal, greater, hsplit, hthirds⟩ := exists_thirds horder hsorted k
  have hlower := lowerBound_eq horder hthirds hsplit
  have hupper := upperBound_eq horder hthirds hsplit
  have hrange : equalRange key keyCompare t k =
      (lowerBound key keyCompare t k, upperBound key keyCompare t k) :=
    equalRangeFrom_eq horder t.root .header k
  refine ⟨lesser, equal, greater, hsplit, hthirds, hrange, hlower, hupper,
    find_eq horder hthirds hsplit, fun fuel hfuel => ?_⟩
  obtain ⟨t', ys, hcall, hperm, hrest, hinorder⟩ := eraseAuxRange_spec hext hlinked hsplit hfuel
  refine ⟨t', ys, ?_, hperm, hrest, hinorder⟩
  have hcount : t.nodeCount - t'.nodeCount = equal.length := by
    rw [hlinked.nodeCount, hrest.nodeCount, hsplit, hinorder]
    simp only [List.length_append]
    omega
  rw [eraseKey, hrange, hlower, hupper, ← hcount]
  show (do
    let (t', ys) ← eraseAuxRange ext fuel t (firstPtr (equal ++ greater)) (firstPtr greater)
    some (t', ys, t.nodeCount - t'.nodeCount)) = _
  rw [hcall]
  rfl

/-- The keys 1, 2, 2 and 3, which are the tens of the nodes. -/
def fourNodes : RbTree Nat where
  root := .node 20 (.node 10 .nil .nil) (.node 30 (.node 21 .nil .nil) .nil)
  leftmost := .node 10
  rightmost := .node 30
  nodeCount := 4

/-- There are two nodes with the key 2. -/
theorem lookups_delimit_fourNodes :
    ∃ lesser equal greater, inorder fourNodes.root = lesser ++ (equal ++ greater) ∧
      find (· / 10) (fun a b => decide (a < b)) fourNodes 2 = firstPtr equal ∧
      ∃ t' ys, eraseKey (unbalancedErase Nat) (· / 10) (fun a b => decide (a < b)) 4 fourNodes 2 =
        some (t', ys, equal.length) ∧ inorder t'.root = lesser ++ greater := by
  have hlinked : fourNodes.Linked := ⟨by decide, rfl, rfl, rfl⟩
  have hsorted : Sorted (· / 10) (fun a b => decide (a < b)) (inorder fourNodes.root) := by
    unfold Sorted
    decide
  obtain ⟨lesser, equal, greater, hsplit, -, -, -, -, hfind, herase⟩ :=
    lookups_delimit nat_order unbalancedErase_documented hlinked hsorted 2
  have hlen : equal.length ≤ 4 := by
    have := congrArg List.length hsplit
    simp only [List.length_append] at this
    change 4 = _ at this
    omega
  obtain ⟨t', ys, hcall, -, -, hinorder⟩ := herase 4 hlen
  exact ⟨lesser, equal, greater, hsplit, hfind, t', ys, hcall, hinorder⟩

end Rtfsc.Stl
