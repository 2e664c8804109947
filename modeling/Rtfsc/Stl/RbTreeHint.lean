import Rtfsc.Stl.RbTree
import Mathlib.Order.Defs.Unbundled

/-!
# Positions for an insertion

With or without a hint, the position that is found is a node whose key is equivalent, or a vacant slot
where the in-order sequence has the lesser keys in front and the greater ones behind.
-/

namespace Rtfsc.Stl

open Rtfsc.Machine BinaryTree

variable {N K : Type} {key : N → K} {keyCompare : K → K → Bool}

/-- Neither key comes before the other one. -/
def Equivalent (keyCompare : K → K → Bool) (a b : K) : Prop :=
  keyCompare a b = false ∧ keyCompare b a = false

/-- A search tree: the nodes are in the order of their keys, and the header knows the first one, the last
one and their number. -/
structure RbTree.Valid (key : N → K) (keyCompare : K → K → Bool) (t : RbTree N) : Prop where
  sorted : (inorder t.root).Pairwise fun a b => keyCompare (key a) (key b) = true
  leftmost : t.leftmost = firstPtr (inorder t.root)
  rightmost : t.rightmost = firstPtr (inorder t.root).reverse
  nodeCount : t.nodeCount = (inorder t.root).length

/-- The nodes in front have lesser keys, and those behind have greater ones. -/
structure Between (key : N → K) (keyCompare : K → K → Bool) (k : K) (front behind : List N) : Prop where
  front : ∀ n ∈ front, keyCompare (key n) k = true
  behind : ∀ n ∈ behind, keyCompare k (key n) = true

section Order

variable (horder : IsStrictWeakOrder K fun a b => keyCompare a b = true)

include horder

theorem not_keyCompare_self (a : K) : keyCompare a a = false :=
  Bool.eq_false_iff.mpr (horder.irrefl a)

theorem keyCompare_trans {a b c : K} (hab : keyCompare a b = true) (hbc : keyCompare b c = true) :
    keyCompare a c = true :=
  horder.trans a b c hab hbc

theorem keyCompare_asymm {a b : K} (hab : keyCompare a b = true) : keyCompare b a = false := by
  by_contra hba
  have haa := keyCompare_trans horder hab (Bool.not_eq_false _ ▸ hba)
  rw [not_keyCompare_self horder] at haa
  cases haa

theorem Equivalent.symm_trans {a b c : K} (hab : Equivalent keyCompare a b)
    (hcb : Equivalent keyCompare c b) : Equivalent keyCompare a c := by
  have h := horder.incomp_trans a b c (by simp [hab.1, hab.2]) (by simp [hcb.1, hcb.2])
  simpa [Equivalent] using h

theorem nodup_of_sorted {l : List N}
    (hsorted : l.Pairwise fun a b => keyCompare (key a) (key b) = true) : l.Nodup := by
  refine hsorted.imp fun {a b} hab heq => ?_
  rw [heq, not_keyCompare_self horder] at hab
  cases hab

omit horder in
/-- No key of the sequence is equivalent to one that has a place between them. -/
theorem Between.not_equivalent {k : K} {front behind : List N} (h : Between key keyCompare k front behind)
    {n : N} (hn : n ∈ front ++ behind) : ¬Equivalent keyCompare (key n) k := by
  rintro ⟨hnk, hkn⟩
  rcases List.mem_append.mp hn with hn | hn
  · exact absurd (h.front n hn) (by simp [hnk])
  · exact absurd (h.behind n hn) (by simp [hkn])

/-- A key has one place. -/
theorem Between.filter {k : K} {front behind : List N} (h : Between key keyCompare k front behind) :
    (front ++ behind).filter (fun n => keyCompare (key n) k) = front := by
  have hbehind : ∀ n ∈ behind, ¬keyCompare (key n) k = true := fun n hn => by
    simp [keyCompare_asymm horder (h.behind n hn)]
  rw [List.filter_append, List.filter_eq_self.mpr h.front, List.filter_eq_nil_iff.mpr hbehind,
    List.append_nil]

theorem Between.unique {k : K} {l₁ l₂ m₁ m₂ : List N} (hl : Between key keyCompare k l₁ l₂)
    (hm : Between key keyCompare k m₁ m₂) (heq : l₁ ++ l₂ = m₁ ++ m₂) : l₁ = m₁ ∧ l₂ = m₂ := by
  have hfront : l₁ = m₁ := by rw [← hl.filter horder, heq, hm.filter horder]
  exact ⟨hfront, List.append_cancel_left (hfront ▸ heq)⟩

/-- Two nodes of a sorted sequence with keys that are equivalent to a third one are the same. -/
theorem eq_of_equivalent {l : List N}
    (hsorted : l.Pairwise fun a b => keyCompare (key a) (key b) = true) {k : K} {n m : N}
    (hn : n ∈ l) (hm : m ∈ l) (hnk : Equivalent keyCompare (key n) k)
    (hmk : Equivalent keyCompare (key m) k) : n = m := by
  have hnm := hnk.symm_trans horder hmk
  obtain ⟨i, hi, rfl⟩ := List.getElem_of_mem hn
  obtain ⟨j, hj, rfl⟩ := List.getElem_of_mem hm
  rw [List.pairwise_iff_getElem] at hsorted
  rcases lt_trichotomy i j with hij | rfl | hij
  · exact absurd (hsorted i j hi hj hij) (by simp [hnm.1])
  · rfl
  · exact absurd (hsorted j i hj hi hij) (by simp [hnm.2])

theorem front_of_sorted {l₁ l₂ : List N} {b : N} {k : K}
    (hsorted : (l₁ ++ b :: l₂).Pairwise fun a b => keyCompare (key a) (key b) = true)
    (hbk : keyCompare (key b) k = true) : ∀ n ∈ l₁ ++ [b], keyCompare (key n) k = true := by
  intro n hn
  rcases List.mem_append.mp hn with hn | hn
  · exact keyCompare_trans horder
      ((List.pairwise_append.mp hsorted).2.2 n hn b List.mem_cons_self) hbk
  · rwa [List.mem_singleton.mp hn]

theorem behind_of_sorted {l₁ l₂ : List N} {b : N} {k : K}
    (hsorted : (l₁ ++ b :: l₂).Pairwise fun a b => keyCompare (key a) (key b) = true)
    (hkb : keyCompare k (key b) = true) : ∀ n ∈ b :: l₂, keyCompare k (key n) = true := by
  intro n hn
  have hafter := (List.pairwise_cons.mp (List.pairwise_append.mp hsorted).2.1).1
  rcases List.mem_cons.mp hn with rfl | hn
  · exact hkb
  · exact keyCompare_trans horder hkb (hafter n hn)

theorem not_greater_of_sorted {l₁ l₂ : List N} {b : N} {k : K}
    (hsorted : (l₁ ++ b :: l₂).Pairwise fun a b => keyCompare (key a) (key b) = true)
    (hkb : keyCompare k (key b) = false) : ∀ n ∈ l₁, keyCompare k (key n) = false := by
  intro n hn
  by_contra hkn
  have hnb := (List.pairwise_append.mp hsorted).2.2 n hn b List.mem_cons_self
  rw [keyCompare_trans horder (Bool.not_eq_false _ ▸ hkn) hnb] at hkb
  cases hkb

end Order

/-! ## The position -/

variable [DecidableEq N]

/-- A node with an equivalent key, or a vacant slot at the place of the key. -/
inductive Position (key : N → K) (keyCompare : K → K → Bool) (t : BinaryTree N) (k : K) :
    RbPtr N → RbPtr N → Prop
  | found {n : N} (mem : n ∈ inorder t) (equivalent : Equivalent keyCompare (key n) k) :
      Position key keyCompare t k (.node n) .null
  | slot {x p : RbPtr N} {front behind : List N} (split : inorder t = front ++ behind)
      (between : Between key keyCompare k front behind) (ne_null : p ≠ .null)
      (vacant : Vacant (insertsLeft key keyCompare k x p) t p)
      (inorder_linkAt : ∀ z,
        inorder (linkAt (insertsLeft key keyCompare k x p) z t p) = front ++ z :: behind) :
      Position key keyCompare t k x p

variable {t : BinaryTree N} {k : K} {front behind : List N}

/-- The slot on the right of a node whose key is lesser. -/
theorem Position.right {n : N} (hnodup : (inorder t).Nodup) (hsplit : inorder t = front ++ n :: behind)
    (hnk : keyCompare k (key n) = false) (hright : rightOf n t = some .nil)
    (hbetween : Between key keyCompare k (front ++ [n]) behind) :
    Position key keyCompare t k .null (.node n) := by
  have hside : insertsLeft key keyCompare k .null (.node n) = false := hnk
  refine .slot (by rw [hsplit, List.append_cons]) hbetween nofun ?_ fun z => ?_
  · rw [hside]
    exact hright
  · rw [hside, ← List.append_cons]
    exact inorder_linkRight hnodup hright hsplit

/-- The slot on the left of a node whose key is greater. -/
theorem Position.left {x : RbPtr N} {n : N} (hnodup : (inorder t).Nodup)
    (hsplit : inorder t = front ++ n :: behind)
    (hside : insertsLeft key keyCompare k x (.node n) = true) (hleft : leftOf n t = some .nil)
    (hbetween : Between key keyCompare k front (n :: behind)) :
    Position key keyCompare t k x (.node n) := by
  refine .slot hsplit hbetween nofun ?_ fun z => ?_
  · rw [hside]
    exact hleft
  · rw [hside]
    exact inorder_linkLeft hnodup hleft hsplit

/-! ## Without a hint -/

/-- What the loop has found: the last node, with a vacant slot on the side of the comparison. -/
structure Walked (key : N → K) (keyCompare : K → K → Bool) (t : BinaryTree N) (k : K)
    (n : N) (comp : Bool) (front behind : List N) : Prop where
  split : inorder t = front ++ n :: behind
  comp_eq : keyCompare k (key n) = comp
  front : ∀ m ∈ front, keyCompare k (key m) = false
  behind : ∀ m ∈ behind, keyCompare k (key m) = true
  vacant : Vacant comp t (.node n)

theorem vacant_left {a n : N} {l r : BinaryTree N} {c : Bool} (hnodup : (inorder (.node a l r)).Nodup)
    (hn : n ∈ inorder l) (h : Vacant c l (.node n)) : Vacant c (.node a l r) (.node n) := by
  obtain ⟨ha, hr⟩ := node_left hnodup hn
  cases c with
  | false => exact (rightOf_left ha hr).trans h
  | true => exact (leftOf_left ha hr).trans h

theorem vacant_right {a n : N} {l r : BinaryTree N} {c : Bool} (hnodup : (inorder (.node a l r)).Nodup)
    (hn : n ∈ inorder r) (h : Vacant c r (.node n)) : Vacant c (.node a l r) (.node n) := by
  obtain ⟨ha, hl⟩ := node_right hnodup hn
  cases c with
  | false => exact (rightOf_right ha hl).trans h
  | true => exact (leftOf_right ha hl).trans h

section Walk

variable (horder : IsStrictWeakOrder K fun a b => keyCompare a b = true)

include horder

theorem Walked.left {a n : N} {l r : BinaryTree N} {c : Bool}
    (hsorted : (inorder (.node a l r)).Pairwise fun a b => keyCompare (key a) (key b) = true)
    (hka : keyCompare k (key a) = true) (h : Walked key keyCompare l k n c front behind) :
    Walked key keyCompare (.node a l r) k n c front (behind ++ a :: inorder r) where
  split := by simp [h.split]
  comp_eq := h.comp_eq
  front := h.front
  behind m hm := by
    rcases List.mem_append.mp hm with hm | hm
    · exact h.behind m hm
    · exact behind_of_sorted horder hsorted hka m hm
  vacant := vacant_left (nodup_of_sorted horder hsorted) (by simp [h.split]) h.vacant

theorem Walked.right {a n : N} {l r : BinaryTree N} {c : Bool}
    (hsorted : (inorder (.node a l r)).Pairwise fun a b => keyCompare (key a) (key b) = true)
    (hka : keyCompare k (key a) = false) (h : Walked key keyCompare r k n c front behind) :
    Walked key keyCompare (.node a l r) k n c (inorder l ++ a :: front) behind where
  split := by simp [h.split]
  comp_eq := h.comp_eq
  front m hm := by
    rcases List.mem_append.mp hm with hm | hm
    · exact not_greater_of_sorted horder hsorted hka m hm
    · rcases List.mem_cons.mp hm with rfl | hm
      · exact hka
      · exact h.front m hm
  behind := h.behind
  vacant := vacant_right (nodup_of_sorted horder hsorted) (by simp [h.split]) h.vacant

theorem walkDown_node (t : BinaryTree N) (ht : t ≠ .nil)
    (hsorted : (inorder t).Pairwise fun a b => keyCompare (key a) (key b) = true)
    (y : RbPtr N) (comp : Bool) :
    ∃ n comp' front behind, walkDown key keyCompare k t y comp = (.node n, comp') ∧
      Walked key keyCompare t k n comp' front behind := by
  induction t generalizing y comp with
  | nil => exact absurd rfl ht
  | node a l r ihl ihr =>
    have hsides := List.pairwise_append.mp hsorted
    by_cases hka : keyCompare k (key a) = true
    · rw [walkDown, if_pos hka]
      by_cases hl : l = .nil
      · subst hl
        refine ⟨a, true, [], inorder r, rfl, rfl, hka, nofun, fun m hm => ?_, by simp [Vacant, leftOf]⟩
        exact behind_of_sorted horder hsorted hka m (List.mem_cons_of_mem _ hm)
      · obtain ⟨n, c, front, behind, hwalk, h⟩ := ihl hl hsides.1 (.node a) true
        exact ⟨n, c, front, behind ++ a :: inorder r, hwalk, h.left horder hsorted hka⟩
    · rw [walkDown, if_neg hka]
      rw [Bool.not_eq_true] at hka
      by_cases hr : r = .nil
      · subst hr
        refine ⟨a, false, inorder l, [], rfl, rfl, hka, ?_, nofun, by simp [Vacant, rightOf]⟩
        exact not_greater_of_sorted horder hsorted hka
      · obtain ⟨n, c, front, behind, hwalk, h⟩ :=
          ihr hr (List.pairwise_cons.mp hsides.2.1).2 (.node a) false
        exact ⟨n, c, inorder l ++ a :: front, behind, hwalk, h.right horder hsorted hka⟩

end Walk

omit [DecidableEq N] in
theorem firstPtr_ne {l₁ l₂ : List N} {n : N} (hnodup : (l₁ ++ n :: l₂).Nodup) (hne : l₁ ≠ []) :
    firstPtr (l₁ ++ n :: l₂) ≠ .node n := by
  obtain ⟨a, m, rfl⟩ := List.exists_cons_of_ne_nil hne
  rintro ⟨⟩
  exact (List.nodup_cons.mp hnodup).1 (by simp)

omit [DecidableEq N] in
theorem lastPtr_ne {l₁ l₂ : List N} {n : N} (hnodup : (l₁ ++ n :: l₂).Nodup) (hne : l₂ ≠ []) :
    firstPtr (l₁ ++ n :: l₂).reverse ≠ .node n := by
  have hreverse : (l₁ ++ n :: l₂).reverse = l₂.reverse ++ n :: l₁.reverse := by simp
  rw [hreverse]
  refine firstPtr_ne ?_ (by simpa using hne)
  rw [← hreverse]
  exact List.nodup_reverse.mpr hnodup

section Found

variable {ext : RbExternals N} {t : RbTree N}
  (horder : IsStrictWeakOrder K fun a b => keyCompare a b = true) (hext : ext.Documented)
  (hvalid : t.Valid key keyCompare)

include horder hext hvalid

theorem getInsertUniquePos_position (k : K) :
    ∃ x p, getInsertUniquePos ext key keyCompare t k = some (x, p) ∧
      Position key keyCompare t.root k x p := by
  by_cases hroot : t.root = .nil
  · have hwalk : walkDown key keyCompare k t.root .header true = (.header, true) := by
      rw [hroot]
      rfl
    have hleftmost : t.leftmost = .header := by rw [hvalid.leftmost, hroot]; rfl
    refine ⟨.null, .header, by simp [getInsertUniquePos, hwalk, hleftmost], ?_⟩
    have hsplit : inorder t.root = [] ++ [] := by rw [hroot]; rfl
    exact .slot hsplit ⟨nofun, nofun⟩ nofun hroot fun z => rfl
  have hnodup := nodup_of_sorted horder hvalid.sorted
  obtain ⟨n, comp, front, behind, hwalk, h⟩ :=
    walkDown_node horder t.root hroot hvalid.sorted .header true (k := k)
  have hsorted := hvalid.sorted
  rw [h.split] at hsorted
  cases comp with
  | false =>
    by_cases hnk : keyCompare (key n) k = true
    · refine ⟨.null, .node n, by simp [getInsertUniquePos, hwalk, RbPtr.node?, hnk], ?_⟩
      exact .right hnodup h.split h.comp_eq h.vacant ⟨front_of_sorted horder hsorted hnk, h.behind⟩
    · refine ⟨.node n, .null, by simp [getInsertUniquePos, hwalk, RbPtr.node?, hnk], ?_⟩
      exact .found (by simp [h.split]) ⟨Bool.eq_false_iff.mpr hnk, h.comp_eq⟩
  | true =>
    have hbehind := behind_of_sorted horder hsorted h.comp_eq
    rcases List.eq_nil_or_concat' front with rfl | ⟨m, b, rfl⟩
    · -- the first node: the slot on its left
      have hleftmost : t.leftmost = .node n := by rw [hvalid.leftmost, h.split]; rfl
      refine ⟨.null, .node n, by simp [getInsertUniquePos, hwalk, hleftmost], ?_⟩
      exact .left hnodup h.split h.comp_eq h.vacant ⟨nofun, hbehind⟩
    · have hpair : inorder t.root = m ++ b :: n :: behind := by rw [h.split, ← List.append_cons]
      have hne : .node n ≠ t.leftmost := by
        rw [hvalid.leftmost, h.split]
        exact (firstPtr_ne (h.split ▸ hnodup) (by simp)).symm
      have hbefore := hext.decrement t m b n behind hnodup hpair
      by_cases hbk : keyCompare (key b) k = true
      · refine ⟨.null, .node n, ?_, ?_⟩
        · simp [getInsertUniquePos, hwalk, hne, hbefore, RbPtr.node?, hbk]
        · refine .left hnodup h.split h.comp_eq h.vacant ⟨?_, hbehind⟩
          exact front_of_sorted horder (hpair ▸ hvalid.sorted) hbk
      · refine ⟨.node b, .null, ?_, ?_⟩
        · simp [getInsertUniquePos, hwalk, hne, hbefore, RbPtr.node?, hbk]
        · exact .found (by simp [hpair]) ⟨Bool.eq_false_iff.mpr hbk, h.front b (by simp)⟩

/-! ## With a hint -/

/-- The hint is the end, and the last node has a lesser key or not. -/
theorem getInsertHintUniquePos_header (k : K) :
    ∃ x p, getInsertHintUniquePos ext key keyCompare t .header k = some (x, p) ∧
      Position key keyCompare t.root k x p := by
  obtain ⟨x, p, hpos, hposition⟩ := getInsertUniquePos_position horder hext hvalid k
  rcases List.eq_nil_or_concat' (inorder t.root) with hnil | ⟨m, r, hlast⟩
  · have hcount : t.nodeCount = 0 := by rw [hvalid.nodeCount, hnil]; rfl
    exact ⟨x, p, by simpa [getInsertHintUniquePos, hcount] using hpos, hposition⟩
  · have hcount : 0 < t.nodeCount := by rw [hvalid.nodeCount, hlast]; simp
    have hrightmost : t.rightmost = .node r := by rw [hvalid.rightmost, hlast]; simp [firstPtr]
    by_cases hrk : keyCompare (key r) k = true
    · refine ⟨.null, .node r, ?_, ?_⟩
      · simp [getInsertHintUniquePos, hcount, hrightmost, RbPtr.node?, hrk]
      · have hnodup := nodup_of_sorted horder hvalid.sorted
        refine .right hnodup hlast (keyCompare_asymm horder hrk) (rightOf_last hnodup hlast) ?_
        exact ⟨front_of_sorted horder (hlast ▸ hvalid.sorted) hrk, nofun⟩
    · refine ⟨x, p, ?_, hposition⟩
      simpa [getInsertHintUniquePos, hcount, hrightmost, RbPtr.node?, hrk] using hpos

/-- The hint has a greater key: the slot between it and the node before, or the search. -/
theorem getInsertHintUniquePos_before {k : K} {pos : N} (hmem : pos ∈ inorder t.root)
    (hk : keyCompare k (key pos) = true) :
    ∃ x p, getInsertHintUniquePos ext key keyCompare t (.node pos) k = some (x, p) ∧
      Position key keyCompare t.root k x p := by
  have hnodup := nodup_of_sorted horder hvalid.sorted
  obtain ⟨front, behind, hsplit⟩ := List.append_of_mem hmem
  have hbehind := behind_of_sorted horder (hsplit ▸ hvalid.sorted) hk
  rcases List.eq_nil_or_concat' front with rfl | ⟨m, b, rfl⟩
  · have hleftmost : t.leftmost = .node pos := by rw [hvalid.leftmost, hsplit]; rfl
    refine ⟨.node pos, .node pos, by simp [getInsertHintUniquePos, hk, hleftmost], ?_⟩
    exact .left hnodup hsplit rfl (leftOf_head hnodup hsplit) ⟨nofun, hbehind⟩
  · have hpair : inorder t.root = m ++ b :: pos :: behind := by rw [hsplit, ← List.append_cons]
    have hne : .node pos ≠ t.leftmost := by
      rw [hvalid.leftmost, hsplit]
      exact (firstPtr_ne (hsplit ▸ hnodup) (by simp)).symm
    have hbefore := hext.decrement t m b pos behind hnodup hpair
    by_cases hbk : keyCompare (key b) k = true
    · have hfront := front_of_sorted horder (hpair ▸ hvalid.sorted) hbk
      by_cases hright : rightOf b t.root = some .nil
      · refine ⟨.null, .node b, ?_, ?_⟩
        · simp [getInsertHintUniquePos, hk, hne, hbefore, RbPtr.node?, hbk, hright]
        · exact .right hnodup hpair (keyCompare_asymm horder hbk) hright ⟨hfront, hbehind⟩
      · refine ⟨.node pos, .node pos, ?_, ?_⟩
        · simp [getInsertHintUniquePos, hk, hne, hbefore, RbPtr.node?, hbk, hright]
        · have hleft := (vacant_between hnodup hpair).resolve_left hright
          exact .left hnodup hsplit rfl hleft ⟨hfront, hbehind⟩
    · obtain ⟨x, p, hpos, hposition⟩ := getInsertUniquePos_position horder hext hvalid k
      refine ⟨x, p, ?_, hposition⟩
      simpa [getInsertHintUniquePos, hk, hne, hbefore, RbPtr.node?, hbk] using hpos

/-- The hint has a lesser key: the slot between it and the node after, or the search. -/
theorem getInsertHintUniquePos_after {k : K} {pos : N} (hmem : pos ∈ inorder t.root)
    (hk : keyCompare (key pos) k = true) :
    ∃ x p, getInsertHintUniquePos ext key keyCompare t (.node pos) k = some (x, p) ∧
      Position key keyCompare t.root k x p := by
  have hnodup := nodup_of_sorted horder hvalid.sorted
  have hasymm := keyCompare_asymm horder hk
  obtain ⟨front, behind, hsplit⟩ := List.append_of_mem hmem
  have hfront := front_of_sorted horder (hsplit ▸ hvalid.sorted) hk
  cases behind with
  | nil =>
    have hrightmost : t.rightmost = .node pos := by rw [hvalid.rightmost, hsplit]; simp [firstPtr]
    refine ⟨.null, .node pos, by simp [getInsertHintUniquePos, hk, hasymm, hrightmost], ?_⟩
    exact .right hnodup hsplit hasymm (rightOf_last hnodup hsplit) ⟨hfront, nofun⟩
  | cons a behind =>
    have hne : .node pos ≠ t.rightmost := by
      rw [hvalid.rightmost, hsplit]
      exact (lastPtr_ne (hsplit ▸ hnodup) (by simp)).symm
    have hafter := hext.increment t front pos a behind hnodup hsplit
    by_cases hka : keyCompare k (key a) = true
    · have hpair : inorder t.root = (front ++ [pos]) ++ a :: behind := by
        rw [hsplit, ← List.append_cons]
      have hbehind := behind_of_sorted horder (hpair ▸ hvalid.sorted) hka
      by_cases hright : rightOf pos t.root = some .nil
      · refine ⟨.null, .node pos, ?_, ?_⟩
        · simp [getInsertHintUniquePos, hk, hasymm, hne, hafter, RbPtr.node?, hka, hright]
        · exact .right hnodup hsplit hasymm hright ⟨hfront, hbehind⟩
      · refine ⟨.node a, .node a, ?_, ?_⟩
        · simp [getInsertHintUniquePos, hk, hasymm, hne, hafter, RbPtr.node?, hka, hright]
        · have hleft := (vacant_between hnodup hsplit).resolve_left hright
          exact .left hnodup hpair rfl hleft ⟨hfront, hbehind⟩
    · obtain ⟨x, p, hpos, hposition⟩ := getInsertUniquePos_position horder hext hvalid k
      refine ⟨x, p, ?_, hposition⟩
      simpa [getInsertHintUniquePos, hk, hasymm, hne, hafter, RbPtr.node?, hka] using hpos

theorem getInsertHintUniquePos_position (k : K) {hint : RbPtr N}
    (hhint : hint = .header ∨ ∃ pos ∈ inorder t.root, hint = .node pos) :
    ∃ x p, getInsertHintUniquePos ext key keyCompare t hint k = some (x, p) ∧
      Position key keyCompare t.root k x p := by
  obtain rfl | ⟨pos, hmem, rfl⟩ := hhint
  · exact getInsertHintUniquePos_header horder hext hvalid k
  by_cases hk : keyCompare k (key pos) = true
  · exact getInsertHintUniquePos_before horder hext hvalid hmem hk
  by_cases hpk : keyCompare (key pos) k = true
  · exact getInsertHintUniquePos_after horder hext hvalid hmem hpk
  · refine ⟨.node pos, .null, by simp [getInsertHintUniquePos, hk, hpk], ?_⟩
    exact .found hmem ⟨Bool.eq_false_iff.mpr hpk, Bool.eq_false_iff.mpr hk⟩

end Found

/-! ## Trees that are not rebalanced -/

/-- Iterators search the in-order sequence, and a node is linked without rotations. -/
def unbalanced (N : Type) [DecidableEq N] : RbExternals N where
  increment t
    | .node a => firstPtr ((inorder t.root).dropWhile (· ≠ a)).tail
    | p => p
  decrement t
    | .node b => firstPtr ((inorder t.root).reverse.dropWhile (· ≠ b)).tail
    | _ => firstPtr (inorder t.root).reverse
  insertAndRebalance insertLeft z p t :=
    let root := linkAt insertLeft z t.root p
    { t with root, leftmost := firstPtr (inorder root), rightmost := firstPtr (inorder root).reverse }

theorem dropWhile_ne {a : N} {l₁ l₂ : List N} (h : a ∉ l₁) :
    (l₁ ++ a :: l₂).dropWhile (· ≠ a) = a :: l₂ := by
  rw [List.dropWhile_append_of_pos]
  · simp
  · intro b hb
    exact decide_eq_true fun heq => h (heq ▸ hb)

theorem unbalanced_documented : (unbalanced N).Documented where
  increment t l₁ a b l₂ hnodup hsplit := by
    have ha : a ∉ l₁ := by
      rw [hsplit, List.nodup_middle, List.nodup_cons] at hnodup
      exact fun ha => hnodup.1 (List.mem_append_left _ ha)
    simp only [unbalanced]
    rw [hsplit, dropWhile_ne ha]
    rfl
  decrement t l₁ a b l₂ hnodup hsplit := by
    have hb : b ∉ l₂.reverse := by
      rw [hsplit, List.append_cons, List.nodup_middle, List.nodup_cons] at hnodup
      exact fun hb => hnodup.1 (List.mem_append_right _ (List.mem_reverse.mp hb))
    have hreverse : (inorder t.root).reverse = l₂.reverse ++ b :: a :: l₁.reverse := by
      simp [hsplit]
    simp only [unbalanced]
    rw [hreverse, dropWhile_ne hb]
    rfl
  insertAndRebalance _ _ _ _ _ _ := rfl

/-! ## The insertion -/

theorem Position.eq_null_iff {t : BinaryTree N} {k : K} {x p : RbPtr N}
    (h : Position key keyCompare t k x p) :
    p = .null ↔ ∃ n ∈ inorder t, Equivalent keyCompare (key n) k := by
  cases h with
  | found mem equivalent => exact iff_of_true rfl ⟨_, mem, equivalent⟩
  | slot split between ne_null _ _ =>
    refine iff_of_false ne_null ?_
    rintro ⟨n, hn, heq⟩
    exact between.not_equivalent (split ▸ hn) heq

theorem Position.exists_node {t : BinaryTree N} {k : K} {x : RbPtr N}
    (h : Position key keyCompare t k x .null) :
    ∃ n ∈ inorder t, Equivalent keyCompare (key n) k ∧ x = .node n := by
  cases h with
  | found mem equivalent => exact ⟨_, mem, equivalent, rfl⟩
  | slot _ _ ne_null _ _ => exact absurd rfl ne_null

section Insert

variable {ext : RbExternals N} {t : RbTree N}
  (horder : IsStrictWeakOrder K fun a b => keyCompare a b = true) (hext : ext.Documented)

include horder hext

theorem Position.inorder_insertNode {x p : RbPtr N} {z : N} (hp : p ≠ .null)
    (h : Position key keyCompare t.root (key z) x p) :
    ∃ front behind, inorder t.root = front ++ behind ∧ Between key keyCompare (key z) front behind ∧
      inorder (insertNode ext key keyCompare t x p z).root = front ++ z :: behind := by
  cases h with
  | found _ _ => exact absurd rfl hp
  | slot split between ne_null vacant inorder_linkAt =>
    have hz : z ∉ inorder t.root := fun hz =>
      between.not_equivalent (split ▸ hz) ⟨not_keyCompare_self horder _, not_keyCompare_self horder _⟩
    refine ⟨_, _, split, between, ?_⟩
    rw [← inorder_linkAt z]
    exact hext.insertAndRebalance _ z p t hz vacant

/-- An insertion with a hint, which is the end or a node of the tree, comes to the one without it: the
in-order sequences are the same, and so is the node. Where there is a node with an equivalent key, it is
that one and the tree stays as it is; otherwise the new node is at its sorted place, and the slot that
the hint led to is vacant. -/
theorem insertUniqueHint_refines (hvalid : t.Valid key keyCompare) {hint : RbPtr N}
    (hhint : hint = .header ∨ ∃ pos ∈ inorder t.root, hint = .node pos) (z : N) :
    ∃ t₁ t₂ j inserted,
      insertUniqueHint ext key keyCompare t hint z = some (t₁, j) ∧
      insertUnique ext key keyCompare t z = some (t₂, j, inserted) ∧
      inorder t₁.root = inorder t₂.root ∧
      (inserted = false ↔ ∃ n ∈ inorder t.root, Equivalent keyCompare (key n) (key z)) ∧
      (inserted = false → t₁ = t ∧ t₂ = t ∧
        ∃ n ∈ inorder t.root, Equivalent keyCompare (key n) (key z) ∧ j = .node n) ∧
      (inserted = true → j = .node z ∧ t₁.nodeCount = t.nodeCount + 1 ∧
        ∃ front behind, inorder t.root = front ++ behind ∧
          Between key keyCompare (key z) front behind ∧
          inorder t₁.root = front ++ z :: behind) ∧
      (∀ x p, getInsertHintUniquePos ext key keyCompare t hint (key z) = some (x, p) → p ≠ .null →
        Vacant (insertsLeft key keyCompare (key z) x p) t.root p) := by
  obtain ⟨x₁, p₁, hpos₁, h₁⟩ := getInsertHintUniquePos_position horder hext hvalid (key z) hhint
  obtain ⟨x₂, p₂, hpos₂, h₂⟩ := getInsertUniquePos_position horder hext hvalid (key z)
  have hslot : ∀ x p, getInsertHintUniquePos ext key keyCompare t hint (key z) = some (x, p) →
      p ≠ .null → Vacant (insertsLeft key keyCompare (key z) x p) t.root p := by
    intro x p hpos hp
    rw [hpos₁] at hpos
    cases hpos
    cases h₁ with
    | found _ _ => exact absurd rfl hp
    | slot _ _ _ vacant _ => exact vacant
  have hsame : p₁ = .null ↔ p₂ = .null := h₁.eq_null_iff.trans h₂.eq_null_iff.symm
  by_cases hp₁ : p₁ = .null
  · have hp₂ := hsame.mp hp₁
    subst hp₁ hp₂
    obtain ⟨n₁, hn₁, heq₁, rfl⟩ := h₁.exists_node
    obtain ⟨n₂, hn₂, heq₂, rfl⟩ := h₂.exists_node
    obtain rfl := eq_of_equivalent horder hvalid.sorted hn₁ hn₂ heq₁ heq₂
    refine ⟨t, t, .node n₁, false, by simp [insertUniqueHint, hpos₁], by simp [insertUnique, hpos₂],
      rfl, iff_of_true rfl ⟨n₁, hn₁, heq₁⟩, fun _ => ⟨rfl, rfl, n₁, hn₁, heq₁, rfl⟩, nofun, hslot⟩
  · have hp₂ := mt hsame.mpr hp₁
    obtain ⟨front, behind, hsplit, hbetween, hinorder₁⟩ := h₁.inorder_insertNode horder hext hp₁
    obtain ⟨front', behind', hsplit', hbetween', hinorder₂⟩ := h₂.inorder_insertNode horder hext hp₂
    obtain ⟨rfl, rfl⟩ := hbetween.unique horder hbetween' (hsplit.symm.trans hsplit')
    refine ⟨insertNode ext key keyCompare t x₁ p₁ z, insertNode ext key keyCompare t x₂ p₂ z, .node z,
      true, by simp [insertUniqueHint, hpos₁, hp₁], by simp [insertUnique, hpos₂, hp₂],
      hinorder₁.trans hinorder₂.symm, iff_of_false nofun (mt h₁.eq_null_iff.mpr hp₁), nofun, fun _ => ?_,
      hslot⟩
    exact ⟨rfl, rfl, front, behind, hsplit, hbetween, hinorder₁⟩

end Insert

theorem nat_order : IsStrictWeakOrder Nat fun a b => decide (a < b) = true where
  irrefl := by simp
  trans a b c := by simpa using lt_trans
  incomp_trans a b c := by
    simp only [decide_eq_true_eq]
    omega

/-- The keys 1, 2 and 5, with 2 at the root. -/
def threeKeys : RbTree Nat where
  root := .node 2 (.node 1 .nil .nil) (.node 5 .nil .nil)
  leftmost := .node 1
  rightmost := .node 5
  nodeCount := 3

/-- The node before the hint has a tree on its right, and the new node comes on the left of the hint. -/
theorem insertUniqueHint_refines_threeKeys :
    ∃ t₁ t₂ j inserted,
      insertUniqueHint (unbalanced Nat) id (fun a b => decide (a < b)) threeKeys (.node 5) 3 =
        some (t₁, j) ∧
      insertUnique (unbalanced Nat) id (fun a b => decide (a < b)) threeKeys 3 =
        some (t₂, j, inserted) ∧
      inorder t₁.root = inorder t₂.root := by
  have hvalid : threeKeys.Valid id fun a b => decide (a < b) := ⟨by decide, rfl, rfl, rfl⟩
  obtain ⟨t₁, t₂, j, inserted, h₁, h₂, hsame, -⟩ :=
    insertUniqueHint_refines nat_order unbalanced_documented hvalid (.inr ⟨5, by decide, rfl⟩) 3
  exact ⟨t₁, t₂, j, inserted, h₁, h₂, hsame⟩

end Rtfsc.Stl
