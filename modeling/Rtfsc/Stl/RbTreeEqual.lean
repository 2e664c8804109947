import Rtfsc.Stl.RbTreeErase

/-!
# Insertion of equivalent keys

The positions that `_M_get_insert_equal_pos` and `_M_get_insert_hint_equal_pos` find, the insertions there,
and the one that goes down to the lower bound. A descent comes to a vacant slot between the parts of the
sequence in which it goes right and left.
-/

namespace Rtfsc.Stl

open Rtfsc.Machine BinaryTree

variable {N K : Type}

/-! ## The functions -/

/-- The loop of `_M_get_insert_equal_pos` and of `_M_insert_equal_lower`: the last node. -/
def descend (goesLeft : N → Bool) : BinaryTree N → RbPtr N → RbPtr N
  | .nil, y => y
  | .node n l r, _ =>
    if goesLeft n then descend goesLeft l (.node n) else descend goesLeft r (.node n)

section Positions

variable [DecidableEq N] (ext : RbExternals N) (key : N → K) (keyCompare : K → K → Bool)
  (t : RbTree N)

omit [DecidableEq N] in
/-- `_M_get_insert_equal_pos` -/
def getInsertEqualPos (k : K) : RbPtr N × RbPtr N :=
  (.null, descend (fun n => keyCompare k (key n)) t.root .header)

/-- `_M_get_insert_hint_equal_pos` -/
def getInsertHintEqualPos (position : RbPtr N) (k : K) : Option (RbPtr N × RbPtr N) :=
  match position with
  | .null => none
  | .header =>
    if 0 < t.nodeCount then do
      let r ← t.rightmost.node?
      if !keyCompare k (key r) then some (.null, t.rightmost)
      else some (getInsertEqualPos key keyCompare t k)
    else some (getInsertEqualPos key keyCompare t k)
  | .node pos =>
    if !keyCompare (key pos) k then
      -- first, try before
      if .node pos = t.leftmost then some (t.leftmost, t.leftmost)
      else do
        let before ← (ext.decrement t (.node pos)).node?
        if !keyCompare k (key before) then
          if rightOf before t.root = some .nil then some (.null, .node before)
          else some (.node pos, .node pos)
        else some (getInsertEqualPos key keyCompare t k)
    else
      -- then try after
      if .node pos = t.rightmost then some (.null, t.rightmost)
      else do
        let after ← (ext.increment t (.node pos)).node?
        if !keyCompare (key after) k then
          if rightOf pos t.root = some .nil then some (.null, .node pos)
          else some (.node after, .node after)
        else some (.null, .null)

omit [DecidableEq N] in
/-- `_M_insert_equal` -/
def insertEqual (z : N) : RbTree N × RbPtr N :=
  let (x, p) := getInsertEqualPos key keyCompare t (key z)
  (insertNode ext key keyCompare t x p z, .node z)

omit [DecidableEq N] in
/-- On which side of `p` the node is inserted by `_M_insert_lower`. -/
def lowersLeft (k : K) : RbPtr N → Bool
  | .node p => !keyCompare (key p) k
  | _ => true

omit [DecidableEq N] in
/-- `_M_insert_lower` -/
def insertLower (p : RbPtr N) (z : N) : RbTree N :=
  let t' := ext.insertAndRebalance (lowersLeft key keyCompare (key z) p) z p t
  { t' with nodeCount := t.nodeCount + 1 }

omit [DecidableEq N] in
/-- `_M_insert_equal_lower` -/
def insertEqualLower (z : N) : RbTree N × RbPtr N :=
  let y := descend (fun n => !keyCompare (key n) (key z)) t.root .header
  (insertLower ext key keyCompare t y z, .node z)

/-- `_M_insert_equal_` -/
def insertEqualHint (position : RbPtr N) (z : N) : Option (RbTree N × RbPtr N) := do
  let (x, p) ← getInsertHintEqualPos ext key keyCompare t position (key z)
  if p ≠ .null then some (insertNode ext key keyCompare t x p z, .node z)
  else some (insertEqualLower ext key keyCompare t z)

end Positions

/-! ## Slots -/

variable {goesLeft : N → Bool}
variable {front behind : List N} {n : N} {y : RbPtr N}

section Slots

variable [DecidableEq N] {t : BinaryTree N}

/-- A vacant slot, and where a node at it comes. -/
structure Slot (t : BinaryTree N) (insertLeft : Bool) (p : RbPtr N) (front behind : List N) : Prop where
  split : inorder t = front ++ behind
  vacant : Vacant insertLeft t p
  inorder_linkAt : ∀ z, inorder (linkAt insertLeft z t p) = front ++ z :: behind

theorem Slot.right (hnodup : (inorder t).Nodup) (hsplit : inorder t = front ++ n :: behind)
    (h : rightOf n t = some .nil) : Slot t false (.node n) (front ++ [n]) behind where
  split := by rw [hsplit, List.append_cons]
  vacant := h
  inorder_linkAt z := by
    rw [← List.append_cons]
    exact inorder_linkRight hnodup h hsplit

theorem Slot.left (hnodup : (inorder t).Nodup) (hsplit : inorder t = front ++ n :: behind)
    (h : leftOf n t = some .nil) : Slot t true (.node n) front (n :: behind) where
  split := hsplit
  vacant := h
  inorder_linkAt _ := inorder_linkLeft hnodup h hsplit

theorem Slot.root (insertLeft : Bool) : Slot (.nil : BinaryTree N) insertLeft .header [] [] :=
  ⟨rfl, rfl, fun _ => rfl⟩

omit [DecidableEq N] in
theorem mem_parts (hright : goesLeft n = false → ∃ m, front = m ++ [n])
    (hleft : goesLeft n = true → ∃ m, behind = n :: m) : n ∈ front ++ behind := by
  cases hg : goesLeft n with
  | false =>
    obtain ⟨m, rfl⟩ := hright hg
    simp
  | true =>
    obtain ⟨m, rfl⟩ := hleft hg
    simp

/-- The last node that the walk sees is next to the place between the parts, and has a vacant slot on
that side. -/
theorem descend_node (t : BinaryTree N) (ht : t ≠ .nil) (hnodup : (inorder t).Nodup)
    (h : Parts goesLeft front behind) (hsplit : inorder t = front ++ behind) :
    ∃ n, descend goesLeft t y = .node n ∧ Vacant (goesLeft n) t (.node n) ∧
      (goesLeft n = false → ∃ m, front = m ++ [n]) ∧ (goesLeft n = true → ∃ m, behind = n :: m) := by
  induction t generalizing front behind y with
  | nil => exact absurd rfl ht
  | node a l r ihl ihr =>
    by_cases ha : goesLeft a = true
    · rw [descend, if_pos ha]
      obtain ⟨m, hl, rfl⟩ := h.left hsplit ha
      by_cases hnil : l = .nil
      · subst hnil
        obtain ⟨rfl, rfl⟩ := List.append_eq_nil_iff.mp hl.symm
        refine ⟨a, rfl, ?_, fun hright => ?_, fun _ => ⟨_, rfl⟩⟩
        · rw [ha]
          simp [Vacant, leftOf]
        · rw [ha] at hright
          cases hright
      · obtain ⟨n, hlast, hvacant, hright, hleft⟩ := ihl hnil (nodup_left hnodup)
          ⟨h.front, fun n hn => h.behind n (by simp [hn])⟩ hl (y := .node a)
        have hmem : n ∈ inorder l := by
          rw [hl]
          exact mem_parts hright hleft
        refine ⟨n, hlast, vacant_left hnodup hmem hvacant, hright, fun hg => ?_⟩
        obtain ⟨m', rfl⟩ := hleft hg
        exact ⟨_, rfl⟩
    · rw [descend, if_neg ha]
      rw [Bool.not_eq_true] at ha
      obtain ⟨m, rfl, hr⟩ := h.right hsplit ha
      by_cases hnil : r = .nil
      · subst hnil
        obtain ⟨rfl, rfl⟩ := List.append_eq_nil_iff.mp hr.symm
        refine ⟨a, rfl, ?_, fun _ => ⟨_, rfl⟩, fun hleft => ?_⟩
        · rw [ha]
          simp [Vacant, rightOf]
        · rw [ha] at hleft
          cases hleft
      · obtain ⟨n, hlast, hvacant, hright, hleft⟩ := ihr hnil (nodup_right hnodup)
          ⟨fun n hn => h.front n (by simp [hn]), h.behind⟩ hr (y := .node a)
        have hmem : n ∈ inorder r := by
          rw [hr]
          exact mem_parts hright hleft
        refine ⟨n, hlast, vacant_right hnodup hmem hvacant, fun hg => ?_, hleft⟩
        obtain ⟨m', rfl⟩ := hright hg
        exact ⟨inorder l ++ a :: m', by simp⟩

omit [DecidableEq N] in
/-- The side of the last node on which the walk has gone on. -/
def side (goesLeft : N → Bool) : RbPtr N → Bool
  | .node n => goesLeft n
  | _ => true

/-- The walk comes to a vacant slot between the parts. -/
theorem descend_slot (hnodup : (inorder t).Nodup) (h : Parts goesLeft front behind)
    (hsplit : inorder t = front ++ behind) :
    Slot t (side goesLeft (descend goesLeft t .header)) (descend goesLeft t .header) front behind ∧
      descend goesLeft t .header ≠ .null := by
  by_cases ht : t = .nil
  · subst ht
    obtain ⟨rfl, rfl⟩ := List.append_eq_nil_iff.mp hsplit.symm
    exact ⟨.root true, nofun⟩
  · obtain ⟨n, hlast, hvacant, hright, hleft⟩ :=
      descend_node (y := .header) t ht hnodup h hsplit
    rw [hlast]
    refine ⟨?_, nofun⟩
    show Slot t (goesLeft n) (.node n) front behind
    cases hg : goesLeft n with
    | false =>
      obtain ⟨m, rfl⟩ := hright hg
      rw [hg] at hvacant
      exact .right hnodup (by rw [hsplit, ← List.append_cons]) hvacant
    | true =>
      obtain ⟨m, rfl⟩ := hleft hg
      rw [hg] at hvacant
      exact .left hnodup hsplit hvacant

end Slots

end Rtfsc.Stl
