import Rtfsc.Machine.CachedTree
import Mathlib.Logic.Function.Basic

/-!
# Trees of linked nodes

A tree in memory has links from each node to its children and to its parent. While it is taken apart from
right to left, what is left of it is a path of frames: the nodes above the one in hand, each with the
subtree on its left, or with that one gone into already and nothing on its right.
-/

namespace Rtfsc.Machine

open BinaryTree

variable {α : Type}

/-- The links of nodes. -/
structure NodeLinks (α : Type) where
  left : α → Option α
  right : α → Option α
  parent : α → Option α

namespace NodeLinks

/-- Both have the same links at a node. -/
def SameAt (m m' : NodeLinks α) (a : α) : Prop :=
  m'.left a = m.left a ∧ m'.right a = m.right a ∧ m'.parent a = m.parent a

section Set

variable [DecidableEq α]

def setLeft (m : NodeLinks α) (a : α) (x : Option α) : NodeLinks α :=
  { m with left := Function.update m.left a x }

def setRight (m : NodeLinks α) (a : α) (x : Option α) : NodeLinks α :=
  { m with right := Function.update m.right a x }

def setParent (m : NodeLinks α) (a : α) (x : Option α) : NodeLinks α :=
  { m with parent := Function.update m.parent a x }

variable {m : NodeLinks α} {a b : α} {x : Option α}

theorem sameAt_setLeft (h : b ≠ a) : m.SameAt (m.setLeft a x) b :=
  ⟨Function.update_of_ne h .., rfl, rfl⟩

theorem sameAt_setRight (h : b ≠ a) : m.SameAt (m.setRight a x) b :=
  ⟨rfl, Function.update_of_ne h .., rfl⟩

theorem sameAt_setParent (h : b ≠ a) : m.SameAt (m.setParent a x) b :=
  ⟨rfl, rfl, Function.update_of_ne h ..⟩

end Set

/-- `x` points to the root of a tree below `p`. -/
def Represents (m : NodeLinks α) : Option α → Option α → BinaryTree α → Prop
  | _, x, .nil => x = none
  | p, x, .node a l r =>
    x = some a ∧ m.parent a = p ∧ m.Represents (some a) (m.left a) l ∧
      m.Represents (some a) (m.right a) r

variable {m m' : NodeLinks α} {p x root : Option α} {t : BinaryTree α}

theorem Represents.congr (h : m.Represents p x t) (hsame : ∀ a ∈ inorder t, m.SameAt m' a) :
    m'.Represents p x t := by
  induction t generalizing p x with
  | nil => exact h
  | node a l r ihl ihr =>
    obtain ⟨hx, hp, hl, hr⟩ := h
    obtain ⟨hleft, hright, hparent⟩ := hsame a (by simp)
    refine ⟨hx, hparent.trans hp, ?_, ?_⟩
    · rw [hleft]
      exact ihl hl fun b hb => hsame b (by simp [hb])
    · rw [hright]
      exact ihr hr fun b hb => hsame b (by simp [hb])

end NodeLinks

/-! ## Taking a tree apart -/

/-- The nodes of a tree, those on the right first, each behind its children. -/
def takenApart : BinaryTree α → List α
  | .nil => []
  | .node a l r => takenApart r ++ (takenApart l ++ [a])

theorem takenApart_perm (t : BinaryTree α) : (takenApart t).Perm (inorder t) := by
  induction t with
  | nil => exact .refl _
  | node a l r ihl ihr =>
    calc
      (takenApart r ++ (takenApart l ++ [a]))
      _ |>.Perm (inorder r ++ (inorder l ++ [a])) := ihr.append (ihl.append_right [a])
      _ |>.Perm ((inorder l ++ [a]) ++ inorder r) := List.perm_append_comm
      _ |>.Perm (inorder l ++ a :: inorder r) := by rw [List.append_assoc]; exact .refl _

/-- A node above the one in hand. -/
inductive Frame (α : Type)
  | inRight (a : α) (l : BinaryTree α)
  | inLeft (a : α)

namespace Frame

/-- What comes after the node in hand. -/
def rest : List (Frame α) → List α
  | [] => []
  | .inRight a l :: path => takenApart l ++ a :: rest path
  | .inLeft a :: path => a :: rest path

/-- What is left of the tree. -/
def plug : List (Frame α) → BinaryTree α → BinaryTree α
  | [], t => t
  | .inRight a l :: path, t => plug path (.node a l t)
  | .inLeft a :: path, t => plug path (.node a t .nil)

theorem takenApart_plug (path : List (Frame α)) (t : BinaryTree α) :
    takenApart (plug path t) = takenApart t ++ rest path := by
  induction path generalizing t with
  | nil => exact (List.append_nil _).symm
  | cons f path ih =>
    cases f with
    | inRight a l => simp [plug, ih, takenApart, rest]
    | inLeft a => simp [plug, ih, takenApart, rest]

end Frame

namespace NodeLinks

/-- The links of the nodes above: `x` is in hand, below `p`. -/
def Above (m : NodeLinks α) : List (Frame α) → Option α → Option α → Option α → Prop
  | [], x, p, root => x = root ∧ p = none
  | .inRight a l :: path, x, p, root =>
    p = some a ∧ m.right a = x ∧ m.Represents (some a) (m.left a) l ∧
      m.Above path (some a) (m.parent a) root
  | .inLeft a :: path, x, p, root =>
    p = some a ∧ m.left a = x ∧ m.right a = none ∧ m.Above path (some a) (m.parent a) root

variable {m m' : NodeLinks α} {p x root : Option α} {t : BinaryTree α} {path : List (Frame α)}

theorem Above.congr (h : m.Above path x p root) (hsame : ∀ a ∈ Frame.rest path, m.SameAt m' a) :
    m'.Above path x p root := by
  induction path generalizing x p with
  | nil => exact h
  | cons f path ih =>
    cases f with
    | inRight a l =>
      obtain ⟨hp, hx, hl, habove⟩ := h
      obtain ⟨hleft, hright, hparent⟩ := hsame a (by simp [Frame.rest])
      refine ⟨hp, hright.trans hx, ?_, ?_⟩
      · rw [hleft]
        exact hl.congr fun b hb => hsame b (by simp [Frame.rest, (takenApart_perm l).mem_iff, hb])
      · rw [hparent]
        exact ih habove fun b hb => hsame b (by simp [Frame.rest, hb])
    | inLeft a =>
      obtain ⟨hp, hx, hr, habove⟩ := h
      obtain ⟨hleft, hright, hparent⟩ := hsame a (by simp [Frame.rest])
      refine ⟨hp, hleft.trans hx, hright.trans hr, ?_⟩
      rw [hparent]
      exact ih habove fun b hb => hsame b (by simp [Frame.rest, hb])

/-- The links above and those below make up what is left of the tree. -/
theorem Above.plug (h : m.Above path x p root) (ht : m.Represents p x t) :
    m.Represents none root (Frame.plug path t) := by
  induction path generalizing x p t with
  | nil =>
    obtain ⟨rfl, rfl⟩ := h
    exact ht
  | cons f path ih =>
    cases f with
    | inRight a l =>
      obtain ⟨rfl, rfl, hl, habove⟩ := h
      exact ih habove ⟨rfl, rfl, hl, ht⟩
    | inLeft a =>
      obtain ⟨rfl, rfl, hr, habove⟩ := h
      exact ih habove ⟨rfl, rfl, ht, hr⟩

end NodeLinks

end Rtfsc.Machine
