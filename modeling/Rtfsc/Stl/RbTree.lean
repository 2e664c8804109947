import Rtfsc.Machine.TreeSlots

/-!
# _Rb_tree: insertion with a hint

The positions that `_M_get_insert_unique_pos` and `_M_get_insert_hint_unique_pos` find, and the
insertions there. The steps of iterators, and the function that links a node and rebalances the tree, are
not in the repository: they are what they are documented to be.
-/

namespace Rtfsc.Stl

open Rtfsc.Machine BinaryTree

variable {N K : Type}

/-- `_Base_ptr` -/
inductive RbPtr (N : Type)
  | null
  | header
  | node (n : N)
deriving DecidableEq

/-- The node that is pointed to. There is none where the program must not look for one. -/
def RbPtr.node? : RbPtr N → Option N
  | .node n => some n
  | _ => none

/-- `_Rb_tree`: the tree, and the leftmost and rightmost nodes in the header, which are the header itself
while there are none. -/
structure RbTree (N : Type) where
  root : BinaryTree N
  leftmost : RbPtr N
  rightmost : RbPtr N
  nodeCount : Nat

/-- The pointer to the first of some nodes, or to the header. -/
def firstPtr : List N → RbPtr N
  | [] => .header
  | n :: _ => .node n

/-- `_Rb_tree_increment`, `_Rb_tree_decrement` and `_Rb_tree_insert_and_rebalance`. -/
structure RbExternals (N : Type) where
  increment : RbTree N → RbPtr N → RbPtr N
  decrement : RbTree N → RbPtr N → RbPtr N
  insertAndRebalance : Bool → N → RbPtr N → RbTree N → RbTree N

variable [DecidableEq N]

/-- A node is linked below `p` on the left or on the right, in place of what is there; below the header it
is the root. -/
def linkAt (insertLeft : Bool) (z : N) (t : BinaryTree N) : RbPtr N → BinaryTree N
  | .null => t
  | .header => .node z .nil .nil
  | .node p => if insertLeft then linkLeft p z t else linkRight p z t

/-- There is nothing at the slot. -/
def Vacant (insertLeft : Bool) (t : BinaryTree N) : RbPtr N → Prop
  | .null => False
  | .header => t = .nil
  | .node p => if insertLeft then leftOf p t = some .nil else rightOf p t = some .nil

/-- What is documented: iterators go along the in-order sequence; and a new node is linked at the slot,
while rotations keep the sequence. -/
structure RbExternals.Documented (ext : RbExternals N) : Prop where
  increment : ∀ t l₁ a b l₂, (inorder t.root).Nodup → inorder t.root = l₁ ++ a :: b :: l₂ →
    ext.increment t (.node a) = .node b
  decrement : ∀ t l₁ a b l₂, (inorder t.root).Nodup → inorder t.root = l₁ ++ a :: b :: l₂ →
    ext.decrement t (.node b) = .node a
  insertAndRebalance : ∀ insertLeft z p t, z ∉ inorder t.root → Vacant insertLeft t.root p →
    inorder (ext.insertAndRebalance insertLeft z p t).root = inorder (linkAt insertLeft z t.root p)

section Positions

variable (ext : RbExternals N) (key : N → K) (keyCompare : K → K → Bool) (t : RbTree N)

omit [DecidableEq N] in
/-- The loop of `_M_get_insert_unique_pos`: the last node that it has seen, and how it compared. -/
def walkDown (k : K) : BinaryTree N → RbPtr N → Bool → RbPtr N × Bool
  | .nil, y, comp => (y, comp)
  | .node n l r, _, _ =>
    if keyCompare k (key n) then walkDown k l (.node n) true else walkDown k r (.node n) false

/-- `_M_get_insert_unique_pos` -/
def getInsertUniquePos (k : K) : Option (RbPtr N × RbPtr N) :=
  let (y, comp) := walkDown key keyCompare k t.root .header true
  if comp ∧ y = t.leftmost then some (.null, y)
  else do
    let j ← (if comp then ext.decrement t y else y).node?
    if keyCompare (key j) k then some (.null, y) else some (.node j, .null)

/-- `_M_get_insert_hint_unique_pos` -/
def getInsertHintUniquePos (position : RbPtr N) (k : K) : Option (RbPtr N × RbPtr N) :=
  match position with
  | .null => none
  | .header =>
    if 0 < t.nodeCount then do
      let r ← t.rightmost.node?
      if keyCompare (key r) k then some (.null, t.rightmost)
      else getInsertUniquePos ext key keyCompare t k
    else getInsertUniquePos ext key keyCompare t k
  | .node pos =>
    if keyCompare k (key pos) then
      -- first, try before
      if .node pos = t.leftmost then some (t.leftmost, t.leftmost)
      else do
        let before ← (ext.decrement t (.node pos)).node?
        if keyCompare (key before) k then
          if rightOf before t.root = some .nil then some (.null, .node before)
          else some (.node pos, .node pos)
        else getInsertUniquePos ext key keyCompare t k
    else if keyCompare (key pos) k then
      -- then try after
      if .node pos = t.rightmost then some (.null, t.rightmost)
      else do
        let after ← (ext.increment t (.node pos)).node?
        if keyCompare k (key after) then
          if rightOf pos t.root = some .nil then some (.null, .node pos)
          else some (.node after, .node after)
        else getInsertUniquePos ext key keyCompare t k
    else some (.node pos, .null)

omit [DecidableEq N] in
/-- On which side of `p` the node is inserted. -/
def insertsLeft (k : K) (x p : RbPtr N) : Bool :=
  match x, p with
  | .null, .node p => keyCompare k (key p)
  | .null, .null => false
  | _, _ => true

omit [DecidableEq N] in
/-- `_M_insert_` -/
def insertNode (x p : RbPtr N) (z : N) : RbTree N :=
  let t' := ext.insertAndRebalance (insertsLeft key keyCompare (key z) x p) z p t
  { t' with nodeCount := t.nodeCount + 1 }

/-- `_M_insert_unique`: the tree, the node, and whether it was inserted. -/
def insertUnique (z : N) : Option (RbTree N × RbPtr N × Bool) := do
  let (x, p) ← getInsertUniquePos ext key keyCompare t (key z)
  if p ≠ .null then some (insertNode ext key keyCompare t x p z, .node z, true)
  else some (t, x, false)

/-- `_M_insert_unique_` -/
def insertUniqueHint (position : RbPtr N) (z : N) : Option (RbTree N × RbPtr N) := do
  let (x, p) ← getInsertHintUniquePos ext key keyCompare t position (key z)
  if p ≠ .null then some (insertNode ext key keyCompare t x p z, .node z)
  else some (t, x)

end Positions

end Rtfsc.Stl
