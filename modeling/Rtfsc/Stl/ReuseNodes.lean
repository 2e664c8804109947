import Rtfsc.Machine.LinkedTree
import Rtfsc.Machine.Run
import Rtfsc.Stl.RbTreeErase

/-!
# Nodes that are used again

`_Reuse_or_alloc_node` takes a red-black tree apart, a node at a time, while the nodes it has given away
become part of another tree. Each node is given away once; what `_M_root` leads to are the others.
-/

namespace Rtfsc.Stl

open Rtfsc.Machine BinaryTree

variable {N : Type}

/-! ## The functor -/

/-- `_Reuse_or_alloc_node`, with the links of the nodes. -/
structure ReuseNode (N : Type) where
  mem : NodeLinks N
  root : Option N
  nodes : Option N

/-- The loop of `_M_extract` down to the right. -/
def goRight (mem : NodeLinks N) : Nat → N → Option N
  | 0, x => if mem.right x = none then some x else none
  | fuel + 1, x =>
    match mem.right x with
    | none => some x
    | some y => goRight mem fuel y

/-- `_M_erase` of what a link leads to: the nodes that are dropped. -/
def eraseLinks (mem : NodeLinks N) : Nat → Option N → Option (List N)
  | _, none => some []
  | 0, some _ => none
  | fuel + 1, some x => do
    let right ← eraseLinks mem fuel (mem.right x)
    let left ← eraseLinks mem fuel (mem.left x)
    some (right ++ x :: left)

namespace ReuseNode

variable [DecidableEq N]

/-- The constructor, for a tree with that root and rightmost node. -/
def new (mem : NodeLinks N) (root rightmost : Option N) : ReuseNode N :=
  match root with
  | none => ⟨mem, none, none⟩
  | some x =>
    let mem := mem.setParent x none
    ⟨mem, some x, rightmost.map fun y => (mem.left y).getD y⟩

/-- `_M_extract`: the node, and the functor. -/
def extract (fuel : Nat) (s : ReuseNode N) : Option (Option N × ReuseNode N) :=
  match s.nodes with
  | none => some (none, s)
  | some n =>
    match s.mem.parent n with
    | none => some (some n, { s with root := none, nodes := none })
    | some a =>
      if s.mem.right a = some n then
        let mem := s.mem.setRight a none
        match mem.left a with
        | none => some (some n, { s with mem, nodes := some a })
        | some x => do
          let y ← goRight mem fuel x
          some (some n, { s with mem, nodes := some ((mem.left y).getD y) })
      else
        -- the node is on the left
        some (some n, { s with mem := s.mem.setLeft a none, nodes := some a })

end ReuseNode

/-! ## Red-black trees -/

/-- The root is red. -/
def rootRed (isRed : N → Bool) : BinaryTree N → Bool
  | .nil => false
  | .node a _ _ => isRed a

/-- Trees with as many black nodes on every way down, and no red node below a red one. -/
inductive RedBlack (isRed : N → Bool) : Nat → BinaryTree N → Prop
  | nil : RedBlack isRed 0 .nil
  | red {a : N} {l r : BinaryTree N} {h : Nat} : isRed a = true → rootRed isRed l = false →
      rootRed isRed r = false → RedBlack isRed h l → RedBlack isRed h r →
      RedBlack isRed h (.node a l r)
  | black {a : N} {l r : BinaryTree N} {h : Nat} : isRed a = false → RedBlack isRed h l →
      RedBlack isRed h r → RedBlack isRed (h + 1) (.node a l r)

variable {isRed : N → Bool} {a b n x y : N} {l r t : BinaryTree N} {h : Nat}

theorem RedBlack.sides (ht : RedBlack isRed h (.node a l r)) :
    ∃ h', RedBlack isRed h' l ∧ RedBlack isRed h' r := by
  cases ht with
  | red _ _ _ hl hr => exact ⟨_, hl, hr⟩
  | black _ hl hr => exact ⟨_, hl, hr⟩

/-- Without black nodes there is nothing below a black root. -/
theorem RedBlack.eq_nil (ht : RedBlack isRed 0 t) (hroot : rootRed isRed t = false) : t = .nil := by
  cases ht with
  | nil => rfl
  | red ha _ _ _ _ =>
    rw [rootRed, ha] at hroot
    cases hroot

/-- A node without a right child has at most a leaf on its left. -/
theorem RedBlack.left_of_no_right (ht : RedBlack isRed h (.node a l .nil)) :
    l = .nil ∨ ∃ b, l = .node b .nil .nil := by
  obtain ⟨h', hl, hr⟩ := ht.sides
  cases hr
  cases hl with
  | nil => exact .inl rfl
  | red _ hll hlr hl hr =>
    obtain rfl := hl.eq_nil hll
    obtain rfl := hr.eq_nil hlr
    exact .inr ⟨_, rfl⟩

/-! ## The way down -/

variable {m m' : NodeLinks N} {p root : Option N} {path : List (Frame N)} {fuel : Nat}

/-- The subtrees that are still to be gone into are red-black trees. -/
def PathOk (isRed : N → Bool) (path : List (Frame N)) : Prop :=
  ∀ a l, .inRight a l ∈ path → ∃ h, RedBlack isRed h l

/-- A leaf is in hand, and the links lead from it to what else is left. -/
structure AtLeaf (isRed : N → Bool) (m : NodeLinks N) (root : Option N) (n : N)
    (path : List (Frame N)) : Prop where
  left : m.left n = none
  right : m.right n = none
  above : m.Above path (some n) (m.parent n) root
  ok : PathOk isRed path

/-- From the root of a red-black tree the way to the right, and then to a left child, leads to the leaf
that is taken first. -/
theorem goRight_spec (ht : RedBlack isRed h t) (hrep : m.Represents p (some x) t)
    (habove : m.Above path (some x) p root) (hok : PathOk isRed path)
    (hfuel : (inorder t).length ≤ fuel) :
    ∃ y n path', goRight m fuel x = some y ∧ (inorder t).getLast? = some y ∧ (m.left y).getD y = n ∧
      AtLeaf isRed m root n path' ∧ n :: Frame.rest path' = takenApart t ++ Frame.rest path := by
  induction t generalizing x p path fuel h with
  | nil => cases hrep
  | node a l r ihl ihr =>
    obtain ⟨hx, hp, hl, hr⟩ := hrep
    cases hx
    cases r with
    | nil =>
      have hright : m.right a = none := hr
      have hgo : goRight m fuel a = some a := by
        cases fuel with
        | zero => rw [goRight, if_pos hright]
        | succ fuel => rw [goRight, hright]
      rcases ht.left_of_no_right with rfl | ⟨b, rfl⟩
      · have hleft : m.left a = none := hl
        refine ⟨a, a, path, hgo, by simp, by rw [hleft]; rfl, ⟨hleft, hright, hp ▸ habove, hok⟩, rfl⟩
      · obtain ⟨hb, hpb, hlb, hrb⟩ := hl
        refine ⟨a, b, .inLeft a :: path, hgo, by simp, by rw [hb]; rfl, ⟨hlb, hrb, ?_, ?_⟩, rfl⟩
        · exact ⟨hpb, hb, hright, hp ▸ habove⟩
        · intro c u hc
          rcases List.mem_cons.mp hc with hc | hc
          · cases hc
          · exact hok c u hc
    | node c u v =>
      obtain ⟨h', htl, htr⟩ := ht.sides
      have hright : m.right a = some c := hr.1
      rw [hright] at hr
      obtain ⟨fuel, rfl⟩ : ∃ f, fuel = f + 1 := ⟨fuel - 1, by simp at hfuel; omega⟩
      have hpath : PathOk isRed (.inRight a l :: path) := by
        intro d w hd
        rcases List.mem_cons.mp hd with hd | hd
        · cases hd
          exact ⟨h', htl⟩
        · exact hok d w hd
      have hless : (inorder (.node c u v)).length ≤ fuel := by
        simp at hfuel ⊢
        omega
      have habove' : m.Above (.inRight a l :: path) (some c) (some a) root :=
        ⟨rfl, hright, hl, hp ▸ habove⟩
      obtain ⟨y, n, path', hgo, hlast, hn, hleaf, hrest⟩ := ihr htr hr habove' hpath hless
      refine ⟨y, n, path', ?_, ?_, hn, hleaf, ?_⟩
      · rw [goRight, hright]
        exact hgo
      · rw [inorder_node, List.getLast?_append, List.getLast?_cons, hlast]
        rfl
      · rw [hrest]
        simp [takenApart, Frame.rest]

/-! ## What a call keeps -/

/-- The nodes that are given away come in the order in which the tree is taken apart, and the links lead to
the others. -/
inductive Reusing (isRed : N → Bool) (order : List N) (s : ReuseNode N) (returned : List N) : Prop
  | done (nodes : s.nodes = none) (root : s.root = none) (all : returned = order)
  | going {n : N} {path : List (Frame N)} (nodes : s.nodes = some n)
      (leaf : AtLeaf isRed s.mem s.root n path) (order_eq : returned ++ n :: Frame.rest path = order)

variable {s s' : ReuseNode N} {order returned : List N}

/-- The nodes above stay as they are when the link of another one is changed. -/
theorem AtLeaf.congr (h : AtLeaf isRed m root n path)
    (hsame : ∀ a ∈ n :: Frame.rest path, m.SameAt m' a) : AtLeaf isRed m' root n path := by
  obtain ⟨hleft, hright, hparent⟩ := hsame n List.mem_cons_self
  refine ⟨hleft.trans h.left, hright.trans h.right, ?_, h.ok⟩
  rw [hparent]
  exact h.above.congr fun a ha => hsame a (List.mem_cons_of_mem n ha)

variable [DecidableEq N]

theorem Reusing.new {rightmost : Option N} (hnodup : (inorder t).Nodup) (ht : RedBlack isRed h t)
    (hrep : m.Represents p root t) (hright : rightmost = (inorder t).getLast?) :
    Reusing isRed (takenApart t) (.new m root rightmost) [] := by
  cases t with
  | nil =>
    obtain rfl : root = none := hrep
    exact .done rfl rfl rfl
  | node a l r =>
    obtain ⟨rfl, -, hl, hr⟩ := hrep
    have hsame (b : N) (hb : b ≠ a) : m.SameAt (m.setParent a none) b :=
      NodeLinks.sameAt_setParent hb
    have hout : a ∉ inorder l ∧ a ∉ inorder r := by
      rw [inorder_node, List.nodup_middle, List.nodup_cons, List.mem_append, not_or] at hnodup
      exact hnodup.1
    have hrep : (m.setParent a none).Represents none (some a) (.node a l r) := by
      refine ⟨rfl, Function.update_self .., ?_, ?_⟩
      · exact hl.congr fun b hb => hsame b fun heq => hout.1 (heq ▸ hb)
      · exact hr.congr fun b hb => hsame b fun heq => hout.2 (heq ▸ hb)
    have hpath : PathOk isRed ([] : List (Frame N)) := nofun
    have habove : (m.setParent a none).Above [] (some a) none (some a) := ⟨rfl, rfl⟩
    obtain ⟨y, n, path, -, hlast, hn, hleaf, hrest⟩ :=
      goRight_spec ht hrep habove hpath (Nat.le_refl _)
    rw [hlast] at hright
    subst hright
    refine .going (congrArg some hn) hleaf ?_
    rw [List.nil_append, hrest]
    exact List.append_nil _

/-- The call gives the leaf in hand away, which has no children any more, and goes on to the next one. -/
theorem extract_going (hnodup : order.Nodup) (hfuel : order.length ≤ fuel)
    (hnodes : s.nodes = some n) (hleaf : AtLeaf isRed s.mem s.root n path)
    (horder : returned ++ n :: Frame.rest path = order) :
    ∃ s', s.extract fuel = some (some n, s') ∧ s'.mem.left n = none ∧ s'.mem.right n = none ∧
      Reusing isRed order s' (returned ++ [n]) := by
  have hrest : (n :: Frame.rest path).Nodup := (List.nodup_append.mp (horder ▸ hnodup)).2.1
  have hout := (List.nodup_cons.mp hrest).1
  have habove := hleaf.above
  unfold ReuseNode.extract
  rw [hnodes]
  cases path with
  | nil =>
    obtain ⟨hroot, hparent⟩ := habove
    simp only [hparent]
    exact ⟨_, rfl, hleaf.left, hleaf.right, .done rfl rfl horder⟩
  | cons f path =>
    cases f with
    | inLeft a =>
      obtain ⟨hparent, hleft, hright, habove⟩ := habove
      have hna : n ≠ a := by
        rintro rfl
        exact hout List.mem_cons_self
      have ha : a ∉ Frame.rest path := (List.nodup_cons.mp (List.nodup_cons.mp hrest).2).1
      simp only [hparent, hright, reduceCtorEq, if_false]
      have hsame := NodeLinks.sameAt_setLeft (m := s.mem) (x := none) hna
      refine ⟨_, rfl, hsame.1.trans hleaf.left, hsame.2.1.trans hleaf.right,
        .going rfl ⟨Function.update_self .., hright, ?_, fun b l hb => hleaf.ok b l (.tail _ hb)⟩
        (by rw [← horder, List.append_assoc]; rfl)⟩
      refine habove.congr fun b hb => NodeLinks.sameAt_setLeft ?_
      rintro rfl
      exact ha hb
    | inRight a l =>
      obtain ⟨hparent, hright, hl, habove⟩ := habove
      have hna : n ≠ a := by
        rintro rfl
        exact hout (by simp [Frame.rest])
      obtain ⟨hnot, ha⟩ : a ∉ takenApart l ∧ a ∉ Frame.rest path := by
        have hnodup' := (List.nodup_cons.mp hrest).2
        rw [Frame.rest, List.nodup_middle, List.nodup_cons, List.mem_append, not_or] at hnodup'
        exact hnodup'.1
      have hsame (b : N) (hb : b ≠ a) : s.mem.SameAt (s.mem.setRight a none) b :=
        NodeLinks.sameAt_setRight hb
      have habove' : (s.mem.setRight a none).Above path (some a) (s.mem.parent a) s.root :=
        habove.congr fun b hb => hsame b fun heq => ha (heq ▸ hb)
      have hl' : (s.mem.setRight a none).Represents (some a) (s.mem.left a) l :=
        hl.congr fun b hb => hsame b fun heq =>
          hnot ((takenApart_perm l).mem_iff.mpr (heq ▸ hb))
      have hok : PathOk isRed path := fun b u hb => hleaf.ok b u (.tail _ hb)
      have hleafSame := hsame n hna
      simp only [hparent, hright, if_true]
      cases l with
      | nil =>
        have hleft : s.mem.left a = none := hl
        have hleft' : (s.mem.setRight a none).left a = none := hleft
        simp only [hleft']
        exact ⟨_, rfl, hleafSame.1.trans hleaf.left, hleafSame.2.1.trans hleaf.right,
          .going rfl ⟨hleft, Function.update_self .., habove', hok⟩
          (by rw [← horder, List.append_assoc]; rfl)⟩
      | node c u v =>
        obtain ⟨h, hblack⟩ := hleaf.ok a (.node c u v) List.mem_cons_self
        have hleft : s.mem.left a = some c := hl.1
        rw [hleft] at hl'
        have hdown : (s.mem.setRight a none).Above (.inLeft a :: path) (some c) (some a) s.root :=
          ⟨rfl, hleft, Function.update_self .., habove'⟩
        have hpath : PathOk isRed (.inLeft a :: path) := by
          intro b w hb
          rcases List.mem_cons.mp hb with hb | hb
          · cases hb
          · exact hok b w hb
        have hless : (inorder (.node c u v)).length ≤ fuel := by
          rw [← (takenApart_perm _).length_eq]
          refine Nat.le_trans ?_ hfuel
          rw [← horder]
          simp only [Frame.rest, List.length_append, List.length_cons]
          omega
        obtain ⟨y, k, path', hgo, -, hk, hleaf', hrest'⟩ :=
          goRight_spec hblack hl' hdown hpath hless
        have hleft' : (s.mem.setRight a none).left a = some c := hleft
        simp only [hleft', hgo, Option.bind_eq_bind, Option.bind_some]
        refine ⟨_, rfl, hleafSame.1.trans hleaf.left, hleafSame.2.1.trans hleaf.right,
          .going (congrArg some hk) hleaf' ?_⟩
        rw [hrest', ← horder, List.append_assoc]
        rfl

/-- A call gives one more node away, or there is none left. -/
theorem Reusing.extract (h : Reusing isRed order s returned) (hnodup : order.Nodup)
    (hfuel : order.length ≤ fuel) :
    ∃ r s', s.extract fuel = some (r, s') ∧ Reusing isRed order s' (returned ++ r.toList) ∧
      (r = none ↔ returned = order) ∧
      ∀ n ∈ r, n ∉ returned ∧ s'.mem.left n = none ∧ s'.mem.right n = none := by
  cases h with
  | done nodes root all =>
    refine ⟨none, s, by rw [ReuseNode.extract, nodes], ?_, iff_of_true rfl all, nofun⟩
    rw [Option.toList_none, List.append_nil]
    exact .done nodes root all
  | going nodes leaf order_eq =>
    rename_i n path
    obtain ⟨s', hcall, hleft, hright, hinv⟩ := extract_going hnodup hfuel nodes leaf order_eq
    refine ⟨some n, s', hcall, hinv, iff_of_false nofun fun hall => ?_, ?_⟩
    · rw [hall] at order_eq
      exact absurd order_eq (by simp)
    · rintro k ⟨⟩
      refine ⟨fun hmem => ?_, hleft, hright⟩
      exact (List.nodup_append.mp (order_eq ▸ hnodup)).2.2 n hmem n List.mem_cons_self rfl

omit [DecidableEq N] in
/-- What becomes of nodes that were given away does not matter. -/
theorem Reusing.relink (h : Reusing isRed order s returned) (hnodup : order.Nodup)
    (hsame : ∀ a, a ∉ returned → s.mem.SameAt m a) :
    Reusing isRed order { s with mem := m } returned := by
  cases h with
  | done nodes root all => exact .done nodes root all
  | going nodes leaf order_eq =>
    refine .going nodes (leaf.congr fun a ha => hsame a fun hmem => ?_) order_eq
    exact (List.nodup_append.mp (order_eq ▸ hnodup)).2.2 a hmem a ha rfl

/-! ## Runs -/

omit [DecidableEq N] in
/-- `_M_erase` drops what a link leads to. -/
theorem eraseLinks_spec (h : m.Represents p root t) (hfuel : (inorder t).length ≤ fuel) :
    eraseLinks m fuel root = some (mErase t) := by
  induction t generalizing p root fuel with
  | nil =>
    obtain rfl : root = none := h
    cases fuel <;> rfl
  | node a l r ihl ihr =>
    obtain ⟨rfl, -, hl, hr⟩ := h
    obtain ⟨fuel, rfl⟩ : ∃ f, fuel = f + 1 := ⟨fuel - 1, by simp at hfuel; omega⟩
    simp only [inorder_node, List.length_append, List.length_cons] at hfuel
    rw [eraseLinks, ihr hr (by omega), ihl hl (by omega)]
    rfl

omit [DecidableEq N] in
/-- The destructor frees the nodes that were not given away. -/
theorem Reusing.erases (h : Reusing isRed order s returned) :
    ∃ dropped, (∀ fuel, order.length ≤ fuel → eraseLinks s.mem fuel s.root = some dropped) ∧
      (returned ++ dropped).Perm order := by
  cases h with
  | done nodes root all =>
    refine ⟨[], fun fuel _ => ?_, by rw [List.append_nil, all]⟩
    rw [root]
    cases fuel <;> rfl
  | going nodes leaf order_eq =>
    rename_i n path
    have hrep : s.mem.Represents none s.root (Frame.plug path (.node n .nil .nil)) :=
      leaf.above.plug ⟨rfl, rfl, leaf.left, leaf.right⟩
    have hperm := takenApart_perm (Frame.plug path (.node n .nil .nil))
    rw [Frame.takenApart_plug] at hperm
    have hless : (inorder (Frame.plug path (.node n .nil .nil))).length ≤ order.length := by
      rw [← hperm.length_eq, ← order_eq]
      simp [takenApart]
    refine ⟨_, fun fuel hfuel => eraseLinks_spec hrep (Nat.le_trans hless hfuel), ?_⟩
    rw [← order_eq]
    exact ((mErase_perm _).trans hperm.symm).append_left returned

omit [DecidableEq N] in
theorem Reusing.exists_rest (h : Reusing isRed order s returned) : ∃ rest, returned ++ rest = order := by
  cases h with
  | done _ _ all => exact ⟨[], by rw [List.append_nil, all]⟩
  | going _ _ order_eq => exact ⟨_, order_eq⟩

omit [DecidableEq N] in
theorem goRight_mono (hgo : goRight m fuel x = some y) : goRight m (fuel + 1) x = some y := by
  induction fuel generalizing x with
  | zero =>
    rw [goRight] at hgo
    split at hgo
    · next hright => rw [goRight, hright, ← hgo]
    · cases hgo
  | succ fuel ih =>
    rw [goRight] at hgo ⊢
    split at hgo
    · exact hgo
    · exact ih hgo

theorem extract_mono {r : Option N} (hcall : s.extract fuel = some (r, s')) :
    s.extract (fuel + 1) = some (r, s') := by
  unfold ReuseNode.extract at hcall ⊢
  rcases hnodes : s.nodes with - | n
  · rwa [hnodes] at hcall
  simp only [hnodes] at hcall ⊢
  rcases hparent : s.mem.parent n with - | a
  · rwa [hparent] at hcall
  simp only [hparent] at hcall ⊢
  by_cases hright : s.mem.right a = some n
  · simp only [hright, if_true] at hcall ⊢
    rcases hleft : (s.mem.setRight a none).left a with - | x
    · rwa [hleft] at hcall
    simp only [hleft] at hcall ⊢
    obtain ⟨y, hgo, hrest⟩ := Option.bind_eq_some_iff.mp hcall
    exact Option.bind_eq_some_iff.mpr ⟨y, goRight_mono hgo, hrest⟩
  · rwa [if_neg hright] at hcall ⊢

/-- The functor, and the nodes that it has given away. -/
structure Reuses (N : Type) where
  functor : ReuseNode N
  returned : List N

/-- A call of `_M_extract`, or new links of a node that was given away. -/
inductive ReuseEvent (N : Type)
  | extract
  | relink (n : N) (left right parent : Option N)

/-- The links of one node are written. -/
def relinked (m : NodeLinks N) (n : N) (left right parent : Option N) : NodeLinks N :=
  ((m.setLeft n left).setRight n right).setParent n parent

/-- What the copy of another tree does. -/
inductive Reuses.Step : Reuses N → ReuseEvent N → Reuses N → Prop
  | extract {s : Reuses N} {fuel : Nat} {r : Option N} {f : ReuseNode N}
      (call : s.functor.extract fuel = some (r, f)) :
      Step s .extract ⟨f, s.returned ++ r.toList⟩
  | relink {s : Reuses N} {n : N} (left right parent : Option N) (mem : n ∈ s.returned) :
      Step s (.relink n left right parent)
        ⟨{ s.functor with mem := relinked s.functor.mem n left right parent }, s.returned⟩

theorem sameAt_relinked {left right parent : Option N} (hne : a ≠ n) :
    m.SameAt (relinked m n left right parent) a :=
  ⟨Function.update_of_ne hne .., Function.update_of_ne hne .., Function.update_of_ne hne ..⟩

theorem Reusing.step {w w' : Reuses N} {e : ReuseEvent N} (hnodup : order.Nodup)
    (h : Reusing isRed order w.functor w.returned) (hstep : w.Step e w') :
    Reusing isRed order w'.functor w'.returned := by
  cases hstep with
  | @extract fuel r f call =>
    obtain ⟨r', s', hcall, hnext, -⟩ := h.extract hnodup (Nat.le_add_left order.length fuel)
    have hmore : w.functor.extract (fuel + order.length) = some (r, f) := by
      clear hcall
      induction order.length with
      | zero => exact call
      | succ k ih => exact extract_mono ih
    obtain ⟨rfl, rfl⟩ := Prod.mk.inj (Option.some.inj (hmore.symm.trans hcall))
    exact hnext
  | relink left right parent mem =>
    refine h.relink hnodup fun a ha => sameAt_relinked ?_
    rintro rfl
    exact ha mem

/-- In every run over a red-black tree, the nodes that were given away are different ones of the tree. The
next call gives another one away, without children, until there is none left, and null from then on. What
the destructor frees are the others. -/
theorem reuse_run {rightmost : Option N} (hnodup : (inorder t).Nodup) (ht : RedBlack isRed h t)
    (hrep : m.Represents p root t) (hright : rightmost = (inorder t).getLast?)
    {es : List (ReuseEvent N)} {w : Reuses N}
    (hrun : Run Reuses.Step ⟨.new m root rightmost, []⟩ es w) :
    w.returned.Nodup ∧ (∀ n ∈ w.returned, n ∈ inorder t) ∧
    (∀ fuel, (inorder t).length ≤ fuel → ∃ r f, w.functor.extract fuel = some (r, f) ∧
      (r = none ↔ w.returned.Perm (inorder t)) ∧
      ∀ n ∈ r, n ∈ inorder t ∧ n ∉ w.returned ∧ f.mem.left n = none ∧ f.mem.right n = none) ∧
    ∃ dropped, (∀ fuel, (inorder t).length ≤ fuel →
        eraseLinks w.functor.mem fuel w.functor.root = some dropped) ∧
      (w.returned ++ dropped).Perm (inorder t) := by
  have hperm := takenApart_perm t
  have hdistinct : (takenApart t).Nodup := hperm.nodup_iff.mpr hnodup
  have hinv : Reusing isRed (takenApart t) w.functor w.returned :=
    Run.stateInvariant (I := fun w => Reusing isRed (takenApart t) w.functor w.returned)
      (.new hnodup ht hrep hright) (fun _ _ _ hinv hstep => hinv.step hdistinct hstep) hrun
  obtain ⟨rest, hrest⟩ := hinv.exists_rest
  obtain ⟨dropped, herases, hdropped⟩ := hinv.erases
  have hall : w.returned.Perm (inorder t) ↔ w.returned = takenApart t := by
    refine ⟨fun hsame => ?_, fun hsame => hsame ▸ hperm⟩
    have hlen := (hsame.trans hperm.symm).length_eq
    rw [← hrest, List.length_append] at hlen
    rw [← hrest, List.eq_nil_of_length_eq_zero (by omega : rest.length = 0), List.append_nil]
  refine ⟨?_, fun n hn => ?_, fun fuel hfuel => ?_, dropped, ?_, hdropped.trans hperm⟩
  · exact (List.nodup_append.mp (hrest ▸ hdistinct)).1
  · exact hperm.mem_iff.mp (hrest ▸ List.mem_append_left rest hn)
  · obtain ⟨r, f, hcall, hnext, hnone, hsome⟩ :=
      hinv.extract hdistinct (hperm.length_eq ▸ hfuel)
    refine ⟨r, f, hcall, hnone.trans hall.symm, fun n hn => ⟨?_, hsome n hn⟩⟩
    obtain ⟨rest', hrest'⟩ := hnext.exists_rest
    refine hperm.mem_iff.mp (hrest' ▸ List.mem_append_left rest' ?_)
    exact List.mem_append_right _ (Option.mem_toList.mpr hn)
  · exact fun fuel hfuel => herases fuel (hperm.length_eq ▸ hfuel)

/-- The nodes 1 and 3 below the black node 2. -/
def threeLinks : NodeLinks Nat where
  left n := if n = 2 then some 1 else none
  right n := if n = 2 then some 3 else none
  parent n := if n = 2 then none else some 2

/-- Two nodes are given away, of which one is used again in between; the root is left. -/
theorem reuse_run_three :
    ∃ w, Run Reuses.Step ⟨.new threeLinks (some 2) (some 3), []⟩
        ([] ++ [.extract] ++ [.relink 3 none (some 7) none] ++ [.extract]) w ∧
      w.returned = [3, 1] ∧ ∃ dropped, eraseLinks w.functor.mem 3 w.functor.root = some dropped ∧
        (w.returned ++ dropped).Perm [1, 2, 3] := by
  have hfirst : Run Reuses.Step ⟨.new threeLinks (some 2) (some 3), []⟩ ([] ++ [.extract]) _ :=
    Run.snoc Run.nil (@Reuses.Step.extract _ _ _ 3 _ _ rfl)
  have hsecond := hfirst.snoc (Reuses.Step.relink none (some 7) none (n := 3) (by decide))
  have hrun := hsecond.snoc (@Reuses.Step.extract _ _ _ 3 _ _ rfl)
  have hblack : RedBlack (fun n => decide (n ≠ 2)) 1
      (.node 2 (.node 1 .nil .nil) (.node 3 .nil .nil)) :=
    .black rfl (.red rfl rfl rfl .nil .nil) (.red rfl rfl rfl .nil .nil)
  have hrep : threeLinks.Represents none (some 2)
      (.node 2 (.node 1 .nil .nil) (.node 3 .nil .nil)) :=
    ⟨rfl, rfl, ⟨rfl, rfl, rfl, rfl⟩, rfl, rfl, rfl, rfl⟩
  obtain ⟨-, -, -, dropped, herases, hperm⟩ := reuse_run (by decide) hblack hrep rfl hrun
  exact ⟨_, hrun, rfl, dropped, herases 3 (by decide), hperm⟩

end Rtfsc.Stl
