import Rtfsc.Stl.ReuseNodes

/-!
# Copying a tree

`_M_copy` of `_Rb_tree`. It calls itself for right children and goes down to the left in a loop, and what
has been cloned when a node cannot be is freed on the way back: by each call that has a node of its own, what
it has linked to that node (`BelowEnd`).
-/

namespace Rtfsc.Stl

open Rtfsc.Machine BinaryTree

variable {N V : Type}

/-! ## The code -/

/-- The nodes of both trees: links, `_M_color` and values; how often a node has been asked for, and the nodes
that have been dropped. -/
structure CopyState (N V : Type) where
  links : NodeLinks N
  isRed : N → Bool
  value : N → V
  calls : Nat
  freed : List N

/-- What `_M_copy` ends with. -/
inductive CopyEnd (N : Type)
  | top (y : N)
  | thrown

namespace CopyState

variable [DecidableEq N] (gen : Nat → Option N) (s : CopyState N V)

/-- `_M_clone_node`. The generator is asked for a node with the value, and has one or throws. -/
def cloneNode (x : N) : Option N × CopyState N V :=
  match gen s.calls with
  | none => (none, { s with calls := s.calls + 1 })
  | some tmp =>
    (some tmp,
      { s with
        links := (s.links.setLeft tmp none).setRight tmp none
        isRed := Function.update s.isRed tmp (s.isRed x)
        value := Function.update s.value tmp (s.value x)
        calls := s.calls + 1 })

def setLeft (a : N) (x : Option N) : CopyState N V := { s with links := s.links.setLeft a x }

def setRight (a : N) (x : Option N) : CopyState N V := { s with links := s.links.setRight a x }

def setParent (a : N) (x : Option N) : CopyState N V := { s with links := s.links.setParent a x }

/-- `_M_erase` -/
def erase (fuel : Nat) (x : N) : Option (CopyState N V) := do
  let dropped ← eraseLinks s.links fuel (some x)
  return { s with freed := s.freed ++ dropped }

end CopyState

section Code

variable [DecidableEq N] (gen : Nat → Option N)

/-- What comes behind the clone `y` of `x`: the copy on the right of `x`, and the loop down to the left. Ends
with `false` if there was a throw. -/
def copyBelow (copy : N → Option N → CopyState N V → Option (CopyEnd N × CopyState N V))
    (spine : N → Option N → CopyState N V → Option (Bool × CopyState N V)) (x y : N)
    (s : CopyState N V) : Option (Bool × CopyState N V) :=
  match s.links.right x with
  | none => spine y (s.links.left x) s
  | some r => do
    match ← copy r (some y) s with
    | (.thrown, s) => return (false, s)
    | (.top z, s) => spine y (s.links.left x) (s.setRight y (some z))

mutual

/-- `_M_copy` -/
def copyTree : Nat → N → Option N → CopyState N V → Option (CopyEnd N × CopyState N V)
  | 0, _, _, _ => none
  | fuel + 1, x, p, s =>
    match s.cloneNode gen x with
    | (none, s) => some (.thrown, s)
    | (some top, s) => do
      let (done, s) ← copyBelow (copyTree fuel) (copySpine fuel) x top (s.setParent top p)
      if done then return (.top top, s)
      else do
        let s ← s.erase (fuel + 1) top
        return (.thrown, s)

/-- `while (__x != 0)`, with `__p` and `__x`. -/
def copySpine : Nat → N → Option N → CopyState N V → Option (Bool × CopyState N V)
  | 0, _, x, s => if x = none then some (true, s) else none
  | fuel + 1, p, x, s =>
    match x with
    | none => some (true, s)
    | some x =>
      match s.cloneNode gen x with
      | (none, s) => some (false, s)
      | (some y, s) =>
        copyBelow (copyTree fuel) (copySpine fuel) x y ((s.setLeft p (some y)).setParent y (some p))

end

end Code

/-! ## What is cloned -/

/-- The nodes that the generator has had for the calls from `lo` to `hi`. -/
def made (gen : Nat → Option N) (lo hi : Nat) : List N := (List.range' lo (hi - lo)).filterMap gen

section Made

variable {gen : Nat → Option N} {lo mid hi : Nat} {a : N}

theorem mem_made : a ∈ made gen lo hi ↔ ∃ k, lo ≤ k ∧ k < hi ∧ gen k = some a := by
  unfold made
  rw [List.mem_filterMap]
  refine exists_congr fun k => ?_
  rw [List.mem_range'_1, and_assoc]
  refine and_congr_right fun hlo => and_congr_left fun _ => ?_
  omega

theorem made_append (hlo : lo ≤ mid) (hhi : mid ≤ hi) :
    made gen lo hi = made gen lo mid ++ made gen mid hi := by
  unfold made
  rw [← List.filterMap_append]
  congr 1
  have hrange := List.range'_append_1 (s := lo) (m := mid - lo) (n := hi - mid)
  rw [Nat.add_sub_cancel' hlo] at hrange
  rw [hrange]
  congr 1
  omega

theorem made_self : made gen lo lo = [] := by
  unfold made
  rw [Nat.sub_self]
  rfl

theorem made_succ : made gen lo (lo + 1) = (gen lo).toList := by
  unfold made
  rw [Nat.add_sub_cancel_left]
  cases h : gen lo <;> simp [h]

/-- The nodes that come up from a clone on. -/
theorem made_cons (h : gen lo = some a) (hle : lo + 1 ≤ hi) :
    made gen lo hi = a :: made gen (lo + 1) hi := by
  rw [made_append (Nat.le_succ lo) hle, made_succ, h]
  rfl

theorem nodup_made (hinj : ∀ j k a, gen j = some a → gen k = some a → j = k) :
    (made gen lo hi).Nodup := by
  refine List.Nodup.filterMap (fun j k a hj hk => ?_) List.nodup_range'
  exact hinj j k a hj hk

end Made

/-! ## What a copy ends with -/

namespace CopyState

/-- A node is the same in both. -/
structure SameAt (s s' : CopyState N V) (a : N) : Prop where
  links : s.links.SameAt s'.links a
  isRed : s'.isRed a = s.isRed a
  value : s'.value a = s.value a

/-- Both trees have the same shape, and the same colours and values in it. -/
def SameTree (s : CopyState N V) : BinaryTree N → BinaryTree N → Prop
  | .nil, .nil => True
  | .node a l r, .node b l' r' =>
    s.isRed b = s.isRed a ∧ s.value b = s.value a ∧ s.SameTree l l' ∧ s.SameTree r r'
  | _, _ => False

variable {s s' s'' : CopyState N V} {a : N} {t t' : BinaryTree N}

theorem SameAt.trans (h : s.SameAt s' a) (h' : s'.SameAt s'' a) : s.SameAt s'' a where
  links := ⟨h'.links.1.trans h.links.1, h'.links.2.1.trans h.links.2.1, h'.links.2.2.trans h.links.2.2⟩
  isRed := h'.isRed.trans h.isRed
  value := h'.value.trans h.value

theorem SameTree.congr (h : s.SameTree t t') (ht : ∀ a ∈ inorder t, s.SameAt s' a)
    (ht' : ∀ a ∈ inorder t', s.SameAt s' a) : s'.SameTree t t' := by
  induction t generalizing t' with
  | nil =>
    cases t' with
    | nil => trivial
    | node => exact h
  | node a l r ihl ihr =>
    cases t' with
    | nil => exact h
    | node b l' r' =>
      obtain ⟨hred, hvalue, hl, hr⟩ := h
      have ha := ht a (by simp)
      have hb := ht' b (by simp)
      refine ⟨?_, ?_, ihl hl (fun c hc => ht c (by simp [hc])) fun c hc => ht' c (by simp [hc]),
        ihr hr (fun c hc => ht c (by simp [hc])) fun c hc => ht' c (by simp [hc])⟩
      · rw [ha.isRed, hb.isRed, hred]
      · rw [ha.value, hb.value, hvalue]

/-- In their order both trees have the same values. -/
theorem SameTree.values (h : s.SameTree t t') : (inorder t').map s.value = (inorder t).map s.value := by
  induction t generalizing t' with
  | nil =>
    cases t' with
    | nil => rfl
    | node => exact h.elim
  | node a l r ihl ihr =>
    cases t' with
    | nil => exact h.elim
    | node b l' r' =>
      obtain ⟨-, hvalue, hl, hr⟩ := h
      simp only [inorder_node, List.map_append, List.map_cons, ihl hl, ihr hr, hvalue]

end CopyState

variable (gen : Nat → Option N)

/-- The generator has another node each time, and none of the source. -/
structure FreshNodes (source : List N) : Prop where
  inj : ∀ j k a, gen j = some a → gen k = some a → j = k
  source : ∀ k a, gen k = some a → a ∉ source

/-- `y` is a clone, with nothing linked to it. -/
structure BareClone (s : CopyState N V) (y : N) : Prop where
  earlier : ∃ k < s.calls, gen k = some y
  left : s.links.left y = none

/-- Between the two states the nodes of `made` have come up, of which those of `fs` are freed again. The
other nodes are the same, but for those in `but`. -/
structure Progress (but : List N) (fs : List N) (s s' : CopyState N V) : Prop where
  calls : s.calls ≤ s'.calls
  freed : s'.freed = s.freed ++ fs
  same : ∀ a ∉ made gen s.calls s'.calls, a ∉ but → s.SameAt s' a

/-- The copy of `t` is below `p`; or what was cloned is freed. -/
inductive TreeEnd (t : BinaryTree N) (p : Option N) (s s' : CopyState N V) : CopyEnd N → Prop
  | top {z : N} {t' : BinaryTree N} : Progress gen [] [] s s' → s'.links.Represents p (some z) t' →
      (inorder t').Perm (made gen s.calls s'.calls) → s'.SameTree t t' → TreeEnd t p s s' (.top z)
  | thrown {fs : List N} : Progress gen [] fs s s' → fs.Perm (made gen s.calls s'.calls) →
      (∃ k, s.calls ≤ k ∧ k < s'.calls ∧ gen k = none) → TreeEnd t p s s' .thrown

/-- On the left of `p` there is the copy `d` of `l`; or after a throw some part of it. -/
structure SpineEnd (l : BinaryTree N) (p : N) (d : BinaryTree N) (fs : List N) (s s' : CopyState N V)
    (done : Bool) : Prop where
  progress : Progress gen [p] fs s s'
  left : s'.links.Represents (some p) (s'.links.left p) d
  perm : (inorder d ++ fs).Perm (made gen s.calls s'.calls)
  small : (inorder d).length ≤ (inorder l).length
  right : s'.links.right p = s.links.right p
  parent : s'.links.parent p = s.links.parent p
  isRed : s'.isRed p = s.isRed p
  value : s'.value p = s.value p
  whole : done = true → fs = [] ∧ s'.SameTree l d
  threw : done = false → ∃ k, s.calls ≤ k ∧ k < s'.calls ∧ gen k = none

/-- The same on both sides of `y`. -/
structure BelowEnd (l r : BinaryTree N) (y : N) (d e : BinaryTree N) (fs : List N)
    (s s' : CopyState N V) (done : Bool) : Prop where
  progress : Progress gen [y] fs s s'
  left : s'.links.Represents (some y) (s'.links.left y) d
  right : s'.links.Represents (some y) (s'.links.right y) e
  perm : (inorder d ++ inorder e ++ fs).Perm (made gen s.calls s'.calls)
  small : (inorder d).length ≤ (inorder l).length ∧ (inorder e).length ≤ (inorder r).length
  parent : s'.links.parent y = s.links.parent y
  isRed : s'.isRed y = s.isRed y
  value : s'.value y = s.value y
  whole : done = true → fs = [] ∧ s'.SameTree l d ∧ s'.SameTree r e
  threw : done = false → ∃ k, s.calls ≤ k ∧ k < s'.calls ∧ gen k = none

variable {gen} {source but fs fs' : List N} {s s₁ s' : CopyState N V} {a x y z p : N} {q link : Option N}
  {l r t t' d e : BinaryTree N} {fuel : Nat}

/-- Nodes of the source, and those that have come up already. -/
def Old (gen : Nat → Option N) (source : List N) (s : CopyState N V) (a : N) : Prop :=
  a ∈ source ∨ ∃ k < s.calls, gen k = some a

theorem FreshNodes.not_mem_made (h : FreshNodes gen source) (hold : Old gen source s a) {hi : Nat} :
    a ∉ made gen s.calls hi := by
  intro hmem
  obtain ⟨k, hlo, -, hk⟩ := mem_made.mp hmem
  rcases hold with hsource | ⟨j, hj, hja⟩
  · exact h.source k a hk hsource
  · have heq := h.inj j k a hja hk
    omega

theorem Old.of_made {lo hi : Nat} (h : a ∈ made gen lo hi) (hhi : hi ≤ s.calls) :
    Old gen source s a := by
  obtain ⟨k, -, hk, hka⟩ := mem_made.mp h
  exact .inr ⟨k, by omega, hka⟩

namespace Progress

theorem of_old (h : Progress gen but fs s s') (hfresh : FreshNodes gen source)
    (hold : Old gen source s a) (hbut : a ∉ but) : s.SameAt s' a :=
  h.same a (hfresh.not_mem_made hold) hbut

theorem old (h : Progress gen but fs s s') (hold : Old gen source s a) : Old gen source s' a :=
  hold.imp_right fun ⟨k, hk, hka⟩ => ⟨k, Nat.lt_of_lt_of_le hk h.calls, hka⟩

theorem trans (h : Progress gen but fs s s₁) (h' : Progress gen but fs' s₁ s') :
    Progress gen but (fs ++ fs') s s' where
  calls := Nat.le_trans h.calls h'.calls
  freed := by rw [h'.freed, h.freed, List.append_assoc]
  same a ha hbut := by
    rw [made_append h.calls h'.calls, List.mem_append, not_or] at ha
    exact (h.same a ha.1 hbut).trans (h'.same a ha.2 hbut)

theorem mono {but' : List N} (h : Progress gen but fs s s') (hsub : ∀ a ∈ but, a ∈ but') :
    Progress gen but' fs s s' where
  calls := h.calls
  freed := h.freed
  same a ha hbut := h.same a ha fun hmem => hbut (hsub a hmem)

/-- Nodes that have come up need no exception. -/
theorem drop (h : Progress gen (y :: but) fs s s') (hy : y ∈ made gen s.calls s'.calls) :
    Progress gen but fs s s' where
  calls := h.calls
  freed := h.freed
  same a ha hbut := h.same a ha fun hmem =>
    (List.mem_cons.mp hmem).elim (fun heq => ha (heq ▸ hy)) hbut

/-- A tree of old nodes is where it was. -/
theorem represents (h : Progress gen but fs s s') (hfresh : FreshNodes gen source)
    (ht : s.links.Represents q link t) (hold : ∀ a ∈ inorder t, Old gen source s a ∧ a ∉ but) :
    s'.links.Represents q link t :=
  ht.congr fun a ha => (h.of_old hfresh (hold a ha).1 (hold a ha).2).links

end Progress

section Spec

variable [DecidableEq N]

theorem progress_setLeft {v : Option N} : Progress gen [y] [] s (s.setLeft y v) where
  calls := Nat.le_refl _
  freed := (List.append_nil _).symm
  same a _ hbut := ⟨NodeLinks.sameAt_setLeft fun heq => hbut (by simp [heq]), rfl, rfl⟩

theorem progress_setParent {v : Option N} : Progress gen [y] [] s (s.setParent y v) where
  calls := Nat.le_refl _
  freed := (List.append_nil _).symm
  same a _ hbut := ⟨NodeLinks.sameAt_setParent fun heq => hbut (by simp [heq]), rfl, rfl⟩

theorem progress_setRight {v : Option N} : Progress gen [y] [] s (s.setRight y v) where
  calls := Nat.le_refl _
  freed := (List.append_nil _).symm
  same a _ hbut := ⟨NodeLinks.sameAt_setRight fun heq => hbut (by simp [heq]), rfl, rfl⟩

/-- Behind a clone there is a copy on either side, or what a throw has left of it. -/
theorem copyBelow_spec (hfresh : FreshNodes gen source) (hx : x ∈ source)
    (hl : ∀ a ∈ inorder l, a ∈ source) (hr : ∀ a ∈ inorder r, a ∈ source)
    (htree : ∀ x p (s : CopyState N V), s.links.Represents q (some x) r →
      ∃ o s', copyTree gen fuel x p s = some (o, s') ∧ TreeEnd gen r p s s' o)
    (hspine : ∀ link p (s : CopyState N V), s.links.Represents q link l → BareClone gen s p →
      ∃ done s' d fs, copySpine gen fuel p link s = some (done, s') ∧ SpineEnd gen l p d fs s s' done)
    (hleft : s.links.Represents q (s.links.left x) l) (hright : s.links.Represents q (s.links.right x) r)
    (hy : BareClone gen s y) (hyright : s.links.right y = none) :
    ∃ done s' d e fs, copyBelow (copyTree gen fuel) (copySpine gen fuel) x y s = some (done, s') ∧
      BelowEnd gen l r y d e fs s s' done := by
  have hyold : Old gen source s y := .inr hy.earlier
  have hysource : ∀ a ∈ source, a ≠ y := by
    rintro a ha rfl
    obtain ⟨k, -, hk⟩ := hy.earlier
    exact hfresh.source k a hk ha
  unfold copyBelow
  cases r with
  | nil =>
    have hnone : s.links.right x = none := hright
    rw [hnone]
    obtain ⟨done, s', d, fs, hrun, hend⟩ := hspine _ y s hleft hy
    refine ⟨done, s', d, .nil, fs, hrun, ⟨hend.progress, hend.left, hend.right.trans hyright, ?_,
      ⟨hend.small, Nat.le_refl _⟩, hend.parent, hend.isRed, hend.value, fun hdone => ?_, hend.threw⟩⟩
    · rw [inorder_nil, List.append_nil]
      exact hend.perm
    · exact ⟨(hend.whole hdone).1, (hend.whole hdone).2, trivial⟩
  | node b rl rr =>
    obtain ⟨hb, -⟩ := id hright
    rw [hb] at hright ⊢
    obtain ⟨o, s₁, hcopy, hend⟩ := htree b (some y) s hright
    dsimp only
    rw [hcopy]
    cases hend with
    | thrown hprog hperm hthrew =>
      have hsame := hprog.of_old hfresh hyold List.not_mem_nil
      refine ⟨false, s₁, .nil, .nil, _, rfl, ⟨hprog.mono (by simp), hsame.links.1.trans hy.left,
        hsame.links.2.1.trans hyright, hperm, ⟨Nat.zero_le _, Nat.zero_le _⟩, hsame.links.2.2,
        hsame.isRed, hsame.value, fun hdone => (nomatch hdone), fun _ => hthrew⟩⟩
    | @top z e hprog hrep hperm hwhole =>
      -- the state in which the loop goes on
      have hstart : Progress gen [y] [] s (s₁.setRight y (some z)) :=
        (hprog.mono (by simp)).trans progress_setRight
      have hsame := hprog.of_old hfresh hyold List.not_mem_nil
      have hleft' : (s₁.setRight y (some z)).links.Represents q (s₁.links.left x) l := by
        rw [(hprog.of_old hfresh (.inl hx) List.not_mem_nil).links.1]
        exact hstart.represents hfresh hleft fun a ha =>
          ⟨.inl (hl a ha), by simpa using hysource a (hl a ha)⟩
      have hy' : BareClone gen (s₁.setRight y (some z)) y := by
        obtain ⟨k, hk, hky⟩ := hy.earlier
        exact ⟨⟨k, Nat.lt_of_lt_of_le hk hprog.calls, hky⟩, hsame.links.1.trans hy.left⟩
      obtain ⟨done, s', d, fs, hrun, hend⟩ := hspine _ y _ hleft' hy'
      have hnew : ∀ a ∈ inorder e, Old gen source (s₁.setRight y (some z)) a ∧ a ∉ [y] := by
        intro a ha
        have hmade := hperm.mem_iff.mp ha
        refine ⟨Old.of_made hmade (Nat.le_refl _), ?_⟩
        rw [List.mem_singleton]
        rintro rfl
        exact hfresh.not_mem_made hyold hmade
      have hrep' : (s₁.setRight y (some z)).links.Represents (some y) (some z) e :=
        progress_setRight.represents hfresh hrep fun a ha =>
          ⟨Old.of_made (hperm.mem_iff.mp ha) (Nat.le_refl _), (hnew a ha).2⟩
      refine ⟨done, s', d, e, fs, hrun, ⟨hstart.trans hend.progress, hend.left, ?_, ?_, ⟨hend.small, ?_⟩,
        hend.parent.trans hsame.links.2.2, hend.isRed.trans hsame.isRed,
        hend.value.trans hsame.value, fun hdone => ?_, fun hdone => ?_⟩⟩
      · have hz : s'.links.right y = some z := hend.right.trans (Function.update_self ..)
        rw [hz]
        exact hend.progress.represents hfresh hrep' hnew
      · rw [made_append hprog.calls hend.progress.calls]
        calc (inorder d ++ inorder e ++ fs).Perm (inorder e ++ (inorder d ++ fs)) := by
              rw [← List.append_assoc]
              exact List.perm_append_comm.append_right fs
          _ |>.Perm _ := hperm.append hend.perm
      · have hlength := congrArg List.length hwhole.values
        rw [List.length_map, List.length_map] at hlength
        exact Nat.le_of_eq hlength
      · obtain ⟨hfs, hwhole'⟩ := hend.whole hdone
        refine ⟨hfs, hwhole', hwhole.congr (fun a ha => ?_) fun a ha => ?_⟩
        · have hne := hysource a (hr a ha)
          have hset : Progress gen [y] [] s₁ (s₁.setRight y (some z)) := progress_setRight
          exact (hset.of_old hfresh (.inl (hr a ha)) (by simpa using hne)).trans
            (hend.progress.of_old hfresh (.inl (hr a ha)) (by simpa using hne))
        · exact (progress_setRight.of_old hfresh (Old.of_made (hperm.mem_iff.mp ha) (Nat.le_refl _))
            (hnew a ha).2).trans (hend.progress.of_old hfresh (hnew a ha).1 (hnew a ha).2)
      · obtain ⟨k, hk, hk', hnone⟩ := hend.threw hdone
        exact ⟨k, Nat.le_trans hprog.calls hk, hk', hnone⟩

/-- A clone has the colour and the value of its source, and nothing linked to it. -/
theorem cloneNode_some (h : gen s.calls = some y) :
    (s.cloneNode gen x).1 = some y ∧ Progress gen [] [] s (s.cloneNode gen x).2 ∧
      (s.cloneNode gen x).2.calls = s.calls + 1 ∧ (s.cloneNode gen x).2.links.left y = none ∧
      (s.cloneNode gen x).2.links.right y = none ∧ (s.cloneNode gen x).2.isRed y = s.isRed x ∧
      (s.cloneNode gen x).2.value y = s.value x := by
  unfold CopyState.cloneNode
  rw [h]
  refine ⟨rfl, ⟨Nat.le_succ _, (List.append_nil _).symm, fun a ha _ => ?_⟩, rfl, Function.update_self ..,
    Function.update_self .., Function.update_self .., Function.update_self ..⟩
  rw [made_succ, h, Option.toList_some, List.mem_singleton] at ha
  exact ⟨⟨Function.update_of_ne ha .., Function.update_of_ne ha .., rfl⟩, Function.update_of_ne ha ..,
    Function.update_of_ne ha ..⟩

theorem cloneNode_none (h : gen s.calls = none) :
    s.cloneNode gen x = (none, { s with calls := s.calls + 1 }) ∧
      Progress gen [] [] s { s with calls := s.calls + 1 } ∧ made gen s.calls (s.calls + 1) = [] := by
  unfold CopyState.cloneNode
  rw [h]
  refine ⟨rfl, ⟨Nat.le_succ _, (List.append_nil _).symm, fun a _ _ => ⟨⟨rfl, rfl, rfl⟩, rfl, rfl⟩⟩, ?_⟩
  rw [made_succ, h]
  rfl

/-- A clone of the root is linked somewhere, and then come the two sides. -/
theorem copyBelow_clone {b : N}
    (hfresh : FreshNodes gen source) (ht : ∀ a ∈ inorder (.node b l r), a ∈ source)
    (htree : ∀ x p (s : CopyState N V), s.links.Represents (some b) (some x) r →
      ∃ o s', copyTree gen fuel x p s = some (o, s') ∧ TreeEnd gen r p s s' o)
    (hspine : ∀ link p (s : CopyState N V), s.links.Represents (some b) link l → BareClone gen s p →
      ∃ done s' d fs, copySpine gen fuel p link s = some (done, s') ∧ SpineEnd gen l p d fs s s' done)
    (h : s.links.Represents q (some b) (.node b l r)) (hprog : Progress gen but [] s s₁)
    (hbut : ∀ a ∈ source, a ∉ but) (hy : BareClone gen s₁ y) (hyright : s₁.links.right y = none) :
    ∃ done s' d e fs, copyBelow (copyTree gen fuel) (copySpine gen fuel) b y s₁ = some (done, s') ∧
      BelowEnd gen l r y d e fs s₁ s' done := by
  have hb : b ∈ source := ht b (by simp)
  have hl : ∀ a ∈ inorder l, a ∈ source := fun a ha => ht a (by simp [ha])
  have hr : ∀ a ∈ inorder r, a ∈ source := fun a ha => ht a (by simp [ha])
  have hsame := hprog.of_old hfresh (.inl hb) (hbut b hb)
  refine copyBelow_spec (q := some b) hfresh hb hl hr htree hspine ?_ ?_ hy hyright
  · rw [hsame.links.1]
    exact hprog.represents hfresh h.2.2.1 fun a ha => ⟨.inl (hl a ha), hbut a (hl a ha)⟩
  · rw [hsame.links.2.1]
    exact hprog.represents hfresh h.2.2.2 fun a ha => ⟨.inl (hr a ha), hbut a (hr a ha)⟩

/-- One call of `_M_copy`. -/
theorem copyTree_node {b : N} {p : Option N}
    (hfresh : FreshNodes gen source) (ht : ∀ a ∈ inorder (.node b l r), a ∈ source)
    (htree : ∀ x p (s : CopyState N V), s.links.Represents (some b) (some x) r →
      ∃ o s', copyTree gen fuel x p s = some (o, s') ∧ TreeEnd gen r p s s' o)
    (hspine : ∀ link p (s : CopyState N V), s.links.Represents (some b) link l → BareClone gen s p →
      ∃ done s' d fs, copySpine gen fuel p link s = some (done, s') ∧ SpineEnd gen l p d fs s s' done)
    (hfuel : (inorder l).length + (inorder r).length ≤ fuel)
    (h : s.links.Represents q (some b) (.node b l r)) :
    ∃ o s', copyTree gen (fuel + 1) b p s = some (o, s') ∧ TreeEnd gen (.node b l r) p s s' o := by
  have hb : b ∈ source := ht b (by simp)
  unfold copyTree
  cases hgen : gen s.calls with
  | none =>
    obtain ⟨hclone, hprog, hmade⟩ := cloneNode_none (x := b) hgen
    rw [hclone]
    exact ⟨.thrown, _, rfl, .thrown hprog (hmade ▸ .refl _) ⟨_, Nat.le_refl _, Nat.lt_succ_self _, hgen⟩⟩
  | some y =>
    obtain ⟨hclone, hprog, hcalls, hyleft, hyright, hyred, hyvalue⟩ := cloneNode_some (x := b) hgen
    generalize hs₁ : s.cloneNode gen b = cloned at hclone hprog hcalls hyleft hyright hyred hyvalue ⊢
    obtain ⟨y', s₁⟩ := cloned
    cases hclone
    have hymade : y ∈ made gen s.calls s₁.calls :=
      mem_made.mpr ⟨s.calls, Nat.le_refl _, hcalls ▸ Nat.lt_succ_self _, hgen⟩
    have hstart : Progress gen [] [] s (s₁.setParent y p) :=
      ((hprog.mono (by simp)).trans progress_setParent).drop hymade
    have hy : BareClone gen (s₁.setParent y p) y := ⟨⟨s.calls, hcalls ▸ Nat.lt_succ_self _, hgen⟩, hyleft⟩
    obtain ⟨done, s', d, e, fs, hrun, hend⟩ :=
      copyBelow_clone hfresh ht htree hspine h hstart (by simp) hy hyright
    have hmade : made gen s.calls s'.calls = y :: made gen s₁.calls s'.calls := by
      rw [hcalls]
      exact made_cons hgen (hcalls ▸ hend.progress.calls)
    have hall : Progress gen [] fs s s' :=
      ((hstart.mono (by simp)).trans hend.progress).drop (hmade ▸ List.mem_cons_self)
    have hrep : s'.links.Represents p (some y) (.node y d e) :=
      ⟨rfl, hend.parent.trans (Function.update_self ..), hend.left, hend.right⟩
    have hsource := hall.of_old hfresh (.inl hb) List.not_mem_nil
    have hred : s'.isRed y = s'.isRed b := by rw [hend.isRed, hsource.isRed]; exact hyred
    have hvalue : s'.value y = s'.value b := by rw [hend.value, hsource.value]; exact hyvalue
    dsimp only
    rw [hrun]
    cases done with
    | true =>
      obtain ⟨rfl, hl', hr'⟩ := hend.whole rfl
      refine ⟨.top y, s', rfl, .top hall hrep ?_ ⟨hred, hvalue, hl', hr'⟩⟩
      rw [hmade]
      exact List.perm_middle.trans ((List.append_nil _ ▸ hend.perm).cons y)
    | false =>
      have hsmall := hend.small
      have hsize : (inorder (.node y d e)).length ≤ fuel + 1 := by
        simp only [inorder_node, List.length_append, List.length_cons]
        omega
      refine ⟨.thrown, { s' with freed := s'.freed ++ mErase (.node y d e) }, ?_, ?_⟩
      · have herase : s'.erase (fuel + 1) y =
            some { s' with freed := s'.freed ++ mErase (.node y d e) } := by
          unfold CopyState.erase
          rw [eraseLinks_spec hrep hsize]
          rfl
        show (do let s ← s'.erase (fuel + 1) y; pure (CopyEnd.thrown, s)) = _
        rw [herase]
        rfl
      · obtain ⟨k, hk, hk', hnone⟩ := hend.threw rfl
        have herased : Progress gen [] (fs ++ mErase (.node y d e)) s
            { s' with freed := s'.freed ++ mErase (.node y d e) } := by
          refine ⟨hall.calls, ?_, fun a ha hbut => ?_⟩
          · rw [hall.freed, List.append_assoc]
          · obtain ⟨hlinks, hred, hvalue⟩ := hall.same a ha hbut
            exact ⟨hlinks, hred, hvalue⟩
        have hfreed : (fs ++ mErase (.node y d e)).Perm (made gen s.calls s'.calls) := by
          rw [hmade]
          calc (fs ++ mErase (.node y d e)).Perm (fs ++ y :: (inorder d ++ inorder e)) :=
                ((mErase_perm _).trans List.perm_middle).append_left fs
            _ |>.Perm (y :: (fs ++ (inorder d ++ inorder e))) := List.perm_middle
            _ |>.Perm (y :: (inorder d ++ inorder e ++ fs)) := List.perm_append_comm.cons y
            _ |>.Perm _ := hend.perm.cons y
        exact .thrown herased hfreed ⟨k, Nat.le_trans hstart.calls hk, hk', hnone⟩

/-- One round of the loop. -/
theorem copySpine_node {b : N}
    (hfresh : FreshNodes gen source) (ht : ∀ a ∈ inorder (.node b l r), a ∈ source)
    (htree : ∀ x p (s : CopyState N V), s.links.Represents (some b) (some x) r →
      ∃ o s', copyTree gen fuel x p s = some (o, s') ∧ TreeEnd gen r p s s' o)
    (hspine : ∀ link p (s : CopyState N V), s.links.Represents (some b) link l → BareClone gen s p →
      ∃ done s' d fs, copySpine gen fuel p link s = some (done, s') ∧ SpineEnd gen l p d fs s s' done)
    (h : s.links.Represents q (some b) (.node b l r)) (hp : BareClone gen s p) :
    ∃ done s' d fs, copySpine gen (fuel + 1) p (some b) s = some (done, s') ∧
      SpineEnd gen (.node b l r) p d fs s s' done := by
  have hb : b ∈ source := ht b (by simp)
  have hpold : Old gen source s p := .inr hp.earlier
  have hpsource : ∀ a ∈ source, a ∉ [p] := by
    intro a ha hmem
    obtain ⟨k, -, hk⟩ := hp.earlier
    exact hfresh.source k p hk (List.mem_singleton.mp hmem ▸ ha)
  unfold copySpine
  cases hgen : gen s.calls with
  | none =>
    obtain ⟨hclone, hprog, hmade⟩ := cloneNode_none (x := b) hgen
    dsimp only
    rw [hclone]
    exact ⟨false, _, .nil, [], rfl, hprog.mono (by simp), hp.left, hmade ▸ .refl _, Nat.zero_le _, rfl,
      rfl, rfl, rfl, fun hdone => (nomatch hdone), fun _ => ⟨_, Nat.le_refl _, Nat.lt_succ_self _, hgen⟩⟩
  | some y =>
    obtain ⟨hclone, hprog, hcalls, hyleft, hyright, hyred, hyvalue⟩ := cloneNode_some (x := b) hgen
    dsimp only
    generalize hs₁ : s.cloneNode gen b = cloned
      at hclone hprog hcalls hyleft hyright hyred hyvalue ⊢
    obtain ⟨y', s₁⟩ := cloned
    cases hclone
    have hyp : y ≠ p := by
      rintro rfl
      obtain ⟨k, hk, hky⟩ := hp.earlier
      exact Nat.lt_irrefl _ (hfresh.inj k s.calls y hky hgen ▸ hk)
    have hymade : y ∈ made gen s.calls s₁.calls :=
      mem_made.mpr ⟨s.calls, Nat.le_refl _, hcalls ▸ Nat.lt_succ_self _, hgen⟩
    -- the clone is linked on the left of `p`
    generalize hs₂ : (s₁.setLeft p (some y)).setParent y (some p) = s₂
    have hlink : Progress gen [y, p] [] s₁ s₂ := by
      rw [← hs₂]
      exact (progress_setLeft.mono (by simp)).trans (progress_setParent.mono (by simp))
    have hstart : Progress gen [p] [] s s₂ := by
      have hcalls₂ : s₂.calls = s₁.calls := by rw [← hs₂]; rfl
      exact ((hprog.mono (by simp)).trans hlink).drop (hcalls₂ ▸ hymade)
    have hyleft₂ : s₂.links.left y = none := by
      rw [← hs₂]
      exact (Function.update_of_ne hyp ..).trans hyleft
    have hyright₂ : s₂.links.right y = none := by
      rw [← hs₂]
      exact hyright
    have hcalls₂ : s₂.calls = s.calls + 1 := by
      rw [← hs₂]
      exact hcalls
    have hpsame := hprog.of_old hfresh hpold List.not_mem_nil
    obtain ⟨done, s', d, e, fs, hrun, hend⟩ := copyBelow_clone hfresh ht htree hspine h
      hstart hpsource ⟨⟨s.calls, hcalls₂ ▸ Nat.lt_succ_self _, hgen⟩, hyleft₂⟩ hyright₂
    have hmade : made gen s.calls s'.calls = y :: made gen s₂.calls s'.calls := by
      rw [hcalls₂]
      exact made_cons hgen (hcalls₂ ▸ hend.progress.calls)
    have hall : Progress gen [p] fs s s' :=
      ((hstart.mono (by simp)).trans (hend.progress.mono (by simp))).drop
        (hmade ▸ List.mem_cons_self)
    have hkept := hend.progress.of_old hfresh (hstart.old hpold) (by simpa using hyp.symm)
    have hsource := hall.of_old hfresh (.inl hb) (hpsource b hb)
    have hsmall := hend.small
    refine ⟨done, s', .node y d e, fs, by subst hs₂; exact hrun, hall, ?_, ?_, ?_, ?_, ?_, ?_, ?_,
      fun hdone => ?_, fun hdone => ?_⟩
    · have hpleft : s'.links.left p = some y := by
        rw [hkept.links.1, ← hs₂]
        exact Function.update_self ..
      rw [hpleft]
      refine ⟨rfl, hend.parent.trans ?_, hend.left, hend.right⟩
      rw [← hs₂]
      exact Function.update_self ..
    · rw [hmade]
      exact (List.perm_middle.append_right fs).trans (hend.perm.cons y)
    · simp only [inorder_node, List.length_append, List.length_cons]
      omega
    · rw [hkept.links.2.1, ← hs₂]
      exact hpsame.links.2.1
    · rw [hkept.links.2.2, ← hs₂]
      exact (Function.update_of_ne hyp.symm ..).trans hpsame.links.2.2
    · rw [hkept.isRed, ← hs₂]
      exact hpsame.isRed
    · rw [hkept.value, ← hs₂]
      exact hpsame.value
    · obtain ⟨rfl, hl', hr'⟩ := hend.whole hdone
      refine ⟨rfl, ?_, ?_, hl', hr'⟩
      · rw [hend.isRed, hsource.isRed, ← hs₂]
        exact hyred
      · rw [hend.value, hsource.value, ← hs₂]
        exact hyvalue
    · obtain ⟨k, hk, hk', hnone⟩ := hend.threw hdone
      exact ⟨k, Nat.le_trans hstart.calls hk, hk', hnone⟩

/-- Both for every tree, by induction on it. -/
theorem copy_spec (hfresh : FreshNodes gen source) (ht : ∀ a ∈ inorder t, a ∈ source)
    (hfuel : (inorder t).length ≤ fuel) :
    (∀ x p (s : CopyState N V), s.links.Represents q (some x) t →
      ∃ o s', copyTree gen fuel x p s = some (o, s') ∧ TreeEnd gen t p s s' o) ∧
    ∀ link p (s : CopyState N V), s.links.Represents q link t → BareClone gen s p →
      ∃ done s' d fs, copySpine gen fuel p link s = some (done, s') ∧ SpineEnd gen t p d fs s s' done := by
  induction t generalizing q fuel with
  | nil =>
    refine ⟨fun x p s h => (nomatch (show some x = none from h)), fun link p s h hp => ?_⟩
    obtain rfl : link = none := h
    refine ⟨true, s, .nil, [], by cases fuel <;> rfl, ⟨⟨Nat.le_refl _, (List.append_nil _).symm,
      fun a _ _ => ⟨⟨rfl, rfl, rfl⟩, rfl, rfl⟩⟩, hp.left, ?_, Nat.le_refl _, rfl, rfl, rfl, rfl,
      fun _ => ⟨rfl, trivial⟩, fun hdone => (nomatch hdone)⟩⟩
    rw [made_self]
    exact .refl _
  | node b l r ihl ihr =>
    obtain ⟨fuel, rfl⟩ : ∃ k, fuel = k + 1 := ⟨fuel - 1, by simp at hfuel; omega⟩
    simp only [inorder_node, List.length_append, List.length_cons] at hfuel
    have htree := (ihr (q := some b) (fun a ha => ht a (by simp [ha]))
      (show (inorder r).length ≤ fuel by omega)).1
    have hspine := (ihl (q := some b) (fun a ha => ht a (by simp [ha]))
      (show (inorder l).length ≤ fuel by omega)).2
    refine ⟨fun x p s h => ?_, fun link p s h hp => ?_⟩
    · obtain rfl : b = x := (Option.some.inj h.1).symm
      exact copyTree_node hfresh ht htree hspine (by omega) h
    · obtain rfl : link = some b := h.1
      exact copySpine_node hfresh ht htree hspine h hp

end Spec

/-- A copy has the shape, the colours and the values of its source; or everything that was cloned is freed
again, each node once. -/
def CopyEnd.Holds (gen : Nat → Option N) (t : BinaryTree N) (p : Option N) (s s' : CopyState N V) :
    CopyEnd N → Prop
  | .top z => ∃ t', s'.links.Represents p (some z) t' ∧ s'.SameTree t t' ∧
    (inorder t').map s'.value = (inorder t).map s.value ∧
    (inorder t').Perm (made gen s.calls s'.calls) ∧ s'.freed = s.freed
  | .thrown => (∃ k, s.calls ≤ k ∧ k < s'.calls ∧ gen k = none) ∧
    ∃ fs, s'.freed = s.freed ++ fs ∧ fs.Nodup ∧ fs.Perm (made gen s.calls s'.calls)

/-- Whichever clone throws, if any does, and the source stays as it is. -/
theorem copyTree_ends [DecidableEq N] (hfresh : FreshNodes gen (inorder t))
    (h : s.links.Represents q (some x) t) (p : Option N) (hfuel : (inorder t).length ≤ fuel) :
    ∃ o s', copyTree gen fuel x p s = some (o, s') ∧ (∀ a ∈ inorder t, s.SameAt s' a) ∧
      o.Holds gen t p s s' := by
  obtain ⟨o, s', hrun, hend⟩ := (copy_spec hfresh (fun _ ha => ha) hfuel).1 x p s h
  have hsource : ∀ {fs}, Progress gen [] fs s s' → ∀ a ∈ inorder t, s.SameAt s' a :=
    fun hprog a ha => hprog.of_old hfresh (.inl ha) List.not_mem_nil
  refine ⟨o, s', hrun, ?_⟩
  cases hend with
  | @top z t' hprog hrep hperm hsame =>
    refine ⟨hsource hprog, t', hrep, hsame, hsame.values.trans ?_, hperm,
      hprog.freed.trans (List.append_nil _)⟩
    exact List.map_congr_left fun a ha => (hsource hprog a ha).value
  | @thrown fs hprog hperm hthrew =>
    exact ⟨hsource hprog, hthrew, fs, hprog.freed, hperm.nodup_iff.mpr (nodup_made hfresh.inj), hperm⟩

section Three

/-- Three nodes; the generator has two nodes and then throws. -/
def threeNodes : CopyState Nat Nat where
  links :=
    { left := fun a => if a = 2 then some 1 else none
      right := fun a => if a = 2 then some 3 else none
      parent := fun a => if a = 1 ∨ a = 3 then some 2 else none }
  isRed a := a ≠ 2
  value a := a
  calls := 0
  freed := []

def twoNodes (k : Nat) : Option Nat := if k < 2 then some (10 + k) else none

theorem copyTree_ends_three :
    ∃ o s', copyTree twoNodes 3 2 none threeNodes = some (o, s') ∧
      (∀ a ∈ inorder (.node 2 (.node 1 .nil .nil) (.node 3 .nil .nil)), threeNodes.SameAt s' a) ∧
      o.Holds twoNodes (.node 2 (.node 1 .nil .nil) (.node 3 .nil .nil)) none threeNodes s' := by
  have hfresh : FreshNodes twoNodes (inorder (.node 2 (.node 1 .nil .nil) (.node 3 .nil .nil))) := by
    refine ⟨fun j k a hj hk => ?_, fun k a hk => ?_⟩
    · simp only [twoNodes, Option.ite_none_right_eq_some, Option.some.injEq] at hj hk
      omega
    · simp only [twoNodes, Option.ite_none_right_eq_some, Option.some.injEq] at hk
      simp
      omega
  have h : threeNodes.links.Represents none (some 2) (.node 2 (.node 1 .nil .nil) (.node 3 .nil .nil)) :=
    ⟨rfl, rfl, ⟨rfl, rfl, rfl, rfl⟩, ⟨rfl, rfl, rfl, rfl⟩⟩
  exact copyTree_ends hfresh h none (Nat.le_refl 3)

end Three

end Rtfsc.Stl
