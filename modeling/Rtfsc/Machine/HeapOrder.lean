import Rtfsc.Machine.Rearranged

/-!
# Heaps with a hole

A binary heap in an array, from some position on, with no parent less than a child. While a value is on its
way there is a hole: the order holds off the hole (`HoleDown`), and on the way up the value is also known
not to be less than what is below the hole (`HoleUp`).
-/

namespace Rtfsc.Machine

variable {α : Type}

/-- The parent of a position. Position 0 is no child, although it would be its own parent. -/
def heapParent (i : Nat) : Nat := (i - 1) / 2

theorem heapParent_lt {i : Nat} (hi : 0 < i) : heapParent i < i := by
  unfold heapParent
  omega

theorem heapParent_eq_iff {i p : Nat} (hi : 0 < i) : heapParent i = p ↔ i = 2 * p + 1 ∨ i = 2 * p + 2 := by
  unfold heapParent
  omega

variable (less : StrictWeak α)

/-- From `top` on, no parent is less than a child. -/
def HeapFrom (top n : Nat) (a : Nat → α) : Prop :=
  ∀ i, i < n → 0 < i → top ≤ heapParent i → less.lt (a (heapParent i)) (a i) = false

/-- The order off the hole, and from its parent to its children. -/
structure HoleDown (top n h : Nat) (a : Nat → α) : Prop where
  rest : ∀ i, i < n → 0 < i → top ≤ heapParent i → i ≠ h → heapParent i ≠ h →
    less.lt (a (heapParent i)) (a i) = false
  skip : ∀ i, i < n → 0 < i → heapParent i = h → top < h → less.lt (a (heapParent h)) (a i) = false

/-- The same, and a value that may stand above the children of the hole. -/
structure HoleUp (top n h : Nat) (v : α) (a : Nat → α) : Prop extends HoleDown less top n h a where
  below : ∀ i, i < n → 0 < i → heapParent i = h → less.lt v (a i) = false

/-- A position and the positions under it. -/
inductive Under (top : Nat) : Nat → Prop
  | self : Under top top
  | child {i : Nat} : 0 < i → Under top (heapParent i) → Under top i

variable {less} {top n h k : Nat} {v : α} {a : Nat → α}

theorem Under.le (hu : Under top h) : top ≤ h := by
  induction hu with
  | self => exact Nat.le_refl _
  | child hi _ ih => exact Nat.le_trans ih (Nat.le_of_lt (heapParent_lt hi))

theorem Under.parent (hu : Under top h) (hlt : top < h) : Under top (heapParent h) := by
  cases hu with
  | self => exact absurd hlt (Nat.lt_irrefl _)
  | child _ hu => exact hu

theorem Under.of_zero (i : Nat) : Under 0 i := by
  induction i using Nat.strongRecOn with
  | _ i ih =>
    rcases Nat.eq_zero_or_pos i with rfl | hi
    · exact self
    · exact child hi (ih _ (heapParent_lt hi))

/-- In a heap every position is at most as great as the ones it is under. -/
theorem HeapFrom.under (hheap : HeapFrom less top n a) {i : Nat} (hu : Under top i) (hi : i < n) :
    less.lt (a top) (a i) = false := by
  induction hu with
  | self => exact less.irrefl _
  | child hpos hu ih =>
    have hlt := heapParent_lt hpos
    exact less.notTrans (ih (by omega)) (hheap _ hi hpos hu.le)

theorem HeapFrom.mono {top' n' : Nat} (hheap : HeapFrom less top n a) (htop : top ≤ top')
    (hn : n' ≤ n) : HeapFrom less top' n' a :=
  fun i hi hpos hp => hheap i (by omega) hpos (by omega)

/-- Taking out the value at the top. -/
theorem HeapFrom.holeDown (hheap : HeapFrom less (top + 1) n a) : HoleDown less top n top a where
  rest i hi hpos hp _ hne := hheap i hi hpos (by omega)
  skip _ _ _ _ hlt := absurd hlt (Nat.lt_irrefl _)

/-- A value behind the last one. -/
theorem HeapFrom.holeUp (hheap : HeapFrom less 0 n a) : HoleUp less 0 (n + 1) n v a where
  rest i hi hpos hp hne _ := hheap i (by omega) hpos hp
  skip i hi hpos hp _ := by
    have hlt := heapParent_lt hpos
    omega
  below i hi hpos hp := by
    have hlt := heapParent_lt hpos
    omega

/-- The greatest child of the hole goes up into it. -/
theorem HoleDown.move (hole : HoleDown less top n h a) (htop : top ≤ h) (hk : k < n) (hpos : 0 < k)
    (hchild : heapParent k = h)
    (hmax : ∀ i, i < n → 0 < i → heapParent i = h → less.lt (a k) (a i) = false) :
    HoleDown less top n k (Function.update a h (a k)) where
  rest i hi hi0 hp hik hpk := by
    have hne : heapParent i ≠ i := Nat.ne_of_lt (heapParent_lt hi0)
    rcases eq_or_ne (heapParent i) h with heq | hph
    · rw [heq, Function.update_self, Function.update_of_ne (heq ▸ hne.symm)]
      exact hmax i hi hi0 heq
    rcases eq_or_ne i h with rfl | hih
    · rw [Function.update_self, Function.update_of_ne hph]
      exact hole.skip k hk hpos hchild (Nat.lt_of_le_of_lt hp (heapParent_lt hi0))
    · rw [Function.update_of_ne hph, Function.update_of_ne hih]
      exact hole.rest i hi hi0 hp hih hph
  skip i hi hi0 hp _ := by
    have hhk : h < k := hchild ▸ heapParent_lt hpos
    have hki : k < i := hp ▸ heapParent_lt hi0
    rw [hchild, Function.update_self, Function.update_of_ne (by omega), ← hp]
    exact hole.rest i hi hi0 (by omega) (by omega) (by omega)

/-- At a leaf any value may go up. -/
theorem HoleDown.holeUp (hole : HoleDown less top n h a)
    (hleaf : ∀ i, i < n → 0 < i → heapParent i ≠ h) : HoleUp less top n h v a :=
  { hole with below := fun i hi hi0 hp => absurd hp (hleaf i hi hi0) }

/-- The parent of the hole, which is less than the value, goes down into it. -/
theorem HoleUp.move (hole : HoleUp less top n h v a) (hn : h < n) (hu : Under top h) (hlt : top < h)
    (hless : less.lt (a (heapParent h)) v = true) :
    HoleUp less top n (heapParent h) v (Function.update a h (a (heapParent h))) where
  rest i hi hi0 hp hip hpp := by
    rcases eq_or_ne i h with rfl | hih
    · exact absurd rfl hpp
    rcases eq_or_ne (heapParent i) h with heq | hph
    · rw [heq, Function.update_self, Function.update_of_ne hih]
      exact hole.skip i hi hi0 heq hlt
    · rw [Function.update_of_ne hph, Function.update_of_ne hih]
      exact hole.rest i hi hi0 hp hih hph
  skip i hi hi0 hp hlt' := by
    have hph : heapParent h < h := heapParent_lt (by omega)
    have hpp : heapParent (heapParent h) < heapParent h := heapParent_lt (by omega)
    have hin : top ≤ heapParent (heapParent h) := ((hu.parent hlt).parent hlt').le
    have hup : less.lt (a (heapParent (heapParent h))) (a (heapParent h)) = false :=
      hole.rest _ (by omega) (by omega) hin (by omega) (by omega)
    rw [Function.update_of_ne (by omega)]
    rcases eq_or_ne i h with rfl | hih
    · rwa [Function.update_self]
    · rw [Function.update_of_ne hih]
      refine less.notTrans hup ?_
      rw [← hp]
      exact hole.rest i hi hi0 (by omega) hih (by omega)
  below i hi hi0 hp := by
    rcases eq_or_ne i h with rfl | hih
    · rw [Function.update_self]
      exact StrictWeak.asymm hless
    · rw [Function.update_of_ne hih]
      have hph : heapParent h < h := heapParent_lt (by omega)
      have hin : top ≤ heapParent h := (hu.parent hlt).le
      refine StrictWeak.not_lt_of_lt_of_not_lt hless ?_
      rw [← hp]
      exact hole.rest i hi hi0 (by omega) hih (by omega)

/-- The value is put into the hole. -/
theorem HoleUp.finish (hole : HoleUp less top n h v a)
    (hstop : top < h → less.lt (a (heapParent h)) v = false) :
    HeapFrom less top n (Function.update a h v) := by
  intro i hi hi0 hp
  have hpi := heapParent_lt hi0
  rcases eq_or_ne i h with rfl | hih
  · rw [Function.update_self, Function.update_of_ne (by omega)]
    exact hstop (by omega)
  rw [Function.update_of_ne hih]
  rcases eq_or_ne (heapParent i) h with heq | hph
  · rw [heq, Function.update_self]
    exact hole.below i hi hi0 heq
  · rw [Function.update_of_ne hph]
    exact hole.rest i hi hi0 hp hih hph

end Rtfsc.Machine
