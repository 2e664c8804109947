import Rtfsc.Stl.InsertionSort
import Rtfsc.Stl.Partition

/-!
# Introspective sort

`__sort`. What `__introsort_loop` leaves unsorted has no cell behind the first 16 that is less than all of
them (`NearSorted`), whether a part was split further or was sorted as a heap. With the first 16 cells sorted
the first one is then a minimum, and the insertion sort behind them needs no bound.
-/

namespace Rtfsc.Stl

open Rtfsc.Machine

variable {α : Type}

/-! ## The code -/

/-- `_S_threshold` -/
def sortThreshold : Nat := 16

section Code

variable (less : StrictWeak α) (lo hi : Nat)

/-- The loop of `__heap_select`, for `n` cells from `i` on. -/
def heapSelectLoop (first middle : Nat) : Nat → Nat → (Nat → α) → Option (Nat → α) :=
  forCells fun i c => do
    let x ← loadIn lo hi c i
    let top ← loadIn lo hi c first
    if less.lt x top then popHeap less hi first middle i c else return c

/-- `__heap_select` -/
def heapSelect (first middle last : Nat) (c : Nat → α) : Option (Nat → α) := do
  let c ← makeHeap less first middle c
  heapSelectLoop less lo hi first middle (last - middle) middle c

/-- `__sort_heap`, where `n` is `__last - __first`. -/
def sortHeap (first : Nat) : Nat → (Nat → α) → Option (Nat → α)
  | 0, c => some c
  | 1, c => some c
  | n + 2, c => do
    let c ← popHeap less hi first (first + (n + 1)) (first + (n + 1)) c
    sortHeap first (n + 1) c

/-- `__partial_sort` -/
def partialSort (first middle last : Nat) (c : Nat → α) : Option (Nat → α) := do
  let c ← heapSelect less lo hi first middle last c
  sortHeap less hi first (middle - first) c

/-- `__introsort_loop`. The loop goes on with the cells before the cut. -/
def introsortLoop (median : MedianOf less) : Nat → Nat → Nat → (Nat → α) → Option (Nat → α)
  | 0, first, last, c =>
    if last - first > sortThreshold then partialSort less lo hi first last last c else some c
  | depthLimit + 1, first, last, c =>
    if last - first > sortThreshold then do
      let (c, cut) ← unguardedPartitionPivot less lo hi median first last c
      let c ← introsortLoop median depthLimit cut last c
      introsortLoop median depthLimit first cut c
    else some c

/-- `__final_insertion_sort` -/
def finalInsertionSort (first last : Nat) (c : Nat → α) : Option (Nat → α) :=
  if last - first > sortThreshold then do
    let c ← insertionSort less lo hi first (first + sortThreshold) c
    unguardedInsertionSort less lo hi (first + sortThreshold) last c
  else insertionSort less lo hi first last c

end Code

/-- `__sort`. No access is outside of the range. -/
def sort (less : StrictWeak α) (median : MedianOf less) (first last : Nat) (c : Nat → α) :
    Option (Nat → α) :=
  if first ≠ last then do
    let c ← introsortLoop less first last median (Nat.log2 (last - first) * 2) first last c
    finalInsertionSort less first last first last c
  else some c

/-! ## What the functions do -/

variable {less : StrictWeak α} {lo hi first last n cut : Nat} {c : Nat → α}

/-- The greatest cell of a heap goes behind the rest. -/
theorem sortHeap_spec (hhi : first + n ≤ hi) (hheap : HeapFrom less 0 n (cellsFrom first c)) :
    ∃ c', sortHeap less hi first n c = some c' ∧ Rearranged first (first + n) c c' ∧
      SortedOn less first (first + n) c' := by
  induction n using Nat.strongRecOn generalizing c with
  | _ n ih =>
    match n with
    | 0 => exact ⟨c, rfl, Rearranged.refl, fun i j hi hij hj => by omega⟩
    | 1 => exact ⟨c, rfl, Rearranged.refl, fun i j hi hij hj => by omega⟩
    | n + 2 =>
      have hmax : ∀ i, first ≤ i → i < first + (n + 2) → less.lt (c first) (c i) = false := by
        intro i hi hi'
        have hunder := hheap.under (.of_zero (i - first)) (by omega)
        rwa [cellsFrom_apply, cellsFrom_apply, Nat.add_zero, Nat.add_sub_cancel' hi] at hunder
      have hlen : first + (n + 1) - first = n + 1 := Nat.add_sub_cancel_left ..
      have hheap₀ : HeapFrom less 0 (first + (n + 1) - first) (cellsFrom first c) := by
        rw [hlen]
        exact hheap.mono (Nat.le_refl _) (Nat.le_succ _)
      obtain ⟨c₁, hc₁, hperm₁, hheap₁, hlast, -⟩ :=
        popHeap_spec less (Nat.lt_add_of_pos_right (Nat.succ_pos n)) (Nat.le_refl _)
          (show first + (n + 1) < hi by omega) hheap₀
      rw [hlen] at hheap₁
      obtain ⟨c', hc', hperm, hsorted⟩ := ih (n + 1) (Nat.lt_succ_self _) (by omega) hheap₁
      have hkept : c' (first + (n + 1)) = c first := by
        rw [hperm.outside (by omega), hlast]
      have hbelow := hperm.forall_mem (P := fun x => less.lt (c first) x = false) fun i hi hi' =>
        hperm₁.forall_mem (P := fun x => less.lt (c first) x = false) hmax i hi (by omega)
      refine ⟨c', ?_, hperm₁.trans (hperm.mono (Nat.le_refl _) (by omega)), fun i j hi hij hj => ?_⟩
      · rw [sortHeap, hc₁]
        exact hc'
      · rcases Nat.lt_or_ge j (first + (n + 1)) with hlt | hge
        · exact hsorted i j hi hij hlt
        · obtain rfl : j = first + (n + 1) := by omega
          rw [hkept]
          exact hbelow i hi hij

/-- All of a range is sorted as a heap. -/
theorem partialSort_spec (hle : first ≤ last) (hhi : last ≤ hi) :
    ∃ c', partialSort less lo hi first last last c = some c' ∧ Rearranged first last c c' ∧
      SortedOn less first last c' := by
  obtain ⟨c₁, hc₁, hperm₁, hheap⟩ := makeHeap_spec less c hle
  have hadd : first + (last - first) = last := Nat.add_sub_cancel' hle
  obtain ⟨c', hc', hperm, hsorted⟩ := sortHeap_spec (show first + (last - first) ≤ hi by omega) hheap
  rw [hadd] at hperm hsorted
  refine ⟨c', ?_, hperm₁.trans hperm, hsorted⟩
  unfold partialSort heapSelect
  rw [hc₁, Nat.sub_self]
  exact hc'

/-- For every cell behind the first 16 there is one of these that is not greater. -/
def NearSorted (less : StrictWeak α) (first last : Nat) (c : Nat → α) : Prop :=
  ∀ j, first + sortThreshold ≤ j → j < last →
    ∃ k, first ≤ k ∧ k < first + sortThreshold ∧ less.lt (c j) (c k) = false

theorem nearSorted_of_sorted (hsorted : SortedOn less first last c) : NearSorted less first last c := by
  intro j hj hj'
  unfold sortThreshold at hj ⊢
  exact ⟨first, Nat.le_refl _, by omega, hsorted first j (Nat.le_refl _) (by omega) hj'⟩

/-- Both sides of a cut may be rearranged. The first cell is then not greater than the pivot, and no cell
from the cut on is less than it. -/
theorem NearSorted.of_cut {c₁ c' : Nat → α} (hcut : CutAt less first last cut c)
    (hupper : Rearranged cut last c c₁) (hlower : Rearranged first cut c₁ c')
    (hnear : NearSorted less first cut c') : NearSorted less first last c' := by
  intro j hj hj'
  rcases Nat.lt_or_ge j cut with hlt | hge
  · exact hnear j hj hlt
  have hfirst : less.lt (c first) (c' first) = false := by
    refine hlower.forall_mem (P := fun x => less.lt (c first) x = false) (fun i hi hi' => ?_) first
      (Nat.le_refl _) hcut.inside.1
    rw [hupper.outside (by omega)]
    exact hcut.lower i hi hi'
  have hbehind : less.lt (c' j) (c first) = false := by
    rw [hlower.outside (by omega)]
    exact hupper.forall_mem (P := fun x => less.lt x (c first) = false) hcut.upper j hge hj'
  refine ⟨first, Nat.le_refl _, ?_, less.notTrans hbehind hfirst⟩
  unfold sortThreshold
  omega

theorem introsortLoop_spec (median : MedianOf less) {depthLimit : Nat} (hlo : lo ≤ first)
    (hle : first ≤ last) (hhi : last ≤ hi) :
    ∃ c', introsortLoop less lo hi median depthLimit first last c = some c' ∧
      Rearranged first last c c' ∧ NearSorted less first last c' := by
  induction depthLimit generalizing first last c with
  | zero =>
    rw [introsortLoop]
    split
    next hlong =>
      obtain ⟨c', hc', hperm, hsorted⟩ := partialSort_spec hle hhi
      exact ⟨c', hc', hperm, nearSorted_of_sorted hsorted⟩
    next hshort => exact ⟨c, rfl, Rearranged.refl, fun j hj hj' => by omega⟩
  | succ depthLimit ih =>
    rw [introsortLoop]
    split
    next hlong =>
      unfold sortThreshold at hlong
      obtain ⟨c₁, cut, hc₁, hperm₁, hcut⟩ :=
        unguardedPartitionPivot_spec (c := c) median hlo hhi (by omega)
      have hinside := hcut.inside
      obtain ⟨c₂, hc₂, hperm₂, -⟩ :=
        ih (c := c₁) (show lo ≤ cut by omega) (show cut ≤ last by omega) hhi
      obtain ⟨c', hc', hperm, hnear⟩ :=
        ih (c := c₂) hlo (show first ≤ cut by omega) (show cut ≤ hi by omega)
      refine ⟨c', ?_, (hperm₁.trans (hperm₂.mono (by omega) (Nat.le_refl _))).trans
        (hperm.mono (Nat.le_refl _) (by omega)), .of_cut hcut hperm₂ hperm hnear⟩
      rw [hc₁, Option.bind_eq_bind, Option.bind_some]
      dsimp only
      rw [hc₂, Option.bind_eq_bind, Option.bind_some]
      exact hc'
    next hshort => exact ⟨c, rfl, Rearranged.refl, fun j hj hj' => by omega⟩

theorem finalInsertionSort_spec (hlo : lo ≤ first) (hle : first ≤ last) (hhi : last ≤ hi)
    (hnear : NearSorted less first last c) :
    ∃ c', finalInsertionSort less lo hi first last c = some c' ∧ Rearranged first last c c' ∧
      SortedOn less first last c' := by
  unfold finalInsertionSort
  split
  next hlong =>
    have hpos : 0 < sortThreshold := by decide
    obtain ⟨c₁, hc₁, hperm₁, hsorted₁⟩ := insertionSort_spec less c hlo
      (show first ≤ first + sortThreshold by omega) (show first + sortThreshold ≤ hi by omega)
    -- the first cell is a minimum of the sorted ones, and so of all
    have hmin : ∀ k, first ≤ k → k < first + sortThreshold → less.lt (c k) (c₁ first) = false := by
      refine hperm₁.symm.forall_mem (P := fun x => less.lt x (c₁ first) = false) fun i hi hi' => ?_
      rcases Nat.eq_or_lt_of_le hi with rfl | hgt
      · exact less.irrefl _
      · exact hsorted₁ first i (Nat.le_refl _) hgt hi'
    have hsent : ∀ j, first + sortThreshold ≤ j → j < last → less.lt (c₁ j) (c₁ first) = false := by
      intro j hj hj'
      obtain ⟨k, hk, hk', hle⟩ := hnear j hj hj'
      rw [hperm₁.outside (by omega)]
      exact less.notTrans hle (hmin k hk hk')
    obtain ⟨c', hc', hperm, hsorted⟩ := unguardedInsertionSort_spec hlo
      (show first < first + sortThreshold by omega) (show first + sortThreshold ≤ last by omega) hhi
      hsent hsorted₁
    refine ⟨c', ?_, (hperm₁.mono (Nat.le_refl _) (by omega)).trans hperm, hsorted⟩
    rw [hc₁]
    exact hc'
  next hshort => exact insertionSort_spec less c hlo hle hhi

/-- Every range is sorted, by accesses that stay in it. -/
theorem sort_sorted (less : StrictWeak α) (median : MedianOf less) (first n : Nat) (c : Nat → α) :
    ∃ c', sort less median first (first + n) c = some c' ∧ Rearranged first (first + n) c c' ∧
      ((List.range' first n).map c').Perm ((List.range' first n).map c) ∧
      ((List.range' first n).map c').Pairwise fun x y => less.lt y x = false := by
  have hsort : ∃ c', sort less median first (first + n) c = some c' ∧
      Rearranged first (first + n) c c' ∧ SortedOn less first (first + n) c' := by
    unfold sort
    split
    next hne =>
      obtain ⟨c₁, hc₁, hperm₁, hnear⟩ := introsortLoop_spec (c := c) median (Nat.le_refl first)
        (Nat.le_add_right first n) (Nat.le_refl _)
      obtain ⟨c', hc', hperm, hsorted⟩ := finalInsertionSort_spec (Nat.le_refl first)
        (Nat.le_add_right first n) (Nat.le_refl _) hnear
      refine ⟨c', ?_, hperm₁.trans hperm, hsorted⟩
      rw [hc₁]
      exact hc'
    next heq => exact ⟨c, rfl, Rearranged.refl, fun i j hi hij hj => by omega⟩
  obtain ⟨c', hc', hperm, hsorted⟩ := hsort
  have hlist := hperm.perm
  have hpairs := hsorted.pairwise
  rw [Nat.add_sub_cancel_left] at hlist hpairs
  exact ⟨c', hc', hperm, hlist, hpairs⟩

theorem sort_sorted_twenty :
    ∃ c', sort natLess (medianOfThree natLess) 0 (0 + 20) (fun i => 7 * i % 20) = some c' ∧
      ((List.range' 0 20).map c').Perm ((List.range' 0 20).map fun i => 7 * i % 20) ∧
      ((List.range' 0 20).map c').Pairwise fun x y => natLess.lt y x = false := by
  obtain ⟨c', hc', -, hperm, hsorted⟩ :=
    sort_sorted natLess (medianOfThree natLess) 0 20 fun i => 7 * i % 20
  exact ⟨c', hc', hperm, hsorted⟩

end Rtfsc.Stl
