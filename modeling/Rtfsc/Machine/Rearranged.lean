import Mathlib.Data.List.Nodup
import Mathlib.Data.List.Perm.Basic
import Mathlib.Logic.Equiv.Basic

/-!
# Order and rearrangement of cells

What it takes to verify an algorithm that sorts cells in place: strict weak orders as a comparison that a
program can call, sorted cells, also with a hole (`SortedOff`), and rearrangements of the cells of an
interval. A rearrangement keeps what is outside of the interval and permutes what is in it
(`Rearranged.perm`). A program that moves values through a hole rearranges the cells it would have with the
value in the hole (`Rearranged.move`).
-/

namespace Rtfsc.Machine

variable {α : Type}

/-! ## Strict weak orders -/

/-- A comparison that is irreflexive and transitive, and in which not being less is transitive too. -/
structure StrictWeak (α : Type) where
  lt : α → α → Bool
  irrefl : ∀ a, lt a a = false
  trans : ∀ {a b c}, lt a b = true → lt b c = true → lt a c = true
  notTrans : ∀ {a b c}, lt a b = false → lt b c = false → lt a c = false

namespace StrictWeak

variable {less : StrictWeak α} {a b c : α}

theorem asymm (h : less.lt a b = true) : less.lt b a = false := by
  cases hba : less.lt b a with
  | false => rfl
  | true =>
    rw [← less.trans h hba]
    exact less.irrefl a

theorem not_lt_of_lt_of_not_lt (hab : less.lt a b = true) (hac : less.lt a c = false) :
    less.lt b c = false := by
  cases hbc : less.lt b c with
  | false => rfl
  | true =>
    rw [less.trans hab hbc] at hac
    exact absurd hac.symm Bool.false_ne_true

end StrictWeak

/-- The numbers in their order. -/
def natLess : StrictWeak Nat where
  lt a b := decide (a < b)
  irrefl a := by simp
  trans hab hbc := by simp_all; omega
  notTrans hab hbc := by simp_all; omega

/-! ## Sorted cells -/

/-- From `lo` to `hi`, no cell is less than one before it. -/
def SortedOn (less : StrictWeak α) (lo hi : Nat) (c : Nat → α) : Prop :=
  ∀ i j, lo ≤ i → i < j → j < hi → less.lt (c j) (c i) = false

theorem SortedOn.pairwise {less : StrictWeak α} {lo hi : Nat} {c : Nat → α}
    (h : SortedOn less lo hi c) :
    ((List.range' lo (hi - lo)).map c).Pairwise fun x y => less.lt y x = false := by
  rw [List.pairwise_map]
  refine List.Pairwise.imp_of_mem ?_ List.pairwise_lt_range'
  intro i j hi' hj hij
  rw [List.mem_range'_1] at hi' hj
  exact h i j hi'.1 hij (by omega)

/-- The cells from `lo` to `hi` are sorted, but for the hole `h`. Those behind the hole are greater than the
value. -/
structure SortedOff (less : StrictWeak α) (lo hi h : Nat) (v : α) (c : Nat → α) : Prop where
  rest : ∀ i j, lo ≤ i → i < j → j < hi → i ≠ h → j ≠ h → less.lt (c j) (c i) = false
  above : ∀ j, h < j → j < hi → less.lt v (c j) = true

section SortedOff

variable {less : StrictWeak α} {lo hi h : Nat} {v : α} {c : Nat → α}

/-- The cell behind a sorted range is the first hole. -/
theorem SortedOn.sortedOff (hsorted : SortedOn less lo h c) : SortedOff less lo (h + 1) h v c where
  rest i j hi hij hj _ hjh := hsorted i j hi hij (by omega)
  above j hj hj' := by omega

theorem SortedOff.move (hole : SortedOff less lo hi (h + 1) v c) (hlo : lo ≤ h)
    (hlt : less.lt v (c h) = true) :
    SortedOff less lo hi h v (Function.update c (h + 1) (c h)) where
  rest i j hi hij hj hih hjh := by
    rcases eq_or_ne j (h + 1) with rfl | hj'
    · rw [Function.update_self, Function.update_of_ne (by omega)]
      exact hole.rest i h hi (by omega) (by omega) (by omega) (by omega)
    rw [Function.update_of_ne hj']
    rcases eq_or_ne i (h + 1) with rfl | hi'
    · rw [Function.update_self]
      exact hole.rest h j hlo (by omega) hj (by omega) hj'
    · rw [Function.update_of_ne hi']
      exact hole.rest i j hi hij hj hi' hj'
  above j hj hj' := by
    rcases eq_or_ne j (h + 1) with rfl | hne
    · rwa [Function.update_self]
    · rw [Function.update_of_ne hne]
      exact hole.above j (by omega) hj'

/-- The value is put behind a cell that is not greater, or at the front. -/
theorem SortedOff.finish (hole : SortedOff less lo hi h v c)
    (hstop : ∀ i, lo ≤ i → i + 1 = h → less.lt v (c i) = false) :
    SortedOn less lo hi (Function.update c h v) := by
  intro i j hi' hij hj
  rcases eq_or_ne i h with rfl | hih
  · rw [Function.update_self, Function.update_of_ne (by omega)]
    exact StrictWeak.asymm (hole.above j hij hj)
  rw [Function.update_of_ne hih]
  rcases eq_or_ne j h with rfl | hjh
  · rw [Function.update_self]
    obtain ⟨k, rfl⟩ : ∃ k, j = k + 1 := ⟨j - 1, by omega⟩
    have hk := hstop k (by omega) rfl
    rcases eq_or_ne i k with rfl | hik
    · exact hk
    · exact less.notTrans hk (hole.rest i k hi' (by omega) (by omega) hih (by omega))
  · rw [Function.update_of_ne hjh]
    exact hole.rest i j hi' hij hj hih hjh

end SortedOff

/-! ## Rearrangements -/

/-- The cells from `lo` to `hi` are permuted, the others are the same. -/
def Rearranged (lo hi : Nat) (c c' : Nat → α) : Prop :=
  ∃ σ : Equiv.Perm Nat, (∀ i, ¬(lo ≤ i ∧ i < hi) → σ i = i) ∧ c' = c ∘ σ

namespace Rearranged

variable {lo hi lo' hi' i h k : Nat} {c c' c'' : Nat → α} {v : α}

theorem refl : Rearranged lo hi c c := ⟨Equiv.refl Nat, fun _ _ => rfl, rfl⟩

theorem trans (h₁ : Rearranged lo hi c c') (h₂ : Rearranged lo hi c' c'') :
    Rearranged lo hi c c'' := by
  obtain ⟨σ, hσ, rfl⟩ := h₁
  obtain ⟨τ, hτ, rfl⟩ := h₂
  refine ⟨τ.trans σ, fun i hi => ?_, rfl⟩
  rw [Equiv.trans_apply, hτ i hi, hσ i hi]

theorem mono (h₁ : Rearranged lo hi c c') (hlo : lo' ≤ lo) (hhi : hi ≤ hi') :
    Rearranged lo' hi' c c' := by
  obtain ⟨σ, hσ, rfl⟩ := h₁
  exact ⟨σ, fun i hi => hσ i (by omega), rfl⟩

theorem outside (h₁ : Rearranged lo hi c c') (hi' : ¬(lo ≤ i ∧ i < hi)) : c' i = c i := by
  obtain ⟨σ, hσ, rfl⟩ := h₁
  exact congrArg c (hσ i hi')

/-- A permutation that keeps what is outside of an interval stays in it. -/
theorem inside {σ : Equiv.Perm Nat} (hσ : ∀ i, ¬(lo ≤ i ∧ i < hi) → σ i = i)
    (hi' : lo ≤ i ∧ i < hi) : lo ≤ σ i ∧ σ i < hi := by
  by_contra hout
  have heq : i = σ i := (σ.injective (hσ (σ i) hout)).symm
  exact hout (heq ▸ hi')

theorem symm (h₁ : Rearranged lo hi c c') : Rearranged lo hi c' c := by
  obtain ⟨σ, hσ, rfl⟩ := h₁
  refine ⟨σ.symm, fun i hi => ?_, ?_⟩
  · rw [Equiv.symm_apply_eq, hσ i hi]
  · rw [Function.comp_assoc, Equiv.self_comp_symm, Function.comp_id]

/-- What all cells of the interval have in common, they keep. -/
theorem forall_mem {P : α → Prop} (h₁ : Rearranged lo hi c c') (hP : ∀ i, lo ≤ i → i < hi → P (c i)) :
    ∀ i, lo ≤ i → i < hi → P (c' i) := by
  obtain ⟨σ, hσ, rfl⟩ := h₁
  intro i hlo hhi
  have hin := inside hσ ⟨hlo, hhi⟩
  exact hP _ hin.1 hin.2

/-- The cells of the interval are the same ones in some order. -/
theorem perm (h₁ : Rearranged lo hi c c') :
    ((List.range' lo (hi - lo)).map c').Perm ((List.range' lo (hi - lo)).map c) := by
  obtain ⟨σ, hσ, rfl⟩ := h₁
  rw [← List.map_map]
  refine List.Perm.map c ?_
  rw [List.perm_ext_iff_of_nodup (List.Nodup.map σ.injective List.nodup_range') List.nodup_range']
  intro i
  have hmem : ∀ j, j ∈ List.range' lo (hi - lo) ↔ lo ≤ j ∧ j < hi := by
    intro j
    rw [List.mem_range'_1]
    omega
  rw [List.mem_map, hmem]
  constructor
  · rintro ⟨j, hj, rfl⟩
    exact inside hσ ((hmem j).mp hj)
  · intro hi'
    have hinv : ∀ j, ¬(lo ≤ j ∧ j < hi) → σ.symm j = j := fun j hj => by
      rw [Equiv.symm_apply_eq, hσ j hj]
    exact ⟨σ.symm i, (hmem _).mpr (inside hinv hi'), σ.apply_symm_apply i⟩

/-- Two cells are exchanged. -/
theorem swap (hh : lo ≤ h ∧ h < hi) (hk : lo ≤ k ∧ k < hi) :
    Rearranged lo hi c (Function.update (Function.update c h (c k)) k (c h)) := by
  refine ⟨Equiv.swap h k, fun i hi' => Equiv.swap_apply_of_ne_of_ne ?_ ?_, ?_⟩
  · rintro rfl
    exact hi' hh
  · rintro rfl
    exact hi' hk
  · funext i
    rcases eq_or_ne i k with rfl | hik
    · simp
    rcases eq_or_ne i h with rfl | hih
    · simp [hik]
    · simp [hik, hih, Equiv.swap_apply_of_ne_of_ne hih hik]

/-- The cell `k` moves into a hole, and leaves one. -/
theorem move (hh : lo ≤ h ∧ h < hi) (hk : lo ≤ k ∧ k < hi) :
    Rearranged lo hi (Function.update c h v) (Function.update (Function.update c h (c k)) k v) := by
  rcases eq_or_ne h k with rfl | hne
  · simpa using refl
  · have hswap : Rearranged lo hi (Function.update c h v) _ := swap hh hk
    simpa [hne.symm] using hswap

end Rearranged

end Rtfsc.Machine
