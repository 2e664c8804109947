import Mathlib.Algebra.BigOperators.Group.List.Basic
import Mathlib.Algebra.Field.Basic
import Mathlib.Data.Nat.Cast.Basic
import Mathlib.Order.Bounds.Basic
import Mathlib.Order.OrderDual
import Mathlib.Tactic.FieldSimp
import Mathlib.Tactic.Ring

/-!
# Running statistics

The extremes that are kept up to date sample after sample, and the squared deviations from the running
sums.
-/

namespace Rtfsc.Machine

/-! ## Extremes -/

section Extremes

variable {α : Type} [LinearOrder α] {m : α} {xs : List α}

def runningMin (m x : α) : α := if x < m then x else m

def runningMax (m x : α) : α := if x > m then x else m

theorem foldl_runningMin_isLeast (m : α) (xs : List α) :
    IsLeast {x | x ∈ m :: xs} (xs.foldl runningMin m) := by
  induction xs generalizing m with
  | nil => exact ⟨List.mem_singleton_self m, fun x hx => (List.mem_singleton.mp hx).ge⟩
  | cons y xs ih =>
    obtain ⟨hmem, hle⟩ := ih (runningMin m y)
    have hhead : xs.foldl runningMin (runningMin m y) ≤ runningMin m y := hle List.mem_cons_self
    have hboth : runningMin m y ≤ m ∧ runningMin m y ≤ y := by
      unfold runningMin
      split
      · rename_i hlt
        exact ⟨hlt.le, le_refl y⟩
      · rename_i hlt
        exact ⟨le_refl m, not_lt.mp hlt⟩
    constructor
    · rcases List.mem_cons.mp hmem with heq | hxs
      · rw [Set.mem_ofPred_eq, List.foldl_cons, heq]
        unfold runningMin
        split
        · exact .tail _ List.mem_cons_self
        · exact List.mem_cons_self
      · exact .tail _ (.tail _ hxs)
    · rintro x (_ | ⟨_, _ | ⟨_, hx⟩⟩)
      · exact hhead.trans hboth.1
      · exact hhead.trans hboth.2
      · exact hle (.tail _ hx)

/-- A first value that is above all samples does not count, once there is a sample. -/
theorem isLeast_foldl (hne : xs ≠ []) (htop : ∀ x ∈ xs, x ≤ m) :
    IsLeast {x | x ∈ xs} (xs.foldl runningMin m) := by
  obtain ⟨hmem, hle⟩ := foldl_runningMin_isLeast m xs
  obtain ⟨y, hy⟩ := List.exists_mem_of_ne_nil xs hne
  refine ⟨?_, fun x hx => hle (.tail _ hx)⟩
  rcases List.mem_cons.mp hmem with heq | hxs
  · have hy' : y = xs.foldl runningMin m := le_antisymm ((htop y hy).trans_eq heq.symm) (hle (.tail _ hy))
    rw [Set.mem_ofPred_eq, ← hy']
    exact hy
  · exact hxs

theorem isGreatest_foldl (hne : xs ≠ []) (hbot : ∀ x ∈ xs, m ≤ x) :
    IsGreatest {x | x ∈ xs} (xs.foldl runningMax m) :=
  isLeast_foldl (α := αᵒᵈ) hne hbot

end Extremes

/-! ## Deviations -/

section Deviations

variable {K : Type} [Field K] {xs : List K}

theorem sum_sq_sub (c : K) (xs : List K) : (xs.map fun x => (x - c) ^ 2).sum =
    (xs.map fun x => x ^ 2).sum - 2 * c * xs.sum + xs.length * c ^ 2 := by
  induction xs with
  | nil => simp
  | cons x xs ih =>
    simp only [List.map_cons, List.sum_cons, List.length_cons, Nat.cast_succ, ih]
    ring

/-- The squared deviations from the mean, from the sum of the squares. -/
theorem sum_sq_sub_mean (hlen : (xs.length : K) ≠ 0) :
    (xs.map fun x => (x - xs.sum / xs.length) ^ 2).sum =
      (xs.map fun x => x ^ 2).sum - xs.length * (xs.sum / xs.length) ^ 2 := by
  rw [sum_sq_sub]
  field_simp
  ring

end Deviations

end Rtfsc.Machine
