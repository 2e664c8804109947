import Mathlib.Order.Nat

/-!
# Halving

The search for the first index of a range from which on a predicate is false, where it is true before one
index and false from there on. It halves the range that is left.
-/

namespace Rtfsc.Machine

/-- The search among `len` indices from `first` on. -/
def partitionPoint (less : Nat → Bool) (first len : Nat) : Nat :=
  if len = 0 then first
  else
    let half := len / 2
    if less (first + half) then partitionPoint less (first + half + 1) (len - half - 1)
    else partitionPoint less first half
termination_by len
decreasing_by all_goals omega

/-- The predicate is true before the index that is found and false from there on. -/
theorem partitionPoint_spec (less : Nat → Bool) {bound : Nat}
    (hless : ∀ i j, i ≤ j → j < bound → less j = true → less i = true) (first len : Nat)
    (hbound : first + len ≤ bound) :
    (first ≤ partitionPoint less first len ∧ partitionPoint less first len ≤ first + len) ∧
      (∀ i, first ≤ i → i < partitionPoint less first len → less i = true) ∧
      ∀ i, partitionPoint less first len ≤ i → i < first + len → less i = false := by
  induction first, len using partitionPoint.induct less with
  | case1 first =>
    rw [partitionPoint, if_pos rfl]
    exact ⟨⟨le_rfl, le_rfl⟩, fun i hlo hhi => absurd hhi (Nat.not_lt.2 hlo),
      fun i hlo hhi => absurd hhi (Nat.not_lt.2 hlo)⟩
  | case2 first len hlen half hhalf ih =>
    have hvalue : half = len / 2 := rfl
    have hright : partitionPoint less first len =
        partitionPoint less (first + half + 1) (len - half - 1) := by
      rw [partitionPoint, if_neg hlen]
      exact if_pos hhalf
    rw [hright]
    obtain ⟨⟨hfirst, hlast⟩, hbefore, hfrom⟩ := ih (by omega)
    refine ⟨⟨by omega, by omega⟩, fun i hlo hhi => ?_, fun i hlo hhi => hfrom i hlo (by omega)⟩
    rcases Nat.lt_or_ge (first + half) i with hlt | hge
    · exact hbefore i hlt hhi
    · exact hless i _ hge (by omega) hhalf
  | case3 first len hlen half hhalf ih =>
    have hvalue : half = len / 2 := rfl
    have hleft : partitionPoint less first len = partitionPoint less first half := by
      rw [partitionPoint, if_neg hlen]
      exact if_neg hhalf
    rw [hleft]
    obtain ⟨⟨hfirst, hlast⟩, hbefore, hfrom⟩ := ih (by omega)
    refine ⟨⟨hfirst, by omega⟩, hbefore, fun i hlo hhi => ?_⟩
    rcases Nat.lt_or_ge i (first + half) with hlt | hge
    · exact hfrom i hlo hlt
    · exact Bool.eq_false_iff.2 fun htrue => hhalf (hless _ i hge (by omega) htrue)

end Rtfsc.Machine
