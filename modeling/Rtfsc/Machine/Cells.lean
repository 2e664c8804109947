import Mathlib.Algebra.BigOperators.Group.Finset.Basic
import Mathlib.Algebra.Order.BigOperators.Group.Finset
import Mathlib.Data.Nat.Bitwise
import Mathlib.Order.Interval.Finset.Nat
import Mathlib.Data.Set.Disjoint
import Mathlib.Order.CompletePartialOrder
import Mathlib.Tactic.Ring

/-!
# Memory laid out in cells

Intervals of addresses made of cells of one size: when two of them are disjoint, how many fit in an
interval, and what masking the low bits of an address does to it.
-/

namespace Rtfsc.Machine

/-- Two runs of cells of size `m`, laid out from `p` on, are disjoint when they have no cell in
common. -/
theorem disjoint_cells {m p a b k l : Nat} (h : ∀ i < k, ∀ j < l, a + i ≠ b + j) :
    Disjoint (Set.Ico (a * m + p) (a * m + p + k * m))
      (Set.Ico (b * m + p) (b * m + p + l * m)) := by
  rw [Set.disjoint_left]
  rintro x ⟨hax, hxk⟩ ⟨hbx, hxl⟩
  have hm : 0 < m := by
    rcases Nat.eq_zero_or_pos m with rfl | hm
    · omega
    · exact hm
  -- the number of the cell of `x` is the same in both runs
  have hcell : ∀ c n, c * m + p ≤ x → x < c * m + p + n * m →
      (x - p) / m - c < n ∧ c + ((x - p) / m - c) = (x - p) / m := by
    intro c n hlo hhi
    have hge : c ≤ (x - p) / m := (Nat.le_div_iff_mul_le hm).mpr (by omega)
    have hlt : (x - p) / m < c + n := by
      rw [Nat.div_lt_iff_lt_mul hm, Nat.add_mul]
      omega
    omega
  obtain ⟨hi, hia⟩ := hcell a k hax hxk
  obtain ⟨hj, hjb⟩ := hcell b l hbx hxl
  exact h _ hi _ hj (hia.trans hjb.symm)

/-- Disjoint intervals of length `m` inside one of length `s` are together at most `s` long. -/
theorem mul_le_of_disjoint {n m a s : Nat} {start : Nat → Nat}
    (hdisj : ∀ i < n, ∀ j < n, i ≠ j →
      Disjoint (Set.Ico (start i) (start i + m)) (Set.Ico (start j) (start j + m)))
    (hin : ∀ i < n, Set.Ico (start i) (start i + m) ⊆ Set.Ico a (a + s)) : n * m ≤ s := by
  have hsub : (Finset.range n).biUnion (fun i => Finset.Ico (start i) (start i + m)) ⊆
      Finset.Ico a (a + s) := by
    intro x hx
    obtain ⟨i, hi, hx⟩ := Finset.mem_biUnion.mp hx
    exact Finset.mem_Ico.mpr (hin i (Finset.mem_range.mp hi) (Finset.mem_Ico.mp hx))
  have hcard := Finset.card_le_card hsub
  rw [Finset.card_biUnion] at hcard
  · simpa using hcard
  · intro i hi j hj hij
    have hset := hdisj i (Finset.mem_range.mp hi) j (Finset.mem_range.mp hj) hij
    show Disjoint (Finset.Ico _ _) (Finset.Ico _ _)
    rw [← Finset.disjoint_coe, Finset.coe_Ico, Finset.coe_Ico]
    exact hset

/-- Clearing the `k` low bits of a number of `w` bits rounds it down. -/
theorem and_highMask {x w k : Nat} (hx : x < 2 ^ w) (hk : k ≤ w) :
    x &&& (2 ^ w - 2 ^ k) = x / 2 ^ k * 2 ^ k := by
  have hmask : 2 ^ w - 2 ^ k = (2 ^ (w - k) - 1) * 2 ^ k := by
    rw [Nat.sub_mul, ← Nat.pow_add, Nat.sub_add_cancel hk, Nat.one_mul]
  apply Nat.eq_of_testBit_eq
  intro j
  rw [Nat.testBit_and, hmask, Nat.testBit_mul_two_pow, Nat.testBit_mul_two_pow,
    Nat.testBit_two_pow_sub_one, Nat.testBit_div_two_pow]
  rcases Nat.lt_or_ge j k with hj | hj
  · simp [Nat.not_le.mpr hj]
  · rw [Nat.sub_add_cancel hj]
    rcases Nat.lt_or_ge j w with hw | hw
    · have hlt : j - k < w - k := by omega
      simp [hj, hlt]
    · simp [Nat.testBit_lt_two_pow (lt_of_lt_of_le hx (Nat.pow_le_pow_right (by decide) hw))]

/-- `x & ~(m - 1)` for a power of two `m`, in 64 bits. -/
theorem toNat_and_not64 {x m : UInt64} {k : Nat} (hm : m.toNat = 2 ^ k) :
    (x &&& ~~~(m - 1)).toNat = x.toNat / 2 ^ k * 2 ^ k := by
  have hlt := UInt64.toNat_lt m
  have hk : k < 64 := by
    rw [hm] at hlt
    exact (Nat.pow_lt_pow_iff_right (by decide)).mp hlt
  have hpos : 0 < 2 ^ k := Nat.two_pow_pos k
  have h1 : (1 : UInt64).toNat = 1 := rfl
  have hsub : (m - 1).toNat = 2 ^ k - 1 := by
    rw [UInt64.toNat_sub, h1, hm]
    omega
  have hnot : (~~~(m - 1)).toNat = 2 ^ 64 - 2 ^ k := by
    rw [UInt64.toNat_not, hsub, UInt64.size]
    omega
  rw [UInt64.toNat_and, hnot, and_highMask (UInt64.toNat_lt x) (le_of_lt hk)]

end Rtfsc.Machine
