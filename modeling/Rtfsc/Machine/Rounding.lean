import Mathlib.Algebra.Group.Nat.Defs
import Mathlib.Data.Nat.Log
import Mathlib.Algebra.Order.Field.Basic
import Mathlib.Data.Nat.Cast.Order.Field
import Mathlib.Data.Rat.Lemmas
import Mathlib.Tactic.Linarith
import Mathlib.Tactic.FieldSimp
import Mathlib.Tactic.Ring
import Mathlib.Tactic.Positivity

/-!
# Double arithmetic on natural numbers

An IEEE double has 53 significant bits. A product or a sum of naturals is rounded to the nearest
natural with that many significant bits, ties to even; division by a power of two is exact. So an
expression built from these and truncated at the end is a computation on naturals.
-/

namespace Rtfsc.Machine

/-- Round to 53 significant bits, to nearest, ties to even. -/
def roundDouble (n : Nat) : Nat :=
  if n < 2 ^ 53 then n
  else
    let e := Nat.log2 n - 52
    let q := n / 2 ^ e
    let r := n % 2 ^ e
    if r < 2 ^ (e - 1) ∨ (r = 2 ^ (e - 1) ∧ q % 2 = 0) then q * 2 ^ e else (q + 1) * 2 ^ e

/-- Half a unit in the last place of `n` is at most `n / 2 ^ 53`. -/
theorem half_ulp_le {n : Nat} (h : ¬ n < 2 ^ 53) :
    2 ^ (Nat.log2 n - 52) = 2 * 2 ^ (Nat.log2 n - 52 - 1) ∧
      2 ^ (Nat.log2 n - 52 - 1) ≤ n / 2 ^ 53 := by
  have hn : n ≠ 0 := by
    rintro rfl
    exact h (by decide)
  have hlog : 53 ≤ Nat.log2 n := (Nat.le_log2 hn).mpr (not_lt.mp h)
  constructor
  · rw [← Nat.pow_succ']
    congr 1
    omega
  · rw [Nat.le_div_iff_mul_le (by decide), ← Nat.pow_add]
    have he : Nat.log2 n - 52 - 1 + 53 = Nat.log2 n := by omega
    rw [he]
    exact Nat.log2_self_le hn

/-- Rounding up adds at most half a unit in the last place. -/
theorem roundDouble_le (n : Nat) : roundDouble n ≤ n + n / 2 ^ 53 := by
  unfold roundDouble
  split
  · exact Nat.le_add_right _ _
  · next h =>
    obtain ⟨hulp, hhalf⟩ := half_ulp_le h
    have hdm := Nat.div_add_mod n (2 ^ (Nat.log2 n - 52))
    have hr := Nat.mod_lt n (Nat.two_pow_pos (Nat.log2 n - 52))
    dsimp only
    split
    · rw [Nat.mul_comm]
      omega
    · next hup =>
      rw [Nat.add_mul, Nat.one_mul, Nat.mul_comm]
      omega

/-- Rounding down takes away at most half a unit in the last place. -/
theorem le_roundDouble (n : Nat) : n ≤ roundDouble n + n / 2 ^ 53 := by
  unfold roundDouble
  split
  · exact Nat.le_add_right _ _
  · next h =>
    obtain ⟨hulp, hhalf⟩ := half_ulp_le h
    have hdm := Nat.div_add_mod n (2 ^ (Nat.log2 n - 52))
    have hr := Nat.mod_lt n (Nat.two_pow_pos (Nat.log2 n - 52))
    dsimp only
    split
    · next hdown =>
      rw [Nat.mul_comm (n / _)]
      omega
    · rw [Nat.add_mul, Nat.one_mul, Nat.mul_comm]
      omega

/-!
## Division by a rounded reciprocal

A quotient `d * w / W` is computed without a division: `W` is replaced by `inv`, which is `2 ^ b / W`
rounded down, the product `w * inv` is cut to a factor `m` of few digits by dropping `k` of its bits,
and `d * m` is shifted right by `b - k`. Each of the three roundings is down, so the result is never too
large; what it may lack is a part in `h` for the cut, where the factor keeps at least `h`, and a part in
`2 ^ b / W` for the reciprocal.
-/

/-- `inv` is the reciprocal of `W` in units of `2 ^ b`, rounded down or one unit less. -/
structure IsReciprocal (b W inv : Nat) : Prop where
  pos : 0 < W
  le : W * inv ≤ 2 ^ b
  lt : 2 ^ b ≤ W * inv + W

/-- The factor `n` is cut by `k` bits to `m`, which keeps at least `h` if it was cut at all. -/
structure IsCut (h n k m : Nat) : Prop where
  eq : m = n / 2 ^ k
  keeps : k = 0 ∨ h ≤ m

theorem isReciprocal_div {b W : Nat} (hW : 0 < W) : IsReciprocal b W ((2 ^ b - 1) / W) := by
  have hdiv := Nat.div_add_mod (2 ^ b - 1) W
  have hmod := Nat.mod_lt (2 ^ b - 1) hW
  have hpow := Nat.two_pow_pos b
  exact ⟨hW, by omega, by omega⟩

namespace IsReciprocal

variable {b W inv : Nat}

theorem mul_le (r : IsReciprocal b W inv) (w : ℚ) (hw : 0 ≤ w) : w * inv ≤ w / W * 2 ^ b := by
  have hW : (0 : ℚ) < W := by exact_mod_cast r.pos
  have hle : (W : ℚ) * inv ≤ 2 ^ b := by exact_mod_cast r.le
  have hinv : (inv : ℚ) ≤ 2 ^ b / W := (le_div_iff₀ hW).2 (by linarith)
  calc w * inv ≤ w * (2 ^ b / W) := mul_le_mul_of_nonneg_left hinv hw
    _ = w / W * 2 ^ b := by ring

theorem le_mul (r : IsReciprocal b W inv) (w : ℚ) (hw : 0 ≤ w) :
    w / W * (2 ^ b - W) ≤ w * inv := by
  have hW : (0 : ℚ) < W := by exact_mod_cast r.pos
  have hlt : (2 : ℚ) ^ b ≤ W * inv + W := by exact_mod_cast r.lt
  have hinv : (2 ^ b - W) / W ≤ (inv : ℚ) := (div_le_iff₀ hW).2 (by linarith)
  calc w / W * (2 ^ b - W) = w * ((2 ^ b - W) / W) := by ring
    _ ≤ w * inv := mul_le_mul_of_nonneg_left hinv hw

end IsReciprocal

namespace IsCut

variable {h n k m : Nat}

theorem le (c : IsCut h n k m) : (m : ℚ) * 2 ^ k ≤ n := by
  have hle : m * 2 ^ k ≤ n := c.eq ▸ Nat.div_mul_le_self n (2 ^ k)
  exact_mod_cast hle

/-- A cut loses less than one part in `h`. -/
theorem mul_le (c : IsCut h n k m) (hh : 0 < h) : (n : ℚ) * (1 - 1 / h) ≤ m * 2 ^ k := by
  have hhq : (0 : ℚ) < h := by exact_mod_cast hh
  obtain rfl | hm := c.keeps
  · have hn : m = n := by rw [c.eq, pow_zero, Nat.div_one]
    have hpart : (0 : ℚ) ≤ n * (1 / h) := by positivity
    rw [hn, pow_zero, mul_one]
    linarith
  · have hlt : n < (m + 1) * 2 ^ k := by
      rw [c.eq, Nat.mul_comm]
      exact Nat.lt_mul_div_succ n (Nat.two_pow_pos k)
    have hltq : (n : ℚ) ≤ (m + 1) * 2 ^ k := by exact_mod_cast hlt.le
    have hmq : (h : ℚ) ≤ m + 1 := by exact_mod_cast Nat.le_succ_of_le hm
    have hone : 0 ≤ 1 - 1 / (h : ℚ) := by
      rw [sub_nonneg, div_le_one hhq]
      exact_mod_cast hh
    have hkeep : ((m : ℚ) + 1) * (1 - 1 / h) ≤ m := by
      have hpart : 1 ≤ ((m : ℚ) + 1) / h := (one_le_div hhq).2 hmq
      calc ((m : ℚ) + 1) * (1 - 1 / h) = m + 1 - (m + 1) / h := by ring
        _ ≤ m := by linarith
    calc (n : ℚ) * (1 - 1 / h) ≤ (m + 1) * 2 ^ k * (1 - 1 / h) :=
          mul_le_mul_of_nonneg_right hltq hone
      _ = (m + 1) * (1 - 1 / h) * 2 ^ k := by ring
      _ ≤ m * 2 ^ k := mul_le_mul_of_nonneg_right hkeep (by positivity)

end IsCut

section Quotient

variable {b W inv h k m w : Nat}

/-- What is shifted out of `d * m` stands behind the point. -/
theorem mul_div_two_pow (d : Nat) (hk : k ≤ b) :
    (d : ℚ) * m / 2 ^ (b - k) = d * (m * 2 ^ k) / 2 ^ b := by
  have hpow : (2 : ℚ) ^ b = 2 ^ (b - k) * 2 ^ k := by rw [← pow_add, Nat.sub_add_cancel hk]
  rw [hpow, div_eq_div_iff (by positivity) (by positivity)]
  ring

/-- The quotient by a rounded reciprocal is not larger than the quotient. -/
theorem shifted_le (r : IsReciprocal b W inv) (c : IsCut h (w * inv) k m) (hk : k ≤ b) (d : Nat) :
    ((d * m / 2 ^ (b - k) : Nat) : ℚ) ≤ d * w / W := by
  have hfloor : ((d * m / 2 ^ (b - k) : Nat) : ℚ) ≤ d * m / 2 ^ (b - k) := by
    simpa using Nat.cast_div_le (α := ℚ) (m := d * m) (n := 2 ^ (b - k))
  have hcut : (m : ℚ) * 2 ^ k ≤ w * inv := by simpa using c.le
  have hmul := r.mul_le w (Nat.cast_nonneg w)
  have hpow : (0 : ℚ) < 2 ^ b := by positivity
  calc ((d * m / 2 ^ (b - k) : Nat) : ℚ) ≤ d * (m * 2 ^ k) / 2 ^ b :=
        hfloor.trans_eq (mul_div_two_pow d hk)
    _ ≤ d * (w / W * 2 ^ b) / 2 ^ b :=
        div_le_div_of_nonneg_right
          (mul_le_mul_of_nonneg_left (hcut.trans hmul) (Nat.cast_nonneg d)) hpow.le
    _ = d * w / W := by
        rw [← mul_assoc, mul_div_cancel_right₀ _ hpow.ne', mul_div_assoc]

/-- It lacks at most the parts that the cut and the reciprocal take, and one for the last rounding. -/
theorem lt_shifted (r : IsReciprocal b W inv) (c : IsCut h (w * inv) k m) (hk : k ≤ b) (hh : 0 < h)
    (d : Nat) :
    (d : ℚ) * w / W * (1 - W / 2 ^ b - 1 / h) - 1 < ((d * m / 2 ^ (b - k) : Nat) : ℚ) := by
  have hpow : (0 : ℚ) < 2 ^ b := by positivity
  have hhq : (0 : ℚ) < h := by exact_mod_cast hh
  have hone : 0 ≤ 1 - 1 / (h : ℚ) := by
    rw [sub_nonneg, div_le_one hhq]
    exact_mod_cast hh
  have hfloor : (d : ℚ) * m / 2 ^ (b - k) < ((d * m / 2 ^ (b - k) : Nat) : ℚ) + 1 := by
    have hlt : d * m < (d * m / 2 ^ (b - k) + 1) * 2 ^ (b - k) := by
      rw [Nat.mul_comm _ (2 ^ (b - k))]
      exact Nat.lt_mul_div_succ _ (Nat.two_pow_pos _)
    rw [div_lt_iff₀ (by positivity)]
    exact_mod_cast hlt
  have hparts : (1 : ℚ) - W / 2 ^ b - 1 / h ≤ (1 - W / 2 ^ b) * (1 - 1 / h) := by
    have hboth : (0 : ℚ) ≤ W / 2 ^ b * (1 / h) := by positivity
    calc (1 : ℚ) - W / 2 ^ b - 1 / h ≤ 1 - W / 2 ^ b - 1 / h + W / 2 ^ b * (1 / h) := by linarith
      _ = (1 - W / 2 ^ b) * (1 - 1 / h) := by ring
  have hfactor : (w : ℚ) / W * (2 ^ b - W) * (1 - 1 / h) ≤ m * 2 ^ k := by
    have hcut := c.mul_le hh
    rw [Nat.cast_mul] at hcut
    exact (mul_le_mul_of_nonneg_right (r.le_mul w (Nat.cast_nonneg w)) hone).trans hcut
  have hscale : (w : ℚ) / W * (2 ^ b - W) = w / W * (1 - W / 2 ^ b) * 2 ^ b := by
    rw [mul_assoc, sub_mul, div_mul_cancel₀ _ hpow.ne', one_mul]
  calc (d : ℚ) * w / W * (1 - W / 2 ^ b - 1 / h) - 1
      ≤ d * w / W * ((1 - W / 2 ^ b) * (1 - 1 / h)) - 1 := by gcongr
    _ = d * (w / W * (2 ^ b - W) * (1 - 1 / h)) / 2 ^ b - 1 := by
        rw [hscale, eq_comm, sub_left_inj, div_eq_iff hpow.ne']
        ring
    _ ≤ d * (m * 2 ^ k) / 2 ^ b - 1 := by gcongr
    _ = d * m / 2 ^ (b - k) - 1 := by rw [mul_div_two_pow d hk]
    _ < ((d * m / 2 ^ (b - k) : Nat) : ℚ) := by linarith

end Quotient

end Rtfsc.Machine
