import Rtfsc.Linux.CfsRq
import Rtfsc.Machine.Rounding

/-!
# The scaled time of CFS

`__calc_delta` divides by a weight with the reciprocal that `__update_inv_weight` keeps, in one
multiplication and one shift. What it hands to `mul_u64_u32_shr` is followed through its two loops.
-/

namespace Rtfsc.Linux

open Rtfsc.Machine

/-- The `fact` and `shift` with which `__calc_delta` calls `mul_u64_u32_shr`. -/
def calcDeltaArgs (p : SchedParams) (weight : BitVec 64) (lw : LoadWeight) : BitVec 64 × Int :=
  let lw := updateInvWeight p lw
  let (fact, shift) := narrowFact 32 (scaleLoadDown p weight) p.wmultShift
  narrowFact 32 ((fact.setWidth 32).setWidth 64 * lw.invWeight.setWidth 64) shift

variable {p : SchedParams} {delta weight fact : BitVec 64} {lw : LoadWeight} {shift : Int}

theorem calcDelta_fst :
    (calcDelta p delta weight lw).1 =
      p.mulU64U32Shr delta ((calcDeltaArgs p weight lw).1.setWidth 32)
        (calcDeltaArgs p weight lw).2 :=
  rfl

/-- The loop drops bits one by one, and none of a factor that fits. -/
theorem narrowFact_isCut (n : Nat) (fact : BitVec 64) (shift : Int) :
    ∃ k, IsCut (2 ^ 31) fact.toNat k (narrowFact n fact shift).1.toNat ∧
      (narrowFact n fact shift).2 = shift - k := by
  induction n generalizing fact shift with
  | zero => exact ⟨0, ⟨(Nat.div_one _).symm, .inl rfl⟩, (sub_zero shift).symm⟩
  | succ n ih =>
    rw [narrowFact]
    split
    · next hfact =>
      obtain ⟨k, hcut, hshift⟩ := ih (fact >>> 1) (shift - 1)
      have hhalf : (fact >>> 1).toNat = fact.toNat / 2 := by
        rw [BitVec.toNat_ushiftRight, Nat.shiftRight_eq_div_pow, pow_one]
      have hlarge : 2 ^ 32 ≤ fact.toNat := by
        by_contra hlt
        apply hfact
        rw [← BitVec.toNat_inj, BitVec.toNat_ushiftRight, Nat.shiftRight_eq_div_pow]
        exact Nat.div_eq_of_lt (Nat.not_le.1 hlt)
      have heq : (narrowFact n (fact >>> 1) (shift - 1)).1.toNat = fact.toNat / 2 ^ (k + 1) := by
        rw [hcut.eq, hhalf, Nat.div_div_eq_div_mul, pow_succ']
      refine ⟨k + 1, ⟨heq, .inr ?_⟩, by rw [hshift]; push_cast; ring⟩
      obtain rfl | hkeeps := hcut.keeps
      · rw [heq, pow_one]
        omega
      · exact hkeeps
    · exact ⟨0, ⟨(Nat.div_one _).symm, .inl rfl⟩, (sub_zero shift).symm⟩

/-- A factor that fits is left as it is. -/
theorem narrowFact_of_lt {n : Nat} (h : fact.toNat < 2 ^ 32) :
    narrowFact n fact shift = (fact, shift) := by
  have hz : ¬fact >>> 32 ≠ 0 := by
    rw [not_not, ← BitVec.toNat_inj, BitVec.toNat_ushiftRight, Nat.shiftRight_eq_div_pow]
    exact Nat.div_eq_of_lt h
  cases n with
  | zero => rfl
  | succ n => exact if_neg hz

/-- The inverse of a weight that is not cached and not too large is its reciprocal. -/
theorem updateInvWeight_isReciprocal (hconst : p.wmultConst = 0xffffffff) (hinv : lw.invWeight = 0)
    (hpos : 1 ≤ (scaleLoadDown p lw.weight).toNat)
    (hlt : (scaleLoadDown p lw.weight).toNat < 2 ^ 32) :
    IsReciprocal 32 (scaleLoadDown p lw.weight).toNat (updateInvWeight p lw).invWeight.toNat := by
  suffices h : (updateInvWeight p lw).invWeight.toNat =
      (2 ^ 32 - 1) / (scaleLoadDown p lw.weight).toNat from h ▸ isReciprocal_div hpos
  rw [updateInvWeight, if_neg (not_not.2 hinv), hconst]
  dsimp only
  split
  · next hle =>
    have hW : (scaleLoadDown p lw.weight).toNat = 2 ^ 32 - 1 := by
      have hle' : 2 ^ 32 - 1 ≤ (scaleLoadDown p lw.weight).toNat := hle
      omega
    rw [hW]
    rfl
  · split
    · next hz => simp [hz] at hpos
    · have hsmall : (2 ^ 32 - 1) / (scaleLoadDown p lw.weight).toNat < 2 ^ 32 :=
        (Nat.div_le_self _ _).trans_lt (by decide)
      rw [BitVec.toNat_setWidth, BitVec.toNat_udiv]
      exact Nat.mod_eq_of_lt hsmall

/-- The scaled weight is cut by at most ten bits. -/
theorem calcDeltaArgs_spec (hconst : p.wmultConst = 0xffffffff) (hshift : p.wmultShift = 32)
    (hinv : lw.invWeight = 0) (hpos : 1 ≤ (scaleLoadDown p lw.weight).toNat)
    (hlt : (scaleLoadDown p lw.weight).toNat < 2 ^ 32)
    (hweight : (scaleLoadDown p weight).toNat = 1024 ∨
      (scaleLoadDown p weight).toNat ≤ (scaleLoadDown p lw.weight).toNat) :
    ∃ k ≤ 10, IsCut (2 ^ 31)
        ((scaleLoadDown p weight).toNat * (updateInvWeight p lw).invWeight.toNat) k
        (calcDeltaArgs p weight lw).1.toNat ∧
      (calcDeltaArgs p weight lw).1.toNat < 2 ^ 32 ∧ (calcDeltaArgs p weight lw).2 = 32 - k := by
  have hrecip := updateInvWeight_isReciprocal hconst hinv hpos hlt
  have hfits : (scaleLoadDown p weight).toNat < 2 ^ 32 := by omega
  have hinvLt := (updateInvWeight p lw).invWeight.isLt
  have hprod : (scaleLoadDown p weight).toNat * (updateInvWeight p lw).invWeight.toNat
      < 2 ^ 42 := by
    obtain hw | hw := hweight
    · rw [hw]
      omega
    · calc (scaleLoadDown p weight).toNat * (updateInvWeight p lw).invWeight.toNat
          ≤ (scaleLoadDown p lw.weight).toNat * (updateInvWeight p lw).invWeight.toNat :=
            Nat.mul_le_mul_right _ hw
        _ ≤ 2 ^ 32 := hrecip.le
        _ < 2 ^ 42 := by decide
  have hfact : (((scaleLoadDown p weight).setWidth 32).setWidth 64 *
      (updateInvWeight p lw).invWeight.setWidth 64).toNat =
        (scaleLoadDown p weight).toNat * (updateInvWeight p lw).invWeight.toNat := by
    rw [BitVec.toNat_mul, BitVec.toNat_setWidth, BitVec.toNat_setWidth, BitVec.toNat_setWidth,
      Nat.mod_eq_of_lt hfits, Nat.mod_eq_of_lt (hfits.trans (by decide)),
      Nat.mod_eq_of_lt (hinvLt.trans (by decide)), Nat.mod_eq_of_lt (hprod.trans (by decide))]
  have hargs : calcDeltaArgs p weight lw =
      narrowFact 32 (((scaleLoadDown p weight).setWidth 32).setWidth 64 *
        (updateInvWeight p lw).invWeight.setWidth 64) 32 := by
    rw [calcDeltaArgs, narrowFact_of_lt hfits, hshift]
  obtain ⟨k, hcut, hk⟩ := narrowFact_isCut 32 (((scaleLoadDown p weight).setWidth 32).setWidth 64 *
    (updateInvWeight p lw).invWeight.setWidth 64) 32
  rw [← hargs, hfact] at hcut
  rw [← hargs] at hk
  have hnarrow : (calcDeltaArgs p weight lw).1.toNat < 2 ^ 32 := by
    rw [hargs]
    apply narrowFact_lt
    rw [hfact]
    exact hprod.trans (by decide)
  refine ⟨k, ?_, hcut, hnarrow, hk⟩
  obtain rfl | hkeeps := hcut.keeps
  · exact Nat.zero_le 10
  · by_contra hk10
    have hpow : 2 ^ 11 ≤ 2 ^ k := Nat.pow_le_pow_right (by decide) (by omega)
    have hbig := Nat.mul_le_mul hkeeps hpow
    have hle := Nat.div_mul_le_self
      ((scaleLoadDown p weight).toNat * (updateInvWeight p lw).invWeight.toNat) (2 ^ k)
    rw [← hcut.eq] at hle
    omega

/-- `__calc_delta` of a weight of at most 32 bits whose inverse is not cached, for the weight of the
default or one that is not larger: the factor fits in 32 bits, the shift is between 22 and 32, and the
floor of `delta * fact / 2 ^ shift` is at most `delta * w / W` and falls short of it by at most the part
of `W + 1` in `2 ^ 32` and one in `2 ^ 31`, and one. -/
theorem calcDelta_error (p : SchedParams) (delta weight : BitVec 64) (lw : LoadWeight)
    (hconst : p.wmultConst = 0xffffffff) (hshift : p.wmultShift = 32) (hinv : lw.invWeight = 0)
    (hpos : 1 ≤ (scaleLoadDown p lw.weight).toNat)
    (hlt : (scaleLoadDown p lw.weight).toNat < 2 ^ 32)
    (hweight : (scaleLoadDown p weight).toNat = 1024 ∨
      (scaleLoadDown p weight).toNat ≤ (scaleLoadDown p lw.weight).toNat) :
    ∃ (fact : BitVec 64) (shift : Nat) (r : Nat),
      calcDeltaArgs p weight lw = (fact, (shift : Int)) ∧
      (calcDelta p delta weight lw).1 = p.mulU64U32Shr delta (fact.setWidth 32) shift ∧
      fact.toNat < 2 ^ 32 ∧ 22 ≤ shift ∧ shift ≤ 32 ∧
      r = delta.toNat * fact.toNat / 2 ^ shift ∧
      (r : ℚ) ≤ delta.toNat * (scaleLoadDown p weight).toNat / (scaleLoadDown p lw.weight).toNat ∧
      (delta.toNat * (scaleLoadDown p weight).toNat / (scaleLoadDown p lw.weight).toNat : ℚ) *
          (1 - ((scaleLoadDown p lw.weight).toNat + 1) / 2 ^ 32 - 1 / 2 ^ 31) - 1 < r := by
  have hrecip := updateInvWeight_isReciprocal hconst hinv hpos hlt
  obtain ⟨k, hk, hcut, hfits, hargs⟩ := calcDeltaArgs_spec hconst hshift hinv hpos hlt hweight
  have hshiftEq : (calcDeltaArgs p weight lw).2 = ((32 - k : Nat) : Int) := by omega
  refine ⟨(calcDeltaArgs p weight lw).1, 32 - k, _, Prod.ext rfl hshiftEq, ?_, hfits, by omega,
    Nat.sub_le 32 k, rfl, shifted_le hrecip hcut (by omega) delta.toNat, ?_⟩
  · rw [calcDelta_fst, hshiftEq]
  · refine lt_of_le_of_lt ?_ (lt_shifted hrecip hcut (by omega) (by decide) delta.toNat)
    have hnonneg : (0 : ℚ) ≤ delta.toNat * (scaleLoadDown p weight).toNat /
        (scaleLoadDown p lw.weight).toNat := by positivity
    have hparts : 1 - (((scaleLoadDown p lw.weight).toNat : ℚ) + 1) / 2 ^ 32 - 1 / 2 ^ 31 ≤
        1 - ((scaleLoadDown p lw.weight).toNat : ℚ) / 2 ^ 32 - 1 / ((2 ^ 31 : Nat) : ℚ) := by
      push_cast
      linarith
    exact sub_le_sub_right (mul_le_mul_of_nonneg_left hparts hnonneg) 1

/-- A millisecond of the default weight at the weight of nice 5, which is 335. -/
theorem calcDelta_error_niceFive :
    ∃ r : Nat, (calcDelta ⟨1048576, 0xffffffff, 32, 10, 6, 1, true,
          fun d f n => BitVec.ofNat 64 (d.toNat * f.toNat / 2 ^ n.toNat)⟩
        1000000 1048576 ⟨343040, 0⟩).1 = BitVec.ofNat 64 r ∧
      (r : ℚ) ≤ 1000000 * 1024 / 335 ∧
      (1000000 * 1024 / 335 : ℚ) * (1 - (335 + 1) / 2 ^ 32 - 1 / 2 ^ 31) - 1 < r := by
  obtain ⟨fact, shift, r, -, hcalc, hfits, -, -, hr, hle, hlt⟩ :=
    calcDelta_error ⟨1048576, 0xffffffff, 32, 10, 6, 1, true,
        fun d f n => BitVec.ofNat 64 (d.toNat * f.toNat / 2 ^ n.toNat)⟩
      1000000 1048576 ⟨343040, 0⟩ rfl rfl rfl (by decide) (by decide) (by decide)
  refine ⟨r, ?_, by simpa [scaleLoadDown] using hle, by simpa [scaleLoadDown] using hlt⟩
  rw [hcalc, hr]
  dsimp only
  rw [BitVec.toNat_setWidth, Nat.mod_eq_of_lt hfits, Int.toNat_natCast]

end Rtfsc.Linux
