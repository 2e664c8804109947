import Rtfsc.Machine.Outcome

/-!
# Bitmaps in 64-bit words

A bitmap is a list of words. Bit `pos` is bit `pos % 64` of word `pos / 64`. The lemmas relate the
word operations a program uses (shift, mask, or, find first zero) to the set of positions whose bit
is set.
-/

namespace Rtfsc.Machine

/-- The mask `1 << bit`. -/
def bitMask (bit : UInt64) : UInt64 := 1 <<< bit

theorem testBit_bitMask {bit : UInt64} (h : bit.toNat < 64) (i : Nat) :
    (bitMask bit).toNat.testBit i = decide (bit.toNat = i) := by
  have hp : 2 ^ bit.toNat < 2 ^ 64 := Nat.pow_lt_pow_right (by decide) h
  have hm : (bitMask bit).toNat = 2 ^ bit.toNat := by
    simp only [bitMask, UInt64.toNat_shiftLeft, UInt64.toNat_one, Nat.mod_eq_of_lt h,
      Nat.shiftLeft_eq, Nat.one_mul]
    exact Nat.mod_eq_of_lt hp
  rw [hm, Nat.testBit_two_pow]

/-- `(w & (1 << bit)) == 0` tests the bit. -/
theorem and_bitMask_eq_zero {w bit : UInt64} (h : bit.toNat < 64) :
    (w &&& bitMask bit = 0) ↔ w.toNat.testBit bit.toNat = false := by
  rw [← UInt64.toNat_inj, UInt64.toNat_and, UInt64.toNat_zero]
  constructor
  · intro h0
    have hb := congrArg (fun n => n.testBit bit.toNat) h0
    simpa [Nat.testBit_and, testBit_bitMask h] using hb
  · intro hb
    apply Nat.eq_of_testBit_eq
    intro i
    rw [Nat.testBit_and, testBit_bitMask h, Nat.zero_testBit]
    by_cases hi : bit.toNat = i
    · subst hi
      simp [hb]
    · simp [hi]

/-- Bit `pos` of the bitmap; a position past the last word reads as clear. -/
def testBit (ws : List UInt64) (pos : Nat) : Bool :=
  (ws.getD (pos / 64) 0).toNat.testBit (pos % 64)

/-- The bitmap with bit `pos` set. -/
def setBit (ws : List UInt64) (pos : Nat) : List UInt64 :=
  ws.set (pos / 64) (ws.getD (pos / 64) 0 ||| bitMask (UInt64.ofNat (pos % 64)))

@[simp] theorem length_setBit (ws : List UInt64) (pos : Nat) :
    (setBit ws pos).length = ws.length := by
  simp [setBit]

theorem toNat_ofNat_mod64 (pos : Nat) : (UInt64.ofNat (pos % 64)).toNat = pos % 64 := by
  rw [UInt64.toNat_ofNat']
  omega

theorem testBit_setBit {ws : List UInt64} {pos : Nat} (h : pos / 64 < ws.length) (i : Nat) :
    testBit (setBit ws pos) i = (testBit ws i || decide (pos = i)) := by
  unfold testBit setBit
  have hlt : (UInt64.ofNat (pos % 64)).toNat < 64 := by
    rw [toNat_ofNat_mod64]
    omega
  by_cases hw : pos / 64 = i / 64
  · have hget : (ws.set (pos / 64) (ws.getD (pos / 64) 0 |||
        bitMask (UInt64.ofNat (pos % 64)))).getD (i / 64) 0 =
        (ws.getD (i / 64) 0 ||| bitMask (UInt64.ofNat (pos % 64))) := by
      rw [← hw]
      simp [List.getD_eq_getElem?_getD, h]
    have hbit : (pos % 64 = i % 64) ↔ pos = i := by omega
    rw [hget, UInt64.toNat_or, Nat.testBit_or, testBit_bitMask hlt, toNat_ofNat_mod64]
    simp [hbit]
  · have hget : (ws.set (pos / 64) (ws.getD (pos / 64) 0 |||
        bitMask (UInt64.ofNat (pos % 64)))).getD (i / 64) 0 = ws.getD (i / 64) 0 := by
      simp [List.getD_eq_getElem?_getD, hw]
    have hne : pos ≠ i := fun he => hw (by rw [he])
    rw [hget]
    simp [hne]

theorem testBit_replicate_zero (n pos : Nat) :
    testBit (List.replicate n 0) pos = false := by
  unfold testBit
  have hz : (List.replicate n (0 : UInt64)).getD (pos / 64) 0 = 0 := by
    simp only [List.getD_eq_getElem?_getD, List.getElem?_replicate]
    split <;> rfl
  rw [hz]
  simp

/-- Find first zero: the lowest clear bit of a word, 64 when there is none. -/
def ffz (w : UInt64) : Nat :=
  ((List.range 64).find? fun i => !w.toNat.testBit i).getD 64

/-- A word with a clear bit: `ffz` finds it. -/
theorem ffz_spec {w : UInt64} (h : w ≠ -1) : ffz w < 64 ∧ w.toNat.testBit (ffz w) = false := by
  unfold ffz
  cases hf : (List.range 64).find? fun i => !w.toNat.testBit i with
  | some i =>
    have hm := List.mem_of_find?_eq_some hf
    have hp := List.find?_some hf
    simp only [Bool.not_eq_eq_eq_not, Bool.not_true] at hp
    exact ⟨List.mem_range.mp hm, hp⟩
  | none =>
    refine absurd ?_ h
    rw [List.find?_eq_none] at hf
    apply UInt64.toNat_inj.mp
    apply Nat.eq_of_testBit_eq
    intro i
    have hall : (-1 : UInt64).toNat = 2 ^ 64 - 1 := rfl
    rw [hall, Nat.testBit_two_pow_sub_one]
    by_cases hi : i < 64
    · simpa [hi] using hf i (List.mem_range.mpr hi)
    · have hw := UInt64.toNat_lt w
      have hlt : w.toNat < 2 ^ i := by
        have := Nat.pow_le_pow_right (show 0 < 2 by decide) (show 64 ≤ i by omega)
        omega
      simp [hi, Nat.testBit_lt_two_pow hlt]

end Rtfsc.Machine
