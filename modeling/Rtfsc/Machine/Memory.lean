import Mathlib.Algebra.GroupWithZero.Nat
import Mathlib.Data.Nat.Basic
import Mathlib.Logic.Function.Basic

/-!
# Memory of bytes

A memory is a byte for each address. Words are stored in it byte after byte, the low byte first; what
is stored can be loaded again, and a load only depends on the bytes of its word.
-/

namespace Rtfsc.Machine

/-- A byte for each address. -/
abbrev Memory := Nat → UInt8

namespace Memory

/-- The number in the `n` bytes at `a`. -/
def load (m : Memory) (a : Nat) : Nat → Nat
  | 0 => 0
  | n + 1 => (m a).toNat + 256 * m.load (a + 1) n

/-- `v` is written to the `n` bytes at `a`. -/
def store (m : Memory) (a v : Nat) : Nat → Memory
  | 0 => m
  | n + 1 => store (Function.update m a (UInt8.ofNat v)) (a + 1) (v / 256) n

/-- `memcpy`. -/
def copy (m : Memory) (dst src len : Nat) : Memory := fun b =>
  if dst ≤ b ∧ b < dst + len then m (src + (b - dst)) else m b

variable {m m' : Memory} {a b v n : Nat}

theorem store_outside (h : b < a ∨ a + n ≤ b) : m.store a v n b = m b := by
  induction n generalizing m a v with
  | zero => rfl
  | succ n ih =>
    have hne : b ≠ a := by
      rcases h with h | h
      · exact Nat.ne_of_lt h
      · rintro rfl
        exact absurd h (Nat.not_le.mpr (Nat.lt_add_of_pos_right (Nat.succ_pos n)))
    rw [store, ih, Function.update_of_ne hne]
    rcases h with h | h
    · exact .inl (Nat.lt_succ_of_lt h)
    · exact .inr (by rwa [Nat.add_right_comm])

theorem copy_outside {dst src len : Nat} (h : b < dst ∨ dst + len ≤ b) :
    m.copy dst src len b = m b := by
  refine if_neg fun hin => ?_
  rcases h with h | h
  · exact absurd hin.1 (Nat.not_le.mpr h)
  · exact absurd hin.2 (Nat.not_lt.mpr h)

theorem load_congr (h : ∀ b, a ≤ b → b < a + n → m' b = m b) : m'.load a n = m.load a n := by
  induction n generalizing a with
  | zero => rfl
  | succ n ih =>
    have hhere := h a (Nat.le_refl a) (Nat.lt_add_of_pos_right (Nat.succ_pos n))
    have hrest : m'.load (a + 1) n = m.load (a + 1) n := by
      refine ih fun b hle hlt => h b (Nat.le_of_succ_le hle) ?_
      rwa [Nat.add_right_comm] at hlt
    rw [load, load, hhere, hrest]

/-- What is stored can be loaded again. -/
theorem load_store (h : v < 256 ^ n) : (m.store a v n).load a n = v := by
  induction n generalizing m a v with
  | zero => exact (Nat.lt_one_iff.mp h).symm
  | succ n ih =>
    have hlow : m.store a v (n + 1) a = UInt8.ofNat v := by
      rw [store, store_outside (.inl (Nat.lt_succ_self a)), Function.update_self]
    have hhigh : (m.store a v (n + 1)).load (a + 1) n = v / 256 := by
      rw [store]
      refine ih (Nat.div_lt_of_lt_mul ?_)
      rwa [Nat.pow_succ, Nat.mul_comm] at h
    rw [load, hlow, hhigh, UInt8.toNat_ofNat']
    exact Nat.mod_add_div v 256

end Memory

end Rtfsc.Machine
