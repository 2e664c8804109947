import Mathlib.Data.List.Basic
import Mathlib.Algebra.Group.Nat.Defs
import Mathlib.Data.Nat.Bitwise
import Mathlib.Logic.Function.Basic

/-!
# Order by wrapping subtraction

Counters that wrap around are compared by the sign of their difference. The comparison is an order as
long as all the counters lie in a window of half the range: it then is the order of their distances
from the beginning of the window.
-/

namespace Rtfsc.Machine

variable {w : Nat} {base a b c : BitVec w}

/-- `a` comes before `b` by the sign of their difference. -/
def serialBefore (a b : BitVec w) : Bool :=
  (a - b).toInt < 0

/-- `a` lies in the window of half the range that begins at `base`. -/
def InWindow (base a : BitVec w) : Prop :=
  2 * (a - base).toNat < 2 ^ w

instance : Decidable (InWindow base a) :=
  inferInstanceAs (Decidable (_ < _))

/-- Within a window the difference is that of the distances from its beginning. -/
theorem InWindow.toInt_sub (ha : InWindow base a) (hb : InWindow base b) :
    (a - b).toInt = ((a - base).toNat : Int) - (b - base).toNat := by
  have hab : a - b = (a - base) - (b - base) := by grind
  unfold InWindow at ha hb
  rw [hab, BitVec.toInt_sub, BitVec.toInt_eq_toNat_of_lt ha, BitVec.toInt_eq_toNat_of_lt hb]
  apply Int.bmod_eq_of_le_mul_two <;> omega

theorem InWindow.serialBefore_iff (ha : InWindow base a) (hb : InWindow base b) :
    serialBefore a b = true ↔ (a - base).toNat < (b - base).toNat := by
  rw [serialBefore, decide_eq_true_iff, ha.toInt_sub hb]
  omega

/-- Within a window, two advances in a row are an advance. -/
theorem InWindow.toInt_sub_nonneg_trans (ha : InWindow base a) (hb : InWindow base b)
    (hc : InWindow base c) (hab : 0 ≤ (b - a).toInt) (hbc : 0 ≤ (c - b).toInt) :
    0 ≤ (c - a).toInt := by
  rw [hb.toInt_sub ha] at hab
  rw [hc.toInt_sub hb] at hbc
  rw [hc.toInt_sub ha]
  omega

/-!
## Slots in a ring

An array whose size is a power of two is used as a ring: the slot after `i` is found by masking. The
slots in use are listed from the first one on.
-/

variable {α : Type} {size i n : Nat} {slot : Nat → α}

/-- The `n` slots of a ring from `i` on. -/
def ringSlots (size : Nat) (slot : Nat → α) : Nat → Nat → List α
  | _, 0 => []
  | i, n + 1 => slot i :: ringSlots size slot ((i + 1) &&& (size - 1)) n

@[simp] theorem ringSlots_zero : ringSlots size slot i 0 = [] :=
  rfl

@[simp] theorem length_ringSlots : (ringSlots size slot i n).length = n := by
  induction n generalizing i with
  | zero => rfl
  | succ n ih => rw [ringSlots, List.length_cons, ih]

/-- Masking is taking the remainder. -/
theorem and_size_sub_one (hsize : ∃ k, size = 2 ^ k) (i : Nat) : i &&& (size - 1) = i % size := by
  obtain ⟨k, rfl⟩ := hsize
  exact Nat.and_two_pow_sub_one_eq_mod i k

theorem ringSlots_eq_map (hsize : ∃ k, size = 2 ^ k) (hi : i < size) :
    ringSlots size slot i n = (List.range n).map fun j => slot ((i + j) % size) := by
  induction n generalizing i with
  | zero => rfl
  | succ n ih =>
    have hmod : (i + 1) % size < size := Nat.mod_lt _ (Nat.zero_lt_of_lt hi)
    have hfirst : (i + 0) % size = i := Nat.mod_eq_of_lt hi
    rw [ringSlots, and_size_sub_one hsize, ih hmod, List.range_succ_eq_map, List.map_cons, hfirst,
      List.map_map]
    refine congrArg (slot i :: ·) (List.map_congr_left fun j _ => ?_)
    rw [Function.comp_apply, Nat.mod_add_mod, Nat.add_assoc, Nat.add_comm 1 j]

/-- Going round from `i`, one does not come back to `i` before all slots have been passed. -/
theorem add_mod_ne (hi : i < size) {j : Nat} (hj : 0 < j) (hjs : j < size) : (i + j) % size ≠ i := by
  rcases Nat.lt_or_ge (i + j) size with hlt | hge
  · rw [Nat.mod_eq_of_lt hlt]
    omega
  · rw [Nat.mod_eq_sub_mod hge, Nat.mod_eq_of_lt (by omega)]
    omega

/-- A change to the first slot in use does not reach the others. -/
theorem ringSlots_update (hsize : ∃ k, size = 2 ^ k) (hi : i < size) (hn : n < size) (a : α) :
    ringSlots size (Function.update slot i a) ((i + 1) &&& (size - 1)) n =
      ringSlots size slot ((i + 1) &&& (size - 1)) n := by
  have hmod : (i + 1) % size < size := Nat.mod_lt _ (Nat.zero_lt_of_lt hi)
  rw [and_size_sub_one hsize, ringSlots_eq_map hsize hmod, ringSlots_eq_map hsize hmod]
  refine List.map_congr_left fun j hj => Function.update_of_ne ?_ ..
  rw [Nat.mod_add_mod, Nat.add_assoc]
  have hjn := List.mem_range.1 hj
  exact add_mod_ne hi (by omega) (by omega)

end Rtfsc.Machine
