import Mathlib.Data.List.Basic

/-!
# Paths through tables of four depths

A root table has `direct` entries for items and three more, for tables of one, two and three levels whose
tables have `size` entries each. Item `n` is found by a path with an offset for every table on the way:
`levelPath` computes it, `pathItem` goes back. Between the items that there are places for and the paths
with every offset in range the two are inverse to each other (`pathItem_levelPath`,
`levelPath_pathItem`).
-/

namespace Rtfsc.Machine

variable {direct size n : Nat} {path : List Nat}

/-- How many items there are places for. -/
def levelItems (direct size : Nat) : Nat := direct + size + size * size + size * size * size

/-- The path of item `n`; where there is no place for it, the first offset below the root table is too
large. -/
def levelPath (direct size n : Nat) : List Nat :=
  if n < direct then [n]
  else if n - direct < size then [direct, n - direct]
  else if n - direct - size < size * size then
    [direct + 1, (n - direct - size) / size, (n - direct - size) % size]
  else
    [direct + 2, (n - direct - size - size * size) / size / size,
      (n - direct - size - size * size) / size % size, (n - direct - size - size * size) % size]

/-- Every offset is in range for its table. -/
def IsPath (direct size : Nat) : List Nat → Prop
  | [i] => i < direct
  | [z, i] => z = direct ∧ i < size
  | [z, i, j] => z = direct + 1 ∧ i < size ∧ j < size
  | [z, i, j, k] => z = direct + 2 ∧ i < size ∧ j < size ∧ k < size
  | _ => False

/-- The first item of the last table on the path, from the offsets that lead to that table. -/
def tableItem (direct size : Nat) : List Nat → Nat
  | [_] => direct
  | [_, i] => direct + size + i * size
  | [_, i, j] => direct + size + size * size + (i * size + j) * size
  | _ => 0

/-- The item that a path leads to. -/
def pathItem (direct size : Nat) (path : List Nat) : Nat :=
  tableItem direct size path.dropLast + path.getLastD 0

section PathItem

variable {z i j k : Nat}

theorem pathItem_one : pathItem direct size [i] = i := Nat.zero_add i

theorem pathItem_two : pathItem direct size [z, i] = direct + i := rfl

theorem pathItem_three : pathItem direct size [z, i, j] = direct + size + i * size + j := rfl

theorem pathItem_four :
    pathItem direct size [z, i, j, k] =
      direct + size + size * size + (i * size + j) * size + k := rfl

end PathItem

theorem pathItem_levelPath (direct size n : Nat) :
    pathItem direct size (levelPath direct size n) = n := by
  have hdiv : ∀ m, m / size * size + m % size = m := fun m => Nat.div_add_mod' m size
  unfold levelPath
  split
  next => exact pathItem_one
  split
  next =>
    rw [pathItem_two]
    omega
  split
  next =>
    rw [pathItem_three, Nat.add_assoc _ (_ * _), hdiv]
    omega
  next =>
    rw [pathItem_four, hdiv, Nat.add_assoc _ (_ * _), hdiv]
    omega

theorem levelPath_injective (direct size : Nat) : Function.Injective (levelPath direct size) :=
  Function.LeftInverse.injective (pathItem_levelPath direct size)

theorem levelPath_ne_nil : levelPath direct size n ≠ [] := by
  unfold levelPath
  split_ifs <;> exact List.cons_ne_nil _ _

/-- What is less than a product, written with quotient and remainder. -/
theorem mul_add_lt {i j a : Nat} (hi : i < a) (hj : j < size) : i * size + j < a * size := by
  have hle : (i + 1) * size ≤ a * size := Nat.mul_le_mul_right _ hi
  rw [Nat.succ_mul] at hle
  omega

theorem levelPath_pathItem (h : IsPath direct size path) :
    levelPath direct size (pathItem direct size path) = path := by
  have hquot : ∀ i j, j < size → (i * size + j) / size = i ∧ (i * size + j) % size = j := by
    intro i j hj
    constructor
    · rw [Nat.mul_comm, Nat.mul_add_div (by omega), Nat.div_eq_of_lt hj, Nat.add_zero]
    · rw [Nat.mul_comm, Nat.mul_add_mod, Nat.mod_eq_of_lt hj]
  match path, h with
  | [i], h =>
    have hi : i < direct := h
    rw [pathItem_one, levelPath, if_pos hi]
  | [z, i], h =>
    obtain ⟨rfl, hi⟩ := h
    rw [pathItem_two, levelPath, if_neg (by omega), Nat.add_sub_cancel_left, if_pos hi]
  | [z, i, j], h =>
    obtain ⟨rfl, hi, hj⟩ := h
    have hlt := mul_add_lt hi hj
    rw [pathItem_three, Nat.add_assoc _ (_ * _), levelPath, if_neg (by omega), if_neg (by omega), if_pos (by omega),
      show direct + size + (i * size + j) - direct - size = i * size + j by omega, (hquot i j hj).1,
      (hquot i j hj).2]
  | [z, i, j, k], h =>
    obtain ⟨rfl, hi, hj, hk⟩ := h
    rw [pathItem_four, Nat.add_assoc _ (_ * _), levelPath, if_neg (by omega), if_neg (by omega), if_neg (by omega),
      show direct + size + size * size + ((i * size + j) * size + k) - direct - size - size * size =
        (i * size + j) * size + k by omega, (hquot _ k hk).1, (hquot _ k hk).2, (hquot i j hj).1,
      (hquot i j hj).2]

/-- The offsets are in range exactly for the items that there are places for. -/
theorem isPath_levelPath_iff (hsize : 0 < size) :
    IsPath direct size (levelPath direct size n) ↔ n < levelItems direct size := by
  unfold levelPath levelItems
  split
  next hn => exact iff_of_true hn (by omega)
  split
  next hn => exact iff_of_true ⟨rfl, hn⟩ (by omega)
  split
  next hn =>
    refine iff_of_true ⟨rfl, (Nat.div_lt_iff_lt_mul hsize).mpr hn, Nat.mod_lt _ hsize⟩ (by omega)
  next hn =>
    have htop : (n - direct - size - size * size) / size / size < size ↔
        n - direct - size - size * size < size * size * size := by
      rw [Nat.div_lt_iff_lt_mul hsize, Nat.div_lt_iff_lt_mul hsize]
    constructor
    · rintro ⟨-, hi, -, -⟩
      have := htop.mp hi
      omega
    · intro hlt
      exact ⟨rfl, htop.mpr (by omega), Nat.mod_lt _ hsize, Nat.mod_lt _ hsize⟩

/-- In one table the offsets go up with the items. -/
theorem getLastD_levelPath_succ
    (h : (levelPath direct size (n + 1)).dropLast = (levelPath direct size n).dropLast) :
    (levelPath direct size (n + 1)).getLastD 0 = (levelPath direct size n).getLastD 0 + 1 := by
  have hn : pathItem direct size (levelPath direct size n) = n := pathItem_levelPath ..
  have hsucc : pathItem direct size (levelPath direct size (n + 1)) = n + 1 := pathItem_levelPath ..
  unfold pathItem at hn hsucc
  rw [h] at hsucc
  omega

end Rtfsc.Machine
