import Mathlib.Logic.Function.Basic

/-!
# Moving a range

Some cells get what other cells held (`Moved`), in whatever way this is done. The two ranges may share
cells. A move can be put together from two, the first part first or the second part first
(`Moved.append`, `Moved.prepend`), where no cell is overwritten before it has been read.
-/

namespace Rtfsc.Machine

variable {κ γ : Type}

/-- The first `n` cells of `dst` hold what those of `src` held, and the other cells what they did. -/
structure Moved (src dst : Nat → κ) (n : Nat) (c c' : κ → γ) : Prop where
  moved : ∀ k < n, c' (dst k) = c (src k)
  kept : ∀ x, (∀ k < n, dst k ≠ x) → c' x = c x

/-- No cell is overwritten before it is read, if the first cells are moved first. -/
structure Ahead (src dst : Nat → κ) (n : Nat) : Prop where
  src : ∀ i j, i ≤ j → j < n → dst i ≠ src j
  dst : ∀ i j, i < j → j < n → dst i ≠ dst j

/-- No cell is overwritten before it is read, if the last cells are moved first. -/
structure Behind (src dst : Nat → κ) (n : Nat) : Prop where
  src : ∀ i j, i ≤ j → j < n → dst j ≠ src i
  dst : ∀ i j, i < j → j < n → dst i ≠ dst j

section Parts

variable {src dst : Nat → κ} {m n : Nat}

theorem Ahead.left (h : Ahead src dst (m + n)) : Ahead src dst m :=
  ⟨fun i j hij hj => h.src i j hij (by omega), fun i j hij hj => h.dst i j hij (by omega)⟩

theorem Ahead.right (h : Ahead src dst (m + n)) :
    Ahead (fun k => src (m + k)) (fun k => dst (m + k)) n :=
  ⟨fun i j hij hj => h.src (m + i) (m + j) (by omega) (by omega),
    fun i j hij hj => h.dst (m + i) (m + j) (by omega) (by omega)⟩

theorem Behind.left (h : Behind src dst (m + n)) : Behind src dst m :=
  ⟨fun i j hij hj => h.src i j hij (by omega), fun i j hij hj => h.dst i j hij (by omega)⟩

theorem Behind.right (h : Behind src dst (m + n)) :
    Behind (fun k => src (m + k)) (fun k => dst (m + k)) n :=
  ⟨fun i j hij hj => h.src (m + i) (m + j) (by omega) (by omega),
    fun i j hij hj => h.dst (m + i) (m + j) (by omega) (by omega)⟩

end Parts

namespace Moved

variable {src dst : Nat → κ} {m n : Nat} {c c' c₁ c₂ : κ → γ}

theorem zero : Moved src dst 0 c c :=
  ⟨fun _ hk => absurd hk (Nat.not_lt_zero _), fun _ _ => rfl⟩

theorem self : Moved src src n c c :=
  ⟨fun _ _ => rfl, fun _ _ => rfl⟩

theorem one [DecidableEq κ] : Moved src dst 1 c (Function.update c (dst 0) (c (src 0))) := by
  refine ⟨fun k hk => ?_, fun x hx => ?_⟩
  · obtain rfl : k = 0 := by omega
    rw [Function.update_self]
  · rw [Function.update_of_ne (hx 0 Nat.one_pos).symm]

/-- The move says what every cell holds. -/
theorem unique (h₁ : Moved src dst n c c₁) (h₂ : Moved src dst n c c₂) : c₁ = c₂ := by
  funext x
  by_cases hx : ∃ k < n, dst k = x
  · obtain ⟨k, hk, rfl⟩ := hx
    rw [h₁.moved k hk, h₂.moved k hk]
  · have hout : ∀ k < n, dst k ≠ x := fun k hk heq => hx ⟨k, hk, heq⟩
    rw [h₁.kept x hout, h₂.kept x hout]

/-- The first `m` cells first. -/
theorem append (h₁ : Moved src dst m c c₁)
    (h₂ : Moved (fun k => src (m + k)) (fun k => dst (m + k)) n c₁ c₂)
    (hahead : Ahead src dst (m + n)) : Moved src dst (m + n) c c₂ := by
  refine ⟨fun k hk => ?_, fun x hx => ?_⟩
  · rcases Nat.lt_or_ge k m with hlt | hge
    · rw [h₂.kept _ fun j hj => (hahead.dst k (m + j) (by omega) (by omega)).symm, h₁.moved k hlt]
    · obtain ⟨j, rfl⟩ := Nat.exists_eq_add_of_le hge
      rw [h₂.moved j (by omega),
        h₁.kept _ fun i hi => hahead.src i (m + j) (by omega) (by omega)]
  · rw [h₂.kept x fun j hj => hx _ (Nat.add_lt_add_left hj m),
      h₁.kept x fun i hi => hx _ (Nat.lt_add_right n hi)]

/-- The last `n` cells first. -/
theorem prepend (h₁ : Moved (fun k => src (m + k)) (fun k => dst (m + k)) n c c₁)
    (h₂ : Moved src dst m c₁ c₂) (hbehind : Behind src dst (m + n)) :
    Moved src dst (m + n) c c₂ := by
  refine ⟨fun k hk => ?_, fun x hx => ?_⟩
  · rcases Nat.lt_or_ge k m with hlt | hge
    · rw [h₂.moved k hlt,
        h₁.kept _ fun j hj => hbehind.src k (m + j) (by omega) (by omega)]
    · obtain ⟨j, rfl⟩ := Nat.exists_eq_add_of_le hge
      rw [h₂.kept _ fun i hi => hbehind.dst i (m + j) (by omega) (by omega), h₁.moved j (by omega)]
  · rw [h₂.kept x fun i hi => hx _ (Nat.lt_add_right n hi),
      h₁.kept x fun j hj => hx _ (Nat.add_lt_add_left hj m)]

theorem congr {src' dst' : Nat → κ} (h : Moved src dst n c c') (hsrc : ∀ k < n, src' k = src k)
    (hdst : ∀ k < n, dst' k = dst k) : Moved src' dst' n c c' := by
  refine ⟨fun k hk => ?_, fun x hx => h.kept x fun k hk => ?_⟩
  · rw [hsrc k hk, hdst k hk, h.moved k hk]
  · rw [← hdst k hk]
    exact hx k hk

end Moved

/-! ## One cell after the other -/

section Loops

variable [DecidableEq κ] {src dst : Nat → κ} {n : Nat}

def moveForward (src dst : Nat → κ) (c : κ → γ) : Nat → κ → γ
  | 0 => c
  | n + 1 =>
    let c := moveForward src dst c n
    Function.update c (dst n) (c (src n))

def moveBackward (src dst : Nat → κ) (c : κ → γ) : Nat → κ → γ
  | 0 => c
  | n + 1 => moveBackward src dst (Function.update c (dst n) (c (src n))) n

theorem moveBackward_self (c : κ → γ) : moveBackward src src c n = c := by
  induction n generalizing c with
  | zero => rfl
  | succ n ih => rw [moveBackward, Function.update_eq_self, ih]

theorem moveForward_moved (c : κ → γ) (h : Ahead src dst n) :
    Moved src dst n c (moveForward src dst c n) := by
  induction n with
  | zero => exact .zero
  | succ n ih => exact (ih h.left).append .one h

theorem moveBackward_moved (c : κ → γ) (h : Behind src dst n) :
    Moved src dst n c (moveBackward src dst c n) := by
  induction n generalizing c with
  | zero => exact .zero
  | succ n ih => exact .prepend .one (ih _ h.left) h

end Loops

end Rtfsc.Machine
