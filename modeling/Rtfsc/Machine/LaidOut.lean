import Mathlib.Data.List.GetD
import Mathlib.Data.Set.Function

/-!
# What is laid out in cells

Places are numbers. Each place of a region has a cell of its own, and a tape says what the places hold, if
anything. The tape is laid out in the cells of the region if they hold what the places do and no other
cell holds anything (`LaidOut`). A store to the cell of a place is one on the tape (`LaidOut.store`), and the
region may become larger or smaller or be elsewhere (`LaidOut.grow`, `LaidOut.shrink`, `LaidOut.place`).
-/

namespace Rtfsc.Machine

variable {κ γ : Type}

structure LaidOut (cell : Nat → κ) (region : Set Nat) (cells : κ → Option γ)
    (tape : Nat → Option γ) : Prop where
  inj : Set.InjOn cell region
  at_cell : ∀ p ∈ region, cells (cell p) = tape p
  off : ∀ c, (∀ p ∈ region, cell p ≠ c) → cells c = none
  support : ∀ p, p ∉ region → tape p = none

namespace LaidOut

variable {cell cell' : Nat → κ} {region region' : Set Nat} {cells cells' : κ → Option γ}
  {tape tape' : Nat → Option γ} {p q n : Nat}

/-- What a place holds is in the region. -/
theorem mem (h : LaidOut cell region cells tape) {x : γ} (hp : tape p = some x) : p ∈ region := by
  by_contra hout
  rw [h.support p hout] at hp
  cases hp

theorem read (h : LaidOut cell region cells tape) {x : γ} (hp : tape p = some x) :
    cells (cell p) = some x := by
  rw [h.at_cell p (h.mem hp), hp]

theorem store [DecidableEq κ] (h : LaidOut cell region cells tape) (hp : p ∈ region)
    (v : Option γ) :
    LaidOut cell region (Function.update cells (cell p) v) (Function.update tape p v) := by
  refine ⟨h.inj, fun q hq => ?_, fun c hc => ?_, fun q hq => ?_⟩
  · rcases eq_or_ne q p with rfl | hne
    · rw [Function.update_self, Function.update_self]
    · rw [Function.update_of_ne fun heq => hne (h.inj hq hp heq), Function.update_of_ne hne,
        h.at_cell q hq]
  · rw [Function.update_of_ne (hc p hp).symm, h.off c hc]
  · have hne : q ≠ p := fun heq => hq (heq ▸ hp)
    rw [Function.update_of_ne hne, h.support q hq]

/-- More places, with cells that hold nothing. -/
theorem grow (h : LaidOut cell region cells tape) (hsub : region ⊆ region')
    (hinj : Set.InjOn cell region') : LaidOut cell region' cells tape := by
  have hnew : ∀ p ∈ region', p ∉ region → cells (cell p) = none := fun p hp hout =>
    h.off _ fun q hq heq => hout (hinj (hsub hq) hp heq ▸ hq)
  refine ⟨hinj, fun p hp => ?_, fun c hc => h.off c fun p hp => hc p (hsub hp),
    fun p hp => h.support p fun hin => hp (hsub hin)⟩
  by_cases hin : p ∈ region
  · exact h.at_cell p hin
  · rw [hnew p hp hin, h.support p hin]

/-- Fewer places, where the others hold nothing. -/
theorem shrink (h : LaidOut cell region cells tape) (hsub : region' ⊆ region)
    (hempty : ∀ p, p ∉ region' → tape p = none) : LaidOut cell region' cells tape := by
  refine ⟨h.inj.mono hsub, fun p hp => h.at_cell p (hsub hp), fun c hc => ?_, hempty⟩
  by_cases hin : ∃ p ∈ region, cell p = c
  · obtain ⟨p, hp, rfl⟩ := hin
    rw [h.at_cell p hp, hempty p fun hp' => hc p hp' rfl]
  · exact h.off c fun p hp heq => hin ⟨p, hp, heq⟩

/-- Other numbers for the same cells. -/
theorem place {σ : Nat → Nat} (h : LaidOut cell region cells tape)
    (hσ : Set.BijOn σ region' region) (hcell : ∀ p ∈ region', cell' p = cell (σ p))
    (htape : ∀ p ∈ region', tape' p = tape (σ p)) (hempty : ∀ p, p ∉ region' → tape' p = none) :
    LaidOut cell' region' cells tape' := by
  refine ⟨fun p hp q hq heq => ?_, fun p hp => ?_, fun c hc => h.off c fun q hq heq => ?_, hempty⟩
  · rw [hcell p hp, hcell q hq] at heq
    exact hσ.injOn hp hq (h.inj (hσ.mapsTo hp) (hσ.mapsTo hq) heq)
  · rw [hcell p hp, htape p hp, h.at_cell _ (hσ.mapsTo hp)]
  · obtain ⟨p, hp, rfl⟩ := hσ.surjOn hq
    exact hc p hp ((hcell p hp).trans heq)

end LaidOut

/-! ## A list on the tape -/

/-- A list on consecutive places. -/
def laidFrom (s : Nat) (xs : List γ) (p : Nat) : Option γ := if s ≤ p then xs[p - s]? else none

section LaidFrom

variable {s p k : Nat} {xs : List γ} {x : γ} {tape : Nat → Option γ}

theorem laidFrom_add : laidFrom s xs (s + k) = xs[k]? := by
  rw [laidFrom, if_pos (Nat.le_add_right _ _), Nat.add_sub_cancel_left]

theorem laidFrom_of_le (h : s ≤ p) : laidFrom s xs p = xs[p - s]? := if_pos h

theorem laidFrom_eq_none (h : p < s ∨ s + xs.length ≤ p) : laidFrom s xs p = none := by
  unfold laidFrom
  split
  · rw [List.getElem?_eq_none (by omega)]
  · rfl

theorem laidFrom_isSome (hle : s ≤ p) (hlt : p < s + xs.length) : (laidFrom s xs p).isSome := by
  rw [laidFrom_of_le hle, List.getElem?_eq_getElem (by omega)]
  rfl

theorem laidFrom_snoc :
    laidFrom s (xs ++ [x]) = Function.update (laidFrom s xs) (s + xs.length) (some x) := by
  funext p
  rcases eq_or_ne p (s + xs.length) with rfl | hne
  · rw [Function.update_self, laidFrom_add, List.getElem?_concat_length]
  · rw [Function.update_of_ne hne]
    unfold laidFrom
    split
    · rcases Nat.lt_or_ge (p - s) xs.length with hlt | hge
      · rw [List.getElem?_append_left hlt]
      · rw [List.getElem?_eq_none hge, List.getElem?_eq_none]
        rw [List.length_append, List.length_singleton]
        omega
    · rfl

theorem laidFrom_cons :
    laidFrom s (x :: xs) = Function.update (laidFrom (s + 1) xs) s (some x) := by
  funext p
  rcases eq_or_ne p s with rfl | hne
  · rw [Function.update_self, laidFrom_of_le le_rfl, Nat.sub_self, List.getElem?_cons_zero]
  · rw [Function.update_of_ne hne]
    unfold laidFrom
    by_cases hle : s + 1 ≤ p
    · rw [if_pos (by omega), if_pos hle, show p - s = p - (s + 1) + 1 by omega,
        List.getElem?_cons_succ]
    · rw [if_neg (by omega), if_neg hle]

/-- Without its last element. -/
theorem laidFrom_eq_update_snoc :
    laidFrom s xs = Function.update (laidFrom s (xs ++ [x])) (s + xs.length) none := by
  rw [laidFrom_snoc, Function.update_idem, eq_comm, Function.update_eq_self_iff]
  rw [laidFrom_add, List.getElem?_eq_none le_rfl]

/-- Without its first one. -/
theorem laidFrom_eq_update_cons :
    laidFrom (s + 1) xs = Function.update (laidFrom s (x :: xs)) s none := by
  rw [laidFrom_cons, Function.update_idem, eq_comm, Function.update_eq_self_iff]
  rw [laidFrom_eq_none (.inl (Nat.lt_succ_self s))]

end LaidFrom

end Rtfsc.Machine
