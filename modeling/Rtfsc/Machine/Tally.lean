import Mathlib.Algebra.BigOperators.Group.List.Basic
import Mathlib.Tactic.Abel

/-!
# Tallies

The sum of a weight over a table of records: how it changes when one record is replaced, and what a
count of zero says. A counter kept by a program is proved right by comparing it with a tally.
-/

namespace Rtfsc.Machine

variable {α M : Type} [AddCommGroup M]

/-- The sum of the weight `g` over a table. -/
def tally (g : α → M) (l : List α) : M := (l.map g).sum

@[simp] theorem tally_nil (g : α → M) : tally g [] = 0 := rfl

@[simp] theorem tally_cons (g : α → M) (a : α) (l : List α) :
    tally g (a :: l) = g a + tally g l := by
  simp [tally]

theorem tally_append (g : α → M) (l l' : List α) : tally g (l ++ l') = tally g l + tally g l' := by
  simp [tally]

/-- Replacing one record moves the tally by the difference of its weights. -/
theorem tally_set (g : α → M) {l : List α} {i : Nat} {a b : α} (h : l[i]? = some a) :
    tally g (l.set i b) = tally g l - g a + g b := by
  induction l generalizing i with
  | nil => cases h
  | cons c l ih =>
    cases i with
    | zero =>
      simp only [List.getElem?_cons_zero, Option.some.injEq] at h
      subst h
      rw [List.set_cons_zero, tally_cons, tally_cons]
      abel
    | succ i =>
      rw [List.getElem?_cons_succ] at h
      rw [List.set_cons_succ, tally_cons, tally_cons, ih h]
      abel

/-- A map over the table that keeps every weight keeps the tally. -/
theorem tally_map (g : α → M) {f : α → α} {l : List α} (h : ∀ a ∈ l, g (f a) = g a) :
    tally g (l.map f) = tally g l := by
  rw [tally, tally, List.map_map]
  exact congrArg List.sum (List.map_congr_left h)

/-- Two weights that agree on the table have the same tally. -/
theorem tally_congr {g g' : α → M} {l : List α} (h : ∀ a ∈ l, g a = g' a) :
    tally g l = tally g' l :=
  congrArg List.sum (List.map_congr_left h)

/-- Nothing is tallied when no record has weight. -/
theorem tally_eq_zero {g : α → M} {l : List α} (h : ∀ a ∈ l, g a = 0) : tally g l = 0 := by
  induction l with
  | nil => rfl
  | cons a l ih =>
    rw [List.forall_mem_cons] at h
    rw [tally_cons, h.1, ih h.2, add_zero]

theorem tally_nonneg {g : α → Int} (h : ∀ a, 0 ≤ g a) (l : List α) : 0 ≤ tally g l := by
  induction l with
  | nil => exact Int.le_refl 0
  | cons a l ih =>
    have ha := h a
    rw [tally_cons]
    omega

/-- The weight of a property: 1 or 0. -/
def indicator (p : α → Bool) (a : α) : Int := if p a then 1 else 0

/-- How many records have a property. -/
def count (p : α → Bool) (l : List α) : Int := tally (indicator p) l

theorem count_nonneg (p : α → Bool) (l : List α) : 0 ≤ count p l := by
  refine tally_nonneg (fun a => ?_) l
  unfold indicator
  split <;> decide

/-- Nothing is counted exactly when no record has the property. -/
theorem count_eq_zero {p : α → Bool} {l : List α} : count p l = 0 ↔ ∀ a ∈ l, p a = false := by
  induction l with
  | nil => simp [count]
  | cons a l ih =>
    have hpos := count_nonneg p l
    rw [count] at ih hpos ⊢
    rw [tally_cons, indicator, List.forall_mem_cons, ← ih]
    cases p a with
    | false => simp
    | true =>
      simp only [if_true]
      constructor
      · intro h
        omega
      · rintro ⟨h, -⟩
        cases h

end Rtfsc.Machine
