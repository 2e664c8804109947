import Mathlib.Data.Nat.Bitwise
import Mathlib.Logic.Basic

/-!
# Outcomes of C code

A C function either computes a value or hits something after which the language gives no value
at all: an access past the end of an array, a failed `assert`, a division by zero, a library
string function handed an array without a terminating NUL. `Outcome` keeps the two apart, so that
a statement about the value a function returns never says anything about a run that has no value.
-/

namespace Rtfsc.Machine

/-- Why a computation has no value. -/
inductive Fault
  | outOfBounds (index : Nat)
  | assertFailed
  | divisionByZero
  | nullPointer
  | unterminated
deriving DecidableEq, Repr

/-- A value, or the fault that stops the computation. -/
abbrev Outcome (α : Type) := Except Fault α

@[simp] theorem ok_bind {α β : Type} (a : α) (g : α → Outcome β) :
    ((Except.ok a : Outcome α) >>= g) = g a := rfl

@[simp] theorem error_bind {α β : Type} (e : Fault) (g : α → Outcome β) :
    ((Except.error e : Outcome α) >>= g) = .error e := rfl

@[simp] theorem pure_eq_ok {α : Type} (a : α) : (pure a : Outcome α) = .ok a := rfl

/-- A sequence of computations has a value exactly when each of them has one. -/
theorem bind_eq_ok {α β : Type} {x : Outcome α} {g : α → Outcome β} {b : β} :
    (x >>= g) = .ok b ↔ ∃ a, x = .ok a ∧ g a = .ok b := by
  constructor
  · intro h
    cases x with
    | error e => cases h
    | ok a => exact ⟨a, rfl, h⟩
  · rintro ⟨a, rfl, h⟩
    exact h

theorem bind_eq_error {α β : Type} {x : Outcome α} {g : α → Outcome β} {e : Fault} :
    (x >>= g) = .error e ↔ x = .error e ∨ ∃ a, x = .ok a ∧ g a = .error e := by
  constructor
  · intro h
    cases x with
    | error e' =>
      have he : (Except.error e' : Outcome β) = .error e := h
      cases he
      exact .inl rfl
    | ok a => exact .inr ⟨a, rfl, h⟩
  · rintro (rfl | ⟨a, rfl, h⟩)
    · rfl
    · exact h

/-- The fault of a computation without a value. -/
def fault {α : Type} : Outcome α → Option Fault
  | .ok _ => none
  | .error e => some e

theorem fault_eq_some {α : Type} {x : Outcome α} {e : Fault} : fault x = some e ↔ x = .error e := by
  cases x <;> simp [fault]

/-- Unsigned 64-bit division. -/
def udiv (a b : UInt64) : Outcome UInt64 :=
  if b = 0 then .error .divisionByZero else .ok (a / b)

theorem udiv_eq_ok {a b c : UInt64} : udiv a b = .ok c ↔ b ≠ 0 ∧ c = a / b := by
  unfold udiv
  by_cases h : b = 0 <;> simp [h, eq_comm]

/-- An `unsigned int` below `2 ^ 31` read as an `int`. -/
theorem toInt_toInt32 {x : UInt32} (h : x.toNat < 2 ^ 31) : (x.toInt32.toInt : Int) = x.toNat := by
  have h1 := BitVec.toInt_eq_toNat_cond x.toBitVec
  have h2 : x.toBitVec.toNat = x.toNat := rfl
  have h3 : x.toInt32.toInt = x.toBitVec.toInt := rfl
  rw [h2] at h1
  rw [h3, h1, if_pos (by omega)]

/-!
## How a computation may end

`Ends Q P x` says of a computation that may stop early: if it has a value, the value has `P`, and if
it stops, the reason has `Q`. A program's functions each get one such statement, and the rules put
them together along the binds.
-/

variable {ε α β : Type}

/-- A value with `P`, or a stop for a reason in `Q`. -/
def Ends (Q : ε → Prop) (P : α → Prop) : Except ε α → Prop
  | .ok a => P a
  | .error e => Q e

variable {Q Q' : ε → Prop} {P P' : α → Prop} {R : β → Prop} {x : Except ε α} {f : α → Except ε β}

@[simp] theorem ends_ok {a : α} : Ends Q P (.ok a) ↔ P a := Iff.rfl

@[simp] theorem ends_error {e : ε} : Ends Q P (.error e : Except ε α) ↔ Q e := Iff.rfl

theorem value_bind (a : α) (f : α → Except ε β) : (Except.ok a >>= f) = f a := rfl

theorem Ends.pure {a : α} (h : P a) : Ends Q P (Pure.pure a) := h

theorem Ends.bind (hx : Ends Q P x) (hf : ∀ a, x = .ok a → P a → Ends Q R (f a)) :
    Ends Q R (x >>= f) := by
  cases x with
  | ok a => exact hf a rfl hx
  | error e => exact hx

theorem Ends.mono (h : Ends Q P x) (hP : ∀ a, P a → P' a) (hQ : ∀ e, Q e → Q' e) :
    Ends Q' P' x := by
  cases x with
  | ok a => exact hP a h
  | error e => exact hQ e h

theorem Ends.imp (h : Ends Q P x) (hP : ∀ a, P a → P' a) : Ends Q P' x := h.mono hP fun _ => id

/-- The value of a computation that has one. -/
theorem Ends.of_ok {a : α} (h : Ends Q P x) (hx : x = .ok a) : P a := by
  subst hx
  exact h

/-- The reason of a computation that has stopped. -/
theorem Ends.of_error {e : ε} (h : Ends Q P x) (hx : x = .error e) : Q e := by
  subst hx
  exact h

/-- Going on only under a condition, as an assertion does. -/
def check (p : Prop) [Decidable p] (e : ε) : Except ε Unit := if p then .ok () else .error e

theorem Ends.check_bind {p : Prop} [Decidable p] {e : ε} {f : Unit → Except ε β}
    (h : p → Ends Q R (f ())) (he : ¬ p → Q e) : Ends Q R (check p e >>= f) := by
  unfold check
  split
  · next hp => exact h hp
  · next hp => exact he hp

/-- Going on only with a value. -/
def need (x : Option α) (e : ε) : Except ε α :=
  match x with
  | some a => .ok a
  | none => .error e

theorem Ends.need_bind {x : Option α} {e : ε} {f : α → Except ε β}
    (h : ∀ a, x = some a → Ends Q R (f a)) (he : x = none → Q e) : Ends Q R (need x e >>= f) := by
  cases x with
  | some a => exact h a rfl
  | none => exact he rfl

theorem check_pos {p : Prop} [Decidable p] {e : ε} (h : p) : check p e = .ok () := if_pos h

@[simp] theorem need_some {a : α} {e : ε} : need (some a) e = .ok a := rfl

end Rtfsc.Machine
