import Mathlib.Data.Int.Init
import Mathlib.Tactic.Common

/-!
# Objects with two counts

An object is disposed of when its last strong owner lets go of it, and destroyed when the last owner of
either kind has. Two counts keep track: one of the strong owners, one of the weak owners and of the strong
ones together. An account holds the counts of one object next to what they stand for, the owners and
the parties that are in the middle of letting go; a move is what one atomic operation does to it. Under
a lock, a party may raise a dead count for a moment before it puts it back to zero.
-/

namespace Rtfsc.Machine

/-- The counts of an object, and what they stand for. -/
@[ext] structure Account where
  use : Int
  weak : Int
  /-- the calls of the disposer that have begun, those that have returned, and the destructions -/
  disposes : Int
  returns : Int
  destroys : Int
  owners : Int
  weakOwners : Int
  /-- the parties that have taken the last strong count down: before the call of the disposer, in it, and
  behind it -/
  toDispose : Int
  disposing : Int
  toRelease : Int
  /-- the parties that have taken the weak count to zero -/
  toDestroy : Int
  /-- the lock is held, and where its holders are: before the count is raised, with a dead count
  raised, behind it -/
  locked : Int
  adding : Int
  raised : Int
  leaving : Int

namespace Account

/-- 1 if it is so, else 0. -/
def unit (p : Prop) [Decidable p] : Int := if p then 1 else 0

/-- What one atomic operation does to an account. `byLock` says that strong owners are made from weak
ones under the lock. -/
inductive Move (byLock : Bool) (a : Account) : Account → Prop
  | stay : Move byLock a a
  | addOwner : 0 < a.owners → Move byLock a { a with use := a.use + 1, owners := a.owners + 1 }
  | dropOwner : 0 < a.owners → Move byLock a
      { a with use := a.use - 1, owners := a.owners - 1, toDispose := a.toDispose + unit (a.use = 1) }
  | addWeak : 0 < a.owners ∨ 0 < a.weakOwners → Move byLock a
      { a with weak := a.weak + 1, weakOwners := a.weakOwners + 1 }
  | dropWeak : 0 < a.weakOwners → Move byLock a
      { a with
        weak := a.weak - 1, weakOwners := a.weakOwners - 1
        toDestroy := a.toDestroy + unit (a.weak = 1) }
  | dispose : 0 < a.toDispose → Move byLock a
      { a with toDispose := a.toDispose - 1, disposing := a.disposing + 1, disposes := a.disposes + 1 }
  | disposed : 0 < a.disposing → Move byLock a
      { a with disposing := a.disposing - 1, toRelease := a.toRelease + 1, returns := a.returns + 1 }
  | release : 0 < a.toRelease → Move byLock a
      { a with
        weak := a.weak - 1, toRelease := a.toRelease - 1
        toDestroy := a.toDestroy + unit (a.weak = 1) }
  | destroy : 0 < a.toDestroy → Move byLock a
      { a with toDestroy := a.toDestroy - 1, destroys := a.destroys + 1 }
  | revive : byLock = false → a.use ≠ 0 → Move byLock a
      { a with use := a.use + 1, owners := a.owners + 1 }
  | lock : byLock = true → a.use + a.disposes + a.toDispose ≠ 0 → a.locked = 0 → Move byLock a
      { a with locked := 1, adding := a.adding + 1 }
  | lockAdd : 0 < a.adding → a.use ≠ 0 → Move byLock a
      { a with
        use := a.use + 1, owners := a.owners + 1, adding := a.adding - 1, leaving := a.leaving + 1 }
  | lockRaise : 0 < a.adding → a.use = 0 → Move byLock a
      { a with use := a.use + 1, adding := a.adding - 1, raised := a.raised + 1 }
  | lockReset : 0 < a.raised → Move byLock a
      { a with use := 0, raised := a.raised - 1, leaving := a.leaving + 1 }
  | unlock : 0 < a.leaving → Move byLock a { a with locked := 0, leaving := a.leaving - 1 }

/-- The counts are right, and what has been called is what should have been. -/
structure Sound (byLock : Bool) (a : Account) : Prop where
  nonneg : 0 ≤ a.owners ∧ 0 ≤ a.weakOwners ∧ 0 ≤ a.toDispose ∧ 0 ≤ a.disposing ∧ 0 ≤ a.toRelease ∧
    0 ≤ a.toDestroy ∧ 0 ≤ a.adding ∧ 0 ≤ a.raised ∧ 0 ≤ a.leaving ∧
    0 ≤ a.disposes ∧ 0 ≤ a.returns ∧ 0 ≤ a.destroys
  use : a.use = a.owners + a.raised
  weak : a.weak = a.weakOwners + unit (0 < a.owners) + a.toDispose + a.disposing + a.toRelease
  alive : 0 < a.owners → a.toDispose = 0 ∧ a.disposes = 0 ∧ a.raised = 0
  dead : a.owners = 0 → a.toDispose + a.disposes = 1
  disposes : a.disposes = a.disposing + a.returns
  returns : a.toRelease ≤ a.returns
  destroys : a.destroys + a.toDestroy = unit (a.weak = 0)
  lock : a.locked = a.adding + a.raised + a.leaving ∧ a.locked ≤ 1
  noLock : byLock = false → a.locked = 0

variable {byLock : Bool} {a a' : Account}

theorem unit_eq (p : Prop) [Decidable p] : unit p = 1 ∧ p ∨ unit p = 0 ∧ ¬p := by
  unfold unit
  split
  · next h => exact .inl ⟨rfl, h⟩
  · next h => exact .inr ⟨rfl, h⟩

/-- The account of a new object with one strong owner. -/
def born : Account where
  use := 1
  weak := 1
  disposes := 0
  returns := 0
  destroys := 0
  owners := 1
  weakOwners := 0
  toDispose := 0
  disposing := 0
  toRelease := 0
  toDestroy := 0
  locked := 0
  adding := 0
  raised := 0
  leaving := 0

theorem born_sound : Sound byLock born := by
  refine ⟨?_, ?_, ?_, ?_, ?_, ?_, ?_, ?_, ?_, fun _ => rfl⟩ <;> decide

/-- The account of an object that has not been made. -/
def unborn : Account where
  use := 0
  weak := 0
  disposes := 0
  returns := 0
  destroys := 0
  owners := 0
  weakOwners := 0
  toDispose := 0
  disposing := 0
  toRelease := 0
  toDestroy := 0
  locked := 0
  adding := 0
  raised := 0
  leaving := 0

/-- Nothing happens to an object that has not been made. -/
theorem move_unborn (h : Move byLock unborn a) : a = unborn := by
  cases h with
  | stay => rfl
  | addOwner hpos => cases hpos
  | dropOwner hpos => cases hpos
  | addWeak hpos => rcases hpos with hpos | hpos <;> cases hpos
  | dropWeak hpos => cases hpos
  | dispose hpos => cases hpos
  | disposed hpos => cases hpos
  | release hpos => cases hpos
  | destroy hpos => cases hpos
  | revive _ hne => exact absurd rfl hne
  | lock _ hborn _ => exact absurd rfl hborn
  | lockAdd hpos _ => cases hpos
  | lockRaise hpos _ => cases hpos
  | lockReset hpos => cases hpos
  | unlock hpos => cases hpos

/-- A sound account is one of an object that has been made. -/
theorem Sound.born (h : Sound byLock a) : a.use + a.disposes + a.toDispose ≠ 0 := by
  obtain ⟨hnn, huse, -, -, hdead, -⟩ := h
  omega

/-- Every move keeps an account sound. -/
theorem Sound.move (h : Sound byLock a) (hm : Move byLock a a') : Sound byLock a' := by
  obtain ⟨hnn, huse, hweak, halive, hdead, hdisp, hret, hdest, hlock, hno⟩ := h
  have hu1 := unit_eq (0 < a.owners)
  have hu2 := unit_eq (a.weak = 0)
  cases hm with
  | stay => exact ⟨hnn, huse, hweak, halive, hdead, hdisp, hret, hdest, hlock, hno⟩
  | addOwner hpos =>
    have hu3 := unit_eq (0 < a.owners + 1)
    constructor <;> simp only <;> omega
  | dropOwner hpos =>
    have hu3 := unit_eq (0 < a.owners - 1)
    have hu4 := unit_eq (a.use = 1)
    constructor <;> simp only <;> omega
  | addWeak hpos =>
    have hu3 := unit_eq (a.weak + 1 = 0)
    constructor <;> simp only <;> omega
  | dropWeak hpos =>
    have hu3 := unit_eq (a.weak - 1 = 0)
    have hu4 := unit_eq (a.weak = 1)
    constructor <;> simp only <;> omega
  | dispose hpos => constructor <;> simp only <;> omega
  | disposed hpos => constructor <;> simp only <;> omega
  | release hpos =>
    have hu3 := unit_eq (a.weak - 1 = 0)
    have hu4 := unit_eq (a.weak = 1)
    constructor <;> simp only <;> omega
  | destroy hpos => constructor <;> simp only <;> omega
  | revive hby hne =>
    have hu3 := unit_eq (0 < a.owners + 1)
    have hfree := hno hby
    constructor <;> simp only <;> omega
  | lock hby hborn hfree => constructor <;> simp only [hby, reduceCtorEq, false_implies] <;> omega
  | lockAdd hpos hne =>
    have hu3 := unit_eq (0 < a.owners + 1)
    constructor <;> simp only <;> omega
  | lockRaise hpos hzero => constructor <;> simp only <;> omega
  | lockReset hpos => constructor <;> simp only <;> omega
  | unlock hpos => constructor <;> simp only [implies_true] <;> omega

/-- An object without strong owners gets none. -/
theorem Sound.owners_zero (h : Sound byLock a) (hm : Move byLock a a') (hzero : a.owners = 0) :
    a'.owners = 0 := by
  obtain ⟨hnn, huse, -, -, -, -, -, -, hlock, hno⟩ := h
  cases hm with
  | addOwner hpos => omega
  | dropOwner hpos => omega
  | revive hby hne =>
    have hfree := hno hby
    omega
  | lockAdd hpos hne => omega
  | _ => exact hzero

end Account

end Rtfsc.Machine
