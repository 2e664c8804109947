import Rtfsc.Stl.SharedCount
import Mathlib.Tactic.Ring

/-!
# The owners of a counted object

The counts of a `_Sp_counted_base` and the objects and threads that refer to it are an account; every
step moves every account as an operation on two counts may.
-/

namespace Rtfsc.Stl

open Rtfsc.Machine

/-- What a thread inside of an operation is to the block that it works on. -/
inductive Role
  | owner
  | weakOwner
  | toDispose
  | disposing
  | toRelease
  | toDestroy
  | adding
  | raised
  | leaving
deriving DecidableEq

/-- The block that matters to where a thread is, and what the thread is to it. -/
def Pc.role : Pc → Option (Role × Nat)
  | .assign _ tmp => tmp.map (.owner, ·)
  | .weakAssign _ tmp => tmp.map (.weakOwner, ·)
  | .dispose b => some (.toDispose, b)
  | .disposing b => some (.disposing, b)
  | .release b => some (.toRelease, b)
  | .destroy b => some (.toDestroy, b)
  | .lockAdd a => some (.adding, a.block)
  | .lockReset a => some (.raised, a.block)
  | .lockLeave a _ => some (.leaving, a.block)
  | .lockSingle _ | .lockMutex _ | .lockLoad _ | .lockCas _ _ => none

namespace CountState

/-- The objects of a table that point to the block. -/
def pointers (table : Table Nat (Nat × Option Nat)) (b : Nat) : Nat :=
  total (fun _ e => if e.2 = some b then 1 else 0) table

/-- The threads that are something to the block. -/
def inRole (s : CountState) (r : Role) (b : Nat) : Nat :=
  total (fun _ pc => if pc.role = some (r, b) then 1 else 0) s.pcs

/-- The shared owners of a block: the `__shared_count` objects that point to it, and the references that
assignments have taken and not yet stored. -/
def sharedOwners (s : CountState) (b : Nat) : Nat := pointers s.shared b + s.inRole .owner b

/-- The weak owners of a block. -/
def weakOwners (s : CountState) (b : Nat) : Nat := pointers s.weaks b + s.inRole .weakOwner b

/-- The account of a block. -/
def account (s : CountState) (b : Nat) : Account where
  use := (s.blocks b).useCount
  weak := (s.blocks b).weakCount
  disposes := (s.blocks b).disposes
  returns := (s.blocks b).returns
  destroys := (s.blocks b).destroys
  owners := s.sharedOwners b
  weakOwners := s.weakOwners b
  toDispose := s.inRole .toDispose b
  disposing := s.inRole .disposing b
  toRelease := s.inRole .toRelease b
  toDestroy := s.inRole .toDestroy b
  locked := Account.unit ((s.blocks b).mutexHeld = true)
  adding := s.inRole .adding b
  raised := s.inRole .raised b
  leaving := s.inRole .leaving b

/-- The reference that an entry of a table is. -/
def pointee (n : Option (Nat × Option Nat)) : Option Nat := n.bind Prod.snd

/-- What a thread is to a block, by where it is. -/
def roleOf (n : Option Pc) : Option (Role × Nat) := n.bind Pc.role

variable {s : CountState} {t v w b b' : Nat}

theorem pointers_put (table : Table Nat (Nat × Option Nat)) (v : Nat)
    (n : Option (Nat × Option Nat)) (b : Nat) : (pointers (put table v n) b : Int) =
      pointers table b - Account.unit (pointee (table.lookup v) = some b) +
        Account.unit (pointee n = some b) := by
  have h := total_put table v n fun _ e => if e.2 = some b then 1 else 0
  have helim (n : Option (Nat × Option Nat)) :
      ((n.elim 0 fun e => if e.2 = some b then 1 else 0 : Nat) : Int) =
        Account.unit (pointee n = some b) := by
    cases n with
    | none => rfl
    | some e =>
      show ((if e.2 = some b then 1 else 0 : Nat) : Int) = Account.unit (e.2 = some b)
      unfold Account.unit
      split <;> rfl
  rw [← helim, ← helim]
  unfold pointers
  omega

theorem inRole_setPc (s : CountState) (t : Nat) (n : Option Pc) (r : Role) (b : Nat) :
    ((s.setPc t n).inRole r b : Int) =
      s.inRole r b - Account.unit (roleOf (s.pcs.lookup t) = some (r, b)) +
        Account.unit (roleOf n = some (r, b)) := by
  have h := total_put s.pcs t n fun _ pc => if pc.role = some (r, b) then 1 else 0
  have helim (n : Option Pc) :
      ((n.elim 0 fun pc => if pc.role = some (r, b) then 1 else 0 : Nat) : Int) =
        Account.unit (roleOf n = some (r, b)) := by
    cases n with
    | none => rfl
    | some pc =>
      show ((if pc.role = some (r, b) then 1 else 0 : Nat) : Int) =
        Account.unit (pc.role = some (r, b))
      unfold Account.unit
      split <;> rfl
  rw [← helim, ← helim]
  unfold inRole setPc
  dsimp only
  omega

theorem pointers_pos {table : Table Nat (Nat × Option Nat)} {e : Nat × Option Nat}
    (h : table.lookup v = some e) (he : e.2 = some b) : 0 < pointers table b := by
  have hle := le_total h fun _ e => if e.2 = some b then 1 else 0
  simp only [he, if_true] at hle
  exact hle

theorem inRole_pos {pc : Pc} {r : Role} (h : s.pcs.lookup t = some pc) (hr : pc.role = some (r, b)) :
    0 < s.inRole r b := by
  have hle := le_total h fun _ pc => if pc.role = some (r, b) then 1 else 0
  simp only [hr, if_true] at hle
  exact hle

theorem held_eq_some {table : Table Nat (Nat × Option Nat)} {p : Option Nat} :
    held table t v = some p ↔ table.lookup v = some (t, p) := by
  unfold held
  cases h : table.lookup v with
  | none => simp
  | some e =>
    obtain ⟨t', q⟩ := e
    by_cases heq : t' = t
    · subst heq
      simp
    · simp [heq]

/-! ## What the parts of a step do to an account -/

/-- The account when the reference of an object has gone from one block to another. -/
theorem account_setShared (s : CountState) (v : Nat) (n : Option (Nat × Option Nat)) (b : Nat) :
    (s.setShared v n).account b = { s.account b with
      owners := (s.account b).owners - Account.unit (pointee (s.shared.lookup v) = some b) +
        Account.unit (pointee n = some b) } := by
  have hp := pointers_put s.shared v n b
  have howners : ((s.setShared v n).sharedOwners b : Int) = s.sharedOwners b -
      Account.unit (pointee (s.shared.lookup v) = some b) + Account.unit (pointee n = some b) := by
    have hrole : (s.setShared v n).inRole .owner b = s.inRole .owner b := rfl
    have hput : pointers (s.setShared v n).shared b = pointers (put s.shared v n) b := rfl
    unfold sharedOwners
    rw [hrole, hput]
    omega
  exact Account.ext rfl rfl rfl rfl rfl howners rfl rfl rfl rfl rfl rfl rfl rfl rfl

theorem account_setWeak (s : CountState) (w : Nat) (n : Option (Nat × Option Nat)) (b : Nat) :
    (s.setWeak w n).account b = { s.account b with
      weakOwners := (s.account b).weakOwners - Account.unit (pointee (s.weaks.lookup w) = some b) +
        Account.unit (pointee n = some b) } := by
  have hp := pointers_put s.weaks w n b
  have howners : ((s.setWeak w n).weakOwners b : Int) = s.weakOwners b -
      Account.unit (pointee (s.weaks.lookup w) = some b) + Account.unit (pointee n = some b) := by
    have hrole : (s.setWeak w n).inRole .weakOwner b = s.inRole .weakOwner b := rfl
    have hput : pointers (s.setWeak w n).weaks b = pointers (put s.weaks w n) b := rfl
    unfold weakOwners
    rw [hrole, hput]
    omega
  exact Account.ext rfl rfl rfl rfl rfl rfl howners rfl rfl rfl rfl rfl rfl rfl rfl

end CountState

/-- The figure of a role in an account. -/
def Role.get (a : Account) : Role → Int
  | .owner => a.owners
  | .weakOwner => a.weakOwners
  | .toDispose => a.toDispose
  | .disposing => a.disposing
  | .toRelease => a.toRelease
  | .toDestroy => a.toDestroy
  | .adding => a.adding
  | .raised => a.raised
  | .leaving => a.leaving

/-- The account with `d` more in a role. -/
def Role.shift (d : Int) (a : Account) : Role → Account
  | .owner => { a with owners := a.owners + d }
  | .weakOwner => { a with weakOwners := a.weakOwners + d }
  | .toDispose => { a with toDispose := a.toDispose + d }
  | .disposing => { a with disposing := a.disposing + d }
  | .toRelease => { a with toRelease := a.toRelease + d }
  | .toDestroy => { a with toDestroy := a.toDestroy + d }
  | .adding => { a with adding := a.adding + d }
  | .raised => { a with raised := a.raised + d }
  | .leaving => { a with leaving := a.leaving + d }

theorem Role.get_shift (d : Int) (a : Account) (r r' : Role) :
    r'.get (r.shift d a) = r'.get a + if r = r' then d else 0 := by
  cases r <;> cases r' <;> simp [Role.get, Role.shift]

/-- Accounts with the same counts and the same figures in every role are the same. -/
theorem Role.account_ext {a a' : Account} (huse : a.use = a'.use) (hweak : a.weak = a'.weak)
    (hdisposes : a.disposes = a'.disposes) (hreturns : a.returns = a'.returns)
    (hdestroys : a.destroys = a'.destroys) (hlocked : a.locked = a'.locked)
    (hget : ∀ r : Role, r.get a = r.get a') : a = a' :=
  Account.ext huse hweak hdisposes hreturns hdestroys (hget .owner) (hget .weakOwner)
    (hget .toDispose) (hget .disposing) (hget .toRelease) (hget .toDestroy) hlocked (hget .adding)
    (hget .raised) (hget .leaving)

/-- The account of `b` with `d` more in the role that someone has to a block. -/
def shiftAt (b : Nat) (d : Int) (a : Account) : Option (Role × Nat) → Account
  | none => a
  | some (r, b') => if b' = b then r.shift d a else a

theorem get_shiftAt (b : Nat) (d : Int) (a : Account) (n : Option (Role × Nat)) (r : Role) :
    r.get (shiftAt b d a n) = r.get a + if n = some (r, b) then d else 0 := by
  cases n with
  | none => simp [shiftAt]
  | some n =>
    obtain ⟨r', b'⟩ := n
    unfold shiftAt
    by_cases hb : b' = b
    · subst hb
      simp [Role.get_shift]
    · simp [hb]

theorem shiftAt_counts (b : Nat) (d : Int) (a : Account) (n : Option (Role × Nat)) :
    (shiftAt b d a n).use = a.use ∧ (shiftAt b d a n).weak = a.weak ∧
      (shiftAt b d a n).disposes = a.disposes ∧ (shiftAt b d a n).returns = a.returns ∧
      (shiftAt b d a n).destroys = a.destroys ∧ (shiftAt b d a n).locked = a.locked := by
  cases n with
  | none => exact ⟨rfl, rfl, rfl, rfl, rfl, rfl⟩
  | some n =>
    obtain ⟨r, b'⟩ := n
    by_cases hb : b' = b
    · rw [shiftAt, if_pos hb]
      cases r <;> exact ⟨rfl, rfl, rfl, rfl, rfl, rfl⟩
    · rw [shiftAt, if_neg hb]
      exact ⟨rfl, rfl, rfl, rfl, rfl, rfl⟩

namespace CountState

variable {s : CountState} {t v w b b' : Nat}

theorem get_account (s : CountState) (b : Nat) (r : Role) : r.get (s.account b) =
    (match r with
      | .owner => (pointers s.shared b : Int)
      | .weakOwner => (pointers s.weaks b : Int)
      | _ => 0) + s.inRole r b := by
  cases r with
  | owner => exact Nat.cast_add ..
  | weakOwner => exact Nat.cast_add ..
  | _ => exact (Int.zero_add _).symm

/-- The account when a thread has gone from one place to another. -/
theorem account_setPc (s : CountState) (t : Nat) (n : Option Pc) (b : Nat) :
    (s.setPc t n).account b =
      shiftAt b 1 (shiftAt b (-1) (s.account b) (roleOf (s.pcs.lookup t))) (roleOf n) := by
  have h1 := shiftAt_counts b 1 (shiftAt b (-1) (s.account b) (roleOf (s.pcs.lookup t))) (roleOf n)
  have h2 := shiftAt_counts b (-1) (s.account b) (roleOf (s.pcs.lookup t))
  refine Role.account_ext (h1.1.trans h2.1).symm (h1.2.1.trans h2.2.1).symm
    (h1.2.2.1.trans h2.2.2.1).symm (h1.2.2.2.1.trans h2.2.2.2.1).symm
    (h1.2.2.2.2.1.trans h2.2.2.2.2.1).symm (h1.2.2.2.2.2.trans h2.2.2.2.2.2).symm fun r => ?_
  rw [get_shiftAt, get_shiftAt, get_account, get_account, inRole_setPc]
  unfold Account.unit
  have hs : (s.setPc t n).shared = s.shared := rfl
  have hw : (s.setPc t n).weaks = s.weaks := rfl
  rw [hs, hw]
  split_ifs <;> omega

/-- An account with the counts of a block. -/
def withBlock (a : Account) (c : CountedBase) : Account :=
  { a with
    use := c.useCount
    weak := c.weakCount
    disposes := c.disposes
    returns := c.returns
    destroys := c.destroys
    locked := Account.unit (c.mutexHeld = true) }

theorem shiftAt_withBlock (b : Nat) (d : Int) (a : Account) (c : CountedBase)
    (n : Option (Role × Nat)) : shiftAt b d (withBlock a c) n = withBlock (shiftAt b d a n) c := by
  cases n with
  | none => rfl
  | some n =>
    obtain ⟨r, b'⟩ := n
    by_cases hb : b' = b
    · rw [shiftAt, shiftAt, if_pos hb, if_pos hb]
      cases r <;> rfl
    · rw [shiftAt, shiftAt, if_neg hb, if_neg hb]

/-- The account when a block has been written. -/
theorem account_setBlock (s : CountState) (b : Nat) (c : CountedBase) (b' : Nat) :
    (s.setBlock b c).account b' = if b' = b then withBlock (s.account b') c else s.account b' := by
  split
  · next h =>
    subst h
    have hc : (s.setBlock b' c).blocks b' = c := Function.update_self ..
    unfold account
    rw [hc]
    rfl
  · next h =>
    have hc : (s.setBlock b c).blocks b' = s.blocks b' := Function.update_of_ne h ..
    unfold account
    rw [hc]
    rfl

theorem account_addRefCopy (s : CountState) (p : Option Nat) (b : Nat) :
    (s.addRefCopy p).account b =
      { s.account b with use := (s.account b).use + Account.unit (p = some b) } := by
  cases p with
  | none => simp [addRefCopy, Account.unit]
  | some b' =>
    rw [addRefCopy, account_setBlock]
    by_cases h : b = b'
    · subst h
      rw [if_pos rfl, Account.unit, if_pos rfl]
      rfl
    · simp [Account.unit, h, Ne.symm h]

theorem account_weakAddRef (s : CountState) (p : Option Nat) (b : Nat) :
    (s.weakAddRef p).account b =
      { s.account b with weak := (s.account b).weak + Account.unit (p = some b) } := by
  cases p with
  | none => simp [weakAddRef, Account.unit]
  | some b' =>
    rw [weakAddRef, account_setBlock]
    by_cases h : b = b'
    · subst h
      rw [if_pos rfl, Account.unit, if_pos rfl]
      rfl
    · simp [Account.unit, h, Ne.symm h]

/-- The account when a thread has left the place that it was in. -/
def vacated (s : CountState) (t b : Nat) : Account :=
  shiftAt b (-1) (s.account b) (roleOf (s.pcs.lookup t))

/-- What a thread does to a block next to going from one place to another. -/
theorem account_setBlock_setPc (s : CountState) (t b : Nat) (c : CountedBase) (n : Option Pc)
    (b' : Nat) : ((s.setBlock b c).setPc t n).account b' =
      shiftAt b' 1 (if b' = b then withBlock (s.vacated t b') c else s.vacated t b') (roleOf n) := by
  rw [account_setPc, account_setBlock]
  show shiftAt b' 1 (shiftAt b' (-1) _ (roleOf (s.pcs.lookup t))) _ = _
  split
  · rw [shiftAt_withBlock]
    rfl
  · rfl

theorem vacated_idle (h : s.pcs.lookup t = none) (b : Nat) : s.vacated t b = s.account b := by
  rw [vacated, h]
  rfl

theorem withBlock_vacated (s : CountState) (t b : Nat) :
    withBlock (s.vacated t b) (s.blocks b) = s.vacated t b := by
  unfold vacated
  rw [← shiftAt_withBlock]
  rfl

/-- `_M_release`: a strong count is taken away, and who takes the last one is to dispose. -/
theorem account_release (s : CountState) (t : Nat) (p : Option Nat) (b : Nat) :
    (s.release t p).account b = { s.vacated t b with
      use := (s.vacated t b).use - Account.unit (p = some b)
      toDispose := (s.vacated t b).toDispose +
        Account.unit (p = some b ∧ (s.vacated t b).use = 1) } := by
  cases p with
  | none =>
    rw [release, account_setPc]
    simp [roleOf, shiftAt, Account.unit, vacated]
  | some b' =>
    rw [release, account_setBlock_setPc]
    by_cases h : b = b'
    · subst h
      have huse : (s.blocks b).useCount = (s.vacated t b).use :=
        (shiftAt_counts b (-1) (s.account b) _).1.symm
      rw [if_pos rfl]
      show shiftAt b 1 { withBlock (s.vacated t b) (s.blocks b) with
        use := (s.blocks b).useCount - 1 } _ = _
      rw [withBlock_vacated, huse]
      by_cases h1 : (s.vacated t b).use = 1 <;>
        simp [h1, roleOf, Pc.role, shiftAt, Role.shift, Account.unit]
    · have hne : ¬some b' = some b := fun heq => h (Option.some.inj heq).symm
      have hnew : shiftAt b 1 (s.vacated t b)
          (roleOf (if (s.blocks b').useCount = 1 then some (.dispose b') else none)) = s.vacated t b := by
        split
        · exact if_neg (Ne.symm h)
        · rfl
      rw [if_neg h, hnew]
      simp [Account.unit, Ne.symm h]

/-- `_M_weak_release`: a weak count is taken away, and who takes the last one is to destroy. -/
theorem account_weakRelease (s : CountState) (t : Nat) (p : Option Nat) (b : Nat) :
    (s.weakRelease t p).account b = { s.vacated t b with
      weak := (s.vacated t b).weak - Account.unit (p = some b)
      toDestroy := (s.vacated t b).toDestroy +
        Account.unit (p = some b ∧ (s.vacated t b).weak = 1) } := by
  cases p with
  | none =>
    rw [weakRelease, account_setPc]
    simp [roleOf, shiftAt, Account.unit, vacated]
  | some b' =>
    rw [weakRelease, account_setBlock_setPc]
    by_cases h : b = b'
    · subst h
      have hweak : (s.blocks b).weakCount = (s.vacated t b).weak :=
        (shiftAt_counts b (-1) (s.account b) _).2.1.symm
      rw [if_pos rfl]
      show shiftAt b 1 { withBlock (s.vacated t b) (s.blocks b) with
        weak := (s.blocks b).weakCount - 1 } _ = _
      rw [withBlock_vacated, hweak]
      by_cases h1 : (s.vacated t b).weak = 1 <;>
        simp [h1, roleOf, Pc.role, shiftAt, Role.shift, Account.unit]
    · have hne : ¬some b' = some b := fun heq => h (Option.some.inj heq).symm
      have hnew : shiftAt b 1 (s.vacated t b)
          (roleOf (if (s.blocks b').weakCount = 1 then some (.destroy b') else none)) = s.vacated t b := by
        split
        · exact if_neg (Ne.symm h)
        · rfl
      rw [if_neg h, hnew]
      simp [Account.unit, Ne.symm h]

end CountState

end Rtfsc.Stl
