import Rtfsc.Stl.SharedOwners

/-!
# Steps and moves

Every step of the threads moves the account of every block, and moves it as an operation on two counts
may.
-/

namespace Rtfsc.Stl

open Rtfsc.Machine

namespace CountState

variable {s s' : CountState} {t t' v w r b : Nat} {p q old tmp : Option Nat} {byLock : Bool}

theorem owners_pos (h : s.shared.lookup v = some (t, p)) (hp : p = some b) :
    0 < (s.account b).owners :=
  Int.natCast_pos.mpr (Nat.add_pos_left (pointers_pos h hp) _)

theorem weakOwners_pos (h : s.weaks.lookup w = some (t, p)) (hp : p = some b) :
    0 < (s.account b).weakOwners :=
  Int.natCast_pos.mpr (Nat.add_pos_left (pointers_pos h hp) _)

@[simp] theorem shared_addRefCopy : (s.addRefCopy p).shared = s.shared := by cases p <;> rfl

@[simp] theorem pcs_addRefCopy : (s.addRefCopy p).pcs = s.pcs := by cases p <;> rfl

@[simp] theorem weaks_weakAddRef : (s.weakAddRef p).weaks = s.weaks := by cases p <;> rfl

@[simp] theorem pcs_weakAddRef : (s.weakAddRef p).pcs = s.pcs := by cases p <;> rfl

/-! ## Operations that begin -/

/-- An empty object appears. -/
theorem move_default (hv : s.shared.lookup v = none) :
    (s.account b).Move byLock ((s.setShared v (some (t, none))).account b) := by
  rw [account_setShared, hv]
  simpa [pointee, Account.unit] using (Account.Move.stay : (s.account b).Move byLock _)

/-- A new object points to what another one points to. -/
theorem move_copy (hv : s.shared.lookup v = none) (hr : s.shared.lookup r = some (t, p)) :
    (s.account b).Move byLock (((s.addRefCopy p).setShared v (some (t, p))).account b) := by
  rw [account_setShared, account_addRefCopy, shared_addRefCopy, hv]
  by_cases hp : p = some b
  · have hpos := owners_pos hr hp
    simpa [pointee, Account.unit, hp] using
      (Account.Move.addOwner hpos : (s.account b).Move byLock _)
  · simpa [pointee, Account.unit, hp] using (Account.Move.stay : (s.account b).Move byLock _)

/-- An assignment takes its reference first. -/
theorem move_assign (hidle : s.pcs.lookup t = none) (hr : s.shared.lookup r = some (t', tmp)) :
    (s.account b).Move byLock
      (((s.addRefCopy tmp).setPc t (some (.assign v tmp))).account b) := by
  rw [account_setPc, account_addRefCopy, pcs_addRefCopy, hidle]
  by_cases hp : tmp = some b
  · have hpos := owners_pos hr hp
    simpa [roleOf, Pc.role, shiftAt, Role.shift, Account.unit, hp] using
      (Account.Move.addOwner hpos : (s.account b).Move byLock _)
  · cases tmp with
    | none =>
      simpa [roleOf, Pc.role, shiftAt, Account.unit] using
        (Account.Move.stay : (s.account b).Move byLock _)
    | some b' =>
      have hne : b' ≠ b := fun heq => hp (congrArg some heq)
      simpa [roleOf, Pc.role, shiftAt, Account.unit, hne] using
        (Account.Move.stay : (s.account b).Move byLock _)

/-- Two objects change places. -/
theorem move_swap (hv : s.shared.lookup v = some (t, p)) (hr : s.shared.lookup r = some (t, q)) :
    (s.account b).Move byLock
      (((s.setShared r (some (t, p))).setShared v (some (t, q))).account b) := by
  have hv' : (s.setShared r (some (t, p))).shared.lookup v = some (t, p) := by
    show (put s.shared r (some (t, p))).lookup v = some (t, p)
    rw [lookup_put]
    split
    · rfl
    · exact hv
  rw [account_setShared, account_setShared, hv', hr]
  simpa [pointee] using (Account.Move.stay : (s.account b).Move byLock _)

/-- An object is gone. -/
theorem move_drop (hidle : s.pcs.lookup t = none) (hv : s.shared.lookup v = some (t', p)) :
    (s.account b).Move byLock (((s.setShared v none).release t p).account b) := by
  rw [account_release, vacated_idle (s := s.setShared v none) hidle, account_setShared, hv]
  by_cases hp : p = some b
  · have hpos := owners_pos hv hp
    simpa [pointee, Account.unit, hp] using
      (Account.Move.dropOwner hpos : (s.account b).Move byLock _)
  · simpa [pointee, Account.unit, hp] using (Account.Move.stay : (s.account b).Move byLock _)

/-- An object goes to another thread. -/
theorem move_hand (hv : s.shared.lookup v = some (t, p)) :
    (s.account b).Move byLock ((s.setShared v (some (t', p))).account b) := by
  rw [account_setShared, hv]
  by_cases hp : p = some b <;>
    simpa [pointee, Account.unit, hp] using (Account.Move.stay : (s.account b).Move byLock _)

theorem move_weakDefault (hw : s.weaks.lookup w = none) :
    (s.account b).Move byLock ((s.setWeak w (some (t, none))).account b) := by
  rw [account_setWeak, hw]
  simpa [pointee, Account.unit] using (Account.Move.stay : (s.account b).Move byLock _)

/-- A new weak object points to what another object points to. -/
theorem move_weakCopy (hw : s.weaks.lookup w = none)
    (hp : p = some b → 0 < (s.account b).owners ∨ 0 < (s.account b).weakOwners) :
    (s.account b).Move byLock (((s.weakAddRef p).setWeak w (some (t, p))).account b) := by
  rw [account_setWeak, account_weakAddRef, weaks_weakAddRef, hw]
  by_cases hb : p = some b
  · simpa [pointee, Account.unit, hb] using
    (Account.Move.addWeak (hp hb) : (s.account b).Move byLock _)
  · simpa [pointee, Account.unit, hb] using (Account.Move.stay : (s.account b).Move byLock _)

theorem move_weakMove (hw : s.weaks.lookup w = none) (hr : s.weaks.lookup r = some (t, p)) :
    (s.account b).Move byLock
      (((s.setWeak w (some (t, p))).setWeak r (some (t, none))).account b) := by
  have hr' : (s.setWeak w (some (t, p))).weaks.lookup r = some (t, p) := by
    show (put s.weaks w (some (t, p))).lookup r = some (t, p)
    rw [lookup_put]
    split
    · rfl
    · exact hr
  rw [account_setWeak, account_setWeak, hr', hw]
  simpa [pointee, Account.unit] using (Account.Move.stay : (s.account b).Move byLock _)

/-- A weak assignment takes its reference first. -/
theorem move_weakAssign (hidle : s.pcs.lookup t = none)
    (hp : tmp = some b → 0 < (s.account b).owners ∨ 0 < (s.account b).weakOwners) :
    (s.account b).Move byLock
      (((s.weakAddRef tmp).setPc t (some (.weakAssign w tmp))).account b) := by
  rw [account_setPc, account_weakAddRef, pcs_weakAddRef, hidle]
  by_cases hb : tmp = some b
  · simpa [roleOf, Pc.role, shiftAt, Role.shift, Account.unit, hb] using
      (Account.Move.addWeak (hp hb) : (s.account b).Move byLock _)
  · cases tmp with
    | none =>
      simpa [roleOf, Pc.role, shiftAt, Account.unit] using
        (Account.Move.stay : (s.account b).Move byLock _)
    | some b' =>
      have hne : b' ≠ b := fun heq => hb (congrArg some heq)
      simpa [roleOf, Pc.role, shiftAt, Account.unit, hne] using
        (Account.Move.stay : (s.account b).Move byLock _)

/-- A weak assignment that moves: the object that it takes from is empty behind it, also when it is
the one that it assigns to. -/
theorem move_weakAssignMove (hidle : s.pcs.lookup t = none) (hw : s.weaks.lookup w = some (t, old))
    (hr : s.weaks.lookup r = some (t, p)) :
    (s.account b).Move byLock
      ((((s.setWeak w (some (t, p))).setWeak r (some (t, none))).weakRelease t old).account b) := by
  have hr' : (s.setWeak w (some (t, p))).weaks.lookup r = some (t, p) := by
    show (put s.weaks w (some (t, p))).lookup r = some (t, p)
    rw [lookup_put]
    split
    · rfl
    · exact hr
  rw [account_weakRelease,
    vacated_idle (s := (s.setWeak w (some (t, p))).setWeak r (some (t, none))) hidle,
    account_setWeak, account_setWeak, hr', hw]
  by_cases hb : old = some b
  · have hpos := weakOwners_pos hw hb
    simpa [pointee, Account.unit, hb] using
      (Account.Move.dropWeak hpos : (s.account b).Move byLock _)
  · simpa [pointee, Account.unit, hb] using (Account.Move.stay : (s.account b).Move byLock _)

theorem move_weakSwap (hw : s.weaks.lookup w = some (t, p)) (hr : s.weaks.lookup r = some (t, q)) :
    (s.account b).Move byLock
      (((s.setWeak r (some (t, p))).setWeak w (some (t, q))).account b) := by
  have hw' : (s.setWeak r (some (t, p))).weaks.lookup w = some (t, p) := by
    show (put s.weaks r (some (t, p))).lookup w = some (t, p)
    rw [lookup_put]
    split
    · rfl
    · exact hw
  rw [account_setWeak, account_setWeak, hw', hr]
  simpa [pointee] using (Account.Move.stay : (s.account b).Move byLock _)

theorem move_weakDrop (hidle : s.pcs.lookup t = none) (hw : s.weaks.lookup w = some (t', p)) :
    (s.account b).Move byLock (((s.setWeak w none).weakRelease t p).account b) := by
  rw [account_weakRelease, vacated_idle (s := s.setWeak w none) hidle, account_setWeak, hw]
  by_cases hp : p = some b
  · have hpos := weakOwners_pos hw hp
    simpa [pointee, Account.unit, hp] using
      (Account.Move.dropWeak hpos : (s.account b).Move byLock _)
  · simpa [pointee, Account.unit, hp] using (Account.Move.stay : (s.account b).Move byLock _)

theorem move_weakHand (hw : s.weaks.lookup w = some (t, p)) :
    (s.account b).Move byLock ((s.setWeak w (some (t', p))).account b) := by
  rw [account_setWeak, hw]
  by_cases hp : p = some b <;>
    simpa [pointee, Account.unit, hp] using (Account.Move.stay : (s.account b).Move byLock _)

/-- A thread goes where it is nothing to any block, from such a place. -/
theorem move_setPc {n : Option Pc} (hold : roleOf (s.pcs.lookup t) = none) (hnew : roleOf n = none) :
    (s.account b).Move byLock ((s.setPc t n).account b) := by
  rw [account_setPc, hold, hnew]
  exact .stay

/-! ## Operations that go on -/

/-- An assignment releases what its object pointed to and stores what it has taken. -/
theorem move_assignStore (hpc : s.pcs.lookup t = some (.assign v tmp))
    (hv : s.shared.lookup v = some (t', old)) :
    (s.account b).Move byLock (((s.setShared v (some (t, tmp))).release t old).account b) := by
  have hvac : (s.setShared v (some (t, tmp))).vacated t b = { s.account b with
      owners := (s.account b).owners - Account.unit (old = some b) } := by
    show shiftAt b (-1) _ (roleOf (s.pcs.lookup t)) = _
    rw [account_setShared, hpc, hv]
    cases tmp with
    | none => by_cases ho : old = some b <;> simp [roleOf, Pc.role, shiftAt, pointee, Account.unit, ho]
    | some b' =>
      by_cases hb : b' = b <;> by_cases ho : old = some b <;>
        simp [roleOf, Pc.role, shiftAt, Role.shift, pointee, Account.unit, hb, ho, Int.add_neg_eq_sub]
  rw [account_release, hvac]
  by_cases hb : old = some b
  · have hpos := owners_pos hv hb
    simpa [Account.unit, hb] using (Account.Move.dropOwner hpos : (s.account b).Move byLock _)
  · simpa [Account.unit, hb] using (Account.Move.stay : (s.account b).Move byLock _)

theorem move_weakAssignStore (hpc : s.pcs.lookup t = some (.weakAssign w tmp))
    (hw : s.weaks.lookup w = some (t', old)) :
    (s.account b).Move byLock (((s.setWeak w (some (t, tmp))).weakRelease t old).account b) := by
  have hvac : (s.setWeak w (some (t, tmp))).vacated t b = { s.account b with
      weakOwners := (s.account b).weakOwners - Account.unit (old = some b) } := by
    show shiftAt b (-1) _ (roleOf (s.pcs.lookup t)) = _
    rw [account_setWeak, hpc, hw]
    cases tmp with
    | none => by_cases ho : old = some b <;> simp [roleOf, Pc.role, shiftAt, pointee, Account.unit, ho]
    | some b' =>
      by_cases hb : b' = b <;> by_cases ho : old = some b <;>
        simp [roleOf, Pc.role, shiftAt, Role.shift, pointee, Account.unit, hb, ho, Int.add_neg_eq_sub]
  rw [account_weakRelease, hvac]
  by_cases hb : old = some b
  · have hpos := weakOwners_pos hw hb
    simpa [Account.unit, hb] using (Account.Move.dropWeak hpos : (s.account b).Move byLock _)
  · simpa [Account.unit, hb] using (Account.Move.stay : (s.account b).Move byLock _)

/-- The account when a thread that is something to the block has left its place. -/
theorem vacated_of_role {pc : Pc} {role : Role} (hpc : s.pcs.lookup t = some pc)
    (hrole : pc.role = some (role, b)) : s.vacated t b = role.shift (-1) (s.account b) := by
  rw [vacated, hpc]
  show shiftAt b (-1) (s.account b) pc.role = _
  rw [hrole, shiftAt, if_pos rfl]

theorem vacated_of_role_ne {pc : Pc} {role : Role} {b' : Nat} (hpc : s.pcs.lookup t = some pc)
    (hrole : pc.role = some (role, b')) (hb : b ≠ b') : s.vacated t b = s.account b := by
  rw [vacated, hpc]
  show shiftAt b (-1) (s.account b) pc.role = _
  rw [hrole, shiftAt, if_neg (Ne.symm hb)]

/-- The account when a thread goes on with the block that it is something to, and writes it. -/
theorem account_goOn {pc pc' : Pc} {role role' : Role} {b' : Nat} (hpc : s.pcs.lookup t = some pc)
    (hrole : pc.role = some (role, b')) (hrole' : pc'.role = some (role', b')) (c : CountedBase) :
    ((s.setBlock b' c).setPc t (some pc')).account b =
      if b = b' then role'.shift 1 (withBlock (role.shift (-1) (s.account b)) c)
      else s.account b := by
  rw [account_setBlock_setPc]
  show shiftAt b 1 _ pc'.role = _
  rw [hrole', shiftAt]
  by_cases hb : b = b'
  · subst hb
    rw [if_pos rfl, if_pos rfl, if_pos rfl, vacated_of_role hpc hrole]
  · rw [if_neg (Ne.symm hb), if_neg hb, if_neg hb, vacated_of_role_ne hpc hrole hb]

theorem role_pos {pc : Pc} {role : Role} (hpc : s.pcs.lookup t = some pc)
    (hrole : pc.role = some (role, b)) : 0 < (s.inRole role b : Int) :=
  Int.natCast_pos.mpr (inRole_pos hpc hrole)

theorem move_dispose (hpc : s.pcs.lookup t = some (.dispose w)) :
    (s.account b).Move byLock (((s.setBlock w { s.blocks w with
      disposes := (s.blocks w).disposes + 1 }).setPc t (some (.disposing w))).account b) := by
  rw [account_goOn hpc rfl rfl]
  split
  · next hb =>
    subst hb
    exact (Account.Move.dispose (role_pos hpc rfl) : (s.account b).Move byLock _)
  · exact .stay

theorem move_disposing (hpc : s.pcs.lookup t = some (.disposing w)) :
    (s.account b).Move byLock (((s.setBlock w { s.blocks w with
      returns := (s.blocks w).returns + 1 }).setPc t (some (.release w))).account b) := by
  rw [account_goOn hpc rfl rfl]
  split
  · next hb =>
    subst hb
    exact (Account.Move.disposed (role_pos hpc rfl) : (s.account b).Move byLock _)
  · exact .stay

theorem move_release (hpc : s.pcs.lookup t = some (.release w)) :
    (s.account b).Move byLock ((s.weakRelease t (some w)).account b) := by
  rw [account_weakRelease]
  by_cases hb : b = w
  · subst hb
    rw [vacated_of_role hpc rfl]
    simpa [Role.shift, Account.unit, Int.add_neg_eq_sub] using
      (Account.Move.release (role_pos hpc rfl) : (s.account b).Move byLock _)
  · rw [vacated_of_role_ne hpc rfl hb]
    simpa [Account.unit, Ne.symm hb] using (Account.Move.stay : (s.account b).Move byLock _)

theorem move_destroy (hpc : s.pcs.lookup t = some (.destroy w)) :
    (s.account b).Move byLock (((s.setBlock w { s.blocks w with
      destroys := (s.blocks w).destroys + 1 }).setPc t none).account b) := by
  rw [account_setBlock_setPc]
  by_cases hb : b = w
  · subst hb
    rw [if_pos rfl, vacated_of_role hpc rfl]
    exact (Account.Move.destroy (role_pos hpc rfl) : (s.account b).Move byLock _)
  · rw [if_neg hb, vacated_of_role_ne hpc rfl hb]
    exact .stay

/-! ## Attempts to lock -/

variable {a : Attempt} {pc : Pc} {n : Option Pc}

theorem account_ended (s : CountState) (a : Attempt) (ok : Bool) (b : Nat) :
    (s.ended a ok).account b = s.account b := rfl

/-- A new object points to the block of an attempt. -/
theorem account_setShared_new (hv : s.shared.lookup v = none) (a : Attempt) :
    (s.setShared v (some (t, some a.block))).account b =
      { s.account b with owners := (s.account b).owners + Account.unit (b = a.block) } := by
  rw [account_setShared, hv]
  by_cases hb : b = a.block
  · simp [pointee, Account.unit, hb]
  · simp [pointee, Account.unit, hb, Ne.symm hb]

theorem move_notLocked (hold : roleOf (s.pcs.lookup t) = none) (hv : s.shared.lookup v = none) :
    (s.account b).Move byLock ((s.notLocked t v a).account b) := by
  have hobj : (if a.nothrow then s.setShared v (some (t, none)) else s).account b = s.account b := by
    split
    · rw [account_setShared, hv]
      simp [pointee, Account.unit]
    · rfl
  have hpcs : (if a.nothrow then s.setShared v (some (t, none)) else s).pcs = s.pcs := by
    split <;> rfl
  rw [notLocked, account_ended, account_setPc, hpcs, hold, hobj]
  exact .stay

/-- Without the lock, a count that is not zero is raised for the new owner. -/
theorem move_revive (hold : roleOf (s.pcs.lookup t) = none) (hv : s.shared.lookup v = none)
    (hpol : byLock = false) (hne : (s.blocks a.block).useCount ≠ 0) :
    (s.account b).Move byLock (((s.addRefCopy (some a.block)).locked t v a none).account b) := by
  have hv' : (s.addRefCopy (some a.block)).shared.lookup v = none := hv
  rw [locked, account_ended, account_setPc]
  show (s.account b).Move byLock
    (shiftAt b 1 (shiftAt b (-1) _ (roleOf (s.pcs.lookup t))) (roleOf none))
  rw [hold, account_setShared_new hv', account_addRefCopy]
  by_cases hb : b = a.block
  · subst hb
    simpa [roleOf, shiftAt, Account.unit] using Account.Move.revive (a := s.account a.block) hpol hne
  · simpa [roleOf, shiftAt, Account.unit, hb, Ne.symm hb] using
      (Account.Move.stay : (s.account b).Move byLock _)

/-- The compare-and-exchange writes the count that it has found, plus one. -/
theorem setBlock_eq_addRefCopy {count : Int} (h : (s.blocks a.block).useCount = count) :
    s.setBlock a.block { s.blocks a.block with useCount := count + 1 } =
      s.addRefCopy (some a.block) := by
  rw [← h]
  rfl

/-- The lock is taken. -/
theorem move_lockMutex (hpc : s.pcs.lookup t = some (.lockMutex a)) (hpol : byLock = true)
    (hborn : (s.account a.block).use + (s.account a.block).disposes +
      (s.account a.block).toDispose ≠ 0) (hfree : (s.blocks a.block).mutexHeld = false) :
    (s.account b).Move byLock (((s.setBlock a.block { s.blocks a.block with
      mutexHeld := true }).setPc t (some (.lockAdd a))).account b) := by
  have hvac : s.vacated t b = s.account b := by
    rw [vacated, hpc]
    rfl
  rw [account_setBlock_setPc, hvac]
  by_cases hb : b = a.block
  · subst hb
    have hlocked : (s.account a.block).locked = 0 := by
      show Account.unit ((s.blocks a.block).mutexHeld = true) = 0
      rw [hfree]
      rfl
    have hrole : roleOf (some (Pc.lockAdd a)) = some (.adding, a.block) := rfl
    rw [if_pos rfl, hrole, shiftAt, if_pos rfl]
    exact Account.Move.lock (a := s.account a.block) hpol hborn hlocked
  · have hrole : roleOf (some (Pc.lockAdd a)) = some (.adding, a.block) := rfl
    rw [if_neg hb, hrole, shiftAt, if_neg (Ne.symm hb)]
    exact .stay

/-- Under the lock, a count that is not zero is raised for the new owner. -/
theorem move_lockAdd (hpc : s.pcs.lookup t = some (.lockAdd a)) (hv : s.shared.lookup v = none)
    (hne : (s.blocks a.block).useCount ≠ 0) :
    (s.account b).Move byLock (((s.addRefCopy (some a.block)).locked t v a
      (some (.lockLeave a true))).account b) := by
  have hv' : (s.addRefCopy (some a.block)).shared.lookup v = none := hv
  rw [locked, account_ended, account_setPc]
  show (s.account b).Move byLock (shiftAt b 1 (shiftAt b (-1) _ (roleOf (s.pcs.lookup t)))
    (roleOf (some (.lockLeave a true))))
  rw [hpc, account_setShared_new hv', account_addRefCopy]
  by_cases hb : b = a.block
  · subst hb
    simpa [roleOf, Pc.role, shiftAt, Role.shift, Account.unit, Int.add_neg_eq_sub] using
      (Account.Move.lockAdd (role_pos hpc rfl) hne : (s.account a.block).Move byLock _)
  · simpa [roleOf, Pc.role, shiftAt, Account.unit, hb, Ne.symm hb] using
      (Account.Move.stay : (s.account b).Move byLock _)

/-- Under the lock, a dead count is raised for a moment. -/
theorem move_lockRaise (hpc : s.pcs.lookup t = some (.lockAdd a))
    (hzero : (s.blocks a.block).useCount = 0) :
    (s.account b).Move byLock
      (((s.addRefCopy (some a.block)).setPc t (some (.lockReset a))).account b) := by
  rw [addRefCopy, account_goOn hpc rfl rfl]
  split
  · next hb =>
    subst hb
    exact (Account.Move.lockRaise (role_pos hpc rfl) hzero : (s.account a.block).Move byLock _)
  · exact .stay

theorem move_lockReset (hpc : s.pcs.lookup t = some (.lockReset a)) :
    (s.account b).Move byLock (((s.setBlock a.block { s.blocks a.block with
      useCount := 0 }).setPc t (some (.lockLeave a false))).account b) := by
  rw [account_goOn hpc rfl rfl]
  split
  · next hb =>
    subst hb
    exact (Account.Move.lockReset (role_pos hpc rfl) : (s.account a.block).Move byLock _)
  · exact .stay

/-- The lock is given back. -/
theorem move_unlock {ok : Bool} (hpc : s.pcs.lookup t = some (.lockLeave a ok)) :
    (s.account b).Move byLock (((s.setBlock a.block { s.blocks a.block with
      mutexHeld := false }).setPc t none).account b) := by
  rw [account_setBlock_setPc]
  by_cases hb : b = a.block
  · subst hb
    rw [if_pos rfl, vacated_of_role hpc rfl]
    exact (Account.Move.unlock (role_pos hpc rfl) : (s.account a.block).Move byLock _)
  · rw [if_neg hb, vacated_of_role_ne hpc rfl hb]
    exact .stay

/-- A failed attempt under the lock ends with giving the lock back. -/
theorem move_unlock_notLocked {ok : Bool} (hpc : s.pcs.lookup t = some (.lockLeave a ok))
    (hv : s.shared.lookup v = none) :
    (s.account b).Move byLock (((s.setBlock a.block { s.blocks a.block with
      mutexHeld := false }).notLocked t v a).account b) := by
  have hsame : ((s.setBlock a.block { s.blocks a.block with mutexHeld := false }).notLocked
      t v a).account b =
      ((s.setBlock a.block { s.blocks a.block with mutexHeld := false }).setPc t none).account b := by
    rw [notLocked, account_ended, account_setPc, account_setPc]
    split
    · rw [account_setShared]
      show shiftAt b 1 (shiftAt b (-1) _ (roleOf (s.pcs.lookup t))) _ = _
      rw [show (s.setBlock a.block _).shared.lookup v = none from hv]
      simp [pointee, Account.unit]
      rfl
    · rfl
  rw [hsame]
  exact move_unlock hpc

end CountState

end Rtfsc.Stl
