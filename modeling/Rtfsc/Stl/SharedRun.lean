import Rtfsc.Stl.SharedMoves

/-!
# Runs of shared counts

What holds of the counts in every state that the threads can reach, and what has been called by then.
-/

namespace Rtfsc.Stl

open Rtfsc.Machine

/-- The attempt that a thread is in. -/
def Pc.attempt : Pc → Option Attempt
  | .lockSingle a | .lockMutex a | .lockAdd a | .lockReset a | .lockLeave a _ | .lockLoad a
  | .lockCas a _ => some a
  | _ => none

/-- The place is one of the policy. -/
def Pc.fits (policy : LockPolicy) : Pc → Prop
  | .lockMutex _ | .lockAdd _ | .lockReset _ | .lockLeave _ _ => policy = .mutex
  | .lockSingle _ | .lockLoad _ | .lockCas _ _ => policy ≠ .mutex
  | _ => True

/-- Shared owners are made from weak ones under the lock. -/
def LockPolicy.byLock (policy : LockPolicy) : Bool := policy == .mutex

namespace CountState

/-- A thread may be there: the place is one of the policy, the block exists, and when the use count was 0
at the beginning of the attempt, there is no shared owner. -/
def Fine (policy : LockPolicy) (s : CountState) (pc : Pc) : Prop :=
  pc.fits policy ∧ ∀ a, pc.attempt = some a →
    a.block < s.next ∧ (a.atZero = true → (s.account a.block).owners = 0)

/-- What holds between steps; `gone` are blocks that have lost their last shared owner. -/
structure Holds (policy : LockPolicy) (gone : Nat → Prop) (s : CountState) : Prop where
  sound : ∀ b < s.next, (s.account b).Sound policy.byLock
  unborn : ∀ b, s.next ≤ b → s.account b = Account.unborn
  fine : ∀ t pc, s.pcs.lookup t = some pc → Fine policy s pc
  ended : ∀ r ∈ s.attempts, r.1.atZero = true → r.2 = false
  gone : ∀ b, gone b → b < s.next ∧ (s.account b).owners = 0

variable {gone : Nat → Prop} {policy : LockPolicy} {s s' : CountState} {t v w r b : Nat} {e : Event}

theorem init_holds (policy : LockPolicy) : Holds policy (fun _ => False) init where
  sound b hb := absurd hb (Nat.not_lt_zero b)
  unborn b _ := rfl
  fine t pc h := by cases h
  ended r h := by cases h
  gone b h := h.elim

namespace Holds

/-- Without shared owners, an object gets none. -/
theorem owners_zero (h : Holds policy gone s)
    (hmove : (s.account b).Move policy.byLock (s'.account b)) (hzero : (s.account b).owners = 0) :
    (s'.account b).owners = 0 := by
  rcases Nat.lt_or_ge b s.next with hb | hb
  · exact (h.sound b hb).owners_zero hmove hzero
  · have hun := h.unborn b hb
    rw [hun] at hmove
    rw [Account.move_unborn hmove]
    rfl

/-- A step that moves every account and takes one thread to a fine place. -/
theorem step (h : Holds policy gone s)
    (hmove : ∀ b, (s.account b).Move policy.byLock (s'.account b)) (hnext : s'.next = s.next)
    (hpcs : ∀ t pc, s'.pcs.lookup t = some pc → Fine policy s pc)
    (hended : ∀ r ∈ s'.attempts, r.1.atZero = true → r.2 = false) : Holds policy gone s' where
  sound b hb := (h.sound b (hnext ▸ hb)).move (hmove b)
  unborn b hb := by
    have hm := hmove b
    rw [h.unborn b (hnext ▸ hb)] at hm
    exact Account.move_unborn hm
  fine t pc hpc := by
    obtain ⟨hfits, hatt⟩ := hpcs t pc hpc
    refine ⟨hfits, fun a ha => ?_⟩
    obtain ⟨hb, hzero⟩ := hatt a ha
    exact ⟨hnext ▸ hb, fun hz => h.owners_zero (hmove a.block) (hzero hz)⟩
  ended := hended
  gone b hb := by
    obtain ⟨hlt, hzero⟩ := h.gone b hb
    exact ⟨hnext ▸ hlt, h.owners_zero (hmove b) hzero⟩

/-- Where the threads are when one has gone elsewhere. -/
theorem fine_put (h : Holds policy gone s) {n : Option Pc} (hn : ∀ pc, n = some pc → Fine policy s pc)
    {t' : Nat} {pc : Pc} (hpc : (put s.pcs t n).lookup t' = some pc) : Fine policy s pc := by
  rw [lookup_put] at hpc
  split at hpc
  · exact hn pc hpc
  · exact h.fine t' pc hpc

/-- A place without an attempt is fine. -/
theorem fine_of_none {pc : Pc} (hfits : pc.fits policy) (h : pc.attempt = none) :
    Fine policy s pc := by
  refine ⟨hfits, fun a ha => ?_⟩
  rw [h] at ha
  cases ha

end Holds

theorem Holds.lt_of_weakOwner (h : Holds policy gone s) (hpos : 0 < (s.account b).weakOwners) :
    b < s.next := by
  by_contra hb
  rw [h.unborn b (Nat.not_lt.mp hb)] at hpos
  cases hpos

/-- The first reference to a new block. -/
theorem construct_holds (h : Holds policy gone s) (hv : s.shared.lookup v = none) :
    Holds policy gone { s with
      blocks := Function.update s.blocks s.next ⟨1, 1, false, 0, 0, 0⟩
      next := s.next + 1
      shared := put s.shared v (some (t, some s.next)) } := by
  have hacc : ∀ b, CountState.account { s with
      blocks := Function.update s.blocks s.next ⟨1, 1, false, 0, 0, 0⟩
      next := s.next + 1
      shared := put s.shared v (some (t, some s.next)) } b =
      ((s.setBlock s.next ⟨1, 1, false, 0, 0, 0⟩).setShared v (some (t, some s.next))).account b :=
    fun b => rfl
  have hold : ∀ b, b ≠ s.next →
      ((s.setBlock s.next ⟨1, 1, false, 0, 0, 0⟩).setShared v (some (t, some s.next))).account b =
        s.account b := by
    intro b hb
    rw [account_setShared, account_setBlock, if_neg hb]
    rw [show (s.setBlock s.next _).shared.lookup v = none from hv]
    simp [pointee, Account.unit, Ne.symm hb]
  have hnew : ((s.setBlock s.next ⟨1, 1, false, 0, 0, 0⟩).setShared v
      (some (t, some s.next))).account s.next = Account.born := by
    rw [account_setShared, account_setBlock, if_pos rfl, h.unborn s.next (Nat.le_refl _)]
    rw [show (s.setBlock s.next _).shared.lookup v = none from hv]
    simp [pointee, Account.unit, withBlock, Account.unborn, Account.born]
  refine ⟨fun b hb => ?_, fun b hb => ?_, fun t' pc hpc => ?_, h.ended, fun b hgone => ?_⟩
  · rw [hacc]
    rcases Nat.eq_or_lt_of_le (Nat.le_of_lt_succ hb) with rfl | hlt
    · rw [hnew]
      exact Account.born_sound
    · rw [hold b (Nat.ne_of_lt hlt)]
      exact h.sound b hlt
  · rw [hacc, hold b (Nat.ne_of_gt hb)]
    exact h.unborn b (Nat.le_of_succ_le hb)
  · obtain ⟨hfits, hatt⟩ := h.fine t' pc hpc
    refine ⟨hfits, fun a ha => ?_⟩
    obtain ⟨hb, hzero⟩ := hatt a ha
    refine ⟨Nat.lt_succ_of_lt hb, fun hz => ?_⟩
    rw [hacc, hold a.block (Nat.ne_of_lt hb)]
    exact hzero hz
  · obtain ⟨hlt, hzero⟩ := h.gone b hgone
    rw [hacc, hold b (Nat.ne_of_lt hlt)]
    exact ⟨Nat.lt_succ_of_lt hlt, hzero⟩

/-- A step that leaves the threads where they are. -/
theorem Holds.stay (h : Holds policy gone s)
    (hmove : ∀ b, (s.account b).Move policy.byLock (s'.account b)) (hnext : s'.next = s.next)
    (hpcs : s'.pcs = s.pcs) (hended : s'.attempts = s.attempts) : Holds policy gone s' :=
  h.step hmove hnext (fun t pc hpc => h.fine t pc (hpcs ▸ hpc)) (hended ▸ h.ended)

/-- A step that takes one thread elsewhere. -/
theorem Holds.go (h : Holds policy gone s) (t : Nat) (n : Option Pc)
    (hmove : ∀ b, (s.account b).Move policy.byLock (s'.account b)) (hnext : s'.next = s.next)
    (hpcs : s'.pcs = put s.pcs t n) (hn : ∀ pc, n = some pc → Fine policy s pc)
    (hended : s'.attempts = s.attempts) : Holds policy gone s' :=
  h.step hmove hnext (fun _ _ hpc => h.fine_put hn (hpcs ▸ hpc)) (hended ▸ h.ended)

/-- Behind the first operation of a release. -/
theorem fine_dispose {c : Int} {pc : Pc}
    (h : (if c = 1 then some (Pc.dispose b) else none) = some pc) : Fine policy s pc := by
  obtain ⟨_, hpc⟩ := Option.ite_none_right_eq_some.mp h
  cases hpc
  exact Holds.fine_of_none trivial rfl

theorem fine_destroy {c : Int} {pc : Pc}
    (h : (if c = 1 then some (Pc.destroy b) else none) = some pc) : Fine policy s pc := by
  obtain ⟨_, hpc⟩ := Option.ite_none_right_eq_some.mp h
  cases hpc
  exact Holds.fine_of_none trivial rfl

/-- A step that ends in the first operation of a release. -/
theorem Holds.release {m : CountState} {p : Option Nat} (h : Holds policy gone s)
    (hmove : ∀ b, (s.account b).Move policy.byLock ((m.release t p).account b))
    (hnext : m.next = s.next) (hpcs : m.pcs = s.pcs) (hended : m.attempts = s.attempts) :
    Holds policy gone (m.release t p) := by
  cases p with
  | none =>
    refine h.go t none hmove hnext ?_ (fun pc hpc => by cases hpc) hended
    rw [← hpcs]
    rfl
  | some b =>
    refine h.go t (if (m.blocks b).useCount = 1 then some (.dispose b) else none) hmove hnext ?_ (fun pc hpc => fine_dispose hpc) hended
    rw [← hpcs]
    rfl

theorem Holds.weakRelease {m : CountState} {p : Option Nat} (h : Holds policy gone s)
    (hmove : ∀ b, (s.account b).Move policy.byLock ((m.weakRelease t p).account b))
    (hnext : m.next = s.next) (hpcs : m.pcs = s.pcs) (hended : m.attempts = s.attempts) :
    Holds policy gone (m.weakRelease t p) := by
  cases p with
  | none =>
    refine h.go t none hmove hnext ?_ (fun pc hpc => by cases hpc) hended
    rw [← hpcs]
    rfl
  | some b =>
    refine h.go t (if (m.blocks b).weakCount = 1 then some (.destroy b) else none) hmove hnext ?_ (fun pc hpc => fine_destroy hpc) hended
    rw [← hpcs]
    rfl

/-- An operation that begins keeps what holds. -/
theorem begin_holds (h : Holds policy gone s) (hidle : s.pcs.lookup (actor e) = none)
    (he : s.begin policy e = some s') : Holds policy gone s' := by
  cases e with
  | construct t v =>
    obtain ⟨hv, hs⟩ := Option.ite_none_right_eq_some.mp he
    cases hs
    exact construct_holds h hv
  | default t v =>
    obtain ⟨hv, hs⟩ := Option.ite_none_right_eq_some.mp he
    cases hs
    exact h.stay (fun b => move_default hv) rfl rfl rfl
  | copy t v r =>
    obtain ⟨hv, hs⟩ := Option.ite_none_right_eq_some.mp he
    obtain ⟨p, hp, hs⟩ := Option.bind_eq_some_iff.mp hs
    cases hs
    refine h.stay (fun b => move_copy hv (held_eq_some.mp hp)) ?_ ?_ ?_ <;> cases p <;> rfl
  | assign t v r =>
    obtain ⟨old, hold, he⟩ := Option.bind_eq_some_iff.mp he
    obtain ⟨tmp, htmp, hs⟩ := Option.bind_eq_some_iff.mp he
    cases hs
    split
    · exact h
    · refine h.go t (some (.assign v tmp)) (fun b => move_assign hidle (held_eq_some.mp htmp)) ?_ ?_
        (fun pc hpc => ?_) ?_
      · cases tmp <;> rfl
      · cases tmp <;> rfl
      · cases hpc
        exact Holds.fine_of_none trivial rfl
      · cases tmp <;> rfl
  | swap t v r =>
    obtain ⟨p, hp, he⟩ := Option.bind_eq_some_iff.mp he
    obtain ⟨q, hq, hs⟩ := Option.bind_eq_some_iff.mp he
    cases hs
    exact h.stay (fun b => move_swap (held_eq_some.mp hp) (held_eq_some.mp hq)) rfl rfl rfl
  | drop t v =>
    obtain ⟨p, hp, hs⟩ := Option.bind_eq_some_iff.mp he
    cases hs
    exact h.release (fun b => move_drop hidle (held_eq_some.mp hp)) rfl rfl rfl
  | hand t v t' =>
    obtain ⟨p, hp, hs⟩ := Option.bind_eq_some_iff.mp he
    cases hs
    exact h.stay (fun b => move_hand (held_eq_some.mp hp)) rfl rfl rfl
  | weakDefault t w =>
    obtain ⟨hw, hs⟩ := Option.ite_none_right_eq_some.mp he
    cases hs
    exact h.stay (fun b => move_weakDefault hw) rfl rfl rfl
  | weakOfShared t w r =>
    obtain ⟨hw, hs⟩ := Option.ite_none_right_eq_some.mp he
    obtain ⟨p, hp, hs⟩ := Option.bind_eq_some_iff.mp hs
    cases hs
    refine h.stay (fun b => move_weakCopy hw fun hb => .inl (owners_pos (held_eq_some.mp hp) hb))
      ?_ ?_ ?_ <;> cases p <;> rfl
  | weakCopy t w r =>
    obtain ⟨hw, hs⟩ := Option.ite_none_right_eq_some.mp he
    obtain ⟨p, hp, hs⟩ := Option.bind_eq_some_iff.mp hs
    cases hs
    refine h.stay
      (fun b => move_weakCopy hw fun hb => .inr (weakOwners_pos (held_eq_some.mp hp) hb))
      ?_ ?_ ?_ <;> cases p <;> rfl
  | weakMove t w r =>
    obtain ⟨hw, hs⟩ := Option.ite_none_right_eq_some.mp he
    obtain ⟨p, hp, hs⟩ := Option.bind_eq_some_iff.mp hs
    cases hs
    exact h.stay (fun b => move_weakMove hw (held_eq_some.mp hp)) rfl rfl rfl
  | weakAssignShared t w r =>
    obtain ⟨_, _, he⟩ := Option.bind_eq_some_iff.mp he
    obtain ⟨tmp, htmp, hs⟩ := Option.bind_eq_some_iff.mp he
    cases hs
    refine h.go t (some (.weakAssign w tmp))
      (fun b => move_weakAssign hidle fun hb => .inl (owners_pos (held_eq_some.mp htmp) hb))
      ?_ ?_ (fun pc hpc => ?_) ?_
    · cases tmp <;> rfl
    · cases tmp <;> rfl
    · cases hpc
      exact Holds.fine_of_none trivial rfl
    · cases tmp <;> rfl
  | weakAssign t w r =>
    obtain ⟨_, _, he⟩ := Option.bind_eq_some_iff.mp he
    obtain ⟨tmp, htmp, hs⟩ := Option.bind_eq_some_iff.mp he
    cases hs
    refine h.go t (some (.weakAssign w tmp))
      (fun b => move_weakAssign hidle fun hb => .inr (weakOwners_pos (held_eq_some.mp htmp) hb))
      ?_ ?_ (fun pc hpc => ?_) ?_
    · cases tmp <;> rfl
    · cases tmp <;> rfl
    · cases hpc
      exact Holds.fine_of_none trivial rfl
    · cases tmp <;> rfl
  | weakAssignMove t w r =>
    obtain ⟨old, hold, he⟩ := Option.bind_eq_some_iff.mp he
    obtain ⟨p, hp, hs⟩ := Option.bind_eq_some_iff.mp he
    cases hs
    exact h.weakRelease
      (fun b => move_weakAssignMove hidle (held_eq_some.mp hold) (held_eq_some.mp hp)) rfl rfl rfl
  | weakSwap t w r =>
    obtain ⟨p, hp, he⟩ := Option.bind_eq_some_iff.mp he
    obtain ⟨q, hq, hs⟩ := Option.bind_eq_some_iff.mp he
    cases hs
    exact h.stay (fun b => move_weakSwap (held_eq_some.mp hp) (held_eq_some.mp hq)) rfl rfl rfl
  | weakDrop t w =>
    obtain ⟨p, hp, hs⟩ := Option.bind_eq_some_iff.mp he
    cases hs
    exact h.weakRelease (fun b => move_weakDrop hidle (held_eq_some.mp hp)) rfl rfl rfl
  | weakHand t w t' =>
    obtain ⟨p, hp, hs⟩ := Option.bind_eq_some_iff.mp he
    cases hs
    exact h.stay (fun b => move_weakHand (held_eq_some.mp hp)) rfl rfl rfl
  | lock t r nothrow v =>
    obtain ⟨hv, hs⟩ := Option.ite_none_right_eq_some.mp he
    obtain ⟨p, hp, hs⟩ := Option.bind_eq_some_iff.mp hs
    have hr := held_eq_some.mp hp
    cases p with
    | none =>
      cases hs
      split
      · exact h.stay (fun b => move_default hv) rfl rfl rfl
      · exact h
    | some b =>
      cases hs
      have hb := h.lt_of_weakOwner (weakOwners_pos hr rfl)
      have hzero : decide ((s.blocks b).useCount = 0) = true → (s.account b).owners = 0 := by
        intro hz
        have huse : (s.account b).use = 0 := of_decide_eq_true hz
        have hsound := h.sound b hb
        have heq := hsound.use
        have hnn := hsound.nonneg
        omega
      refine h.go t (some (addRefLock policy _)) (fun b' => move_setPc ?_ ?_) rfl rfl
        (fun pc hpc => ?_) rfl
      · show roleOf (s.pcs.lookup t) = none
        rw [show s.pcs.lookup t = none from hidle]
        rfl
      · cases policy <;> rfl
      · cases hpc
        refine ⟨?_, fun a ha => ?_⟩
        · cases policy <;> simp [addRefLock, Pc.fits]
        · cases policy <;> cases ha <;> exact ⟨hb, hzero⟩
  | run t spurious v => cases he

/-- A step that ends an attempt. -/
theorem Holds.ends (h : Holds policy gone s) (t : Nat) (n : Option Pc) (a : Attempt) (ok : Bool)
    (hmove : ∀ b, (s.account b).Move policy.byLock (s'.account b)) (hnext : s'.next = s.next)
    (hpcs : s'.pcs = put s.pcs t n) (hn : ∀ pc, n = some pc → Fine policy s pc)
    (hended : s'.attempts = (a, ok) :: s.attempts) (hok : a.atZero = true → ok = false) :
    Holds policy gone s' := by
  refine h.step hmove hnext (fun _ _ hpc => h.fine_put hn (hpcs ▸ hpc)) fun r hr hz => ?_
  rw [hended] at hr
  rcases List.mem_cons.mp hr with rfl | hr
  · exact hok hz
  · exact h.ended r hr hz

/-- An attempt that fails. -/
theorem Holds.notLocked {m : CountState} {a : Attempt} (h : Holds policy gone s)
    (hmove : ∀ b, (s.account b).Move policy.byLock ((m.notLocked t v a).account b))
    (hnext : m.next = s.next) (hpcs : m.pcs = s.pcs) (hended : m.attempts = s.attempts) :
    Holds policy gone (m.notLocked t v a) := by
  refine h.ends t none a false hmove ?_ ?_ (fun pc hpc => by cases hpc) ?_ fun _ => rfl
  · rw [← hnext]
    unfold CountState.notLocked
    split <;> rfl
  · rw [← hpcs]
    unfold CountState.notLocked
    split <;> rfl
  · rw [← hended]
    unfold CountState.notLocked
    split <;> rfl

/-- An attempt that began with a use count of 0 does not find another one: without the lock the count is
the number of owners. -/
theorem Holds.atZero_revive {a : Attempt} (h : Holds policy gone s) (hb : a.block < s.next)
    (hzero : a.atZero = true → (s.account a.block).owners = 0) (hpol : policy.byLock = false)
    (hne : (s.blocks a.block).useCount ≠ 0) : a.atZero = false := by
  have hsound := h.sound a.block hb
  have huse : (s.account a.block).use ≠ 0 := hne
  have heq := hsound.use
  have hnn := hsound.nonneg
  have hlock := hsound.lock
  have hno := hsound.noLock hpol
  refine Bool.eq_false_iff.mpr fun hz => ?_
  have := hzero hz
  omega

/-- With the lock, nobody else has raised the count. -/
theorem Holds.atZero_lockAdd {a : Attempt} (h : Holds policy gone s) (hb : a.block < s.next)
    (hpc : s.pcs.lookup t = some (.lockAdd a))
    (hzero : a.atZero = true → (s.account a.block).owners = 0)
    (hne : (s.blocks a.block).useCount ≠ 0) : a.atZero = false := by
  have hsound := h.sound a.block hb
  have huse : (s.account a.block).use ≠ 0 := hne
  have hadd : 0 < (s.account a.block).adding := role_pos hpc rfl
  have heq := hsound.use
  have hnn := hsound.nonneg
  have hlock := hsound.lock
  refine Bool.eq_false_iff.mpr fun hz => ?_
  have := hzero hz
  omega

/-- An operation that goes on keeps what holds. -/
theorem goOn_holds {pc : Pc} {spurious : Bool} (h : Holds policy gone s)
    (hpc : s.pcs.lookup t = some pc) (hv : s.shared.lookup v = none)
    (he : s.goOn t spurious v pc = some s') : Holds policy gone s' := by
  obtain ⟨hfits, hatt⟩ := h.fine t pc hpc
  have hrole (hn : pc.role = none) : roleOf (s.pcs.lookup t) = none := by
    rw [hpc]
    exact hn
  have hnone {pc : Pc} (hfits : pc.fits policy) (hn : pc.attempt = none) :
      ∀ pc', some pc = some pc' → Fine policy s pc' := by
    intro pc' heq
    cases heq
    exact Holds.fine_of_none hfits hn
  cases pc with
  | assign dst tmp =>
    simp only [goOn] at he
    split at he
    · next t' old hdst =>
      cases he
      exact h.release (fun b => move_assignStore hpc hdst) rfl rfl rfl
    · cases he
  | weakAssign dst tmp =>
    simp only [goOn] at he
    split at he
    · next t' old hdst =>
      cases he
      exact h.weakRelease (fun b => move_weakAssignStore hpc hdst) rfl rfl rfl
    · cases he
  | dispose b =>
    cases he
    exact h.go t (some (.disposing b)) (fun b => move_dispose hpc) rfl rfl (hnone trivial rfl) rfl
  | disposing b =>
    cases he
    exact h.go t (some (.release b)) (fun b => move_disposing hpc) rfl rfl (hnone trivial rfl) rfl
  | release b =>
    cases he
    exact h.weakRelease (fun b => move_release hpc) rfl rfl rfl
  | destroy b =>
    cases he
    exact h.go t none (fun b => move_destroy hpc) rfl rfl (fun pc hpc => by cases hpc) rfl
  | lockSingle a =>
    obtain ⟨hb, hzero⟩ := hatt a rfl
    simp only [goOn] at he
    split at he
    · cases he
      exact h.notLocked (fun b => move_notLocked (hrole rfl) hv) rfl rfl rfl
    · next hne =>
      cases he
      have hpol : policy.byLock = false := by
        cases policy <;> first | rfl | exact absurd rfl hfits
      have hz := h.atZero_revive hb hzero hpol hne
      exact h.ends t none _ _ (fun b => move_revive (hrole rfl) hv hpol hne) rfl rfl
        (fun pc hpc => by cases hpc) rfl fun hz' => by rw [hz] at hz'; cases hz'
  | lockMutex a =>
    obtain ⟨hb, hzero⟩ := hatt a rfl
    simp only [goOn] at he
    split at he
    · cases he
    · next hfree =>
      cases he
      have hpol : policy = .mutex := hfits
      refine h.go t (some (.lockAdd a)) (fun b => move_lockMutex hpc ?_ (h.sound a.block hb).born
        (Bool.eq_false_iff.mpr hfree)) rfl rfl (fun pc heq => ?_) rfl
      · rw [hpol]
        rfl
      · cases heq
        exact ⟨hpol, hatt⟩
  | lockAdd a =>
    obtain ⟨hb, hzero⟩ := hatt a rfl
    simp only [goOn] at he
    split at he
    · next huse =>
      cases he
      refine h.go t (some (.lockReset a)) (fun b => move_lockRaise hpc huse) rfl rfl
        (fun pc heq => ?_) rfl
      cases heq
      exact ⟨hfits, hatt⟩
    · next hne =>
      cases he
      have hz := h.atZero_lockAdd hb hpc hzero hne
      refine h.ends t (some (.lockLeave a true)) _ _ (fun b => move_lockAdd hpc hv hne) rfl rfl
        (fun pc heq => ?_) rfl fun hz' => by rw [hz] at hz'; cases hz'
      cases heq
      exact ⟨hfits, hatt⟩
  | lockReset a =>
    cases he
    refine h.go t (some (.lockLeave a false)) (fun b => move_lockReset hpc) rfl rfl
      (fun pc heq => ?_) rfl
    cases heq
    exact ⟨hfits, hatt⟩
  | lockLeave a ok =>
    simp only [goOn] at he
    cases ok with
    | true =>
      cases he
      exact h.go t none (fun b => move_unlock hpc) rfl rfl (fun pc hpc => by cases hpc) rfl
    | false =>
      cases he
      exact h.notLocked (fun b => move_unlock_notLocked hpc hv) rfl rfl rfl
  | lockLoad a =>
    cases he
    refine h.go t (some (.lockCas a (s.blocks a.block).useCount))
      (fun b => move_setPc (hrole rfl) rfl) rfl rfl (fun pc heq => ?_) rfl
    cases heq
    exact ⟨hfits, hatt⟩
  | lockCas a count =>
    obtain ⟨hb, hzero⟩ := hatt a rfl
    simp only [goOn] at he
    split at he
    · cases he
      exact h.notLocked (fun b => move_notLocked (hrole rfl) hv) rfl rfl rfl
    · next hcount =>
      split at he
      · next hfound =>
        cases he
        have hpol : policy.byLock = false := by
          cases policy <;> first | rfl | exact absurd rfl hfits
        have hne : (s.blocks a.block).useCount ≠ 0 := hfound.1 ▸ hcount
        have hz := h.atZero_revive hb hzero hpol hne
        rw [setBlock_eq_addRefCopy hfound.1]
        exact h.ends t none _ _ (fun b => move_revive (hrole rfl) hv hpol hne) rfl rfl
          (fun pc hpc => by cases hpc) rfl fun hz' => by rw [hz] at hz'; cases hz'
      · cases he
        refine h.go t (some (.lockCas a (s.blocks a.block).useCount))
          (fun b => move_setPc (hrole rfl) rfl) rfl rfl (fun pc heq => ?_) rfl
        cases heq
        exact ⟨hfits, hatt⟩

/-- Every step keeps what holds. -/
theorem exec_holds (h : Holds policy gone s) (he : exec policy s e = some s') : Holds policy gone s' := by
  unfold exec at he
  split at he
  · next pc t spurious v hpc =>
    obtain ⟨hv, hs⟩ := Option.ite_none_right_eq_some.mp he
    exact goOn_holds h hpc hv hs
  · cases he
  · next hidle => exact begin_holds h hidle he

/-! ## Runs -/

/-- The steps of all threads, in any order. -/
abbrev Steps (policy : LockPolicy) (s : CountState) (es : List Event) (s' : CountState) : Prop :=
  Run (fun s e s' => exec policy s e = some s') s es s'

theorem Holds.run {es : List Event} (h : Holds policy gone s) (hrun : Steps policy s es s') :
    Holds policy gone s' :=
  hrun.stateInvariant h fun _ _ _ ht he => exec_holds ht he

/-- A thread has taken the last strong count of the block and has not given up its weak count yet: it is
before, in or behind the call of `_M_dispose`. -/
def Releasing (s : CountState) (b : Nat) : Prop :=
  ∃ t, s.pcs.lookup t = some (.dispose b) ∨ s.pcs.lookup t = some (.disposing b) ∨
    s.pcs.lookup t = some (.release b)

/-- A thread is about to call `_M_destroy`. -/
def Destroying (s : CountState) (b : Nat) : Prop := ∃ t, s.pcs.lookup t = some (.destroy b)

/-- An attempt to lock of `_S_mutex` is between its increment and its reset. -/
def ResetPending (s : CountState) (b : Nat) : Prop :=
  ∃ t a, s.pcs.lookup t = some (.lockReset a) ∧ a.block = b

theorem inRole_pos_iff {role : Role} :
    0 < s.inRole role b ↔ ∃ t pc, s.pcs.lookup t = some pc ∧ pc.role = some (role, b) := by
  constructor
  · intro h
    obtain ⟨t, pc, hpc, hpos⟩ := exists_of_total_pos h
    refine ⟨t, pc, hpc, ?_⟩
    by_contra hne
    rw [if_neg hne] at hpos
    cases hpos
  · rintro ⟨t, pc, hpc, hrole⟩
    exact inRole_pos hpc hrole

theorem role_toDispose {pc : Pc} (h : pc.role = some (.toDispose, b)) : pc = .dispose b := by
  cases pc <;> simp [Pc.role] at h
  rw [h]

theorem role_disposing {pc : Pc} (h : pc.role = some (.disposing, b)) : pc = .disposing b := by
  cases pc <;> simp [Pc.role] at h
  rw [h]

theorem role_toRelease {pc : Pc} (h : pc.role = some (.toRelease, b)) : pc = .release b := by
  cases pc <;> simp [Pc.role] at h
  rw [h]

theorem role_toDestroy {pc : Pc} (h : pc.role = some (.toDestroy, b)) : pc = .destroy b := by
  cases pc <;> simp [Pc.role] at h
  rw [h]

theorem role_raised {pc : Pc} (h : pc.role = some (.raised, b)) :
    ∃ a, pc = .lockReset a ∧ a.block = b := by
  cases pc with
  | lockReset a => exact ⟨a, rfl, by simpa [Pc.role] using h⟩
  | _ => simp [Pc.role] at h

theorem toDispose_pos : 0 < s.inRole .toDispose b ↔ ∃ t, s.pcs.lookup t = some (.dispose b) := by
  rw [inRole_pos_iff]
  constructor
  · rintro ⟨t, pc, hpc, hrole⟩
    exact ⟨t, role_toDispose hrole ▸ hpc⟩
  · rintro ⟨t, hpc⟩
    exact ⟨t, _, hpc, rfl⟩

theorem toDestroy_pos : 0 < s.inRole .toDestroy b ↔ Destroying s b := by
  rw [inRole_pos_iff]
  constructor
  · rintro ⟨t, pc, hpc, hrole⟩
    exact ⟨t, role_toDestroy hrole ▸ hpc⟩
  · rintro ⟨t, hpc⟩
    exact ⟨t, _, hpc, rfl⟩

theorem raised_pos : 0 < s.inRole .raised b ↔ ResetPending s b := by
  rw [inRole_pos_iff]
  constructor
  · rintro ⟨t, pc, hpc, hrole⟩
    obtain ⟨a, rfl, ha⟩ := role_raised hrole
    exact ⟨t, a, hpc, ha⟩
  · rintro ⟨t, a, hpc, rfl⟩
    exact ⟨t, _, hpc, rfl⟩

theorem releasing_pos : 0 < s.inRole .toDispose b + s.inRole .disposing b + s.inRole .toRelease b ↔
    Releasing s b := by
  constructor
  · intro h
    have hone : 0 < s.inRole .toDispose b ∨ 0 < s.inRole .disposing b ∨ 0 < s.inRole .toRelease b := by
      omega
    rcases hone with h | h | h
    · obtain ⟨t, pc, hpc, hrole⟩ := inRole_pos_iff.mp h
      exact ⟨t, .inl (role_toDispose hrole ▸ hpc)⟩
    · obtain ⟨t, pc, hpc, hrole⟩ := inRole_pos_iff.mp h
      exact ⟨t, .inr (.inl (role_disposing hrole ▸ hpc))⟩
    · obtain ⟨t, pc, hpc, hrole⟩ := inRole_pos_iff.mp h
      exact ⟨t, .inr (.inr (role_toRelease hrole ▸ hpc))⟩
  · rintro ⟨t, hpc | hpc | hpc⟩
    · have := inRole_pos (r := .toDispose) hpc rfl
      omega
    · have := inRole_pos (r := .disposing) hpc rfl
      omega
    · have := inRole_pos (r := .toRelease) hpc rfl
      omega

/-- In every state that the threads can reach, under each policy:
the use count is the number of shared owners, unless an attempt under the lock has just raised a count of
0; the weak count is the number of weak owners, and one more until the release of the last shared owner
has ended;
`_M_dispose` is called once, when no shared owner is left, and is called or about to be as soon as none
is;
`_M_destroy` is called once, when `_M_dispose` has returned and no owner of either kind is left, and is
called or about to be as soon as none is and the last release has ended;
an attempt to lock that began with a use count of 0 has failed if it has ended; an object with a use
count of 0 has no shared owner, and an object without one never has one again. -/
theorem sharedCount_run {es : List Event} (hrun : Steps policy init es s) (hb : b < s.next) :
    (¬ResetPending s b → (s.blocks b).useCount = s.sharedOwners b) ∧
    (0 < s.sharedOwners b ∨ Releasing s b → (s.blocks b).weakCount = s.weakOwners b + 1) ∧
    (s.sharedOwners b = 0 → ¬Releasing s b → (s.blocks b).weakCount = s.weakOwners b) ∧
    ((s.blocks b).disposes ≤ 1 ∧
      ((s.blocks b).disposes = 1 ∨ (∃ t, s.pcs.lookup t = some (.dispose b)) ↔
        s.sharedOwners b = 0)) ∧
    ((s.blocks b).destroys ≤ 1 ∧
      ((s.blocks b).destroys = 1 ∨ Destroying s b ↔
        (s.blocks b).returns = 1 ∧ s.sharedOwners b = 0 ∧ s.weakOwners b = 0 ∧ ¬Releasing s b)) ∧
    (∀ r ∈ s.attempts, r.1.atZero = true → r.2 = false) ∧
    ((s.blocks b).useCount = 0 → s.sharedOwners b = 0) ∧
    (s.sharedOwners b = 0 → ∀ es' s', Steps policy s es' s' → s'.sharedOwners b = 0) := by
  have hholds : Holds policy (fun _ => False) s := (init_holds policy).run hrun
  obtain ⟨hnn, huse, hweak, halive, hdead, hdisp, hret, hdest, hlock, hno⟩ := hholds.sound b hb
  have hu1 := Account.unit_eq (0 < (s.account b).owners)
  have hu2 := Account.unit_eq ((s.account b).weak = 0)
  have hraised := raised_pos (s := s) (b := b)
  have hrel := releasing_pos (s := s) (b := b)
  have hdis := toDispose_pos (s := s) (b := b)
  have hdes := toDestroy_pos (s := s) (b := b)
  simp only [account] at hnn huse hweak halive hdead hdisp hret hdest hu1 hu2
  refine ⟨fun h => ?_, fun h => ?_, fun h h' => ?_, ⟨?_, ?_⟩, ⟨?_, ?_⟩, hholds.ended, fun h => ?_,
    fun h => ?_⟩
  · rw [← hraised] at h
    omega
  · rw [← hrel] at h
    omega
  · rw [← hrel] at h'
    omega
  · omega
  · rw [← hdis]
    omega
  · omega
  · rw [← hdes, ← hrel]
    omega
  · omega
  · have hzero : (s.account b).owners = 0 := congrArg Nat.cast h
    intro es' s' hrun'
    have hgone : Holds policy (fun b' => b' = b) s :=
      { hholds with gone := fun b' heq => heq ▸ ⟨hb, hzero⟩ }
    exact Int.natCast_eq_zero.mp ((hgone.run hrun').gone b rfl).2

/-- Two threads share an object and let go of it. The first one tries to lock it again while the second
one disposes of it, and raises the dead count for a moment. -/
def lockedTooLate : List Event :=
  [.construct 0 0, .weakOfShared 0 0 0, .copy 0 1 0, .hand 0 1 1, .weakCopy 0 1 0, .weakHand 0 1 1,
    .drop 0 0, .drop 1 1, .lock 0 0 true 2, .run 0 false 2, .run 0 false 2, .run 1 false 3,
    .run 0 false 2, .run 0 false 2, .run 1 false 3, .run 1 false 3, .weakDrop 0 0, .weakDrop 1 1,
    .run 1 false 3]

theorem sharedCount_run_lockedTooLate : ∃ s, Steps .mutex init lockedTooLate s ∧
    (s.blocks 0).destroys = 1 ∧ (s.blocks 0).returns = 1 ∧ s.sharedOwners 0 = 0 ∧
      s.weakOwners 0 = 0 := by
  obtain ⟨s, hrun, hseen⟩ := Run.exists_of_foldlM_option (exec .mutex) init lockedTooLate
    (fun s => ((s.blocks 0).destroys, s.next)) (b := (1, 1)) (by decide)
  have hdestroys : (s.blocks 0).destroys = 1 := congrArg Prod.fst hseen
  have hnext : s.next = 1 := congrArg Prod.snd hseen
  have hb : 0 < s.next := by rw [hnext]; decide
  have hend := (sharedCount_run hrun hb).2.2.2.2.1.2.mp (.inl hdestroys)
  exact ⟨s, hrun, hdestroys, hend.1, hend.2.1, hend.2.2.1⟩

end CountState

end Rtfsc.Stl
