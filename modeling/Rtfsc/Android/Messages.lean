import Mathlib.Data.List.Basic
import Mathlib.Data.List.Perm.Basic
import Mathlib.Order.Nat

/-!
# MessageQueue: the list of messages

The walks of a `MessageQueue` along its list: where a message or a barrier is inserted, which barrier
is removed, and which message `next` takes. `firstEligible` says which message that is to be.
-/

namespace Rtfsc.Android

/-- `Message`. A barrier is a message without a target, which has its token in `arg1`. The object tells
messages apart that are in use at one time, `arrival` numbers all that were ever inserted. -/
structure Message where
  object : Nat
  when : Nat
  hasTarget : Bool
  isAsynchronous : Bool
  arg1 : UInt32
  arrival : Nat
deriving DecidableEq

/-- The walk of `postSyncBarrier`, and where that of `enqueueMessage` ends: behind the messages that are
due no later. -/
def insertBehind (msg : Message) : List Message → List Message
  | [] => [msg]
  | p :: l => if p.when ≤ msg.when then p :: insertBehind msg l else msg :: p :: l

/-- The insertion of `postSyncBarrier`. -/
def insertBarrier (msg : Message) (l : List Message) : List Message :=
  if msg.when ≠ 0 then insertBehind msg l else msg :: l

/-- The loop of `enqueueMessage`, behind the head. -/
def enqueueWalk (msg : Message) : Bool → List Message → Bool × List Message
  | needWake, [] => (needWake, [msg])
  | needWake, p :: l =>
    if msg.when < p.when then (needWake, msg :: p :: l)
    else
      let (needWake, l) := enqueueWalk msg (needWake && !p.isAsynchronous) l
      (needWake, p :: l)

/-- The insertion of `enqueueMessage`, and whether it wakes the looper. -/
def insertMessage (msg : Message) (mBlocked : Bool) : List Message → Bool × List Message
  | [] => (mBlocked, [msg])
  | p :: l =>
    if msg.when = 0 ∨ msg.when < p.when then (mBlocked, msg :: p :: l)
    else
      let (needWake, l) := enqueueWalk msg (mBlocked && !p.hasTarget && msg.isAsynchronous) l
      (needWake, p :: l)

/-- The test for the barrier with this token. -/
def isBarrier (token : UInt32) (p : Message) : Bool := !p.hasTarget && p.arg1 == token

/-- The first message of a kind, and the list without it. -/
def takeFirst (kind : Message → Bool) : List Message → Option (Message × List Message)
  | [] => none
  | m :: l =>
    if kind m then some (m, l) else (takeFirst kind l).map fun (a, rest) => (a, m :: rest)

/-- The removal of `removeSyncBarrier`, and whether it wakes the looper; `none` when it throws. -/
def removeBarrier (token : UInt32) : List Message → Option (Message × Bool × List Message)
  | [] => none
  | p :: l =>
    if isBarrier token p then some (p, l.head?.all Message.hasTarget, l)
    else (takeFirst (isBarrier token) l).map fun (a, rest) => (a, false, p :: rest)

/-- The message that `next` finds, and the list without it. -/
def takeEligible : List Message → Option (Message × List Message)
  | [] => none
  | m :: l =>
    if m.hasTarget then some (m, l)
    else (takeFirst Message.isAsynchronous l).map fun (a, rest) => (a, m :: rest)

/-- The message that is to be next: the head, or the first asynchronous message behind a barrier. -/
def firstEligible : List Message → Option Message
  | [] => none
  | m :: l => if m.hasTarget then some m else l.find? Message.isAsynchronous

variable {msg m a b p : Message} {l rest : List Message} {needWake mBlocked : Bool} {token : UInt32}

/-! ## Insertions -/

theorem enqueueWalk_snd : (enqueueWalk msg needWake l).2 = insertBehind msg l := by
  induction l generalizing needWake with
  | nil => rfl
  | cons p l ih =>
    unfold enqueueWalk insertBehind
    by_cases h : msg.when < p.when
    · rw [if_pos h, if_neg (Nat.not_le.mpr h)]
    · rw [if_neg h, if_pos (Nat.not_lt.mp h)]
      exact congrArg (p :: ·) ih

theorem insertMessage_snd : (insertMessage msg mBlocked l).2 = msg :: l ∨
    ∃ p l', l = p :: l' ∧ p.when ≤ msg.when ∧ msg.when ≠ 0 ∧
      (insertMessage msg mBlocked l).2 = p :: insertBehind msg l' := by
  cases l with
  | nil => exact .inl rfl
  | cons p l =>
    rw [insertMessage]
    split
    · exact .inl rfl
    · next h =>
      rw [not_or, Nat.not_lt] at h
      exact .inr ⟨p, l, rfl, h.2, h.1, congrArg (p :: ·) enqueueWalk_snd⟩

theorem insertBehind_perm : (insertBehind msg l).Perm (msg :: l) := by
  induction l with
  | nil => exact List.Perm.refl _
  | cons p l ih =>
    unfold insertBehind
    split
    · exact (ih.cons p).trans (List.Perm.swap ..)
    · exact List.Perm.refl _

theorem insertBarrier_perm : (insertBarrier msg l).Perm (msg :: l) := by
  unfold insertBarrier
  split
  · exact insertBehind_perm
  · exact List.Perm.refl _

theorem insertMessage_perm : (insertMessage msg mBlocked l).2.Perm (msg :: l) := by
  rcases @insertMessage_snd msg l mBlocked with heq | ⟨p, l', rfl, -, -, heq⟩
  · rw [heq]
  · rw [heq]
    exact (insertBehind_perm.cons p).trans (List.Perm.swap ..)

/-! ## The order -/

/-- By time, and by arrival where the time is the same and not 0. -/
def Before (a b : Message) : Prop :=
  a.when < b.when ∨ a.when = b.when ∧ (a.when ≠ 0 → a.arrival < b.arrival)

theorem Before.le (h : Before a b) : a.when ≤ b.when := by
  rcases h with h | ⟨h, -⟩
  · exact h.le
  · exact h.le

/-- A message in front of one that is no earlier. -/
theorem before_of_early (h : msg.when = 0 ∨ msg.when < b.when) : Before msg b := by
  rcases h with h | h
  · rcases Nat.eq_zero_or_pos b.when with hb | hb
    · exact .inr ⟨h.trans hb.symm, fun hne => absurd h hne⟩
    · exact .inl (h ▸ hb)
  · exact .inl h

/-- A list in order, into which a message is put that arrives last. -/
theorem insertBehind_ordered (hl : l.Pairwise Before) (hlast : ∀ a ∈ l, a.arrival < msg.arrival) :
    (insertBehind msg l).Pairwise Before := by
  induction l with
  | nil => exact List.pairwise_singleton ..
  | cons p l ih =>
    obtain ⟨hp, hl⟩ := List.pairwise_cons.mp hl
    unfold insertBehind
    split
    · next hle =>
      refine List.pairwise_cons.mpr ⟨fun b hb => ?_, ih hl fun a ha => hlast a (List.mem_cons_of_mem _ ha)⟩
      rcases List.mem_cons.mp (insertBehind_perm.mem_iff.mp hb) with rfl | hb
      · rcases hle.lt_or_eq with hlt | heq
        · exact .inl hlt
        · exact .inr ⟨heq, fun _ => hlast p List.mem_cons_self⟩
      · exact hp b hb
    · next hnot =>
      refine List.pairwise_cons.mpr ⟨fun b hb => ?_, List.pairwise_cons.mpr ⟨hp, hl⟩⟩
      rcases List.mem_cons.mp hb with rfl | hb
      · exact .inl (Nat.not_le.mp hnot)
      · exact .inl ((Nat.not_le.mp hnot).trans_le (hp b hb).le)

theorem insertBarrier_ordered (hl : l.Pairwise Before) (hlast : ∀ a ∈ l, a.arrival < msg.arrival) :
    (insertBarrier msg l).Pairwise Before := by
  unfold insertBarrier
  split
  · exact insertBehind_ordered hl hlast
  · next hzero => exact List.pairwise_cons.mpr ⟨fun b _ => before_of_early (.inl (not_not.mp hzero)), hl⟩

theorem insertMessage_ordered (hl : l.Pairwise Before) (hlast : ∀ a ∈ l, a.arrival < msg.arrival) :
    (insertMessage msg mBlocked l).2.Pairwise Before := by
  cases l with
  | nil => exact List.pairwise_singleton ..
  | cons p l =>
    rw [insertMessage]
    split
    · next h =>
      refine List.pairwise_cons.mpr ⟨fun b hb => before_of_early (h.imp_right fun hlt => ?_), hl⟩
      rcases List.mem_cons.mp hb with rfl | hb
      · exact hlt
      · exact hlt.trans_le ((List.pairwise_cons.mp hl).1 b hb).le
    · next h =>
      rw [not_or, Nat.not_lt] at h
      -- behind the head the walk is that of a barrier
      have hall := insertBehind_ordered hl hlast
      unfold insertBehind at hall
      rw [if_pos h.2] at hall
      show (p :: (enqueueWalk msg _ l).2).Pairwise Before
      rw [enqueueWalk_snd]
      exact hall

/-! ## Removals -/

variable {kind : Message → Bool}

theorem takeFirst_fst : (takeFirst kind l).map Prod.fst = l.find? kind := by
  induction l with
  | nil => rfl
  | cons m l ih =>
    unfold takeFirst
    cases h : kind m with
    | true => simp [h]
    | false =>
      rw [List.find?_cons_of_neg (by simp [h]), ← ih]
      simp only [Bool.false_eq_true, if_false, Option.map_map]
      rfl

theorem takeFirst_split (h : takeFirst kind l = some (m, rest)) :
    kind m = true ∧ ∃ before behind, l = before ++ m :: behind ∧ rest = before ++ behind := by
  induction l generalizing rest with
  | nil => cases h
  | cons p l ih =>
    unfold takeFirst at h
    split at h
    · next hkind =>
      cases h
      exact ⟨hkind, [], _, rfl, rfl⟩
    · obtain ⟨⟨a, rest'⟩, hrest, heq⟩ := Option.map_eq_some_iff.mp h
      cases heq
      obtain ⟨hkind, before, behind, rfl, rfl⟩ := ih hrest
      exact ⟨hkind, p :: before, behind, rfl, rfl⟩

theorem removeBarrier_split (h : removeBarrier token l = some (m, needWake, rest)) :
    isBarrier token m = true ∧
      ∃ before behind, l = before ++ m :: behind ∧ rest = before ++ behind := by
  cases l with
  | nil => cases h
  | cons p l =>
    rw [removeBarrier] at h
    split at h
    · next hkind =>
      cases h
      exact ⟨hkind, [], _, rfl, rfl⟩
    · obtain ⟨⟨a, rest'⟩, hrest, heq⟩ := Option.map_eq_some_iff.mp h
      cases heq
      obtain ⟨hkind, before, behind, rfl, rfl⟩ := takeFirst_split hrest
      exact ⟨hkind, p :: before, behind, rfl, rfl⟩

theorem firstEligible_target (h : p.hasTarget = true) : firstEligible (p :: l) = some p := if_pos h

theorem firstEligible_barrier (h : p.hasTarget = false) :
    firstEligible (p :: l) = l.find? Message.isAsynchronous := if_neg (by simp [h])

theorem takeEligible_fst : (takeEligible l).map Prod.fst = firstEligible l := by
  cases l with
  | nil => rfl
  | cons m l =>
    rw [takeEligible, firstEligible]
    split
    · rfl
    · rw [← takeFirst_fst, Option.map_map]
      rfl

/-- What `next` takes is no barrier, and asynchronous if there is a barrier before it; the rest of the
list stays as it is. -/
theorem takeEligible_split (hasync : ∀ b ∈ l, b.hasTarget = false → b.isAsynchronous = false)
    (h : takeEligible l = some (m, rest)) :
    m.hasTarget = true ∧ ∃ before behind, l = before ++ m :: behind ∧ rest = before ++ behind ∧
      ((∃ b ∈ before, b.hasTarget = false) → m.isAsynchronous = true) := by
  cases l with
  | nil => cases h
  | cons p l =>
    rw [takeEligible] at h
    split at h
    · next htarget =>
      cases h
      exact ⟨htarget, [], rest, rfl, rfl, nofun⟩
    · obtain ⟨⟨a, rest'⟩, hrest, heq⟩ := Option.map_eq_some_iff.mp h
      cases heq
      obtain ⟨hm, before, behind, rfl, rfl⟩ := takeFirst_split hrest
      refine ⟨?_, p :: before, behind, rfl, rfl, fun _ => hm⟩
      cases htarget : m.hasTarget with
      | true => rfl
      | false =>
        have hbarrier := hasync m (by simp) htarget
        rw [hm] at hbarrier
        cases hbarrier

end Rtfsc.Android
