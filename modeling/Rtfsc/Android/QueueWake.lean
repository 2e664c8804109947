import Rtfsc.Android.QueueOrder

/-!
# MessageQueue: no wake is lost

While the looper waits in a poll, either a wake is pending, or the queue does not quit and nothing that
may be next is due before the poll ends. A poll without a timeout does not wait: it is what `next` begins
with, whatever is in the queue.
-/

namespace Rtfsc.Android

open Rtfsc.Machine QueueState

variable {s s' : QueueState} {e : QueueEvent} {answer : Answer} {msg m p : Message}
  {l rest : List Message} {needWake : Bool} {token : UInt32} {es : List (QueueEvent × Answer)}

/-! ## What changes the message that may be next -/

/-- A walk that does not wake has put a message where it is not the first asynchronous one. -/
theorem enqueueWalk_find (h : (enqueueWalk msg needWake l).1 = false)
    (hwake : msg.isAsynchronous = true → needWake = true) :
    (insertBehind msg l).find? Message.isAsynchronous = l.find? Message.isAsynchronous := by
  have hsync (hfalse : needWake = false) : msg.isAsynchronous = false := by
    cases hmsg : msg.isAsynchronous with
    | false => rfl
    | true => exact nomatch (hwake hmsg).symm.trans hfalse
  induction l generalizing needWake with
  | nil =>
    have hmsg := hsync h
    unfold insertBehind
    rw [List.find?_cons_of_neg (by simp [hmsg])]
  | cons p l ih =>
    unfold enqueueWalk at h
    unfold insertBehind
    by_cases hlt : msg.when < p.when
    · rw [if_pos hlt] at h
      have hmsg := hsync h
      rw [if_neg (Nat.not_le.mpr hlt), List.find?_cons_of_neg (by simp [hmsg])]
    · rw [if_neg hlt] at h
      rw [if_pos (Nat.not_lt.mp hlt)]
      cases hp : p.isAsynchronous with
      | true => rw [List.find?_cons_of_pos hp, List.find?_cons_of_pos hp]
      | false =>
        rw [List.find?_cons_of_neg (by simp [hp]), List.find?_cons_of_neg (by simp [hp])]
        rw [hp, Bool.not_false, Bool.and_true] at h
        exact ih h hwake hsync

/-- A message that is enqueued while the looper is blocked and does not wake it is not the next one. -/
theorem insertMessage_firstEligible (h : (insertMessage msg true l).1 = false) :
    firstEligible (insertMessage msg true l).2 = firstEligible l := by
  cases l with
  | nil => cases h
  | cons p l =>
    rw [insertMessage] at h ⊢
    split at h
    · cases h
    · next hbehind =>
      rw [if_neg hbehind]
      show firstEligible (p :: (enqueueWalk msg _ l).2) = _
      cases hp : p.hasTarget with
      | true => rw [firstEligible_target hp, firstEligible_target hp]
      | false =>
        rw [hp] at h
        rw [firstEligible_barrier hp, firstEligible_barrier hp, enqueueWalk_snd]
        exact enqueueWalk_find h fun hmsg => by simp [hmsg]

/-- A message that is not asynchronous is not found. -/
theorem insertBehind_find (hsync : msg.isAsynchronous = false) :
    (insertBehind msg l).find? Message.isAsynchronous = l.find? Message.isAsynchronous := by
  induction l with
  | nil =>
    unfold insertBehind
    rw [List.find?_cons_of_neg (by simp [hsync])]
  | cons p l ih =>
    unfold insertBehind
    split
    · rw [List.find?_cons, List.find?_cons, ih]
    · rw [List.find?_cons_of_neg (by simp [hsync])]

/-- What may be next is no later than the first asynchronous message. -/
theorem firstEligible_of_find (hl : l.Pairwise Before)
    (hbarriers : ∀ b ∈ l, b.hasTarget = false → b.isAsynchronous = false)
    (h : l.find? Message.isAsynchronous = some m) :
    ∃ m', firstEligible l = some m' ∧ m'.when ≤ m.when := by
  cases l with
  | nil => cases h
  | cons p l =>
    cases hp : p.hasTarget with
    | true =>
      refine ⟨p, firstEligible_target hp, ?_⟩
      rcases List.mem_cons.mp (List.mem_of_find?_eq_some h) with rfl | hm
      · exact le_rfl
      · exact ((List.pairwise_cons.mp hl).1 m hm).le
    | false =>
      rw [List.find?_cons_of_neg (by simp [hbarriers p List.mem_cons_self hp])] at h
      exact ⟨m, (firstEligible_barrier hp).trans h, le_rfl⟩

/-- A barrier puts off what may be next. -/
theorem insertBarrier_firstEligible (hl : l.Pairwise Before)
    (hbarriers : ∀ b ∈ l, b.hasTarget = false → b.isAsynchronous = false)
    (htarget : msg.hasTarget = false) (hsync : msg.isAsynchronous = false)
    (h : firstEligible (insertBarrier msg l) = some m) :
    ∃ m', firstEligible l = some m' ∧ m'.when ≤ m.when := by
  have hhead (hfront : firstEligible (msg :: l) = some m) :
      ∃ m', firstEligible l = some m' ∧ m'.when ≤ m.when := by
    rw [firstEligible_barrier htarget] at hfront
    exact firstEligible_of_find hl hbarriers hfront
  unfold insertBarrier at h
  split at h
  · cases l with
    | nil => exact hhead h
    | cons p l =>
      unfold insertBehind at h
      split at h
      · -- the head stays
        refine ⟨m, ?_, le_rfl⟩
        cases hp : p.hasTarget with
        | true =>
          rw [firstEligible_target hp] at h ⊢
          exact h
        | false =>
          rw [firstEligible_barrier hp] at h ⊢
          rw [insertBehind_find hsync] at h
          exact h
      · exact hhead h
  · exact hhead h

/-- A message that is not asynchronous is not missed. -/
theorem takeFirst_find {kind : Message → Bool} (hkind : ∀ b ∈ l, kind b = true → b.isAsynchronous = false)
    (h : takeFirst kind l = some (p, rest)) :
    rest.find? Message.isAsynchronous = l.find? Message.isAsynchronous := by
  obtain ⟨hp, before, behind, rfl, rfl⟩ := takeFirst_split h
  have hsync := hkind p (by simp) hp
  rw [List.find?_append, List.find?_append, List.find?_cons_of_neg (by simp [hsync])]

/-- The removal of a barrier that does not wake leaves what may be next. -/
theorem removeBarrier_firstEligible
    (hbarriers : ∀ b ∈ l, b.hasTarget = false → b.isAsynchronous = false)
    (h : removeBarrier token l = some (m, false, rest)) : firstEligible rest = firstEligible l := by
  have htarget {b : Message} (hb : isBarrier token b = true) : b.hasTarget = false := by
    have hboth : b.hasTarget = false ∧ b.arg1 = token := by simpa [isBarrier] using hb
    exact hboth.1
  cases l with
  | nil => cases h
  | cons p l =>
    rw [removeBarrier] at h
    split at h
    · next hp =>
      -- behind the barrier at the head there is another one
      obtain ⟨hm, hwake, hrest⟩ : p = m ∧ l.head?.all Message.hasTarget = false ∧ l = rest := by
        simpa using h
      subst hrest
      rw [firstEligible_barrier (htarget hp)]
      cases l with
      | nil => cases hwake
      | cons q l =>
        have hq : q.hasTarget = false := by simpa using hwake
        rw [firstEligible_barrier hq, List.find?_cons_of_neg (by simp [hbarriers q (by simp) hq])]
    · obtain ⟨⟨a, rest'⟩, hrest, heq⟩ := Option.map_eq_some_iff.mp h
      cases heq
      cases hp : p.hasTarget with
      | true => rw [firstEligible_target hp, firstEligible_target hp]
      | false =>
        rw [firstEligible_barrier hp, firstEligible_barrier hp]
        exact takeFirst_find (fun b hb hbarrier =>
          hbarriers b (List.mem_cons_of_mem _ hb) (htarget hbarrier)) hrest

/-! ## While the looper waits -/

/-- A poll that was given this timeout at this time ends no later than the message is due. -/
def NotDueBefore (timeout : Int) (since : Nat) (m : Message) : Prop :=
  0 ≤ timeout ∧ since + timeout ≤ m.when

/-- A wake is pending, or the queue does not quit and nothing that may be next is due before the poll
ends. -/
def Guarded (s : QueueState) (timeout : Int) (since : Nat) : Prop :=
  s.wake = true ∨
    s.mQuitting = false ∧ ∀ m, firstEligible s.mMessages = some m → NotDueBefore timeout since m

/-- What holds whenever the looper waits. -/
def WaitInv (s : QueueState) : Prop :=
  ∀ timeout since pending, s.looper = .polling timeout since pending → timeout ≠ 0 →
    s.mBlocked = true ∧ Guarded s timeout since

/-- A call that leaves the looper where it is, and wakes it or puts off what may be next. -/
theorem WaitInv.call (h : WaitInv s) (hlooper : s'.looper = s.looper) (hblocked : s'.mBlocked = s.mBlocked)
    (hwake : s.wake = true → s'.wake = true)
    (hlater : s.mBlocked = true → s.mQuitting = false → s'.wake = true ∨ s'.mQuitting = false ∧
      ∀ m, firstEligible s'.mMessages = some m →
        ∃ m', firstEligible s.mMessages = some m' ∧ m'.when ≤ m.when) : WaitInv s' := by
  intro timeout since pending hpoll hwaits
  rw [hlooper] at hpoll
  obtain ⟨hblock, hguard⟩ := h timeout since pending hpoll hwaits
  refine ⟨hblocked.trans hblock, ?_⟩
  rcases hguard with hpending | ⟨hstays, hdue⟩
  · exact .inl (hwake hpending)
  · rcases hlater hblock hstays with hpending | ⟨hstays', hput⟩
    · exact .inl hpending
    · refine .inr ⟨hstays', fun m hm => ?_⟩
      obtain ⟨m', hm', hle⟩ := hput m hm
      obtain ⟨hfinite, hlate⟩ := hdue m' hm'
      exact ⟨hfinite, by omega⟩

theorem WaitInv.of_looper (hnot : ∀ timeout since pending, s.looper = .polling timeout since pending →
    timeout = 0) : WaitInv s :=
  fun timeout since pending hpoll hwaits => absurd (hnot timeout since pending hpoll) hwaits

theorem enqueueMessage_wait {object : Nat} {hasTarget isAsynchronous : Bool} {arg1 : UInt32}
    {when : Nat} (h : WaitInv s)
    (hstep : s.enqueueMessage object hasTarget isAsynchronous arg1 when = (answer, s')) :
    WaitInv s' := by
  unfold enqueueMessage at hstep
  split at hstep
  · cases hstep
    exact h
  · split at hstep
    · cases hstep
      exact h
    · split at hstep
      · cases hstep
        exact h
      · cases hstep
        refine h.call rfl rfl (fun hpending => ?_) fun hblocked hstays => ?_
        · simp [hpending]
        · rw [hblocked]
          cases hneed : (insertMessage ⟨object, when, hasTarget, isAsynchronous, arg1,
              s.inserted.length⟩ true s.mMessages).1 with
          | true =>
            refine .inl ?_
            show (s.wake || (insertMessage _ true s.mMessages).1) = true
            rw [hneed, Bool.or_true]
          | false =>
            refine .inr ⟨hstays, fun m hm => ⟨m, ?_, le_rfl⟩⟩
            rw [← insertMessage_firstEligible hneed]
            exact hm

theorem postSyncBarrier_wait {object when : Nat} (hinv : QueueInv s) (h : WaitInv s) :
    WaitInv (s.postSyncBarrier object when).2 :=
  h.call rfl rfl id fun _ hstays => .inr ⟨hstays, fun _ hm =>
    insertBarrier_firstEligible hinv.ordered hinv.barriers rfl rfl hm⟩

theorem removeSyncBarrier_wait (hinv : QueueInv s) (h : WaitInv s) (token : UInt32) :
    WaitInv (s.removeSyncBarrier token).2 := by
  unfold removeSyncBarrier
  split
  · exact h
  · next p needWake l hremove =>
    refine h.call rfl rfl (fun hpending => ?_) fun _ hstays => ?_
    · simp [hpending]
    · cases needWake with
      | true => exact .inl (by simp [hstays])
      | false =>
        refine .inr ⟨hstays, fun m hm => ⟨m, ?_, le_rfl⟩⟩
        rw [← removeBarrier_firstEligible hinv.barriers hremove]
        exact hm

theorem quit_wait (h : WaitInv s) (kept gone : List Message) :
    WaitInv (s.quit kept gone).2 := by
  unfold quit
  split
  · exact h
  · exact h.call rfl rfl (fun _ => rfl) fun _ _ => .inl rfl

theorem settle_wait {now idlers : Nat} {pending timeout : Int}
    (hlate : ∀ m, firstEligible s.mMessages = some m → NotDueBefore timeout now m) :
    WaitInv (s.settle now idlers pending timeout).2 := by
  unfold settle
  split
  · exact WaitInv.of_looper nofun
  · next hstays =>
    dsimp only
    generalize (if pending < 0 ∧ (s.mMessages.head?.all fun m => now < m.when) = true
      then (idlers : Int) else pending) = pending'
    split
    · rintro _ _ _ ⟨⟩ -
      exact ⟨rfl, .inr ⟨Bool.eq_false_iff.mpr hstays, hlate⟩⟩
    · exact WaitInv.of_looper nofun

theorem nextBlock_wait (s : QueueState) (now idlers : Nat) (pending : Int) :
    WaitInv (s.nextBlock now idlers pending).2 := by
  have hfirst := takeEligible_fst (l := s.mMessages)
  unfold nextBlock
  split
  · next htake =>
    rw [htake] at hfirst
    refine settle_wait fun m hm => ?_
    rw [hm] at hfirst
    cases hfirst
  · next m rest htake =>
    rw [htake] at hfirst
    split
    · next hlate =>
      refine settle_wait fun m' hm' => ?_
      obtain rfl : m = m' := Option.some.inj (hfirst.trans hm')
      unfold NotDueBefore intMax
      omega
    · exact WaitInv.of_looper nofun

theorem WaitInv.step (hinv : QueueInv s) (h : WaitInv s)
    (hstep : queueStep s e = some (answer, s')) : WaitInv s' := by
  cases e with
  | obtain object =>
    dsimp only [queueStep] at hstep
    split at hstep
    · cases hstep
      exact h
    · cases hstep
  | enqueueMessage object hasTarget isAsynchronous arg1 when =>
    exact enqueueMessage_wait h (Option.some.inj hstep)
  | postSyncBarrier object now =>
    dsimp only [queueStep] at hstep
    split at hstep
    · cases hstep
      exact postSyncBarrier_wait hinv h
    · cases hstep
  | removeSyncBarrier token =>
    have hafter := removeSyncBarrier_wait hinv h token
    rw [Option.some.inj hstep] at hafter
    exact hafter
  | quit kept gone =>
    dsimp only [queueStep] at hstep
    split at hstep
    · have hafter := quit_wait h kept gone
      rw [Option.some.inj hstep] at hafter
      exact hafter
    · cases hstep
  | callNext now =>
    dsimp only [queueStep] at hstep
    split at hstep
    · split at hstep
      · cases hstep
        exact h
      · cases hstep
        refine WaitInv.of_looper ?_
        rintro _ _ _ ⟨⟩
        rfl
    · cases hstep
  | pollReturns awoken =>
    dsimp only [queueStep] at hstep
    split at hstep
    · cases hstep
      exact WaitInv.of_looper nofun
    · cases hstep
  | nextBlock now idlers =>
    dsimp only [queueStep] at hstep
    split at hstep
    · next pending _ =>
      have hafter := nextBlock_wait s now idlers pending
      rw [Option.some.inj hstep] at hafter
      exact hafter
    · cases hstep
  | idlersDone now =>
    dsimp only [queueStep] at hstep
    split at hstep
    · cases hstep
      refine WaitInv.of_looper ?_
      rintro _ _ _ ⟨⟩
      rfl
    · cases hstep

/-- In every run of a new queue: whenever the looper is inside a poll with a timeout that is not 0, a
wake is pending, or the queue does not quit and nothing that may be next is due before the poll ends. -/
theorem run_guarded {timeout : Int} {since : Nat} {pending : Int} (hrun : QueueRun new es s)
    (hpoll : s.looper = .polling timeout since pending) (hwaits : timeout ≠ 0) :
    Guarded s timeout since := by
  have hinv : QueueInv s ∧ WaitInv s :=
    hrun.stateInvariant (I := fun s => QueueInv s ∧ WaitInv s)
      ⟨new_inv, WaitInv.of_looper nofun⟩ fun _ _ _ h hstep => ⟨h.1.step hstep, h.2.step h.1 hstep⟩
  exact (hinv.2 timeout since pending hpoll hwaits).2

/-- The looper waits from 5 on for a message that is due at 9. -/
theorem run_guarded_waiting : ∃ s, s.looper = .polling 4 5 0 ∧ Guarded s 4 5 := by
  have hrun : ∃ s, QueueRun new [(.enqueueMessage 2 true false 0 9, .accepted true), (.callNext 5, .done),
      (.pollReturns false, .done), (.nextBlock 5 0, .done)] s ∧ s.looper = .polling 4 5 0 :=
    ⟨_, (((Run.nil.snoc rfl).snoc rfl).snoc rfl).snoc rfl, rfl⟩
  obtain ⟨s, hrun, hpoll⟩ := hrun
  exact ⟨s, hpoll, run_guarded hrun hpoll (by decide)⟩

/-- `next` begins at 8 with a poll that does not wait, and a message has been due since 5. -/
theorem run_unguarded_firstPoll :
    ¬∀ (es : List (QueueEvent × Answer)) (s : QueueState) (timeout : Int) (since : Nat) (pending : Int),
      QueueRun new es s → s.looper = .polling timeout since pending → Guarded s timeout since := by
  intro hall
  have hrun : ∃ s, QueueRun new [(.enqueueMessage 2 true false 0 5, .accepted true),
      (.callNext 8, .done)] s ∧ s.looper = .polling 0 8 (-1) ∧ s.wake = false ∧
      firstEligible s.mMessages = some ⟨2, 5, true, false, 0, 0⟩ :=
    ⟨_, (Run.nil.snoc rfl).snoc rfl, rfl, rfl, rfl⟩
  obtain ⟨s, hrun, hpoll, hwake, hfirst⟩ := hrun
  rcases hall _ s 0 8 (-1) hrun hpoll with hpending | ⟨-, hdue⟩
  · exact nomatch hwake.symm.trans hpending
  · exact absurd (hdue _ hfirst).2 (by decide)

end Rtfsc.Android
