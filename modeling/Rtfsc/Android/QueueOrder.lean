import Rtfsc.Android.MessageQueue
import Mathlib.Data.List.Range

/-!
# MessageQueue: the order of messages

In every run of a queue its list is in order, every message that was inserted is in the list until it
is returned or removed, and `next` returns what is due among the messages that may be next.
-/

namespace Rtfsc.Android

open Rtfsc.Machine QueueState

variable {s s' : QueueState} {e : QueueEvent} {answer : Answer} {m : Message} {l : List Message}
  {es : List (QueueEvent × Answer)}

/-- What holds of the list in every state: it is in order, it has what was inserted and neither
returned nor removed, and its objects are different and in use. -/
structure QueueInv (s : QueueState) : Prop where
  ordered : s.mMessages.Pairwise Before
  account : (s.mMessages ++ s.returned ++ s.removed).Perm s.inserted
  arrivals : s.inserted.map Message.arrival = List.range s.inserted.length
  barriers : ∀ m ∈ s.mMessages, m.hasTarget = false → m.isAsynchronous = false
  objects : (s.mMessages.map Message.object).Nodup
  inUse : ∀ m ∈ s.mMessages, s.inUse m.object = true

theorem new_inv : QueueInv new :=
  ⟨List.Pairwise.nil, List.Perm.refl _, rfl, nofun, List.nodup_nil, nofun⟩

namespace QueueInv

theorem arrival_lt (h : QueueInv s) (hm : m ∈ s.mMessages) : m.arrival < s.inserted.length := by
  have hmem : m ∈ s.inserted :=
    h.account.mem_iff.mp (List.mem_append_left _ (List.mem_append_left _ hm))
  have harrival := List.mem_map_of_mem (f := Message.arrival) hmem
  rw [h.arrivals] at harrival
  exact List.mem_range.mp harrival

/-- What does not touch the list or the record of it. -/
theorem same (h : QueueInv s) (hlist : s'.mMessages = s.mMessages)
    (hinserted : s'.inserted = s.inserted) (hreturned : s'.returned = s.returned)
    (hremoved : s'.removed = s.removed)
    (huse : ∀ m ∈ s.mMessages, s.inUse m.object = true → s'.inUse m.object = true) :
    QueueInv s' := by
  refine ⟨?_, ?_, ?_, ?_, ?_, ?_⟩
  · rw [hlist]
    exact h.ordered
  · rw [hlist, hinserted, hreturned, hremoved]
    exact h.account
  · rw [hinserted]
    exact h.arrivals
  · rw [hlist]
    exact h.barriers
  · rw [hlist]
    exact h.objects
  · rw [hlist]
    exact fun m hm => huse m hm (h.inUse m hm)

/-- A message is inserted that is in no list. -/
theorem insert (h : QueueInv s) (hordered : l.Pairwise Before) (hperm : l.Perm (m :: s.mMessages))
    (harrival : m.arrival = s.inserted.length) (hbarrier : m.hasTarget = false → m.isAsynchronous = false)
    (hnew : s.Unlinked m.object) : QueueInv (s.insert m l) := by
  refine ⟨hordered, ?_, ?_, ?_, ?_, ?_⟩
  · show (l ++ s.returned ++ s.removed).Perm (s.inserted ++ [m])
    have hfront : (l ++ s.returned ++ s.removed).Perm
        (m :: (s.mMessages ++ s.returned ++ s.removed)) :=
      (hperm.append_right s.returned).append_right s.removed
    exact hfront.trans ((h.account.cons m).trans (List.perm_append_singleton m s.inserted).symm)
  · show (s.inserted ++ [m]).map Message.arrival = List.range (s.inserted ++ [m]).length
    rw [List.map_append, h.arrivals, List.length_append, List.length_singleton, List.range_succ,
      List.map_singleton, harrival]
  · intro p hp
    rcases List.mem_cons.mp (hperm.mem_iff.mp hp) with rfl | hp
    · exact hbarrier
    · exact h.barriers p hp
  · refine ((hperm.map Message.object).nodup_iff).mpr ?_
    exact List.nodup_cons.mpr ⟨hnew, h.objects⟩
  · intro p hp
    show Function.update s.inUse m.object true p.object = true
    rw [Function.update_apply]
    split
    · rfl
    · next hne =>
      rcases List.mem_cons.mp (hperm.mem_iff.mp hp) with rfl | hp
      · exact absurd rfl hne
      · exact h.inUse p hp

/-- Messages leave the list and are returned or removed. -/
theorem leave (h : QueueInv s) (hsub : s'.mMessages.Sublist s.mMessages)
    (hperm : (s'.mMessages ++ s'.returned ++ s'.removed).Perm
      (s.mMessages ++ s.returned ++ s.removed))
    (hinserted : s'.inserted = s.inserted)
    (huse : ∀ m ∈ s.mMessages, s.inUse m.object = true → s'.inUse m.object = true) :
    QueueInv s' := by
  refine ⟨h.ordered.sublist hsub, ?_, ?_, fun m hm => h.barriers m (hsub.subset hm),
    h.objects.sublist (hsub.map _), fun m hm => ?_⟩
  · rw [hinserted]
    exact hperm.trans h.account
  · rw [hinserted]
    exact h.arrivals
  · exact huse m (hsub.subset hm) (h.inUse m (hsub.subset hm))

end QueueInv

/-! ## Each call -/

theorem update_true {inUse : Nat → Bool} {object object' : Nat} (h : inUse object' = true) :
    Function.update inUse object true object' = true := by
  rw [Function.update_apply]
  split
  · rfl
  · exact h

theorem enqueueMessage_inv {object : Nat} {hasTarget isAsynchronous : Bool} {arg1 : UInt32}
    {when : Nat} (h : QueueInv s)
    (hstep : s.enqueueMessage object hasTarget isAsynchronous arg1 when = (answer, s')) :
    QueueInv s' := by
  unfold enqueueMessage at hstep
  split at hstep
  · cases hstep
    exact h
  · next htarget =>
    split at hstep
    · cases hstep
      exact h
    · next hfree =>
      split at hstep
      · cases hstep
        exact h.same rfl rfl rfl rfl fun m _ hm => update_true hm
      · cases hstep
        have hnew : s.Unlinked object := by
          intro hmem
          obtain ⟨m, hm, rfl⟩ := List.mem_map.mp hmem
          exact hfree (h.inUse m hm)
        exact (h.insert (insertMessage_ordered h.ordered fun _ ha => h.arrival_lt ha)
          insertMessage_perm rfl (fun hnone => absurd hnone (by simpa using htarget)) hnew).same
          rfl rfl rfl rfl fun _ _ hm => hm

theorem postSyncBarrier_inv {object when : Nat} (h : QueueInv s) (hnew : s.Unlinked object) :
    QueueInv (s.postSyncBarrier object when).2 :=
  (h.insert (insertBarrier_ordered h.ordered fun _ ha => h.arrival_lt ha) insertBarrier_perm rfl
    (fun _ => rfl) hnew).same rfl rfl rfl rfl fun _ _ hm => hm

theorem removeSyncBarrier_inv (h : QueueInv s) (token : UInt32) :
    QueueInv (s.removeSyncBarrier token).2 := by
  unfold removeSyncBarrier
  split
  · exact h
  · next p needWake l hremove =>
    obtain ⟨-, before, behind, hsplit, rfl⟩ := removeBarrier_split hremove
    refine h.leave ?_ ?_ rfl fun _ _ hm => hm
    · show (before ++ behind).Sublist s.mMessages
      rw [hsplit]
      exact (List.sublist_cons_self p behind).append_left before
    · show (before ++ behind ++ s.returned ++ (s.removed ++ [p])).Perm _
      rw [hsplit]
      refine List.perm_iff_count.mpr fun a => ?_
      simp only [List.count_append, List.count_cons, List.count_nil]
      omega

theorem quit_inv {kept gone : List Message} (h : QueueInv s) (hsub : kept.Sublist s.mMessages)
    (hperm : (kept ++ gone).Perm s.mMessages) : QueueInv (s.quit kept gone).2 := by
  unfold quit
  split
  · exact h
  · refine h.leave hsub ?_ rfl fun _ _ hm => hm
    show (kept ++ s.returned ++ (s.removed ++ gone)).Perm (s.mMessages ++ s.returned ++ s.removed)
    refine List.perm_iff_count.mpr fun a => ?_
    have hcount := hperm.count_eq a
    simp only [List.count_append] at hcount ⊢
    omega

theorem settle_inv {now idlers : Nat} {pending timeout : Int} (h : QueueInv s) :
    QueueInv (s.settle now idlers pending timeout).2 := by
  unfold settle
  split
  · exact h.same rfl rfl rfl rfl fun _ _ hm => hm
  · dsimp only
    split
    · split
      · exact h.same rfl rfl rfl rfl fun _ _ hm => hm
      · exact h.same rfl rfl rfl rfl fun _ _ hm => hm
    · split
      · exact h.same rfl rfl rfl rfl fun _ _ hm => hm
      · exact h.same rfl rfl rfl rfl fun _ _ hm => hm

theorem nextBlock_inv (h : QueueInv s) (now idlers : Nat) (pending : Int) :
    QueueInv (s.nextBlock now idlers pending).2 := by
  unfold nextBlock
  split
  · exact settle_inv h
  · next m rest htake =>
    split
    · exact settle_inv h
    · obtain ⟨-, before, behind, hsplit, rfl, -⟩ := takeEligible_split h.barriers htake
      refine h.leave ?_ ?_ rfl fun _ _ hm => update_true hm
      · show (before ++ behind).Sublist s.mMessages
        rw [hsplit]
        exact (List.sublist_cons_self m behind).append_left before
      · show (before ++ behind ++ (s.returned ++ [m]) ++ s.removed).Perm _
        rw [hsplit]
        refine List.perm_iff_count.mpr fun a => ?_
        simp only [List.count_append, List.count_cons, List.count_nil]
        omega

theorem QueueInv.step (h : QueueInv s) (hstep : queueStep s e = some (answer, s')) : QueueInv s' := by
  cases e with
  | obtain object =>
    dsimp only [queueStep] at hstep
    split at hstep
    · next hnew =>
      cases hstep
      refine h.same rfl rfl rfl rfl fun m hm huse => ?_
      have hne : m.object ≠ object := by
        rintro rfl
        exact hnew (List.mem_map_of_mem hm)
      exact (Function.update_of_ne hne ..).trans huse
    · cases hstep
  | enqueueMessage object hasTarget isAsynchronous arg1 when =>
    exact enqueueMessage_inv h (Option.some.inj hstep)
  | postSyncBarrier object now =>
    dsimp only [queueStep] at hstep
    split at hstep
    · next hnew =>
      cases hstep
      exact postSyncBarrier_inv h hnew
    · cases hstep
  | removeSyncBarrier token =>
    have hafter := removeSyncBarrier_inv h token
    rw [Option.some.inj hstep] at hafter
    exact hafter
  | quit kept gone =>
    dsimp only [queueStep] at hstep
    split at hstep
    · next hkept =>
      have hafter := quit_inv h hkept.1 hkept.2
      rw [Option.some.inj hstep] at hafter
      exact hafter
    · cases hstep
  | callNext now =>
    dsimp only [queueStep] at hstep
    split at hstep
    · split at hstep
      · cases hstep
        exact h
      · cases hstep
        exact h.same rfl rfl rfl rfl fun _ _ hm => hm
    · cases hstep
  | pollReturns awoken =>
    dsimp only [queueStep] at hstep
    split at hstep
    · cases hstep
      exact h.same rfl rfl rfl rfl fun _ _ hm => hm
    · cases hstep
  | nextBlock now idlers =>
    dsimp only [queueStep] at hstep
    split at hstep
    · next pending _ =>
      have hafter := nextBlock_inv h now idlers pending
      rw [Option.some.inj hstep] at hafter
      exact hafter
    · cases hstep
  | idlersDone now =>
    dsimp only [queueStep] at hstep
    split at hstep
    · cases hstep
      exact h.same rfl rfl rfl rfl fun _ _ hm => hm
    · cases hstep

/-! ## What `next` returns -/

/-- What a step has to do: `next` returns the message that may be next, if it is due and only then; a
message stays in the list until it is returned or removed; a call that throws changes nothing. -/
structure StepOk (s : QueueState) (e : QueueEvent) (answer : Answer) (s' : QueueState) : Prop where
  returns : ∀ m, answer = .message m → (∃ now idlers, e = .nextBlock now idlers ∧ m.when ≤ now) ∧
    firstEligible s.mMessages = some m ∧ m.hasTarget = true ∧
    s'.returned = s.returned ++ [m] ∧
    ∃ before behind, s.mMessages = before ++ m :: behind ∧ s'.mMessages = before ++ behind ∧
      ((∃ b ∈ before, b.hasTarget = false) → m.isAsynchronous = true)
  due : ∀ now idlers m, e = .nextBlock now idlers → firstEligible s.mMessages = some m → m.when ≤ now →
    answer = .message m
  stays : ∀ m ∈ s.mMessages, m ∈ s'.mMessages ∨ answer = .message m ∨
    (∃ token, e = .removeSyncBarrier token ∧ isBarrier token m = true) ∨
    ∃ kept gone, e = .quit kept gone ∧ m ∈ gone
  throws : answer = .threw → s' = s
  others : (∀ m, answer ≠ .message m) → s'.returned = s.returned

/-- A step that is not the block of `next`, and leaves the list or adds to it. -/
theorem StepOk.keeps (hnot : ∀ m, answer ≠ .message m) (hnext : ∀ now idlers, e ≠ .nextBlock now idlers)
    (hsub : ∀ m ∈ s.mMessages, m ∈ s'.mMessages) (hreturned : s'.returned = s.returned)
    (hthrows : answer = .threw → s' = s) : StepOk s e answer s' :=
  ⟨fun m hm => absurd hm (hnot m), fun now idlers _ he => absurd he (hnext now idlers),
    fun m hm => .inl (hsub m hm), hthrows, fun _ => hreturned⟩

theorem settle_ok {now idlers idlers' : Nat} {pending timeout : Int}
    (hlate : ∀ m, firstEligible s.mMessages = some m → now < m.when)
    (hsettle : s.settle now idlers pending timeout = (answer, s')) :
    StepOk s (.nextBlock now idlers') answer s' := by
  have hstep : (∀ m, answer ≠ .message m) ∧ answer ≠ .threw ∧ s'.mMessages = s.mMessages ∧
      s'.returned = s.returned := by
    unfold settle at hsettle
    split at hsettle
    · cases hsettle
      exact ⟨nofun, nofun, rfl, rfl⟩
    · dsimp only at hsettle
      generalize hidle : (if pending < 0 ∧ (s.mMessages.head?.all fun m => now < m.when) = true
        then (idlers : Int) else pending) = pending' at hsettle
      split at hsettle
      · cases hsettle
        exact ⟨nofun, nofun, rfl, rfl⟩
      · cases hsettle
        exact ⟨nofun, nofun, rfl, rfl⟩
  obtain ⟨hnot, hthrew, hlist, hreturned⟩ := hstep
  refine ⟨fun m hm => absurd hm (hnot m), ?_, fun m hm => .inl (hlist ▸ hm),
    fun hm => absurd hm hthrew, fun _ => hreturned⟩
  rintro _ _ m ⟨⟩ hm hdue
  exact absurd (hlate m hm) (Nat.not_lt.mpr hdue)

theorem nextBlock_ok {now idlers : Nat} {pending : Int} (h : QueueInv s)
    (hblock : s.nextBlock now idlers pending = (answer, s')) :
    StepOk s (.nextBlock now idlers) answer s' := by
  have hfirst := takeEligible_fst (l := s.mMessages)
  unfold nextBlock at hblock
  split at hblock
  · next htake =>
    rw [htake] at hfirst
    refine settle_ok (fun m hm => ?_) hblock
    rw [hm] at hfirst
    cases hfirst
  · next m rest htake =>
    rw [htake] at hfirst
    have hm : firstEligible s.mMessages = some m := hfirst.symm
    split at hblock
    · next hlate =>
      refine settle_ok (fun m' hm' => ?_) hblock
      obtain rfl : m = m' := Option.some.inj (hm.symm.trans hm')
      exact hlate
    · next hdue =>
      cases hblock
      obtain ⟨htarget, before, behind, hsplit, rfl, hasync⟩ := takeEligible_split h.barriers htake
      refine ⟨?_, ?_, ?_, nofun, fun hnot => absurd rfl (hnot m)⟩
      · rintro _ ⟨⟩
        exact ⟨⟨now, idlers, rfl, Nat.not_lt.mp hdue⟩, hm, htarget, rfl, before, behind, hsplit, rfl,
          hasync⟩
      · rintro _ _ m' - hm' -
        obtain rfl : m = m' := Option.some.inj (hm.symm.trans hm')
        rfl
      · intro m' hm'
        rw [hsplit] at hm'
        rcases List.mem_append.mp hm' with hm' | hm'
        · exact .inl (List.mem_append_left _ hm')
        · rcases List.mem_cons.mp hm' with rfl | hm'
          · exact .inr (.inl rfl)
          · exact .inl (List.mem_append_right _ hm')

theorem step_ok (h : QueueInv s) (hstep : queueStep s e = some (answer, s')) :
    StepOk s e answer s' := by
  cases e with
  | obtain object =>
    dsimp only [queueStep] at hstep
    split at hstep
    · cases hstep
      exact StepOk.keeps nofun nofun (fun _ hm => hm) rfl nofun
    · cases hstep
  | enqueueMessage object hasTarget isAsynchronous arg1 when =>
    have heq := Option.some.inj hstep
    unfold enqueueMessage at heq
    split at heq
    · cases heq
      exact StepOk.keeps nofun nofun (fun _ hm => hm) rfl fun _ => rfl
    · split at heq
      · cases heq
        exact StepOk.keeps nofun nofun (fun _ hm => hm) rfl fun _ => rfl
      · split at heq
        · cases heq
          exact StepOk.keeps nofun nofun (fun _ hm => hm) rfl nofun
        · cases heq
          refine StepOk.keeps nofun nofun (fun m hm => ?_) rfl nofun
          exact insertMessage_perm.mem_iff.mpr (List.mem_cons_of_mem _ hm)
  | postSyncBarrier object now =>
    dsimp only [queueStep] at hstep
    split at hstep
    · cases hstep
      refine StepOk.keeps nofun nofun (fun m hm => ?_) rfl nofun
      exact insertBarrier_perm.mem_iff.mpr (List.mem_cons_of_mem _ hm)
    · cases hstep
  | removeSyncBarrier token =>
    have heq := Option.some.inj hstep
    unfold removeSyncBarrier at heq
    split at heq
    · cases heq
      exact StepOk.keeps nofun nofun (fun _ hm => hm) rfl fun _ => rfl
    · next p needWake l hremove =>
      cases heq
      obtain ⟨hbarrier, before, behind, hsplit, rfl⟩ := removeBarrier_split hremove
      refine ⟨nofun, nofun, fun m hm => ?_, nofun, fun _ => rfl⟩
      rw [hsplit] at hm
      rcases List.mem_append.mp hm with hm | hm
      · exact .inl (List.mem_append_left _ hm)
      · rcases List.mem_cons.mp hm with rfl | hm
        · exact .inr (.inr (.inl ⟨token, rfl, hbarrier⟩))
        · exact .inl (List.mem_append_right _ hm)
  | quit kept gone =>
    dsimp only [queueStep] at hstep
    split at hstep
    · next hkept =>
      have heq := Option.some.inj hstep
      unfold quit at heq
      split at heq
      · cases heq
        exact StepOk.keeps nofun nofun (fun _ hm => hm) rfl nofun
      · cases heq
        refine ⟨nofun, nofun, fun m hm => ?_, nofun, fun _ => rfl⟩
        rcases List.mem_append.mp (hkept.2.mem_iff.mpr hm) with hm | hm
        · exact .inl hm
        · exact .inr (.inr (.inr ⟨kept, gone, rfl, hm⟩))
    · cases hstep
  | callNext now =>
    dsimp only [queueStep] at hstep
    split at hstep
    · split at hstep
      · cases hstep
        exact StepOk.keeps nofun nofun (fun _ hm => hm) rfl nofun
      · cases hstep
        exact StepOk.keeps nofun nofun (fun _ hm => hm) rfl nofun
    · cases hstep
  | pollReturns awoken =>
    dsimp only [queueStep] at hstep
    split at hstep
    · cases hstep
      exact StepOk.keeps nofun nofun (fun _ hm => hm) rfl nofun
    · cases hstep
  | nextBlock now idlers =>
    dsimp only [queueStep] at hstep
    split at hstep
    · exact nextBlock_ok h (Option.some.inj hstep)
    · cases hstep
  | idlersDone now =>
    dsimp only [queueStep] at hstep
    split at hstep
    · cases hstep
      exact StepOk.keeps nofun nofun (fun _ hm => hm) rfl nofun
    · cases hstep

/-- The messages that `next` has returned in a history. -/
def messages (es : List (QueueEvent × Answer)) : List Message :=
  es.filterMap fun e => match e.2 with
    | .message m => some m
    | _ => none

theorem enqueueMessage_inserted {object : Nat} {hasTarget isAsynchronous : Bool} {arg1 : UInt32}
    {when : Nat}
    (h : s.enqueueMessage object hasTarget isAsynchronous arg1 when = (.accepted true, s')) :
    s'.inserted =
      s.inserted ++ [⟨object, when, hasTarget, isAsynchronous, arg1, s.inserted.length⟩] := by
  unfold enqueueMessage at h
  split at h
  · cases h
  · split at h
    · cases h
    · split at h
      · cases h
      · cases h
        rfl

/-- In every run of a new queue: the list is in order; what was inserted, and with it every message
that was accepted, is once in the list, among the returned or among the removed messages, and what the
run has returned are the returned ones; and every step that can follow does what it has to do. -/
theorem run_order (hrun : QueueRun new es s) :
    s.mMessages.Pairwise Before ∧
    (s.mMessages ++ messages es ++ s.removed).Perm s.inserted ∧
    s.inserted.map Message.arrival = List.range s.inserted.length ∧
    (∀ object hasTarget isAsynchronous arg1 when s',
      queueStep s (.enqueueMessage object hasTarget isAsynchronous arg1 when) =
        some (.accepted true, s') →
      s'.inserted =
        s.inserted ++ [⟨object, when, hasTarget, isAsynchronous, arg1, s.inserted.length⟩]) ∧
    ∀ e answer s', queueStep s e = some (answer, s') → StepOk s e answer s' := by
  have hinv : QueueInv s ∧ s.returned = messages es := by
    refine hrun.invariant (I := fun es s => QueueInv s ∧ s.returned = messages es) ⟨new_inv, rfl⟩ ?_
    rintro es s ⟨e, answer⟩ s' ⟨h, hreturned⟩ hstep
    refine ⟨h.step hstep, ?_⟩
    have hok := step_ok h hstep
    unfold messages at hreturned ⊢
    rw [List.filterMap_append, ← hreturned]
    cases answer with
    | message m => exact (hok.returns m rfl).2.2.2.1
    | _ => exact (hok.others nofun).trans (List.append_nil _).symm
  rw [← hinv.2]
  exact ⟨hinv.1.ordered, hinv.1.account, hinv.1.arrivals,
    fun _ _ _ _ _ _ hstep => enqueueMessage_inserted (Option.some.inj hstep),
    fun _ _ _ => step_ok hinv.1⟩

/-- A barrier, and behind it a message for 5 and an asynchronous one for 7, which is returned at 8. -/
def pastBarrier : List (QueueEvent × Answer) :=
  [(.postSyncBarrier 1 3, .token 0), (.enqueueMessage 2 true false 0 5, .accepted true),
    (.enqueueMessage 3 true true 0 7, .accepted true), (.callNext 8, .done), (.pollReturns false, .done),
    (.nextBlock 8 0, .message ⟨3, 7, true, true, 0, 2⟩)]

theorem run_order_pastBarrier : ∃ s, QueueRun new pastBarrier s ∧
    s.mMessages = [⟨1, 3, false, false, 0, 0⟩, ⟨2, 5, true, false, 0, 1⟩] ∧
    s.mMessages.Pairwise Before := by
  have hrun : ∃ s, QueueRun new pastBarrier s ∧
      s.mMessages = [⟨1, 3, false, false, 0, 0⟩, ⟨2, 5, true, false, 0, 1⟩] :=
    ⟨_, (((((Run.nil.snoc rfl).snoc rfl).snoc rfl).snoc rfl).snoc rfl).snoc rfl, rfl⟩
  obtain ⟨s, hrun, hlist⟩ := hrun
  exact ⟨s, hrun, hlist, (run_order hrun).1⟩

end Rtfsc.Android
