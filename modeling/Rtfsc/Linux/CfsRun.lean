import Rtfsc.Linux.CfsInv
import Rtfsc.Machine.Run
import Mathlib.Data.Fintype.Basic

/-!
# Runs of the CFS run queue

Every operation keeps the invariant and never moves `min_vruntime` backwards, as long as the times stay
in a window.
-/

namespace Rtfsc.Linux

open Rtfsc.Machine

variable {ι : Type}

namespace CfsRq

variable {p : SchedParams} {s t : CfsRq ι} {se : ι} {now : BitVec 64} {load : LoadWeight} {left : ι}

/-! ## The choice of the next entity -/

/-- What `pick_next_entity` picks from: `curr` as it is given, and the tree. -/
def Candidate (s : CfsRq ι) (se : ι) : Prop :=
  s.givenCurr = some se ∨ se ∈ s.tasksTimeline.list

theorem Inv.candidate_iff (h : s.Inv) : s.Candidate se ↔ s.onRq se = true := by
  unfold Candidate givenCurr
  rw [h.mem, Option.filter_eq_some_iff]
  grind

theorem Inv.leftOf_candidate (h : s.Inv) (hl : s.leftOf s.givenCurr = some left) :
    s.Candidate left := by
  unfold leftOf at hl
  split at hl
  · exact .inl hl
  · next hfirst _ =>
    cases hl
    exact .inr (h.tree.leftmost_mem hfirst)
  · next hfirst hcurr =>
    split at hl
    · cases hl
      exact .inl hcurr
    · cases hl
      exact .inr (h.tree.leftmost_mem hfirst)

variable [DecidableEq ι] {bal : Balancing ι}

/-- A buddy may take the place of the entity picked so far. -/
theorem preferBuddy_fst {P : ι → Prop} {buddy : Option ι} {r : ι × CfsRq ι} (hr : P r.1)
    (hb : ∀ b, buddy = some b → P b) : P (preferBuddy p buddy left r).1 := by
  unfold preferBuddy
  split
  · exact hr
  · next b =>
    dsimp only
    split
    · exact hb b rfl
    · exact hr

theorem preferBuddy_snd {moved : ι → Prop} {buddy : Option ι} {r : ι × CfsRq ι}
    (h : SameQueue moved s r.2) : SameQueue moved s (preferBuddy p buddy left r).2 := by
  unfold preferBuddy
  split
  · exact h
  · dsimp only
    split
    · exact h.trans .wakeupPreemptEntity
    · exact h.trans .wakeupPreemptEntity

theorem Inv.secondOf_candidate (h : s.Inv) (hl : s.secondOf s.givenCurr left = some se) :
    s.Candidate se := by
  unfold secondOf at hl
  split at hl
  · exact .inr (h.tree.leftmost_mem hl)
  · split at hl
    · exact .inl hl
    · next hnext _ =>
      cases hl
      exact .inr (CachedTree.next_mem hnext)
    · next hnext hcurr =>
      split at hl
      · cases hl
        exact .inl hcurr
      · cases hl
        exact .inr (CachedTree.next_mem hnext)

/-- `pick_next_entity` picks `curr` or an entity of the tree, and only clears buddies. -/
theorem Inv.pickNextEntity_spec (h : s.Inv)
    (hp : s.pickNextEntity p s.givenCurr = some (se, t)) :
    s.Candidate se ∧ SameQueue (fun _ => False) s t := by
  unfold pickNextEntity at hp
  split at hp
  · cases hp
  · next left hleft =>
    dsimp only at hp
    have hl := h.leftOf_candidate hleft
    set r : ι × CfsRq ι := if s.skip = some left then
      preferBuddy p (s.secondOf s.givenCurr left) left (left, s) else (left, s) with hr
    have hr1 : s.Candidate r.1 := by
      rw [hr]
      split
      · exact preferBuddy_fst hl fun b => h.secondOf_candidate
      · exact hl
    have hr2 : SameQueue (fun _ => False) s r.2 := by
      rw [hr]
      split
      · exact preferBuddy_snd (.refl _ _)
      · exact .refl _ _
    clear_value r
    have hbuddy : ∀ (u : CfsRq ι), SameQueue (fun _ => False) s u → ∀ b,
        u.last = some b ∨ u.next = some b → s.Candidate b := fun u hu b hb =>
      h.candidate_iff.2 (h.buddies b (hu.named b (.inr hb)))
    have hlast1 : s.Candidate (preferBuddy p r.2.last left r).1 :=
      preferBuddy_fst hr1 fun b hb => hbuddy r.2 hr2 b (.inl hb)
    have hlast2 : SameQueue (fun _ => False) s (preferBuddy p r.2.last left r).2 :=
      preferBuddy_snd hr2
    cases hp
    exact ⟨preferBuddy_fst hlast1 fun b hb => hbuddy _ hlast2 b (.inr hb),
      (preferBuddy_snd hlast2).trans .clearBuddies⟩

/-- When an entity is on the queue, one is picked. -/
theorem Inv.pickNextEntity_isSome (h : s.Inv) (hse : s.onRq se = true) :
    ∃ r t, s.pickNextEntity p s.givenCurr = some (r, t) := by
  have hleft : s.leftOf s.givenCurr ≠ none := by
    intro hnone
    unfold leftOf at hnone
    split at hnone
    · next hfirst =>
      have hempty := List.head?_eq_none_iff.1 (h.tree.leftmost.symm.trans hfirst)
      rcases h.candidate_iff.2 hse with hc | hm
      · rw [hnone] at hc
        cases hc
      · rw [hempty] at hm
        cases hm
    · cases hnone
    · split at hnone <;> cases hnone
  unfold pickNextEntity
  cases hl : s.leftOf s.givenCurr with
  | none => exact absurd hl hleft
  | some left => exact ⟨_, _, rfl⟩

/-! ## The operations keep the invariant -/

theorem Inv.enqueueEntity {flags : EnqueueFlags} (h : s.Inv) (hse : s.onRq se = false)
    (hw : (s.enqueueEntity p bal se flags now load).Windowed) :
    (s.enqueueEntity p bal se flags now load).Inv := by
  unfold CfsRq.enqueueEntity at hw ⊢
  dsimp only at hw ⊢
  set s₁ := if (!flags.wakeup || flags.migrated) && decide (s.curr = some se) then s.renormalise se
    else s with hs₁
  set s₂ := s₁.updateCurr p now with hs₂
  set s₃ := if (!flags.wakeup || flags.migrated) && !decide (s.curr = some se) then
    s₂.renormalise se else s₂ with hs₃
  set s₄ := s₃.update se fun e => { e with load := load } with hs₄
  set s₅ := if flags.wakeup then s₄.placeEntity p se else s₄ with hs₅
  let moved : ι → Prop := fun i => i = se ∨ s.curr = some i
  have h₁ : SameQueue moved s s₁ := .ite (.renormalise (.inl rfl))
  have h₂ : SameQueue moved s s₂ := by
    refine h₁.trans (SameQueue.updateCurr.mono fun i hi => .inr ?_)
    exact h₁.curr.symm.trans hi
  have h₃ : SameQueue moved s s₃ := h₂.trans (.ite (.renormalise (.inl rfl)))
  have h₄ : SameQueue moved s s₄ := h₃.trans .setLoad
  have h₅ : SameQueue moved s s₅ := h₄.trans (.ite (.placeEntity (.inl rfl)))
  have hinv : s₅.Inv := by
    refine h.of_sameQueue h₅ fun i hi => ?_
    rcases hi with rfl | hi
    · exact h.notMem_of_not_onRq hse
    · exact h.notMem_of_curr hi
  have hse₅ := (h₅.onRq se).trans hse
  have hc₅ := h₅.curr
  clear_value s₅
  by_cases hc : s.curr = some se
  · simp only [hc, decide_true, Bool.not_true, Bool.false_eq_true, if_false]
    exact hinv.admit_curr (hc₅.trans hc)
  · simp only [hc, decide_false, Bool.not_false, if_true] at hw ⊢
    exact hinv.admit_tree hse₅ (fun h => hc (hc₅.symm.trans h)) hw

/-- `dequeue_entity` takes the entity off the queue and may then move `min_vruntime` a second time. -/
theorem Inv.dequeueEntity_spec (p : SchedParams) (bal : Balancing ι) (flags : DequeueFlags)
    (now : BitVec 64) (load : LoadWeight) (h : s.Inv) (hse : s.onRq se = true) :
    ∃ t : CfsRq ι, t.Inv ∧ t.minVruntime = (s.updateCurr p now).minVruntime ∧
      (∀ i, t.onRq i = true →
        (s.updateCurr p now).onRq i = true ∧ t.vruntime i = (s.updateCurr p now).vruntime i) ∧
      s.dequeueEntity p bal se flags now load =
        if flags.save && !flags.move then t else t.updateMinVruntime := by
  have hse' : (s.updateCurr p now).onRq se = true := (SameQueue.updateCurr.onRq se).trans hse
  have hu : (s.updateCurr p now).Inv := h.updateCurr
  unfold CfsRq.dequeueEntity
  dsimp only
  generalize s.updateCurr p now = u at hse' hu
  have hclear : SameQueue (fun _ => False) u (u.clearBuddies se) := .clearBuddies
  have hinv : (u.clearBuddies se).Inv := hu.of_still hclear
  have hn : ¬(u.clearBuddies se).Named se := clearBuddies_named
  set out := (if (u.clearBuddies se).curr ≠ some se then (u.clearBuddies se).unlinkEntity bal se
    else u.clearBuddies se) with hout
  have hentity : out.entity = u.entity := by
    rw [hout]
    split <;> rfl
  have hmin : out.minVruntime = u.minVruntime := by
    rw [hout]
    split <;> rfl
  have houtInv : (out.update se fun e => { e with onRq := false }).Inv := by
    rw [hout]
    by_cases hc : (u.clearBuddies se).curr = some se
    · rw [if_neg (not_not.2 hc)]
      exact hinv.withdraw_curr hc hn
    · rw [if_pos hc]
      exact hinv.withdraw_tree hse' hc hn
  have hoff : (out.update se fun e => { e with onRq := false }).onRq se = false := by
    rw [onRq_update, if_pos rfl]
  have hrest : ∀ i, (out.update se fun e => { e with onRq := false }).onRq i = true →
      u.onRq i = true ∧ (out.update se fun e => { e with onRq := false }).vruntime i = u.vruntime i := by
    intro i hi
    rw [onRq_update] at hi
    split at hi
    · cases hi
    · rw [vruntime_update]
      unfold onRq at hi
      unfold vruntime
      rw [hentity] at hi ⊢
      exact ⟨hi, rfl⟩
  have hmin' : (out.update se fun e => { e with onRq := false }).minVruntime = u.minVruntime := hmin
  generalize (out.update se fun e => { e with onRq := false }) = t at houtInv hoff hrest hmin'
  have ht₁ : SameQueue (fun i => i = se) t
      (t.update se fun e => { e with vruntime := e.vruntime - t.minVruntime }) :=
    .update (fun _ => rfl) rfl
  have ht₂ : SameQueue (fun i => i = se) t ((if !flags.sleep then
      t.update se fun e => { e with vruntime := e.vruntime - t.minVruntime } else t).update se
        fun e => { e with load := load }) :=
    ht₁.ite.trans .setLoad
  refine ⟨_, houtInv.of_sameQueue ht₂ fun i hi => hi ▸ houtInv.notMem_of_not_onRq hoff, ?_, ?_, rfl⟩
  · rw [← hmin']
    change (if _ then _ else t : CfsRq ι).minVruntime = _
    split <;> rfl
  · intro i hi
    rw [ht₂.onRq] at hi
    rw [ht₂.vruntime i]
    · exact hrest i hi
    · rintro rfl
      exact Bool.false_ne_true (hoff.symm.trans hi)

theorem Inv.dequeueEntity {flags : DequeueFlags} (h : s.Inv) (hse : s.onRq se = true) :
    (s.dequeueEntity p bal se flags now load).Inv := by
  obtain ⟨t, ht, _, _, heq⟩ := h.dequeueEntity_spec p bal flags now load hse
  rw [heq]
  split
  · exact ht
  · exact ht.of_still .updateMinVruntime

omit [DecidableEq ι] in
theorem Inv.setBuddy {b : Buddy} (h : s.Inv) (hse : s.onRq se = true) : (s.setBuddy b se).Inv := by
  have hn : ∀ i, (s.setBuddy b se).Named i → s.onRq i = true := by
    intro i hi
    have hi' : i = se ∨ s.Named i := by
      unfold Named CfsRq.setBuddy at hi
      unfold Named
      grind
    rcases hi' with rfl | hi'
    · exact hse
    · exact h.buddies i hi'
  cases b <;> exact ⟨h.tree, h.mem, hn⟩

/-- The change to another entity passes through the state that `put_prev_entity` leaves. -/
theorem Inv.switchNext (h : s.Inv) (hs : s.switchNext p bal now = some t) (hw : t.Windowed) :
    t.Inv := by
  unfold CfsRq.switchNext at hs
  split at hs
  · cases hs
  · next se u hp =>
    obtain ⟨hcand, hsame⟩ := h.pickNextEntity_spec hp
    have hinv : u.Inv := h.of_still hsame
    have hse : u.onRq se = true := (hsame.onRq se).trans (h.candidate_iff.1 hcand)
    split at hs
    · cases hs
      exact hinv
    · split at hs
      · next hc =>
        cases hs
        exact hinv.setNext hse hc
      · next prev hc =>
        cases hs
        obtain ⟨hmin, hon, hv⟩ := (u.putPrevEntity p bal prev now).setNextEntity_same bal se
        refine Inv.setNext (hinv.putPrev hc ?_) ((onRq_putPrevEntity se).trans hse) rfl
        exact hw.congr hmin.symm (fun i => (hon i).symm) fun i => (hv i).symm

/-! ## `min_vruntime` in one step -/

omit [DecidableEq ι] in
theorem minVruntime_ite {c : Prop} [Decidable c] (h : t.minVruntime = s.minVruntime) :
    (if c then t else s).minVruntime = s.minVruntime := by
  split
  · exact h
  · rfl

/-- Of the steps of `enqueue_entity` only `update_curr` moves `min_vruntime`. -/
theorem enqueueEntity_le {flags : EnqueueFlags} :
    0 ≤ ((s.enqueueEntity p bal se flags now load).minVruntime - s.minVruntime).toInt := by
  unfold enqueueEntity
  dsimp only
  set s₁ := if (!flags.wakeup || flags.migrated) && decide (s.curr = some se) then s.renormalise se
    else s
  set s₃ := if (!flags.wakeup || flags.migrated) && !decide (s.curr = some se) then
    (s₁.updateCurr p now).renormalise se else s₁.updateCurr p now
  have h₁ : s₁.minVruntime = s.minVruntime := minVruntime_ite rfl
  have h₃ : s₃.minVruntime = (s₁.updateCurr p now).minVruntime := minVruntime_ite rfl
  set s₅ := if flags.wakeup then (s₃.update se fun e => { e with load := load }).placeEntity p se
    else s₃.update se fun e => { e with load := load }
  have h₅ : s₅.minVruntime = s₃.minVruntime := minVruntime_ite rfl
  have h₆ : (if !decide (s.curr = some se) then s₅.linkEntity bal se else s₅).minVruntime =
      s₅.minVruntime := minVruntime_ite rfl
  have hle : 0 ≤ ((s₁.updateCurr p now).minVruntime - s₁.minVruntime).toInt := updateCurr_le
  rw [h₁, ← h₃, ← h₅, ← h₆] at hle
  exact hle

theorem Inv.updateCurr_inWindow {base : BitVec 64} (h : s.Inv)
    (hb : InWindow base ((s.chargeCurr p now).getD s).minVruntime)
    (hw : ∀ i, ((s.chargeCurr p now).getD s).onRq i = true →
      InWindow base (((s.chargeCurr p now).getD s).vruntime i)) :
    InWindow base s.minVruntime ∧ InWindow base (s.updateCurr p now).minVruntime ∧
      ∀ i, (s.updateCurr p now).onRq i = true → InWindow base ((s.updateCurr p now).vruntime i) := by
  unfold CfsRq.updateCurr
  cases hc : s.chargeCurr p now with
  | none =>
    rw [hc] at hb hw
    exact ⟨hb, hb, hw⟩
  | some c =>
    rw [hc] at hb hw
    change InWindow base c.minVruntime at hb
    change ∀ i, c.onRq i = true → InWindow base (c.vruntime i) at hw
    have hinv : c.Inv := h.of_sameQueue (.chargeCurr hc) fun _ => h.notMem_of_curr
    refine ⟨chargeCurr_minVruntime hc ▸ hb, ?_, hw⟩
    rcases hinv.updateMinVruntime_mem with hm | ⟨i, hi, hm⟩
    · exact hm ▸ hb
    · exact hm ▸ hw i hi

theorem Inv.dequeueEntity_le {flags : DequeueFlags} (h : s.Inv) (hse : s.onRq se = true)
    (hw : ((s.chargeCurr p now).getD s).Windowed) :
    0 ≤ ((s.dequeueEntity p bal se flags now load).minVruntime - s.minVruntime).toInt := by
  obtain ⟨t, ht, hmin, hrest, heq⟩ := h.dequeueEntity_spec p bal flags now load hse
  rw [heq]
  split
  · rw [hmin]
    exact updateCurr_le
  · obtain ⟨base, hb, hw⟩ := hw
    obtain ⟨hs, hu, hui⟩ := h.updateCurr_inWindow hb hw
    refine hs.toInt_sub_nonneg_trans hu ?_ updateCurr_le ?_
    · rcases ht.updateMinVruntime_mem with hm | ⟨i, hi, hm⟩
      · rw [hm, hmin]
        exact hu
      · rw [hm, (hrest i hi).2]
        exact hui i (hrest i hi).1
    · rw [← hmin]
      exact updateMinVruntime_le

theorem putPrevEntity_le :
    0 ≤ ((s.putPrevEntity p bal se now).minVruntime - s.minVruntime).toInt := by
  cases hse : s.onRq se with
  | false =>
    rw [putPrevEntity_of_not_onRq hse, BitVec.sub_self, BitVec.toInt_zero]
  | true =>
    rw [putPrevEntity_of_onRq hse]
    exact updateCurr_le

theorem preferBuddy_minVruntime {buddy : Option ι} {r : ι × CfsRq ι} :
    (preferBuddy p buddy left r).2.minVruntime = r.2.minVruntime := by
  have hw : ∀ b, (r.2.wakeupPreemptEntity p b left).2.minVruntime = r.2.minVruntime := by
    intro b
    unfold wakeupPreemptEntity
    dsimp only
    split
    · rfl
    · split <;> rfl
  unfold preferBuddy
  split
  · rfl
  · next b =>
    dsimp only
    split <;> exact hw b

theorem pickNextEntity_minVruntime {curr : Option ι}
    (hp : s.pickNextEntity p curr = some (se, t)) : t.minVruntime = s.minVruntime := by
  unfold pickNextEntity at hp
  split at hp
  · cases hp
  · next left _ =>
    cases hp
    dsimp only [clearBuddies]
    rw [preferBuddy_minVruntime, preferBuddy_minVruntime]
    split
    · exact preferBuddy_minVruntime
    · rfl

theorem switchNext_le (hs : s.switchNext p bal now = some t) :
    0 ≤ (t.minVruntime - s.minVruntime).toInt := by
  unfold switchNext at hs
  split at hs
  · cases hs
  · next se u hp =>
    rw [← pickNextEntity_minVruntime hp]
    split at hs
    · cases hs
      rw [BitVec.sub_self, BitVec.toInt_zero]
    · split at hs
      · cases hs
        rw [(u.setNextEntity_same bal se).1, BitVec.sub_self, BitVec.toInt_zero]
      · next prev _ =>
        cases hs
        rw [((u.putPrevEntity p bal prev now).setNextEntity_same bal se).1]
        exact putPrevEntity_le

/-! ## Runs -/

/-- The state in which `update_min_vruntime` of the first `update_curr` of `dequeue_entity` runs. -/
def midway (p : SchedParams) (s : CfsRq ι) : CfsOp ι → CfsRq ι
  | .dequeue _ _ now _ => (s.chargeCurr p now).getD s
  | _ => s

/-- An operation that stays within a window: after it, and where the first of the two
`update_min_vruntime` of `dequeue_entity` runs. -/
def StepsInWindow (p : SchedParams) (bal : Balancing ι) (s : CfsRq ι) (op : CfsOp ι) (t : CfsRq ι) :
    Prop :=
  s.step p bal op = some t ∧ (s.midway p op).Windowed ∧ t.Windowed

omit [DecidableEq ι] in
theorem init_inv (entity : ι → SchedEntity) (v : BitVec 64) : (init entity v).Inv where
  tree := CachedTree.empty_ordered
  mem i := by simp [init, CachedTree.empty, CachedTree.list, onRq]
  buddies i hi := by simp [Named, init] at hi

/-- Every operation keeps the invariant and does not move `min_vruntime` backwards. -/
theorem Inv.step {op : CfsOp ι} (h : s.Inv) (hs : s.StepsInWindow p bal op t) :
    t.Inv ∧ 0 ≤ (t.minVruntime - s.minVruntime).toInt := by
  obtain ⟨hs, hmid, hw⟩ := hs
  cases op with
  | enqueue se flags now load =>
    obtain ⟨hse, heq⟩ := Option.ite_none_left_eq_some.1 hs
    cases heq
    exact ⟨h.enqueueEntity (Bool.not_eq_true _ ▸ hse) hw, enqueueEntity_le⟩
  | dequeue se flags now load =>
    obtain ⟨hse, heq⟩ := Option.ite_none_right_eq_some.1 hs
    cases heq
    exact ⟨h.dequeueEntity hse, h.dequeueEntity_le hse hmid⟩
  | updateCurr now =>
    cases hs
    exact ⟨h.updateCurr, updateCurr_le⟩
  | setBuddy b se =>
    obtain ⟨hse, heq⟩ := Option.ite_none_right_eq_some.1 hs
    cases heq
    refine ⟨h.setBuddy hse, ?_⟩
    cases b <;> exact (congrArg BitVec.toInt (BitVec.sub_self s.minVruntime)).ge
  | putPrev now =>
    unfold CfsRq.step at hs
    dsimp only at hs
    split at hs
    · cases hs
    · next prev hc =>
      cases hs
      exact ⟨h.putPrev hc hw, putPrevEntity_le⟩
  | switchNext now => exact ⟨h.switchNext hs hw, switchNext_le hs⟩

variable {entity : ι → SchedEntity} {v : BitVec 64} {ops : List (CfsOp ι)}

theorem run_inv (h : Run (StepsInWindow p bal) (init entity v) ops s) : s.Inv :=
  h.stateInvariant (init_inv entity v) fun _ _ _ ht hs => (ht.step hs).1

/-- In every run of the operations in which the times stay in a window, the tree holds the entities on
the queue other than `curr`, each once, in order and with the first of them cached; no operation and no
assignment moves `min_vruntime` backwards; the buddies are on the queue; and while an entity is on the
queue, `pick_next_entity` picks `curr` as it is given or an entity of the tree. -/
theorem cfsRq_run (h : Run (StepsInWindow p bal) (init entity v) ops s) :
    ((∀ i, i ∈ s.tasksTimeline.list ↔ s.onRq i = true ∧ s.curr ≠ some i) ∧
      s.tasksTimeline.list.Nodup ∧
      (s.tasksTimeline.list.Pairwise fun a b => s.entityBefore b a = false) ∧
      s.tasksTimeline.leftmost = s.tasksTimeline.list.head?) ∧
    ((∀ op t, s.StepsInWindow p bal op t → 0 ≤ (t.minVruntime - s.minVruntime).toInt) ∧
      ∀ t : CfsRq ι, 0 ≤ (t.updateMinVruntime.minVruntime - t.minVruntime).toInt) ∧
    (∀ i, s.skip = some i ∨ s.last = some i ∨ s.next = some i → s.onRq i = true) ∧
    ((∃ i, s.onRq i = true) → ∃ se t, s.pickNextEntity p s.givenCurr = some (se, t) ∧
      (s.givenCurr = some se ∨ se ∈ s.tasksTimeline.list)) := by
  have hinv := run_inv h
  refine ⟨⟨hinv.mem, hinv.tree.nodup, hinv.tree.sorted, hinv.tree.leftmost⟩,
    ⟨fun op t hs => (hinv.step hs).2, fun t => updateMinVruntime_le⟩, hinv.buddies, ?_⟩
  rintro ⟨i, hi⟩
  obtain ⟨se, t, hp⟩ := hinv.pickNextEntity_isSome hi
  exact ⟨se, t, hp, (hinv.pickNextEntity_spec hp).1⟩

/-- An operation, executed while the times are in the window that begins at `base`. -/
def stepInWindow (p : SchedParams) (bal : Balancing ι) [Fintype ι] (base : BitVec 64) (s : CfsRq ι)
    (op : CfsOp ι) : Option (CfsRq ι) :=
  let inWindow (s : CfsRq ι) : Bool :=
    InWindow base s.minVruntime ∧ ∀ se, s.onRq se = true → InWindow base (s.vruntime se)
  if inWindow (s.midway p op) then (s.step p bal op).filter inWindow else none

theorem stepsInWindow_of_stepInWindow [Fintype ι] {base : BitVec 64} {op : CfsOp ι}
    (h : s.stepInWindow p bal base op = some t) : s.StepsInWindow p bal op t := by
  unfold stepInWindow at h
  obtain ⟨hmid, h⟩ := Option.ite_none_right_eq_some.1 h
  obtain ⟨hs, ht⟩ := Option.filter_eq_some_iff.1 h
  exact ⟨hs, ⟨base, of_decide_eq_true hmid⟩, ⟨base, of_decide_eq_true ht⟩⟩

/-- Two tasks of the default weight: the second is woken while the first runs, is named as the next to
run, and takes the processor over; the first waits in the tree. -/
theorem cfsRq_run_wokenTask :
    ∃ s : CfsRq (Fin 2), s.curr = some 1 ∧ s.tasksTimeline.list = [0] ∧
      s.tasksTimeline.leftmost = s.tasksTimeline.list.head? ∧
      (∀ i, s.skip = some i ∨ s.last = some i ∨ s.next = some i → s.onRq i = true) := by
  obtain ⟨s, hrun, hs⟩ := Run.exists_of_foldlM_option
    (stepInWindow ⟨1024, 0xffffffff, 32, 0, 6, 1, true, fun d f n => (d * f.setWidth 64) >>> n.toNat⟩
      (.none (Fin 2)) 0)
    (init (fun _ => ⟨⟨1024, 0⟩, false, 0, 0, 0, 0⟩) 100)
    [.enqueue 0 ⟨false, false⟩ 0 ⟨1024, 0⟩, .switchNext 0, .enqueue 1 ⟨true, false⟩ 5 ⟨1024, 0⟩,
      .setBuddy .next 1, .switchNext 6]
    (fun s => (s.curr, s.tasksTimeline.list)) (b := (some 1, [0])) (by decide +kernel)
  have hall := cfsRq_run (hrun.mono fun _ _ _ => stepsInWindow_of_stepInWindow)
  exact ⟨s, congrArg Prod.fst hs, congrArg Prod.snd hs, hall.1.2.2.2, hall.2.2.1⟩

end CfsRq

end Rtfsc.Linux
