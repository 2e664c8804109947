import Rtfsc.Linux.CfsRq
import Mathlib.Algebra.Order.Ring.Nat

/-!
# What the operations of CFS keep

The tree holds the entities on the queue other than `curr`, in order, and the buddies are on the queue.
Most assignments concern neither: they leave the tree, `curr`, the entities on the queue and the times of
those in the tree as they are.
-/

namespace Rtfsc.Linux

open Rtfsc.Machine

variable {ι : Type}

namespace CfsRq

/-- A buddy pointer names the entity. -/
def Named (s : CfsRq ι) (i : ι) : Prop :=
  s.skip = some i ∨ s.last = some i ∨ s.next = some i

/-- The invariant of the run queue. -/
structure Inv (s : CfsRq ι) : Prop where
  tree : s.tasksTimeline.Ordered s.entityBefore
  mem : ∀ i, i ∈ s.tasksTimeline.list ↔ s.onRq i = true ∧ s.curr ≠ some i
  buddies : ∀ i, s.Named i → s.onRq i = true

/-- `t` is `s` but for times of entities that have `moved`, weights and buddies taken back. -/
structure SameQueue (moved : ι → Prop) (s t : CfsRq ι) : Prop where
  tasksTimeline : t.tasksTimeline = s.tasksTimeline
  curr : t.curr = s.curr
  onRq : ∀ i, t.onRq i = s.onRq i
  vruntime : ∀ i, ¬moved i → t.vruntime i = s.vruntime i
  named : ∀ i, t.Named i → s.Named i

variable {p : SchedParams} {s t u : CfsRq ι} {moved moved' : ι → Prop} {se : ι}
  {f : SchedEntity → SchedEntity} {now : BitVec 64}

namespace SameQueue

theorem refl (moved : ι → Prop) (s : CfsRq ι) : SameQueue moved s s :=
  ⟨rfl, rfl, fun _ => rfl, fun _ _ => rfl, fun _ h => h⟩

theorem trans (h : SameQueue moved s t) (h' : SameQueue moved t u) : SameQueue moved s u where
  tasksTimeline := h'.tasksTimeline.trans h.tasksTimeline
  curr := h'.curr.trans h.curr
  onRq i := (h'.onRq i).trans (h.onRq i)
  vruntime i hi := (h'.vruntime i hi).trans (h.vruntime i hi)
  named i hi := h.named i (h'.named i hi)

theorem mono (h : SameQueue moved s t) (hle : ∀ i, moved i → moved' i) : SameQueue moved' s t where
  __ := h
  vruntime i hi := h.vruntime i fun hm => hi (hle i hm)

/-- A step that is made on a condition. -/
theorem ite {c : Prop} [Decidable c] (h : SameQueue moved s t) :
    SameQueue moved s (if c then t else s) := by
  split
  · exact h
  · exact .refl _ _

theorem updateMinVruntime : SameQueue moved s s.updateMinVruntime :=
  ⟨rfl, rfl, fun _ => rfl, fun _ _ => rfl, fun _ h => h⟩

end SameQueue

/-- What is in the tree is on the queue and not running. -/
theorem Inv.notMem_of_not_onRq (h : s.Inv) (hse : s.onRq se = false) :
    se ∉ s.tasksTimeline.list := by
  intro hm
  exact Bool.false_ne_true (hse.symm.trans ((h.mem se).1 hm).1)

theorem Inv.notMem_of_curr (h : s.Inv) (hse : s.curr = some se) : se ∉ s.tasksTimeline.list :=
  fun hm => ((h.mem se).1 hm).2 hse

/-- The invariant does not see times outside the tree. -/
theorem Inv.of_sameQueue (h : s.Inv) (hst : SameQueue moved s t)
    (hmoved : ∀ i, moved i → i ∉ s.tasksTimeline.list) : t.Inv where
  tree := by
    rw [hst.tasksTimeline]
    refine h.tree.congr fun a ha b hb => ?_
    unfold entityBefore
    rw [hst.vruntime a fun hm => hmoved a hm ha, hst.vruntime b fun hm => hmoved b hm hb]
  mem i := by rw [hst.tasksTimeline, hst.onRq, hst.curr, h.mem]
  buddies i hi := (hst.onRq i).trans (h.buddies i (hst.named i hi))

theorem Inv.of_still (h : s.Inv) (hst : SameQueue (fun _ => False) s t) : t.Inv :=
  h.of_sameQueue hst fun _ => False.elim

theorem Windowed.congr (h : s.Windowed) (hmin : t.minVruntime = s.minVruntime)
    (hon : ∀ i, t.onRq i = s.onRq i) (hv : ∀ i, t.vruntime i = s.vruntime i) : t.Windowed := by
  obtain ⟨base, hb, hw⟩ := h
  refine ⟨base, hmin ▸ hb, fun i hi => ?_⟩
  rw [hv]
  exact hw i ((hon i).symm.trans hi)

theorem toInt_maxVruntime_sub (a b : BitVec 64) : 0 ≤ (maxVruntime a b - a).toInt := by
  unfold maxVruntime
  split
  · next h => exact h.le
  · rw [BitVec.sub_self, BitVec.toInt_zero]

theorem maxVruntime_cases {P : BitVec 64 → Prop} {a b : BitVec 64} (ha : P a) (hb : P b) :
    P (maxVruntime a b) := by
  unfold maxVruntime
  split
  · exact hb
  · exact ha

/-- `update_min_vruntime` never moves `min_vruntime` backwards. -/
theorem updateMinVruntime_le : 0 ≤ (s.updateMinVruntime.minVruntime - s.minVruntime).toInt :=
  toInt_maxVruntime_sub _ _

/-- `min_vruntime` stays where it is or goes to the time of an entity on the queue. -/
theorem Inv.updateMinVruntime_mem (h : s.Inv) :
    s.updateMinVruntime.minVruntime = s.minVruntime ∨
      ∃ i, s.onRq i = true ∧ s.updateMinVruntime.minVruntime = s.vruntime i := by
  have hleft : ∀ l, s.tasksTimeline.leftmost = some l → s.onRq l = true := fun l hl =>
    ((h.mem l).1 (h.tree.leftmost_mem hl)).1
  have hcurr : ∀ c, s.curr.filter s.onRq = some c → s.onRq c = true := fun c hc =>
    (Option.filter_eq_some_iff.1 hc).2
  unfold updateMinVruntime
  dsimp only
  generalize s.curr.filter s.onRq = curr at hcurr
  generalize s.tasksTimeline.leftmost = left at hleft
  refine maxVruntime_cases (P := fun v => v = s.minVruntime ∨ ∃ i, s.onRq i = true ∧ v = s.vruntime i)
    (.inl rfl) ?_
  cases curr with
  | none =>
    cases left with
    | none => exact .inl rfl
    | some l => exact .inr ⟨l, hleft l rfl, rfl⟩
  | some c =>
    cases left with
    | none => exact .inr ⟨c, hcurr c rfl, rfl⟩
    | some l =>
      dsimp only
      rw [if_neg (Option.some_ne_none c), Linux.minVruntime]
      split
      · exact .inr ⟨l, hleft l rfl, rfl⟩
      · exact .inr ⟨c, hcurr c rfl, rfl⟩

variable [DecidableEq ι] {bal : Balancing ι}

theorem update_entity_self : (s.update se f).entity se = f (s.entity se) :=
  Function.update_self ..

theorem update_entity_of_ne {i : ι} (h : i ≠ se) : (s.update se f).entity i = s.entity i :=
  Function.update_of_ne h ..

namespace SameQueue

/-- An assignment to fields of an entity that leaves it where it is. -/
theorem update (hf : ∀ e, (f e).onRq = e.onRq) (hse : moved se) :
    SameQueue moved s (s.update se f) where
  tasksTimeline := rfl
  curr := rfl
  onRq i := by
    unfold CfsRq.onRq
    rcases eq_or_ne i se with rfl | hi
    · rw [update_entity_self, hf]
    · rw [update_entity_of_ne hi]
  vruntime i hi := by
    unfold CfsRq.vruntime
    rw [update_entity_of_ne]
    rintro rfl
    exact hi hse
  named _ h := h

/-- The same for one that leaves its time as it is, too. -/
theorem update_of_vruntime (hf : ∀ e, (f e).onRq = e.onRq) (hv : ∀ e, (f e).vruntime = e.vruntime) :
    SameQueue moved s (s.update se f) where
  tasksTimeline := rfl
  curr := rfl
  onRq := (update hf rfl : SameQueue (fun i => i = se) s (s.update se f)).onRq
  vruntime i _ := by
    unfold CfsRq.vruntime
    rcases eq_or_ne i se with rfl | hi
    · rw [update_entity_self, hv]
    · rw [update_entity_of_ne hi]
  named _ h := h

theorem renormalise (hse : moved se) : SameQueue moved s (s.renormalise se) :=
  update (fun _ => rfl) hse

theorem placeEntity (hse : moved se) : SameQueue moved s (s.placeEntity p se) := by
  unfold CfsRq.placeEntity
  dsimp only
  exact update (fun _ => rfl) hse

theorem setLoad {load : LoadWeight} :
    SameQueue moved s (s.update se fun e => { e with load := load }) :=
  update_of_vruntime (fun _ => rfl) fun _ => rfl

theorem chargeCurr (h : s.chargeCurr p now = some t) :
    SameQueue (fun i => s.curr = some i) s t := by
  unfold CfsRq.chargeCurr at h
  split at h
  · cases h
  · next c hc =>
    dsimp only at h
    split at h
    · cases h
    · cases h
      exact update (fun _ => rfl) hc

theorem updateCurr : SameQueue (fun i => s.curr = some i) s (s.updateCurr p now) := by
  unfold CfsRq.updateCurr
  split
  · exact .refl _ _
  · next h => exact (chargeCurr h).trans updateMinVruntime

/-- `clear_buddies` only takes buddies back, and all that name its entity. -/
theorem clearBuddies : SameQueue moved s (s.clearBuddies se) where
  tasksTimeline := rfl
  curr := rfl
  onRq _ := rfl
  vruntime _ _ := rfl
  named i h := by
    unfold Named CfsRq.clearBuddies at h
    unfold Named
    grind

theorem wakeupPreemptEntity {a b : ι} : SameQueue moved s (s.wakeupPreemptEntity p a b).2 := by
  unfold CfsRq.wakeupPreemptEntity
  dsimp only
  split
  · exact refl _ _
  · split
    · exact setLoad
    · exact setLoad

end SameQueue

theorem clearBuddies_named : ¬(s.clearBuddies se).Named se := by
  unfold Named clearBuddies
  grind

theorem Inv.updateCurr (h : s.Inv) : (s.updateCurr p now).Inv :=
  h.of_sameQueue .updateCurr fun _ => h.notMem_of_curr

/-! ## Into the tree and out of it -/

/-- `__enqueue_entity` puts an entity in its place, if the times that it compares are in a window. -/
theorem linkEntity_ordered (h : s.tasksTimeline.Ordered s.entityBefore)
    (hse : se ∉ s.tasksTimeline.list)
    (hw : ∃ base, ∀ i ∈ se :: s.tasksTimeline.list, InWindow base (s.vruntime i)) :
    (s.linkEntity bal se).tasksTimeline.Ordered s.entityBefore := by
  obtain ⟨base, hw⟩ := hw
  exact h.insert (fun i => (s.vruntime i - base).toNat) hse fun a ha b hb =>
    (hw a ha).serialBefore_iff (hw b hb)

theorem mem_linkEntity {i : ι} :
    i ∈ (s.linkEntity bal se).tasksTimeline.list ↔ i = se ∨ i ∈ s.tasksTimeline.list := by
  rw [linkEntity, CachedTree.list_insert_perm.mem_iff, List.mem_cons]

theorem mem_unlinkEntity (h : s.Inv) (hse : se ∈ s.tasksTimeline.list) {i : ι} :
    i ∈ (s.unlinkEntity bal se).tasksTimeline.list ↔ i ≠ se ∧ i ∈ s.tasksTimeline.list := by
  rw [unlinkEntity, h.tree.list_erase hse, h.tree.nodup.mem_erase_iff]

section OnRq

variable {on : Bool}

theorem onRq_update (i : ι) :
    (s.update se fun e => { e with onRq := on }).onRq i = if i = se then on else s.onRq i := by
  unfold onRq
  split
  · next hi => rw [hi, update_entity_self]
  · next hi => rw [update_entity_of_ne hi]

theorem vruntime_update (i : ι) :
    (s.update se fun e => { e with onRq := on }).vruntime i = s.vruntime i := by
  unfold vruntime
  rcases eq_or_ne i se with rfl | hi
  · rw [update_entity_self]
  · rw [update_entity_of_ne hi]

/-- The order of the tree does not depend on who is on the queue. -/
theorem ordered_update (h : s.tasksTimeline.Ordered s.entityBefore) :
    s.tasksTimeline.Ordered (s.update se fun e => { e with onRq := on }).entityBefore := by
  refine h.congr fun a _ b _ => ?_
  unfold entityBefore
  rw [vruntime_update, vruntime_update]

end OnRq

/-- `curr` comes back onto the queue. -/
theorem Inv.admit_curr (h : s.Inv) (hc : s.curr = some se) :
    (s.update se fun e => { e with onRq := true }).Inv where
  tree := ordered_update h.tree
  mem i := by
    change i ∈ s.tasksTimeline.list ↔ _ ∧ s.curr ≠ some i
    rw [h.mem, onRq_update]
    split
    · next hi => simp [hi, hc]
    · exact .rfl
  buddies i hi := by
    rw [onRq_update]
    split
    · rfl
    · exact h.buddies i hi

/-- Another entity comes onto the queue and into the tree. -/
theorem Inv.admit_tree (h : s.Inv) (hse : s.onRq se = false) (hc : s.curr ≠ some se)
    (hw : ((s.linkEntity bal se).update se fun e => { e with onRq := true }).Windowed) :
    ((s.linkEntity bal se).update se fun e => { e with onRq := true }).Inv where
  tree := by
    obtain ⟨base, _, hw⟩ := hw
    refine ordered_update (s := s.linkEntity bal se)
      (linkEntity_ordered h.tree (h.notMem_of_not_onRq hse) ⟨base, fun i hi => ?_⟩)
    have hi' := hw i
    rw [onRq_update, vruntime_update] at hi'
    apply hi'
    split
    · rfl
    · next hne =>
      rcases List.mem_cons.1 hi with rfl | hi
      · exact absurd rfl hne
      · exact ((h.mem i).1 hi).1
  mem i := by
    change i ∈ (s.linkEntity bal se).tasksTimeline.list ↔ _ ∧ s.curr ≠ some i
    rw [mem_linkEntity, onRq_update, h.mem]
    split
    · next hi =>
      subst hi
      simp [hc]
    · next hi => simp [hi, linkEntity, onRq]
  buddies i hi := by
    rw [onRq_update]
    split
    · rfl
    · exact h.buddies i hi

/-- `curr` leaves the queue. -/
theorem Inv.withdraw_curr (h : s.Inv) (hc : s.curr = some se) (hn : ¬s.Named se) :
    (s.update se fun e => { e with onRq := false }).Inv where
  tree := ordered_update h.tree
  mem i := by
    change i ∈ s.tasksTimeline.list ↔ _ ∧ s.curr ≠ some i
    rw [h.mem, onRq_update]
    split
    · next hi => simp [hi, hc]
    · exact .rfl
  buddies i hi := by
    rw [onRq_update, if_neg]
    · exact h.buddies i hi
    · rintro rfl
      exact hn hi

/-- Another entity leaves the queue and the tree. -/
theorem Inv.withdraw_tree (h : s.Inv) (hse : s.onRq se = true) (hc : s.curr ≠ some se)
    (hn : ¬s.Named se) :
    ((s.unlinkEntity bal se).update se fun e => { e with onRq := false }).Inv where
  tree := ordered_update (s := s.unlinkEntity bal se) (h.tree.erase ((h.mem se).2 ⟨hse, hc⟩))
  mem i := by
    change i ∈ (s.unlinkEntity bal se).tasksTimeline.list ↔ _ ∧ s.curr ≠ some i
    rw [mem_unlinkEntity h ((h.mem se).2 ⟨hse, hc⟩), onRq_update, h.mem]
    split
    · next hi => simp [hi]
    · next hi => simp [hi, unlinkEntity, onRq]
  buddies i hi := by
    rw [onRq_update, if_neg]
    · exact h.buddies i hi
    · rintro rfl
      exact hn hi

/-- `set_next_entity` changes no time and no entity's place on the queue. -/
theorem setNextEntity_same (bal : Balancing ι) (se : ι) (s : CfsRq ι) :
    (s.setNextEntity bal se).minVruntime = s.minVruntime ∧
      (∀ i, (s.setNextEntity bal se).onRq i = s.onRq i) ∧
        ∀ i, (s.setNextEntity bal se).vruntime i = s.vruntime i := by
  have hentity : (if s.onRq se then s.unlinkEntity bal se else s).entity = s.entity := by
    split <;> rfl
  have hmin : (if s.onRq se then s.unlinkEntity bal se else s).minVruntime = s.minVruntime := by
    split <;> rfl
  unfold setNextEntity
  dsimp only
  generalize (if s.onRq se then s.unlinkEntity bal se else s) = u at hentity hmin
  have hsame : SameQueue (fun _ => False) { u with curr := some se }
      (({ u with curr := some se } : CfsRq ι).update se
        fun e => { e with prevSumExecRuntime := e.sumExecRuntime }) :=
    .update_of_vruntime (fun _ => rfl) fun _ => rfl
  refine ⟨hmin, fun i => (hsame.onRq i).trans ?_, fun i => (hsame.vruntime i id).trans ?_⟩
  · exact congrArg SchedEntity.onRq (congrFun hentity i)
  · exact congrArg SchedEntity.vruntime (congrFun hentity i)

/-- An entity of the tree becomes `curr`. -/
theorem Inv.setNext (h : s.Inv) (hse : s.onRq se = true) (hc : s.curr = none) :
    (s.setNextEntity bal se).Inv := by
  have hmem : se ∈ s.tasksTimeline.list := (h.mem se).2 ⟨hse, by simp [hc]⟩
  have hinv : ({ s.unlinkEntity bal se with curr := some se } : CfsRq ι).Inv :=
    { tree := h.tree.erase hmem
      mem := fun i => by
        change i ∈ (s.unlinkEntity bal se).tasksTimeline.list ↔ s.onRq i = true ∧ some se ≠ some i
        rw [mem_unlinkEntity h hmem, h.mem, hc]
        grind
      buddies := h.buddies }
  unfold setNextEntity
  rw [if_pos hse]
  exact hinv.of_still (.update_of_vruntime (fun _ => rfl) fun _ => rfl)

theorem putPrevEntity_of_onRq (h : s.onRq se = true) :
    s.putPrevEntity p bal se now = { (s.updateCurr p now).linkEntity bal se with curr := none } := by
  have hon : (s.updateCurr p now).onRq se = true := (SameQueue.updateCurr.onRq se).trans h
  unfold putPrevEntity
  simp only [h, hon, if_true]

theorem putPrevEntity_of_not_onRq (h : s.onRq se = false) :
    s.putPrevEntity p bal se now = { s with curr := none } := by
  unfold putPrevEntity
  simp only [h, Bool.false_eq_true, if_false]

theorem onRq_putPrevEntity (i : ι) : (s.putPrevEntity p bal se now).onRq i = s.onRq i := by
  cases hse : s.onRq se with
  | false => rw [putPrevEntity_of_not_onRq hse]; rfl
  | true =>
    rw [putPrevEntity_of_onRq hse]
    exact SameQueue.updateCurr.onRq i

/-- `curr` goes back into the tree if it is on the queue, and then none runs. -/
theorem Inv.putPrev (h : s.Inv) (hc : s.curr = some se)
    (hw : (s.putPrevEntity p bal se now).Windowed) : (s.putPrevEntity p bal se now).Inv := by
  cases hse : s.onRq se with
  | false =>
    rw [putPrevEntity_of_not_onRq hse]
    refine ⟨h.tree, fun i => ?_, h.buddies⟩
    change i ∈ s.tasksTimeline.list ↔ s.onRq i = true ∧ none ≠ some i
    rw [h.mem, hc]
    grind
  | true =>
    have hu : SameQueue (fun i => s.curr = some i) s (s.updateCurr p now) := .updateCurr
    have hon : (s.updateCurr p now).onRq se = true := (hu.onRq se).trans hse
    have hinv : (s.updateCurr p now).Inv := h.updateCurr
    have hcurr : (s.updateCurr p now).curr = some se := hu.curr.trans hc
    rw [putPrevEntity_of_onRq hse] at hw ⊢
    generalize s.updateCurr p now = u at hw hon hinv hcurr
    obtain ⟨base, _, hw⟩ := hw
    refine ⟨?_, fun i => ?_, hinv.buddies⟩
    · refine linkEntity_ordered hinv.tree (hinv.notMem_of_curr hcurr) ⟨base, fun i hi => hw i ?_⟩
      rcases List.mem_cons.1 hi with rfl | hi
      · exact hon
      · exact ((hinv.mem i).1 hi).1
    · change i ∈ (u.linkEntity bal se).tasksTimeline.list ↔ u.onRq i = true ∧ none ≠ some i
      rw [mem_linkEntity, hinv.mem, hcurr]
      grind

/-! ## `min_vruntime` -/

theorem updateCurr_cases (p : SchedParams) (now : BitVec 64) (s : CfsRq ι) :
    s.updateCurr p now = s ∨
      ∃ t, s.chargeCurr p now = some t ∧ s.updateCurr p now = t.updateMinVruntime := by
  unfold updateCurr
  cases s.chargeCurr p now with
  | none => exact .inl rfl
  | some t => exact .inr ⟨t, rfl, rfl⟩

theorem chargeCurr_minVruntime (h : s.chargeCurr p now = some t) :
    t.minVruntime = s.minVruntime := by
  unfold chargeCurr at h
  split at h
  · cases h
  · dsimp only at h
    split at h
    · cases h
    · cases h
      rfl

/-- Nor does `update_curr`. -/
theorem updateCurr_le : 0 ≤ ((s.updateCurr p now).minVruntime - s.minVruntime).toInt := by
  rcases updateCurr_cases p now s with h | ⟨t, ht, h⟩
  · rw [h, BitVec.sub_self, BitVec.toInt_zero]
  · rw [h, ← chargeCurr_minVruntime ht]
    exact updateMinVruntime_le

end CfsRq

end Rtfsc.Linux
