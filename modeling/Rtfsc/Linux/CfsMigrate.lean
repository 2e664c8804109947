import Rtfsc.Linux.CfsRun

/-!
# A task between two run queues

A task that leaves a run queue without going to sleep, or that is forked, carries its time relative to
`min_vruntime`, and gets the `min_vruntime` of the queue that it comes to. Several run queues over one
set of entities go on in between, each by operations of its own. They leave the entity alone, except
that a queue whose `curr` it still is charges it for the time that has passed.
-/

namespace Rtfsc.Linux

open Rtfsc.Machine

variable {κ ι : Type}

/-! ## Forking -/

/-- The tunables of `task_fork_fair` and of what it calls. -/
structure ForkParams where
  schedNrLatency : BitVec 64
  sysctlSchedMinGranularity : BitVec 64
  startDebit : Bool
  sysctlSchedChildRunsFirst : Bool

/-- One level of the group hierarchy: `on_rq` and the weight of the entity, and the load of its queue. -/
structure SliceLevel where
  onRq : Bool
  weight : BitVec 64
  load : LoadWeight

/-- `__sched_period` -/
def schedPeriod (p : SchedParams) (f : ForkParams) (nrRunning : BitVec 64) : BitVec 64 :=
  if f.schedNrLatency < nrRunning then nrRunning * f.sysctlSchedMinGranularity
  else p.sysctlSchedLatency

/-- `sched_slice`, for the levels of the hierarchy from the entity upwards. -/
def schedSlice (p : SchedParams) (f : ForkParams) (nrRunning : BitVec 64) (levels : List SliceLevel) :
    BitVec 64 :=
  levels.foldl
    (fun slice l =>
      let load := if l.onRq then l.load else ⟨l.load.weight + l.weight, 0⟩
      (calcDelta p slice l.weight load).1)
    (schedPeriod p f nrRunning)

namespace CfsRq

variable [DecidableEq ι]

/-- `place_entity` with `initial` 1; `slice` is what `sched_slice` returns. -/
def placeInitial (p : SchedParams) (f : ForkParams) (slice : BitVec 64) (se : ι) (s : CfsRq ι) :
    CfsRq ι :=
  if f.startDebit then
    let vslice := calcDeltaFair p slice (s.entity se).load
    s.update se fun e =>
      { e with load := vslice.2, vruntime := maxVruntime e.vruntime (s.minVruntime + vslice.1) }
  else s.update se fun e => { e with vruntime := maxVruntime e.vruntime s.minVruntime }

/-- `swap(curr->vruntime, se->vruntime)` -/
def swapVruntime (curr se : ι) (s : CfsRq ι) : CfsRq ι :=
  let v := s.vruntime curr
  let s := s.update curr fun e => { e with vruntime := s.vruntime se }
  s.update se fun e => { e with vruntime := v }

/-- `task_fork_fair` up to its last assignment. -/
def taskForkPlace (p : SchedParams) (f : ForkParams) (now slice : BitVec 64) (se : ι) (s : CfsRq ι) :
    CfsRq ι :=
  match s.curr with
  | none => s.placeInitial p f slice se
  | some curr =>
    let s := s.updateCurr p now
    let s := s.update se fun e => { e with vruntime := s.vruntime curr }
    let s := s.placeInitial p f slice se
    if f.sysctlSchedChildRunsFirst && s.entityBefore curr se then s.swapVruntime curr se else s

/-- `se->vruntime -= cfs_rq->min_vruntime` -/
def normalise (se : ι) (s : CfsRq ι) : CfsRq ι :=
  s.update se fun e => { e with vruntime := e.vruntime - s.minVruntime }

/-- `task_fork_fair` -/
def taskForkFair (p : SchedParams) (f : ForkParams) (now slice : BitVec 64) (se : ι) (s : CfsRq ι) :
    CfsRq ι :=
  (s.taskForkPlace p f now slice se).normalise se

end CfsRq

/-! ## Several queues -/

/-- Run queues that share their entities. -/
structure RunQueues (κ ι : Type) where
  entity : ι → SchedEntity
  queue : κ → CfsRq ι
  shared : ∀ k, (queue k).entity = entity

/-- An operation on one of the queues, or a fork from the task that runs on one. -/
inductive SchedOp (κ ι : Type)
  | queue (k : κ) (op : CfsOp ι)
  | fork (k : κ) (se : ι) (now nrRunning : BitVec 64) (levels : List SliceLevel)

namespace RunQueues

/-- One queue has changed, and with it the entities. -/
def assign [DecidableEq κ] (s : RunQueues κ ι) (k : κ) (q : CfsRq ι) : RunQueues κ ι where
  entity := q.entity
  queue j := if j = k then q else { s.queue j with entity := q.entity }
  shared j := by split <;> rfl

variable [DecidableEq κ] [DecidableEq ι]

/-- One operation; `none` where it may not be called. A forked entity is new. -/
def step (p : SchedParams) (f : ForkParams) (bal : Balancing ι) (s : RunQueues κ ι) :
    SchedOp κ ι → Option (RunQueues κ ι)
  | .queue k op => ((s.queue k).step p bal op).map (s.assign k)
  | .fork k se now nrRunning levels =>
    if (s.entity se).onRq || (s.queue k).curr = some se then none
    else
      let slice := schedSlice p f nrRunning levels
      some (s.assign k ((s.queue k).taskForkFair p f now slice se))

end RunQueues

/-- The operation puts the entity on a queue, or forks it. -/
def SchedOp.Admits (se : ι) : SchedOp κ ι → Prop
  | .queue _ (.enqueue i _ _ _) => i = se
  | .fork _ i _ _ _ => i = se
  | _ => False

/-- The queue does not charge the entity: where it is `curr`, `update_curr` finds that no time has
passed. -/
def CfsRq.Spares (se : ι) (q : CfsRq ι) : CfsOp ι → Prop
  | .enqueue _ _ now _ => q.curr = some se → (now - (q.entity se).execStart).toInt ≤ 0
  | .dequeue _ _ now _ => q.curr = some se → (now - (q.entity se).execStart).toInt ≤ 0
  | .updateCurr now => q.curr = some se → (now - (q.entity se).execStart).toInt ≤ 0
  | _ => True

namespace RunQueues

/-- None of the queues charges the entity, and it does not fork. -/
def Spares (se : ι) (s : RunQueues κ ι) : SchedOp κ ι → Prop
  | .queue k op => (s.queue k).Spares se op
  | .fork k _ _ _ _ => (s.queue k).curr ≠ some se

variable [DecidableEq κ] [DecidableEq ι]

/-- An operation while the entity is between two queues, or after its fork; `running` tells that it was
`curr` of the queue that it left, and then it must not be charged. -/
def Between (p : SchedParams) (f : ForkParams) (bal : Balancing ι) (se : ι) (running : Prop)
    (s : RunQueues κ ι) (op : SchedOp κ ι) (t : RunQueues κ ι) : Prop :=
  s.step p f bal op = some t ∧ ¬op.Admits se ∧ (running → s.Spares se op)

end RunQueues

/-! ## What an operation on a queue leaves alone -/

namespace CfsRq

/-- The queue does not know of the entity. -/
structure Absent (i : ι) (q : CfsRq ι) : Prop where
  tree : i ∉ q.tasksTimeline.list
  leftmost : q.tasksTimeline.leftmost ≠ some i
  named : ¬q.Named i
  curr : q.curr ≠ some i

/-- An entity keeps its time and stays off the queue, and a queue that did not know of it still does
not. -/
structure Untouched (i : ι) (q q' : CfsRq ι) : Prop where
  onRq : q'.onRq i = q.onRq i
  vruntime : q'.vruntime i = q.vruntime i
  absent : q.Absent i → q'.Absent i

variable {p : SchedParams} {f : ForkParams} {s t u : CfsRq ι} {moved : ι → Prop} {i se : ι}
  {g : SchedEntity → SchedEntity} {now slice : BitVec 64} {load : LoadWeight}

theorem Absent.of_sameQueue (ha : s.Absent i) (h : SameQueue moved s t) : t.Absent i :=
  ⟨h.tasksTimeline ▸ ha.tree, h.tasksTimeline ▸ ha.leftmost, fun hn => ha.named (h.named i hn),
    h.curr ▸ ha.curr⟩

namespace Untouched

theorem refl (i : ι) (s : CfsRq ι) : Untouched i s s :=
  ⟨rfl, rfl, id⟩

theorem trans (h : Untouched i s t) (h' : Untouched i t u) : Untouched i s u :=
  ⟨h'.onRq.trans h.onRq, h'.vruntime.trans h.vruntime, h'.absent ∘ h.absent⟩

theorem ite {c : Prop} [Decidable c] (h : c → Untouched i s t) :
    Untouched i s (if c then t else s) := by
  split
  · next hc => exact h hc
  · exact .refl _ _

theorem of_sameQueue (h : SameQueue moved s t) (hi : ¬moved i) : Untouched i s t where
  onRq := h.onRq i
  vruntime := h.vruntime i hi
  absent ha := ha.of_sameQueue h

end Untouched

variable [DecidableEq ι] {bal : Balancing ι}

namespace Untouched

theorem update (hi : i ≠ se) : Untouched i s (s.update se g) where
  onRq := by
    unfold CfsRq.onRq
    rw [update_entity_of_ne hi]
  vruntime := by
    unfold CfsRq.vruntime
    rw [update_entity_of_ne hi]
  absent ha := ⟨ha.tree, ha.leftmost, ha.named, ha.curr⟩

theorem normalise (hi : i ≠ se) : Untouched i s (s.normalise se) :=
  update hi

/-- `update_curr` charges `curr` and nothing else, and not even that when no time has passed. -/
theorem updateCurr (h : s.curr = some i → (now - (s.entity i).execStart).toInt ≤ 0) :
    Untouched i s (s.updateCurr p now) := by
  rcases eq_or_ne s.curr (some i) with hc | hc
  · have hnone : s.chargeCurr p now = none := by
      unfold chargeCurr
      rw [hc]
      exact if_pos (h hc)
    unfold CfsRq.updateCurr
    rw [hnone]
    exact .refl _ _
  · exact of_sameQueue .updateCurr hc

theorem linkEntity (hi : i ≠ se) : Untouched i s (s.linkEntity bal se) where
  onRq := rfl
  vruntime := rfl
  absent ha := by
    refine ⟨?_, ?_, ha.named, ha.curr⟩
    · rw [mem_linkEntity, not_or]
      exact ⟨hi, ha.tree⟩
    · unfold CfsRq.linkEntity CachedTree.insert
      dsimp only
      split
      · exact fun h => hi (Option.some.inj h).symm
      · exact ha.leftmost

/-- Removal brings nothing into the tree. -/
theorem unlinkEntity (hbal : ∀ x t, inorder (bal.erase x t) ⊆ inorder t) :
    Untouched i s (s.unlinkEntity bal se) where
  onRq := rfl
  vruntime := rfl
  absent ha := by
    refine ⟨fun hm => ha.tree (hbal se s.tasksTimeline.root hm), ?_, ha.named, ha.curr⟩
    unfold CfsRq.unlinkEntity CachedTree.erase
    dsimp only
    split
    · exact fun h => ha.tree (CachedTree.next_mem h)
    · exact ha.leftmost

omit [DecidableEq ι] in
theorem setBuddy {b : Buddy} (hi : i ≠ se) : Untouched i s (s.setBuddy b se) where
  onRq := by cases b <;> rfl
  vruntime := by cases b <;> rfl
  absent ha := by
    have hne : some se ≠ some i := fun h => hi (Option.some.inj h).symm
    have hnamed := ha.named
    unfold Named at hnamed
    rw [not_or, not_or] at hnamed
    obtain ⟨hskip, hlast, hnext⟩ := hnamed
    cases b with
    | skip => exact ⟨ha.tree, ha.leftmost, not_or.2 ⟨hne, not_or.2 ⟨hlast, hnext⟩⟩, ha.curr⟩
    | last => exact ⟨ha.tree, ha.leftmost, not_or.2 ⟨hskip, not_or.2 ⟨hne, hnext⟩⟩, ha.curr⟩
    | next => exact ⟨ha.tree, ha.leftmost, not_or.2 ⟨hskip, not_or.2 ⟨hlast, hne⟩⟩, ha.curr⟩

end Untouched

/-- A fork moves no entity on the queue. -/
theorem taskForkFair_same : SameQueue (fun _ => True) s (s.taskForkFair p f now slice se) := by
  have hplace : ∀ q : CfsRq ι, SameQueue (fun _ => True) q (q.placeInitial p f slice se) := by
    intro q
    unfold placeInitial
    split
    · exact .update (fun _ => rfl) trivial
    · exact .update (fun _ => rfl) trivial
  have hnormalise : ∀ q : CfsRq ι, SameQueue (fun _ => True) q (q.normalise se) := by
    intro q
    unfold normalise
    exact .update (fun _ => rfl) trivial
  unfold taskForkFair
  refine SameQueue.trans ?_ (hnormalise _)
  unfold taskForkPlace
  split
  · exact hplace s
  · next curr _ =>
    have hswap : ∀ q : CfsRq ι, SameQueue (fun _ => True) q (q.swapVruntime curr se) := by
      intro q
      unfold swapVruntime
      exact SameQueue.trans (t := q.update curr fun e => { e with vruntime := q.vruntime se })
        (.update (fun _ => rfl) trivial) (.update (fun _ => rfl) trivial)
    have hcharged : SameQueue (fun _ => True) s (s.updateCurr p now) :=
      SameQueue.updateCurr.mono fun _ _ => trivial
    have hseen : SameQueue (fun _ => True) (s.updateCurr p now) ((s.updateCurr p now).update se
        fun e => { e with vruntime := (s.updateCurr p now).vruntime curr }) :=
      .update (fun _ => rfl) trivial
    have hplaced := hcharged.trans (hseen.trans (hplace _))
    dsimp only
    split
    · exact hplaced.trans (hswap _)
    · exact hplaced

/-- `pick_next_entity` picks what it is given as `curr`, the leftmost, an entity of the tree or a buddy,
and only clears buddies. -/
theorem pickNextEntity_of {P : ι → Prop} {curr : Option ι} (hcurr : ∀ c, curr = some c → P c)
    (hleft : ∀ l, s.tasksTimeline.leftmost = some l → P l) (htree : ∀ l ∈ s.tasksTimeline.list, P l)
    (hnamed : ∀ b, s.Named b → P b) (hp : s.pickNextEntity p curr = some (se, t)) :
    P se ∧ SameQueue (fun _ => False) s t := by
  unfold pickNextEntity at hp
  split at hp
  · cases hp
  · next left hl =>
    have hfirst : P left := by
      unfold leftOf at hl
      split at hl
      · exact hcurr left hl
      · next hlm =>
        cases hl
        exact hleft left hlm
      · next hlm =>
        split at hl
        · cases hl
          exact hcurr left rfl
        · cases hl
          exact hleft left hlm
    have hsecond : ∀ b, s.secondOf curr left = some b → P b := by
      intro b hb
      unfold secondOf at hb
      split at hb
      · exact hleft b hb
      · split at hb
        · exact hcurr b hb
        · next hnext _ =>
          cases hb
          exact htree b (CachedTree.next_mem hnext)
        · next hnext _ =>
          split at hb
          · cases hb
            exact hcurr b rfl
          · cases hb
            exact htree b (CachedTree.next_mem hnext)
    dsimp only at hp
    set r : ι × CfsRq ι := if s.skip = some left then
      preferBuddy p (s.secondOf curr left) left (left, s) else (left, s) with hr
    have hr1 : P r.1 := by
      rw [hr]
      split
      · exact preferBuddy_fst hfirst hsecond
      · exact hfirst
    have hr2 : SameQueue (fun _ => False) s r.2 := by
      rw [hr]
      split
      · exact preferBuddy_snd (.refl _ _)
      · exact .refl _ _
    clear_value r
    have hlast1 : P (preferBuddy p r.2.last left r).1 :=
      preferBuddy_fst hr1 fun b hb => hnamed b (hr2.named b (.inr (.inl hb)))
    have hlast2 : SameQueue (fun _ => False) s (preferBuddy p r.2.last left r).2 :=
      preferBuddy_snd hr2
    cases hp
    exact ⟨preferBuddy_fst hlast1 fun b hb => hnamed b (hlast2.named b (.inr (.inr hb))),
      (preferBuddy_snd hlast2).trans .clearBuddies⟩

namespace Untouched

/-- Only an entity on the queue is put back into the tree, and it is the one that is charged. -/
theorem putPrevEntity (hi : s.onRq i = false) (hc : s.curr = some se) :
    Untouched i s (s.putPrevEntity p bal se now) := by
  have hclear : ∀ q : CfsRq ι, Untouched i q { q with curr := none } := fun q =>
    ⟨rfl, rfl, fun ha => ⟨ha.tree, ha.leftmost, ha.named, (Option.some_ne_none i).symm⟩⟩
  cases hse : s.onRq se with
  | false =>
    rw [putPrevEntity_of_not_onRq hse]
    exact hclear s
  | true =>
    have hne : i ≠ se := by
      rintro rfl
      exact Bool.false_ne_true (hi.symm.trans hse)
    rw [putPrevEntity_of_onRq hse]
    refine (updateCurr fun h => ?_).trans ((linkEntity hne).trans (hclear _))
    exact absurd (Option.some.inj (h.symm.trans hc)) hne

/-- The entity that is picked was known to the queue. -/
theorem switchNext (hbal : ∀ x t, inorder (bal.erase x t) ⊆ inorder t) (hi : s.onRq i = false)
    (hs : s.switchNext p bal now = some t) : Untouched i s t := by
  unfold CfsRq.switchNext at hs
  split at hs
  · cases hs
  · next se u hpick =>
    have hsame := (pickNextEntity_of (P := fun _ => True) (fun _ _ => trivial) (fun _ _ => trivial)
      (fun _ _ => trivial) (fun _ _ => trivial) hpick).2
    have hpicked : s.Absent i → i ≠ se := fun ha =>
      (pickNextEntity_of (P := fun x => i ≠ x)
        (fun c hc h => ha.curr (h ▸ (Option.filter_eq_some_iff.1 hc).1))
        (fun l hl h => ha.leftmost (h ▸ hl)) (fun l hl h => ha.tree (h ▸ hl))
        (fun b hb h => ha.named (h ▸ hb)) hpick).1
    have hu : Untouched i s u := of_sameQueue hsame id
    -- the entity that is picked runs next, in the state after the last one has been put back
    have hset : ∀ q, Untouched i s q → Untouched i s (q.setNextEntity bal se) := fun q hq => by
      have hunlink : Untouched i q (if q.onRq se then q.unlinkEntity bal se else q) :=
        .ite fun _ => .unlinkEntity hbal
      refine ⟨(((q.setNextEntity_same bal se).2.1 i).trans hq.onRq),
        ((q.setNextEntity_same bal se).2.2 i).trans hq.vruntime, fun ha => ?_⟩
      have hq' := hunlink.absent (hq.absent ha)
      exact ⟨hq'.tree, hq'.leftmost, hq'.named, fun h => hpicked ha (Option.some.inj h).symm⟩
    split at hs
    · cases hs
      exact hu
    · split at hs
      · cases hs
        exact hset u hu
      · next hc =>
        cases hs
        exact hset _ (hu.trans (putPrevEntity (hu.onRq.trans hi) hc))

/-- An entity that is not on the queue is left alone by every operation that does not enqueue it or
charge it. -/
theorem step {op : CfsOp ι} (hbal : ∀ x t, inorder (bal.erase x t) ⊆ inorder t)
    (hi : s.onRq i = false) (hop : ∀ flags now load, op ≠ .enqueue i flags now load)
    (hspares : s.Spares i op) (hs : s.step p bal op = some t) : Untouched i s t := by
  have hoff : ∀ {se}, s.onRq se = true → i ≠ se := by
    rintro se hse rfl
    exact Bool.false_ne_true (hi.symm.trans hse)
  cases op with
  | enqueue se flags now load =>
    obtain ⟨-, heq⟩ := Option.ite_none_left_eq_some.1 hs
    cases heq
    have hne : i ≠ se := fun h => hop flags now load (h ▸ rfl)
    have hrenorm : ∀ {q : CfsRq ι} {c : Prop} [Decidable c],
        Untouched i q (if c then q.renormalise se else q) := .ite fun _ => .update hne
    have hcharged : ∀ {c : Prop} [Decidable c], (if c then s.renormalise se else s).curr = some i →
        (now - ((if c then s.renormalise se else s).entity i).execStart).toInt ≤ 0 := by
      intro c _ hc
      split at hc
      · next h =>
        rw [if_pos h, renormalise, update_entity_of_ne hne]
        exact hspares hc
      · next h =>
        rw [if_neg h]
        exact hspares hc
    have hplace : ∀ q : CfsRq ι, Untouched i q (q.placeEntity p se) := fun q => by
      unfold placeEntity
      exact update hne
    unfold CfsRq.enqueueEntity
    exact hrenorm.trans ((updateCurr hcharged).trans (hrenorm.trans ((update hne).trans
      ((Untouched.ite fun _ => hplace _).trans ((Untouched.ite fun _ => linkEntity hne).trans
        (update hne))))))
  | dequeue se flags now load =>
    obtain ⟨hse, heq⟩ := Option.ite_none_right_eq_some.1 hs
    cases heq
    have hne := hoff hse
    have hlast : ∀ {q : CfsRq ι} {c : Prop} [Decidable c], Untouched i s q →
        Untouched i s (if c then q else q.updateMinVruntime) := by
      intro q c _ hq
      split
      · exact hq
      · have hsame : SameQueue (fun _ => False) q q.updateMinVruntime := .updateMinVruntime
        exact hq.trans (of_sameQueue hsame id)
    have hclear : ∀ q : CfsRq ι, Untouched i q (q.clearBuddies se) := fun q =>
      of_sameQueue (show SameQueue (fun _ => False) q (q.clearBuddies se) from .clearBuddies) id
    unfold CfsRq.dequeueEntity
    exact hlast ((updateCurr hspares).trans ((hclear _).trans
      ((Untouched.ite fun _ => unlinkEntity hbal).trans ((update hne).trans
        ((Untouched.ite fun _ => update hne).trans (update hne))))))
  | updateCurr now =>
    cases hs
    exact updateCurr hspares
  | setBuddy b se =>
    obtain ⟨hse, heq⟩ := Option.ite_none_right_eq_some.1 hs
    cases heq
    exact setBuddy (hoff hse)
  | putPrev now =>
    unfold CfsRq.step at hs
    dsimp only at hs
    split at hs
    · cases hs
    · next prev hc =>
      cases hs
      exact putPrevEntity hi hc
  | switchNext now => exact switchNext hbal hi hs

/-- A fork leaves an entity alone that is neither the child nor the parent. -/
theorem taskForkFair (hi : i ≠ se) (hc : s.curr ≠ some i) :
    Untouched i s (s.taskForkFair p f now slice se) := by
  have hplace : ∀ q : CfsRq ι, Untouched i q (q.placeInitial p f slice se) := fun q => by
    unfold placeInitial
    split
    · exact update hi
    · exact update hi
  unfold CfsRq.taskForkFair
  refine Untouched.trans ?_ (normalise hi)
  unfold taskForkPlace
  split
  · exact hplace s
  · next curr hcurr =>
    have hne : i ≠ curr := fun h => hc (h ▸ hcurr)
    have hswap : ∀ q : CfsRq ι, Untouched i q (q.swapVruntime curr se) := fun q => by
      unfold swapVruntime
      exact (update hne).trans (update hi)
    have hcharged : Untouched i s (s.updateCurr p now) := updateCurr fun h => absurd h hc
    have hplaced := hcharged.trans
      ((update (g := fun e => { e with vruntime := (s.updateCurr p now).vruntime curr }) hi).trans
        (hplace _))
    dsimp only
    split
    · exact hplaced.trans (hswap _)
    · exact hplaced

end Untouched

end CfsRq

namespace RunQueues

variable [DecidableEq κ] [DecidableEq ι] {p : SchedParams} {f : ForkParams} {bal : Balancing ι}
  {s t : RunQueues κ ι} {op : SchedOp κ ι} {ops : List (SchedOp κ ι)} {i se : ι} {running : Prop}

omit [DecidableEq κ] [DecidableEq ι] in
/-- An entity that no queue knows of is charged by none. -/
theorem spares_of_absent (h : ∀ k, (s.queue k).Absent i) : s.Spares i op := by
  cases op with
  | queue k op => cases op <;> first | exact fun hc => absurd hc (h k).curr | trivial
  | fork k => exact (h k).curr

omit [DecidableEq ι] in
/-- One queue has left the entity alone, and the others have not moved. -/
theorem assign_untouched {k : κ} {q : CfsRq ι} (h : CfsRq.Untouched i (s.queue k) q) :
    (((s.assign k q).entity i).onRq = (s.entity i).onRq ∧
      ((s.assign k q).entity i).vruntime = (s.entity i).vruntime) ∧
    ((∀ j, (s.queue j).Absent i) → ∀ j, ((s.assign k q).queue j).Absent i) := by
  have honRq := h.onRq
  have hvruntime := h.vruntime
  unfold CfsRq.onRq at honRq
  unfold CfsRq.vruntime at hvruntime
  rw [s.shared k] at honRq hvruntime
  refine ⟨⟨honRq, hvruntime⟩, fun ha j => ?_⟩
  unfold assign
  dsimp only
  split
  · exact h.absent (ha k)
  · exact ⟨(ha j).tree, (ha j).leftmost, (ha j).named, (ha j).curr⟩

theorem Between.untouched (hbal : ∀ x t, inorder (bal.erase x t) ⊆ inorder t)
    (h : s.Between p f bal i running op t) (hi : (s.entity i).onRq = false)
    (ha : running ∨ ∀ k, (s.queue k).Absent i) :
    ((t.entity i).onRq = (s.entity i).onRq ∧ (t.entity i).vruntime = (s.entity i).vruntime) ∧
    ((∀ k, (s.queue k).Absent i) → ∀ k, (t.queue k).Absent i) := by
  obtain ⟨hs, hop, hrunning⟩ := h
  have hspares : s.Spares i op := by
    rcases ha with hr | ha
    · exact hrunning hr
    · exact spares_of_absent ha
  cases op with
  | queue k op =>
    obtain ⟨q, hq, rfl⟩ := Option.map_eq_some_iff.1 hs
    have hon : (s.queue k).onRq i = false := by
      rw [CfsRq.onRq, s.shared k, hi]
    exact assign_untouched (.step hbal hon (fun flags now load h => hop (by rw [h]; rfl)) hspares hq)
  | fork k child now nrRunning levels =>
    obtain ⟨-, heq⟩ := Option.ite_none_left_eq_some.1 hs
    cases heq
    exact assign_untouched (.taskForkFair (fun h => hop h.symm) hspares)

/-- In between, an entity keeps its time. -/
theorem run_between (hbal : ∀ x t, inorder (bal.erase x t) ⊆ inorder t)
    (h : Run (Between p f bal i running) s ops t) (hi : (s.entity i).onRq = false)
    (ha : running ∨ ∀ k, (s.queue k).Absent i) :
    (t.entity i).vruntime = (s.entity i).vruntime ∧
      ((∀ k, (s.queue k).Absent i) → ∀ k, (t.queue k).Absent i) := by
  have hinv := h.stateInvariant (I := fun u => (u.entity i).onRq = false ∧
    (u.entity i).vruntime = (s.entity i).vruntime ∧ (running ∨ ∀ k, (u.queue k).Absent i) ∧
      ((∀ k, (s.queue k).Absent i) → ∀ k, (u.queue k).Absent i)) ⟨hi, rfl, ha, id⟩ ?_
  · exact ⟨hinv.2.1, hinv.2.2.2⟩
  · rintro u op v ⟨hu, hv, hau, hsu⟩ hstep
    obtain ⟨⟨hon, hvr⟩, habs⟩ := hstep.untouched hbal hu hau
    exact ⟨hon.trans hu, hvr.trans hv, hau.imp_right habs, habs ∘ hsu⟩

end RunQueues

/-! ## Leaving a queue and coming to one -/

namespace CfsRq

variable [DecidableEq ι] {p : SchedParams} {bal : Balancing ι} {s t : CfsRq ι} {i se : ι}
  {g : SchedEntity → SchedEntity} {now : BitVec 64} {load : LoadWeight}

@[simp] theorem vruntime_update_self : (s.update se g).vruntime se = (g (s.entity se)).vruntime :=
  congrArg SchedEntity.vruntime update_entity_self

theorem vruntime_update_of_ne (hi : i ≠ se) : (s.update se g).vruntime i = s.vruntime i :=
  congrArg SchedEntity.vruntime (update_entity_of_ne hi)

/-- `dequeue_entity` takes the entity out, and its time relative to `min_vruntime`. -/
def leave (se : ι) (load : LoadWeight) (s : CfsRq ι) : CfsRq ι :=
  let s := s.update se fun e => { e with onRq := false }
  let s := s.normalise se
  s.update se fun e => { e with load := load }

theorem leave_entity (i : ι) :
    (s.leave se load).entity i =
      if i = se then
        { s.entity se with
          onRq := false, vruntime := s.vruntime se - s.minVruntime, load := load }
      else s.entity i := by
  unfold leave normalise
  dsimp only
  split
  · next hi =>
    rw [hi, update_entity_self, update_entity_self, update_entity_self]
    rfl
  · next hi => rw [update_entity_of_ne hi, update_entity_of_ne hi, update_entity_of_ne hi]

/-- `dequeue_entity` of an entity that does not go to sleep. -/
theorem dequeueEntity_eq_leave (s : CfsRq ι) (p : SchedParams) (bal : Balancing ι) (se : ι)
    {flags : DequeueFlags} (hsleep : flags.sleep = false) (now : BitVec 64) (load : LoadWeight) :
    ∃ u : CfsRq ι, u.entity = (s.updateCurr p now).entity ∧ u.curr = s.curr ∧
      u.minVruntime = (s.updateCurr p now).minVruntime ∧ ¬u.Named se ∧
      u.tasksTimeline = (if s.curr ≠ some se then s.tasksTimeline.erase bal se
        else s.tasksTimeline) ∧
      s.dequeueEntity p bal se flags now load =
        if flags.save && !flags.move then u.leave se load
        else (u.leave se load).updateMinVruntime := by
  have hcurr : (s.updateCurr p now).curr = s.curr := SameQueue.updateCurr.curr
  have htree : (s.updateCurr p now).tasksTimeline = s.tasksTimeline :=
    SameQueue.updateCurr.tasksTimeline
  have hclear : ((s.updateCurr p now).clearBuddies se).curr = s.curr := hcurr
  refine ⟨if ((s.updateCurr p now).clearBuddies se).curr ≠ some se then
    ((s.updateCurr p now).clearBuddies se).unlinkEntity bal se
      else (s.updateCurr p now).clearBuddies se, ?_, ?_, ?_, ?_, ?_, ?_⟩
  · split <;> rfl
  · split <;> exact hcurr
  · split <;> rfl
  · split <;> exact clearBuddies_named
  · rw [hclear]
    split
    · exact congrArg (CachedTree.erase bal se) htree
    · exact htree
  · unfold dequeueEntity
    simp only [hsleep, Bool.not_false, if_true]
    rfl

@[simp] theorem linkEntity_entity : (s.linkEntity bal se).entity = s.entity :=
  rfl

/-- `enqueue_entity` of an entity that has not been woken and is not `curr` gives it the `min_vruntime`
that `update_curr` leaves. -/
theorem enqueueEntity_vruntime {flags : EnqueueFlags} (hwakeup : flags.wakeup = false)
    (hc : s.curr ≠ some se) :
    (s.enqueueEntity p bal se flags now load).vruntime se =
      s.vruntime se + (s.updateCurr p now).minVruntime := by
  have hv : (s.updateCurr p now).vruntime se = s.vruntime se :=
    SameQueue.updateCurr.vruntime se hc
  unfold enqueueEntity
  simp only [hwakeup, hc, Bool.not_false, Bool.true_or, Bool.true_and, decide_false, if_true,
    Bool.false_eq_true, if_false, vruntime_update_self, linkEntity_entity, update_entity_self,
    renormalise]
  rw [← hv]
  rfl

theorem updateCurr_of_chargeCurr (h : s.chargeCurr p now = none) : s.updateCurr p now = s := by
  unfold updateCurr
  rw [h]

/-- What `update_curr` charges depends on `curr` and its `exec_start` alone. -/
theorem chargeCurr_eq_none_congr (hcurr : t.curr = s.curr)
    (hstart : ∀ i, (t.entity i).execStart = (s.entity i).execStart)
    (h : s.chargeCurr p now = none) : t.chargeCurr p now = none := by
  unfold chargeCurr at h ⊢
  rw [hcurr]
  split
  · rfl
  · next c hc =>
    rw [hc] at h
    dsimp only at h ⊢
    rw [hstart]
    exact if_pos (by_contra fun hlt => by rw [if_neg hlt] at h; cases h)

/-- `update_curr` leaves nothing to charge at the time at which it was called. -/
theorem updateCurr_chargeCurr : (s.updateCurr p now).chargeCurr p now = none := by
  cases hs : s.chargeCurr p now with
  | none => rw [updateCurr_of_chargeCurr hs, hs]
  | some t =>
    have hu : s.updateCurr p now = t.updateMinVruntime := by
      unfold updateCurr
      rw [hs]
    rw [hu]
    unfold chargeCurr at hs
    split at hs
    · cases hs
    · next c hc =>
      dsimp only at hs
      split at hs
      · cases hs
      · cases hs
        simp only [chargeCurr, updateMinVruntime, update, hc, Function.update_self, charge,
          BitVec.sub_self, BitVec.toInt_zero, le_refl, if_true]

/-- An assignment that keeps `exec_start` leaves nothing to charge either. -/
theorem update_chargeCurr (hg : ∀ e, (g e).execStart = e.execStart)
    (h : s.chargeCurr p now = none) : (s.update se g).chargeCurr p now = none := by
  refine chargeCurr_eq_none_congr (s := s) rfl (fun i => ?_) h
  rcases eq_or_ne i se with rfl | hi
  · rw [update_entity_self, hg]
  · rw [update_entity_of_ne hi]

/-- `enqueue_entity` where `update_curr` has nothing to charge. -/
theorem enqueueEntity_settled {flags : EnqueueFlags} (hwakeup : flags.wakeup = false)
    (h : s.chargeCurr p now = none) (bal : Balancing ι) (se : ι) (load : LoadWeight) :
    (s.enqueueEntity p bal se flags now load).minVruntime = s.minVruntime ∧
      ∀ i, (s.enqueueEntity p bal se flags now load).vruntime i =
        if i = se then s.vruntime se + s.minVruntime else s.vruntime i := by
  have hrenorm : (s.renormalise se).updateCurr p now = s.renormalise se :=
    updateCurr_of_chargeCurr (update_chargeCurr (fun _ => rfl) h)
  have hentity : ∀ q : CfsRq ι, q.entity = (s.renormalise se).entity → ∀ i,
      ((q.update se fun e => { e with load := load }).update se
        fun e => { e with onRq := true }).vruntime i =
          if i = se then s.vruntime se + s.minVruntime else s.vruntime i := by
    intro q hq i
    split
    · next hi =>
      rw [hi, vruntime_update_self, update_entity_self, hq, renormalise, update_entity_self]
      rfl
    · next hi =>
      rw [vruntime_update_of_ne hi, vruntime_update_of_ne hi, vruntime, hq, renormalise,
        update_entity_of_ne hi]
      rfl
  rcases eq_or_ne s.curr (some se) with hc | hc
  · unfold enqueueEntity
    simp only [hwakeup, hc, Bool.not_false, Bool.true_or, Bool.true_and, decide_true, if_true,
      Bool.false_eq_true, if_false, Bool.not_true, hrenorm, Bool.and_false]
    exact ⟨rfl, hentity _ rfl⟩
  · unfold enqueueEntity
    simp only [hwakeup, hc, Bool.not_false, Bool.true_or, Bool.true_and, decide_false, if_true,
      Bool.false_eq_true, if_false, updateCurr_of_chargeCurr h, Bool.and_self]
    exact ⟨rfl, hentity _ rfl⟩

theorem leave_chargeCurr (h : s.chargeCurr p now = none) :
    (s.leave se load).chargeCurr p now = none :=
  update_chargeCurr (fun _ => rfl)
    (update_chargeCurr (fun _ => rfl) (update_chargeCurr (fun _ => rfl) h))

/-- An entity that is taken out and put back while the clock stands still: every time is what
`update_curr` made it, whether or not `curr` is put back into the tree in between. -/
theorem dequeue_enqueue_restored {dflags : DequeueFlags} {eflags : EnqueueFlags} {load' : LoadWeight}
    (hd : dflags = ⟨false, true, false⟩) (hwakeup : eflags.wakeup = false)
    (t : CfsRq ι) (ht : t = s.dequeueEntity p bal se dflags now load ∨
      t = (s.dequeueEntity p bal se dflags now load).putPrevEntity p bal se now) :
    (t.enqueueEntity p bal se eflags now load').vruntime = (s.updateCurr p now).vruntime ∧
      (t.enqueueEntity p bal se eflags now load').minVruntime =
        (s.updateCurr p now).minVruntime := by
  obtain ⟨u, hentity, hcurr, hmin, -, -, hu⟩ := dequeueEntity_eq_leave s p bal se
    (show dflags.sleep = false by rw [hd]) now load
  rw [hd] at hu
  change s.dequeueEntity p bal se ⟨false, true, false⟩ now load = u.leave se load at hu
  rw [hd, hu] at ht
  have hsettled : u.chargeCurr p now = none :=
    chargeCurr_eq_none_congr (hcurr.trans SameQueue.updateCurr.curr.symm)
      (fun i => by rw [hentity]) updateCurr_chargeCurr
  have hoff : (u.leave se load).onRq se = false := by
    rw [onRq, leave_entity, if_pos rfl]
  have hback : t.chargeCurr p now = none ∧ t.minVruntime = u.minVruntime ∧
      t.entity = (u.leave se load).entity := by
    rcases ht with rfl | rfl
    · exact ⟨leave_chargeCurr hsettled, rfl, rfl⟩
    · rw [putPrevEntity_of_not_onRq hoff]
      exact ⟨rfl, rfl, rfl⟩
  obtain ⟨hnone, htmin, htentity⟩ := hback
  obtain ⟨hemin, hev⟩ := enqueueEntity_settled hwakeup hnone bal se load'
  refine ⟨funext fun i => ?_, hemin.trans (htmin.trans hmin)⟩
  rw [hev, vruntime, vruntime, htentity, leave_entity, leave_entity, if_pos rfl, htmin]
  split
  · next hi =>
    rw [hi]
    change u.vruntime se - u.minVruntime + u.minVruntime = _
    rw [BitVec.sub_add_cancel, vruntime, hentity]
    rfl
  · rw [hentity]
    rfl

end CfsRq

namespace RunQueues

variable [DecidableEq κ] [DecidableEq ι] {p : SchedParams} {f : ForkParams} {bal : Balancing ι}
  {s t : RunQueues κ ι} {ops : List (SchedOp κ ι)} {a b : κ} {se : ι}
  {dflags : DequeueFlags} {eflags : EnqueueFlags} {now now' : BitVec 64} {load load' : LoadWeight}

/-- The entity is on the queue `a`: as its `curr`, or once in its tree. -/
structure HeldBy (s : RunQueues κ ι) (a : κ) (se : ι) : Prop where
  apart : ∀ k, k ≠ a → (s.queue k).Absent se
  nodup : (s.queue a).tasksTimeline.list.Nodup
  leftmost : (s.queue a).tasksTimeline.leftmost = (s.queue a).tasksTimeline.list.head?
  linked : (s.queue a).curr ≠ some se → se ∈ (s.queue a).tasksTimeline.list

omit [DecidableEq ι] in
theorem assign_queue_self (q : CfsRq ι) : (s.assign a q).queue a = q :=
  if_pos rfl

/-- What is dequeued from the tree is on no queue. -/
theorem HeldBy.absent_dequeue (h : s.HeldBy a se) (hsleep : dflags.sleep = false)
    (hc : (s.queue a).curr ≠ some se) (k : κ) :
    ((s.assign a ((s.queue a).dequeueEntity p bal se dflags now load)).queue k).Absent se := by
  rcases eq_or_ne k a with rfl | hk
  · rw [assign_queue_self]
    obtain ⟨u, -, hcurr, -, hnamed, htree, hu⟩ := CfsRq.dequeueEntity_eq_leave
      (s.queue k) p bal se hsleep now load
    have hordered : (s.queue k).tasksTimeline.Ordered fun _ _ => false :=
      ⟨h.nodup, List.pairwise_of_forall fun _ _ => rfl, h.leftmost⟩
    have herased : ((s.queue k).tasksTimeline.erase bal se).Ordered fun _ _ => false :=
      hordered.erase (h.linked hc)
    have hgone : se ∉ u.tasksTimeline.list := by
      rw [htree, if_pos hc, hordered.list_erase (h.linked hc)]
      exact h.nodup.not_mem_erase
    have hfirst : u.tasksTimeline.leftmost ≠ some se := fun hl => hgone <| by
      rw [htree, if_pos hc] at hl ⊢
      exact herased.leftmost_mem hl
    have hleave : (u.leave se load).Absent se :=
      ⟨hgone, hfirst, hnamed, fun hcu => hc (hcurr.symm.trans hcu)⟩
    rw [hu]
    split
    · exact hleave
    · exact ⟨hleave.tree, hleave.leftmost, hleave.named, hleave.curr⟩
  · have hq : (s.assign a ((s.queue a).dequeueEntity p bal se dflags now load)).queue k =
        { s.queue k with
          entity := ((s.queue a).dequeueEntity p bal se dflags now load).entity } := if_neg hk
    have habsent := h.apart k hk
    rw [hq]
    exact ⟨habsent.tree, habsent.leftmost, habsent.named, habsent.curr⟩

/-- The entity that comes to a queue has the lag that it had when it left another. -/
theorem lag_migrated (hbal : ∀ x t, inorder (bal.erase x t) ⊆ inorder t)
    (hsleep : dflags.sleep = false) (hwakeup : eflags.wakeup = false) (h : s.HeldBy a se)
    (hrun : Run (Between p f bal se ((s.queue a).curr = some se))
      (s.assign a ((s.queue a).dequeueEntity p bal se dflags now load)) ops t)
    (hc : (t.queue b).curr ≠ some se) :
    ((t.queue b).enqueueEntity p bal se eflags now' load').vruntime se -
        ((t.queue b).updateCurr p now').minVruntime =
      ((s.queue a).updateCurr p now).vruntime se - ((s.queue a).updateCurr p now).minVruntime := by
  obtain ⟨u, hentity, -, hmin, -, -, hu⟩ := CfsRq.dequeueEntity_eq_leave (s.queue a) p bal se
    hsleep now load
  have hleft : (s.assign a ((s.queue a).dequeueEntity p bal se dflags now load)).entity se =
      (u.leave se load).entity se := by
    change ((s.queue a).dequeueEntity p bal se dflags now load).entity se = _
    rw [hu]
    split <;> rfl
  have hoff : ((s.assign a ((s.queue a).dequeueEntity p bal se dflags now load)).entity se).onRq =
      false := by
    rw [hleft, CfsRq.leave_entity, if_pos rfl]
  have hkept := (run_between hbal hrun hoff
    ((em _).imp_right fun hne => h.absent_dequeue hsleep hne)).1
  rw [CfsRq.enqueueEntity_vruntime hwakeup hc, CfsRq.vruntime, t.shared, hkept, hleft,
    CfsRq.leave_entity, if_pos rfl]
  change u.vruntime se - u.minVruntime + _ - _ = _
  rw [BitVec.add_sub_cancel, CfsRq.vruntime, hentity, hmin]
  rfl

/-- A forked entity comes to its first queue with the lag that `task_fork_fair` has given it. -/
theorem lag_forked {slice : BitVec 64} (hbal : ∀ x t, inorder (bal.erase x t) ⊆ inorder t)
    (hwakeup : eflags.wakeup = false) (hnew : (s.entity se).onRq = false)
    (habsent : ∀ k, (s.queue k).Absent se)
    (hrun : Run (Between p f bal se False)
      (s.assign a ((s.queue a).taskForkFair p f now slice se)) ops t) :
    ((t.queue b).enqueueEntity p bal se eflags now' load').vruntime se -
        ((t.queue b).updateCurr p now').minVruntime =
      ((s.queue a).taskForkPlace p f now slice se).vruntime se -
        ((s.queue a).taskForkPlace p f now slice se).minVruntime := by
  have hsame : ∀ k, ((s.assign a ((s.queue a).taskForkFair p f now slice se)).queue k).Absent se := by
    intro k
    have hk := habsent k
    have ha : ((s.queue a).taskForkFair p f now slice se).Absent se :=
      CfsRq.Absent.of_sameQueue (habsent a) CfsRq.taskForkFair_same
    unfold assign
    dsimp only
    split
    · exact ha
    · exact ⟨hk.tree, hk.leftmost, hk.named, hk.curr⟩
  have hforked : ((s.assign a ((s.queue a).taskForkFair p f now slice se)).entity se).onRq = false := by
    have hsame : CfsRq.SameQueue (fun _ => True) (s.queue a)
        ((s.queue a).taskForkFair p f now slice se) := CfsRq.taskForkFair_same
    have hon := hsame.onRq se
    unfold CfsRq.onRq at hon
    rw [s.shared a, hnew] at hon
    exact hon
  obtain ⟨hkept, haway⟩ := run_between hbal hrun hforked (.inr hsame)
  have hlag : (s.assign a ((s.queue a).taskForkFair p f now slice se)).entity se =
      ((s.queue a).taskForkFair p f now slice se).entity se := rfl
  rw [CfsRq.enqueueEntity_vruntime hwakeup (haway hsame b).curr, CfsRq.vruntime, t.shared, hkept,
    hlag, CfsRq.taskForkFair, CfsRq.normalise, CfsRq.update_entity_self, BitVec.add_sub_cancel]
  rfl

/-- The lag of an entity, its time relative to `min_vruntime`, is the same right after the `update_curr`
of the queue that it leaves and after that of the queue that it comes to, whatever the queues do in
between, as long as none of them charges it as its `curr`; so it is from `task_fork_fair` to the first
queue, without that condition. Taken out and put back while the clock stands still, it gets back its
time, and `min_vruntime` has not moved. -/
theorem lag_kept (p : SchedParams) (f : ForkParams) (bal : Balancing ι)
    (hbal : ∀ x t, inorder (bal.erase x t) ⊆ inorder t) (se : ι) :
    (∀ (s t : RunQueues κ ι) (a b : κ) (dflags : DequeueFlags) (eflags : EnqueueFlags)
        (now now' : BitVec 64) (load load' : LoadWeight) (ops : List (SchedOp κ ι)),
      dflags.sleep = false → eflags.wakeup = false → s.HeldBy a se →
      Run (Between p f bal se ((s.queue a).curr = some se))
        (s.assign a ((s.queue a).dequeueEntity p bal se dflags now load)) ops t →
      (t.queue b).curr ≠ some se →
      ((t.queue b).enqueueEntity p bal se eflags now' load').vruntime se -
          ((t.queue b).updateCurr p now').minVruntime =
        ((s.queue a).updateCurr p now).vruntime se -
          ((s.queue a).updateCurr p now).minVruntime) ∧
    (∀ (s t : RunQueues κ ι) (a b : κ) (eflags : EnqueueFlags) (now now' slice : BitVec 64)
        (load' : LoadWeight) (ops : List (SchedOp κ ι)),
      eflags.wakeup = false → (s.entity se).onRq = false → (∀ k, (s.queue k).Absent se) →
      Run (Between p f bal se False) (s.assign a ((s.queue a).taskForkFair p f now slice se)) ops t →
      ((t.queue b).enqueueEntity p bal se eflags now' load').vruntime se -
          ((t.queue b).updateCurr p now').minVruntime =
        ((s.queue a).taskForkPlace p f now slice se).vruntime se -
          ((s.queue a).taskForkPlace p f now slice se).minVruntime) ∧
    (∀ (q t : CfsRq ι) (eflags : EnqueueFlags) (now : BitVec 64) (load load' : LoadWeight),
      eflags.wakeup = false →
      (t = q.dequeueEntity p bal se ⟨false, true, false⟩ now load ∨
        t = (q.dequeueEntity p bal se ⟨false, true, false⟩ now load).putPrevEntity p bal se now) →
      (t.enqueueEntity p bal se eflags now load').vruntime = (q.updateCurr p now).vruntime ∧
        (t.enqueueEntity p bal se eflags now load').minVruntime =
          (q.updateCurr p now).minVruntime) :=
  ⟨fun _ _ _ _ _ _ _ _ _ _ _ hsleep hwakeup h hrun hc =>
      lag_migrated hbal hsleep hwakeup h hrun hc,
    fun _ _ _ _ _ _ _ _ _ _ hwakeup hnew habsent hrun =>
      lag_forked hbal hwakeup hnew habsent hrun,
    fun _ t _ _ _ _ hwakeup ht => CfsRq.dequeue_enqueue_restored rfl hwakeup t ht⟩

/-- Two processors, on the first of which the only task runs. -/
def onFirst : RunQueues Bool Unit where
  entity _ := ⟨⟨1024, 0⟩, true, 0, 0, 100, 0⟩
  queue k := ⟨fun _ => ⟨⟨1024, 0⟩, true, 0, 0, 100, 0⟩, .empty, if k then none else some (), none, none,
    none, if k then 7 else 90⟩
  shared _ := rfl

theorem onFirst_heldBy : onFirst.HeldBy false () where
  apart k hk := by
    obtain rfl : k = true := by simpa using hk
    exact ⟨List.not_mem_nil, (Option.some_ne_none _).symm, by simp [CfsRq.Named, onFirst],
      (Option.some_ne_none _).symm⟩
  nodup := List.nodup_nil
  leftmost := rfl
  linked h := absurd rfl h

/-- The parameters of a scheduler in which all tasks have the default weight. -/
def defaultParams : SchedParams :=
  ⟨1024, 0xffffffff, 32, 0, 6, 1, true, fun d f n => (d * f.setWidth 64) >>> n.toNat⟩

/-- The running task is taken off the first processor. -/
def offFirst : RunQueues Bool Unit :=
  onFirst.assign false ((onFirst.queue false).dequeueEntity defaultParams (.none Unit) ()
    ⟨false, true, true⟩ 5 ⟨1024, 0⟩)

/-- It is put back by the first processor, and comes to the second with the lag of 0 that it had: it held
`min_vruntime` of the first back. -/
theorem lag_kept_moved :
    ∃ t : RunQueues Bool Unit,
      Run (Between defaultParams ⟨8, 1, true, false⟩ (.none Unit) () True) offFirst
        [.queue false (.putPrev 8), .queue true (.updateCurr 9)] t ∧
      ((t.queue true).enqueueEntity defaultParams (.none Unit) () ⟨false, false⟩ 10
          ⟨1024, 0⟩).vruntime () - ((t.queue true).updateCurr defaultParams 10).minVruntime =
        ((onFirst.queue false).updateCurr defaultParams 5).vruntime () -
          ((onFirst.queue false).updateCurr defaultParams 5).minVruntime := by
  obtain ⟨t, hrun, hcurr⟩ : ∃ t : RunQueues Bool Unit,
      Run (Between defaultParams ⟨8, 1, true, false⟩ (.none Unit) () True) offFirst
        [.queue false (.putPrev 8), .queue true (.updateCurr 9)] t ∧ (t.queue true).curr = none :=
    ⟨_, (Run.nil.snoc ⟨rfl, id, fun _ => trivial⟩).snoc
      ⟨rfl, id, fun _ h => absurd h (by decide)⟩, rfl⟩
  refine ⟨t, hrun, ?_⟩
  have hkept := (lag_kept (κ := Bool) defaultParams ⟨8, 1, true, false⟩ (.none Unit)
    (fun x t => by
      change inorder (spine ((inorder t).erase x)) ⊆ inorder t
      rw [inorder_spine]
      exact List.erase_subset) ()).1
  exact hkept onFirst t false true ⟨false, true, true⟩ ⟨false, false⟩ 5 10 ⟨1024, 0⟩ ⟨1024, 0⟩ _ rfl rfl
    onFirst_heldBy (hrun.mono fun _ _ _ h => ⟨h.1, h.2.1, fun _ => h.2.2 trivial⟩) (by simp [hcurr])

/-- A queue that still has as its `curr` an entity that was dequeued charges it when its clock moves on,
and the entity comes to the other queue with more lag than it had. -/
theorem lag_charged :
    ¬∀ (t : RunQueues Bool Unit) (ops : List (SchedOp Bool Unit)),
      Run (Between defaultParams ⟨8, 1, true, false⟩ (.none Unit) () False) offFirst ops t →
      (t.queue true).curr ≠ some () →
      ((t.queue true).enqueueEntity defaultParams (.none Unit) () ⟨false, false⟩ 10
          ⟨1024, 0⟩).vruntime () - ((t.queue true).updateCurr defaultParams 10).minVruntime =
        ((onFirst.queue false).updateCurr defaultParams 5).vruntime () -
          ((onFirst.queue false).updateCurr defaultParams 5).minVruntime := by
  intro h
  have hcharged := h _ [.queue false (.updateCurr 8)] (Run.nil.snoc ⟨rfl, id, False.elim⟩) (by decide)
  revert hcharged
  decide

end RunQueues

end Rtfsc.Linux
