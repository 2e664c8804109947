import Rtfsc.Linux.Slub

/-!
# Runs of `deactivate_slab`

The objects of the page are on its free list, in the hands of the call or still allocated, and the page
is on the list that the last attempt has put it on.
-/

namespace Rtfsc.Linux

open Rtfsc.Machine

/-- The variables of the call; before `redo` nothing has been done with the lists. -/
def SlabPc.vars : SlabPc → SlabVars
  | .redo v | .oldCounters v _ | .mode v _ _ | .place v _ _ _ | .unfreeze v _ _ | .unfrozen v
  | .unlocked v | .done v => v
  | _ => ⟨none, false, false, .mNone⟩

/-- The call is behind the release of the lock. -/
def SlabPc.Released : SlabPc → Prop
  | .unlocked _ | .done _ => True
  | _ => False

instance (pc : SlabPc) : Decidable pc.Released := by
  unfold SlabPc.Released
  split <;> infer_instance

namespace SlabState

/-- The mode is right for the new state of the slab. -/
def ModeFits (v : SlabVars) (oldFreelist : Option Nat) (old : SlabCounters) : SlabMode → Prop
  | .mNone => False
  | .mPartial => newFreelist v oldFreelist ≠ none
  | .mFull => newFreelist v oldFreelist = none
  | .mFree => (newCounters v old).inuse = 0

/-- The objects in the hands of the call are those that it is about to give back, and the one that it is
busy with is linked to the free list that it has seen. -/
def InHand (s : SlabState) (hand : List Nat) : Prop :=
  match s.pc with
  | .enter freelist | .drain freelist _ => Links s.freePointer freelist hand
  | .drainPrior o nextfree _ | .drainCounters o nextfree _ _ =>
    ∃ rest, hand = o :: rest ∧ Links s.freePointer (some nextfree) rest
  | .drainCmpxchg o nextfree _ prior _ =>
    s.freePointer o = prior ∧ ∃ rest, hand = o :: rest ∧ Links s.freePointer (some nextfree) rest
  | .redo v | .oldCounters v _ => hand = v.freelist.toList
  | .mode v oldFreelist _ =>
    hand = v.freelist.toList ∧ ∀ o, v.freelist = some o → s.freePointer o = oldFreelist
  | .place v oldFreelist old m =>
    (hand = v.freelist.toList ∧ ∀ o, v.freelist = some o → s.freePointer o = oldFreelist) ∧
      ModeFits v oldFreelist old m
  | .unfreeze v oldFreelist old =>
    (hand = v.freelist.toList ∧ ∀ o, v.freelist = some o → s.freePointer o = oldFreelist) ∧
      ModeFits v oldFreelist old v.l
  | .unfrozen v | .unlocked v | .done v =>
    hand = [] ∧ (v.l = .mPartial → s.freelist ≠ none) ∧ (v.l = .mFull → s.freelist = none) ∧
      (v.l = .mFree → s.counters.inuse = 0) ∧ v.l ≠ .mNone
  | .bug => False

/-- Where the objects are: on the free list of the page, in the hands of the call, or allocated. The
page began with the free list `page₀`, the cpu free list `cpu₀` and the allocated objects
`allocated₀`. -/
structure Objects (page₀ cpu₀ allocated₀ : List Nat) (s : SlabState) (page hand : List Nat) :
    Prop where
  links : Links s.freePointer s.freelist page
  inHand : s.InHand hand
  nodup : (page ++ hand ++ s.allocated).Nodup
  given : (page ++ hand).Perm (s.remoteFreed ++ page₀ ++ cpu₀)
  taken : (s.remoteFreed ++ s.allocated).Perm allocated₀
  inuse : s.counters.inuse = hand.length + s.allocated.length
  frozen : s.counters.frozen = true ↔ ¬s.Finished

/-- What the call has done with the lists and the lock. -/
structure Lists (cache : SlabCache) (s : SlabState) : Prop where
  locked : s.locked = true ↔ s.pc.vars.lock = true ∧ ¬s.pc.Released
  taken : s.taken = if s.pc.vars.lock then 1 else 0
  released : s.released = if s.pc.vars.lock ∧ s.pc.Released then 1 else 0
  listed : s.partialPages.count cache.page = if s.pc.vars.l = .mPartial then 1 else 0
  underLock : s.pc.vars.l = .mPartial → s.pc.vars.lock = true
  discarded : s.discarded = true ↔ ∃ v, s.pc = .done v ∧ v.l = .mFree

/-- What holds between steps. -/
structure Holds (cache : SlabCache) (page₀ cpu₀ allocated₀ : List Nat) (s : SlabState) : Prop where
  objects : ∃ page hand, Objects page₀ cpu₀ allocated₀ s page hand
  lists : Lists cache s

variable {cache : SlabCache} {page₀ cpu₀ allocated₀ page hand : List Nat} {s s' : SlabState}
  {o : Nat} {e : SlabEvent}

/-- What is in hand only depends on the free pointers of these objects, until the page is unfrozen. -/
theorem InHand.congr (h : s.InHand hand) (hpc : s'.pc = s.pc) (hrun : ¬s.Finished)
    (hsame : ∀ o ∈ hand, s'.freePointer o = s.freePointer o) : s'.InHand hand := by
  unfold InHand at h ⊢
  unfold Finished at hrun
  rw [hpc]
  split at h
  · exact h.congr hsame
  · exact h.congr hsame
  · obtain ⟨rest, rfl, hrest⟩ := h
    exact ⟨rest, rfl, hrest.congr fun o ho => hsame o (List.mem_cons_of_mem _ ho)⟩
  · obtain ⟨rest, rfl, hrest⟩ := h
    exact ⟨rest, rfl, hrest.congr fun o ho => hsame o (List.mem_cons_of_mem _ ho)⟩
  · obtain ⟨hprior, rest, rfl, hrest⟩ := h
    refine ⟨(hsame _ List.mem_cons_self).trans hprior, rest, rfl, ?_⟩
    exact hrest.congr fun o ho => hsame o (List.mem_cons_of_mem _ ho)
  · exact h
  · exact h
  · exact ⟨h.1, fun o ho => (hsame o (by simp [h.1, ho])).trans (h.2 o ho)⟩
  · exact ⟨⟨h.1.1, fun o ho => (hsame o (by simp [h.1.1, ho])).trans (h.1.2 o ho)⟩, h.2⟩
  · exact ⟨⟨h.1.1, fun o ho => (hsame o (by simp [h.1.1, ho])).trans (h.1.2 o ho)⟩, h.2⟩
  · next hpc' => exact absurd (by rw [hpc']; trivial) hrun
  · next hpc' => exact absurd (by rw [hpc']; trivial) hrun
  · next hpc' => exact absurd (by rw [hpc']; trivial) hrun
  · exact h

/-- An object that another cpu frees goes to the head of the free list. -/
theorem remoteFree_holds (h : Holds cache page₀ cpu₀ allocated₀ s) (ho : o ∈ s.allocated)
    (hrun : ¬s.Finished) : Holds cache page₀ cpu₀ allocated₀ { s.setFreepointer o s.freelist with
      freelist := some o
      counters := { s.counters with inuse := s.counters.inuse - 1 }
      allocated := s.allocated.erase o
      remoteFreed := o :: s.remoteFreed } := by
  obtain ⟨⟨page, hand, hobj⟩, hlists⟩ := h
  have hnd := List.nodup_append.mp hobj.nodup
  have hnot : o ∉ page ++ hand := fun hin => hnd.2.2 o hin o ho rfl
  rw [List.mem_append, not_or] at hnot
  have hne {o' : Nat} (hin : o' ∈ hand) : o' ≠ o := by
    rintro rfl
    exact hnot.2 hin
  have hpush : ((o :: page) ++ hand ++ s.allocated.erase o).Perm
      (page ++ hand ++ s.allocated) := by
    rw [List.cons_append, List.cons_append]
    exact List.perm_middle.symm.trans ((List.perm_cons_erase ho).symm.append_left (page ++ hand))
  refine ⟨⟨o :: page, hand, hobj.links.push hnot.1, ?_, hpush.nodup_iff.mpr hobj.nodup, ?_, ?_, ?_, ?_⟩,
    { hlists with }⟩
  · exact hobj.inHand.congr rfl hrun fun o' hmem => Function.update_of_ne (hne hmem) ..
  · exact (hobj.given.cons o)
  · exact List.perm_middle.symm.trans (((List.perm_cons_erase ho).symm.append_left _).trans hobj.taken)
  · have hlen := List.length_erase_of_mem ho
    have hpos := List.length_pos_of_mem ho
    have hinuse := hobj.inuse
    show s.counters.inuse - 1 = hand.length + (s.allocated.erase o).length
    omega
  · exact hobj.frozen

/-- Others change the lists of the node. -/
theorem others_holds {pages full : List Nat} {nr : Nat} (h : Holds cache page₀ cpu₀ allocated₀ s)
    (hfree : s.locked = false) (hrun : ¬s.Finished) (hpages : cache.page ∉ pages) :
    Holds cache page₀ cpu₀ allocated₀
      { s with partialPages := pages, nrPartial := nr, fullPages := full } := by
  obtain ⟨⟨page, hand, hobj⟩, hlists⟩ := h
  have hreleased : ¬s.pc.Released := by
    intro hrel
    refine hrun ?_
    unfold Finished
    unfold SlabPc.Released at hrel
    split at hrel
    · next hpc => rw [hpc]; trivial
    · next hpc => rw [hpc]; trivial
    · exact hrel.elim
  have hl : s.pc.vars.l ≠ .mPartial := by
    intro hl
    have hlocked := hlists.locked.mpr ⟨hlists.underLock hl, hreleased⟩
    rw [hfree] at hlocked
    cases hlocked
  refine ⟨⟨page, hand, { hobj with inHand := hobj.inHand.congr rfl hrun fun _ _ => rfl }⟩,
    { hlists with listed := ?_ }⟩
  show pages.count cache.page = _
  rw [if_neg hl, List.count_eq_zero_of_not_mem hpages]

/-- A step that leaves the objects where they are; free pointers of objects in hand may be written. -/
theorem Objects.move (h : Objects page₀ cpu₀ allocated₀ s page hand) (hfree : s'.freelist = s.freelist)
    (hcounters : s'.counters = s.counters) (hallocated : s'.allocated = s.allocated)
    (hremote : s'.remoteFreed = s.remoteFreed) (hfinished : s'.Finished ↔ s.Finished)
    (hsame : ∀ o, o ∉ hand → s'.freePointer o = s.freePointer o) (hin : s'.InHand hand) :
    Objects page₀ cpu₀ allocated₀ s' page hand where
  links := by
    have hnd := List.nodup_append.mp (List.nodup_append.mp h.nodup).1
    rw [hfree]
    exact h.links.congr fun o ho => hsame o fun ho' => hnd.2.2 o ho o ho' rfl
  inHand := hin
  nodup := by rw [hallocated]; exact h.nodup
  given := by rw [hremote]; exact h.given
  taken := by rw [hremote, hallocated]; exact h.taken
  inuse := by rw [hcounters, hallocated]; exact h.inuse
  frozen := by rw [hcounters, hfinished]; exact h.frozen

/-- A step that leaves the lists, the lock and the variables as they are. -/
theorem Lists.move (h : Lists cache s) (hlocked : s'.locked = s.locked) (htaken : s'.taken = s.taken)
    (hreleased : s'.released = s.released) (hpages : s'.partialPages = s.partialPages)
    (hdiscarded : s'.discarded = s.discarded) (hlock : s'.pc.vars.lock = s.pc.vars.lock)
    (hl : s'.pc.vars.l = s.pc.vars.l) (hrel : s'.pc.Released ↔ s.pc.Released)
    (hdone : ∀ v, s'.pc ≠ .done v) (hdone' : ∀ v, s.pc ≠ .done v) : Lists cache s' where
  locked := by rw [hlocked, hlock, hrel]; exact h.locked
  taken := by rw [htaken, hlock]; exact h.taken
  released := by
    rw [hreleased, h.released]
    exact if_congr (by rw [hlock, hrel]) rfl rfl
  listed := by rw [hpages, hl]; exact h.listed
  underLock := by rw [hl, hlock]; exact h.underLock
  discarded := by
    rw [hdiscarded, h.discarded]
    refine iff_of_false ?_ ?_
    · rintro ⟨v, hpc, _⟩
      exact hdone' v hpc
    · rintro ⟨v, hpc, _⟩
      exact hdone v hpc

/-- The object that the call is busy with goes to the head of the free list. -/
theorem Objects.give {o : Nat} {rest : List Nat} {pc : SlabPc}
    (h : Objects page₀ cpu₀ allocated₀ s page (o :: rest))
    (hlink : s.freePointer o = s.freelist) (c : SlabCounters)
    (hinuse : c.inuse = s.counters.inuse - 1)
    (hfrozen : c.frozen = true ↔ ¬Finished { s with freelist := some o, counters := c, pc := pc })
    (hin : InHand { s with freelist := some o, counters := c, pc := pc } rest) :
    Objects page₀ cpu₀ allocated₀ { s with freelist := some o, counters := c, pc := pc }
      (o :: page) rest where
  links := ⟨rfl, by rw [hlink]; exact h.links⟩
  inHand := hin
  nodup := by
    refine (List.Perm.nodup_iff ?_).mpr h.nodup
    exact (List.perm_middle.symm).append_right _
  given := (List.perm_middle.symm).trans h.given
  taken := h.taken
  inuse := by
    have hold := h.inuse
    rw [List.length_cons] at hold
    show c.inuse = rest.length + s.allocated.length
    omega
  frozen := hfrozen

/-- A step to a place with the same variables, with free pointers of objects in hand written. -/
theorem Holds.move (h : Lists cache s) (hobj : Objects page₀ cpu₀ allocated₀ s page hand)
    (freePointer : Nat → Option Nat) (pc : SlabPc)
    (hsame : ∀ o, o ∉ hand → freePointer o = s.freePointer o)
    (hfinished : Finished { s with freePointer := freePointer, pc := pc } ↔ s.Finished)
    (hlock : pc.vars.lock = s.pc.vars.lock) (hl : pc.vars.l = s.pc.vars.l)
    (hrel : pc.Released ↔ s.pc.Released) (hdone : ∀ v, pc ≠ .done v) (hdone' : ∀ v, s.pc ≠ .done v)
    (hin : InHand { s with freePointer := freePointer, pc := pc } hand) :
    Holds cache page₀ cpu₀ allocated₀ { s with freePointer := freePointer, pc := pc } :=
  ⟨⟨page, hand, hobj.move rfl rfl rfl rfl hfinished hsame hin⟩,
    h.move rfl rfl rfl rfl rfl hlock hl hrel hdone hdone'⟩

/-- The mode is chosen for the new state. -/
theorem slabMode_fits (v : SlabVars) (oldFreelist : Option Nat) (old : SlabCounters) (nr : Nat) :
    ModeFits v oldFreelist old
      (slabMode cache nr (newCounters v old) (newFreelist v oldFreelist)) := by
  unfold slabMode
  split
  · next hfree => exact hfree.1
  · split
    · next hsome => exact Option.isSome_iff_ne_none.mp hsome
    · next hnone => exact Option.not_isSome_iff_eq_none.mp hnone

/-- Changing the lists changes nothing else. -/
theorem changeLists_frame (cache : SlabCache) (s : SlabState) (tail : Bool) (l m : SlabMode) :
    ∃ pages nr full, s.changeLists cache tail l m =
      { s with partialPages := pages, nrPartial := nr, fullPages := full } := by
  unfold changeLists addFull removeFull
  split
  · exact ⟨_, _, _, rfl⟩
  · cases l <;> cases m <;> dsimp only <;> repeat' split
    all_goals exact ⟨_, _, _, rfl⟩

/-- Behind it, the page is on the partial list exactly when this attempt has put it there. -/
theorem count_changeLists (tail : Bool) {l : SlabMode} (m : SlabMode)
    (h : s.partialPages.count cache.page = if l = .mPartial then 1 else 0) :
    (s.changeLists cache tail l m).partialPages.count cache.page = if m = .mPartial then 1 else 0 := by
  have hfull : (s.addFull cache).partialPages = s.partialPages := by
    unfold addFull
    split <;> rfl
  have hfull' : (s.removeFull cache).partialPages = s.partialPages := by
    unfold removeFull
    split <;> rfl
  have hbothFull : ((s.removePartial cache.page).addFull cache).partialPages =
      s.partialPages.erase cache.page := by
    unfold addFull removePartial
    split <;> rfl
  unfold changeLists
  cases l <;> cases m <;>
    simp_all [addPartial, removePartial] <;> split <;> simp_all

/-- The step that changes the lists, under the lock when it is needed. -/
theorem place_lists {v : SlabVars} {oldFreelist : Option Nat} {old : SlabCounters} {m : SlabMode}
    (h : Lists cache s) (hpc : s.pc = .place v oldFreelist old m) {lock : Bool}
    (hlock : lock = (!v.lock && (m == .mPartial || (m == .mFull && cache.debug)))) :
    Lists cache { (if lock then s.takeLock else s).changeLists cache v.tail v.l m with
      pc := .unfreeze { v with lock := v.lock || lock, l := m } oldFreelist old } := by
  have hcount : (if lock then s.takeLock else s).partialPages.count cache.page =
      if v.l = .mPartial then 1 else 0 := by
    have hlisted := h.listed
    rw [hpc] at hlisted
    cases lock <;> exact hlisted
  have hplaced := count_changeLists v.tail m hcount
  obtain ⟨pages, nr, full, hs⟩ := changeLists_frame cache (if lock then s.takeLock else s) v.tail v.l m
  rw [hs] at hplaced ⊢
  have hlocked : s.locked = true ↔ v.lock = true := by
    rw [h.locked, hpc]
    exact and_iff_left fun hrel => hrel
  have htaken : s.taken = if v.lock then 1 else 0 := by rw [h.taken, hpc]; rfl
  have hreleased : s.released = 0 := by
    rw [h.released, hpc]
    exact if_neg fun hand => hand.2
  have hdiscarded : s.discarded = true ↔ False := by
    rw [h.discarded, hpc]
    refine iff_of_false ?_ id
    rintro ⟨v', heq, _⟩
    cases heq
  refine ⟨?_, ?_, ?_, hplaced, ?_, ?_⟩
  · show (if lock then s.takeLock else s).locked = true ↔ (v.lock || lock) = true ∧ ¬False
    cases lock with
    | true => simp [takeLock]
    | false => simpa using hlocked
  · show (if lock then s.takeLock else s).taken = if (v.lock || lock) = true then 1 else 0
    cases hl : v.lock with
    | true =>
      have hno : lock = false := by rw [hlock, hl]; rfl
      simp [hno, htaken, hl]
    | false => cases lock <;> simp [takeLock, htaken, hl]
  · show (if lock then s.takeLock else s).released = if (v.lock || lock) = true ∧ False then 1 else 0
    cases lock <;> simpa [takeLock] using hreleased
  · show m = .mPartial → (v.lock || lock) = true
    rintro rfl
    rw [hlock]
    cases v.lock <;> rfl
  · show (if lock then s.takeLock else s).discarded = true ↔ _
    refine iff_of_false ?_ ?_
    · cases lock <;> exact hdiscarded.mp
    · rintro ⟨v', heq, _⟩
      cases heq

/-- A step of the call keeps what holds. -/
theorem step_holds (h : Holds cache page₀ cpu₀ allocated₀ s) (hs : s.step cache = some s') :
    Holds cache page₀ cpu₀ allocated₀ s' := by
  obtain ⟨⟨page, hand, hobj⟩, hlists⟩ := h
  have hin := hobj.inHand
  have hfrozen := hobj.frozen
  rcases s with ⟨fp, freelist, counters, pages, nr, full, locked, pc, allocated, remoteFreed, taken,
    released, discarded⟩
  cases pc with
  | enter f =>
    cases hs
    exact Holds.move hlists hobj fp _ (fun _ _ => rfl) Iff.rfl rfl rfl Iff.rfl
      (fun v h => by cases h) (fun v h => by cases h) hin
  | drain f tail =>
    cases f with
    | none =>
      cases hs
      have hnil : hand = [] := by
        cases hand with
        | nil => rfl
        | cons o rest => cases hin.1
      exact Holds.move hlists hobj fp (.redo ⟨none, tail, false, .mNone⟩) (fun _ _ => rfl) Iff.rfl rfl
        rfl Iff.rfl (fun v h => by cases h) (fun v h => by cases h) hnil
    | some o =>
      obtain ⟨rest, rfl, hrest⟩ : ∃ rest, hand = o :: rest ∧ Links fp (fp o) rest := by
        cases hand with
        | nil => cases hin
        | cons o' rest =>
          obtain ⟨hhead, hrest⟩ := hin
          cases hhead
          exact ⟨rest, rfl, hrest⟩
      simp only [step] at hs
      split at hs
      · next hnext =>
        cases hs
        rw [hnext] at hrest
        have hnil : rest = [] := hrest.head_eq_none.mp rfl
        subst hnil
        exact Holds.move hlists hobj fp (.redo ⟨some o, tail, false, .mNone⟩) (fun _ _ => rfl) Iff.rfl
          rfl rfl Iff.rfl (fun v h => by cases h) (fun v h => by cases h) rfl
      · next nextfree hnext =>
        cases hs
        exact Holds.move hlists hobj fp (.drainPrior o nextfree tail) (fun _ _ => rfl) Iff.rfl rfl rfl
          Iff.rfl (fun v h => by cases h) (fun v h => by cases h) ⟨rest, rfl, hnext ▸ hrest⟩
  | drainPrior o nextfree tail =>
    cases hs
    exact Holds.move hlists hobj fp (.drainCounters o nextfree tail freelist) (fun _ _ => rfl) Iff.rfl
      rfl rfl Iff.rfl (fun v h => by cases h) (fun v h => by cases h) hin
  | drainCounters o nextfree tail prior =>
    have hf : counters.frozen = true := hfrozen.mpr fun hfin => hfin
    simp only [step, hf, if_true] at hs
    cases hs
    obtain ⟨rest, rfl, hrest⟩ := hin
    have hnd := List.nodup_append.mp (List.nodup_append.mp hobj.nodup).1
    have ho : o ∉ rest := (List.nodup_cons.mp hnd.2.1).1
    refine Holds.move hlists hobj (Function.update fp o prior)
      (.drainCmpxchg o nextfree tail prior counters) (fun o' ho' => ?_) Iff.rfl rfl rfl Iff.rfl
      (fun v h => by cases h) (fun v h => by cases h) ⟨Function.update_self .., rest, rfl, hrest.update ho _⟩
    refine Function.update_of_ne ?_ ..
    rintro rfl
    exact ho' List.mem_cons_self
  | drainCmpxchg o nextfree tail prior old =>
    simp only [step] at hs
    obtain ⟨hprior, rest, rfl, hrest⟩ := hin
    split at hs
    · next hsame =>
      cases hs
      obtain ⟨rfl, rfl⟩ := hsame
      exact ⟨⟨o :: page, rest, hobj.give hprior _ rfl hfrozen hrest⟩,
        hlists.move rfl rfl rfl rfl rfl rfl rfl Iff.rfl (fun v h => by cases h) (fun v h => by cases h)⟩
    · cases hs
      exact Holds.move hlists hobj fp (.drainPrior o nextfree tail) (fun _ _ => rfl) Iff.rfl
        rfl rfl Iff.rfl (fun v h => by cases h) (fun v h => by cases h) ⟨rest, rfl, hrest⟩
  | redo v =>
    cases hs
    exact Holds.move hlists hobj fp (.oldCounters v freelist) (fun _ _ => rfl) Iff.rfl
      rfl rfl Iff.rfl (fun v h => by cases h) (fun v h => by cases h) hin
  | oldCounters v oldFreelist =>
    have hf : counters.frozen = true := hfrozen.mpr fun hfin => hfin
    have hhand : hand = v.freelist.toList := hin
    simp only [step, hf, if_true] at hs
    split at hs
    · next o ho =>
      cases hs
      refine Holds.move hlists hobj (Function.update fp o oldFreelist) (.mode v oldFreelist counters)
        (fun o' ho' => ?_) Iff.rfl rfl rfl Iff.rfl (fun v h => by cases h) (fun v h => by cases h)
        ⟨hhand, fun o' ho' => ?_⟩
      · refine Function.update_of_ne ?_ ..
        rintro rfl
        refine ho' ?_
        rw [hhand, ho]
        exact List.mem_singleton_self _
      · obtain rfl := Option.some.inj (ho.symm.trans ho')
        exact Function.update_self ..
    · next hnone =>
      cases hs
      exact Holds.move hlists hobj fp (.mode v oldFreelist counters) (fun _ _ => rfl) Iff.rfl
        rfl rfl Iff.rfl (fun v h => by cases h) (fun v h => by cases h)
        ⟨hhand, fun o ho => by rw [hnone] at ho; cases ho⟩
  | mode v oldFreelist old =>
    cases hs
    exact Holds.move hlists hobj fp (.place v oldFreelist old _) (fun _ _ => rfl) Iff.rfl
      rfl rfl Iff.rfl (fun v h => by cases h) (fun v h => by cases h)
      ⟨hin, slabMode_fits v oldFreelist old nr⟩
  | place v oldFreelist old m =>
    simp only [step] at hs
    cases hs
    refine ⟨⟨page, hand, ?_⟩, place_lists hlists rfl rfl⟩
    obtain ⟨pages', nr', full', hplaced⟩ := changeLists_frame cache
      (if (!v.lock && (m == .mPartial || (m == .mFull && cache.debug))) = true then
        takeLock ⟨fp, freelist, counters, pages, nr, full, locked, .place v oldFreelist old m, allocated,
          remoteFreed, taken, released, discarded⟩
      else ⟨fp, freelist, counters, pages, nr, full, locked, .place v oldFreelist old m, allocated,
        remoteFreed, taken, released, discarded⟩) v.tail v.l m
    rw [hplaced]
    split <;> exact hobj.move rfl rfl rfl rfl Iff.rfl (fun _ _ => rfl) hin
  | unfreeze v oldFreelist old =>
    simp only [step] at hs
    obtain ⟨⟨hhand, hlink⟩, hfits⟩ := hin
    split at hs
    · next hsame =>
      cases hs
      obtain ⟨rfl, rfl⟩ := hsame
      have hseen : v.l ≠ .mNone ∧ (v.l = .mPartial → newFreelist v freelist ≠ none) ∧
          (v.l = .mFull → newFreelist v freelist = none) ∧
          (v.l = .mFree → (newCounters v counters).inuse = 0) := by
        cases hl : v.l <;> rw [hl] at hfits <;> simp_all [ModeFits]
      refine ⟨?_, hlists.move rfl rfl rfl rfl rfl rfl rfl Iff.rfl (fun v h => by cases h)
        (fun v h => by cases h)⟩
      cases hcpu : v.freelist with
      | some o =>
        rw [hcpu] at hhand
        subst hhand
        have hnew : newFreelist v freelist = some o := by simp [newFreelist, hcpu]
        refine ⟨o :: page, [], ?_⟩
        rw [hnew] at hseen ⊢
        refine hobj.give (hlink o hcpu) (newCounters v counters) ?_ ?_ ?_
        · simp [newCounters, hcpu]
        · exact iff_of_false (by simp [newCounters]) fun hrun => hrun trivial
        · exact ⟨rfl, hseen.2.1, hseen.2.2.1, hseen.2.2.2, hseen.1⟩
      | none =>
        rw [hcpu] at hhand
        subst hhand
        have hnew : newFreelist v freelist = freelist := by simp [newFreelist, hcpu]
        refine ⟨page, [], ?_⟩
        rw [hnew] at hseen ⊢
        exact {
          links := hobj.links
          inHand := ⟨rfl, hseen.2.1, hseen.2.2.1, hseen.2.2.2, hseen.1⟩
          nodup := hobj.nodup
          given := hobj.given
          taken := hobj.taken
          inuse := by
            have hinuse : (newCounters v counters).inuse = counters.inuse := by
              simp [newCounters, hcpu]
            exact hinuse.trans hobj.inuse
          frozen := iff_of_false (by simp [newCounters]) fun hrun => hrun trivial }
    · cases hs
      exact Holds.move hlists hobj fp (.redo v) (fun _ _ => rfl) Iff.rfl
        rfl rfl Iff.rfl (fun v h => by cases h) (fun v h => by cases h) hhand
  | unfrozen v =>
    cases hs
    refine ⟨⟨page, hand, { hobj with inHand := hin }⟩, ?_⟩
    have hlocked : locked = true ↔ v.lock = true := by
      rw [show locked = true ↔ _ from hlists.locked]
      exact and_iff_left fun hrel => hrel
    have hreleased : released = 0 := by
      rw [show released = _ from hlists.released]
      exact if_neg fun hand => hand.2
    refine { hlists with locked := ?_, released := ?_, discarded := ?_ }
    · show (if v.lock = true then false else locked) = true ↔ v.lock = true ∧ ¬True
      cases hl : v.lock <;> simp [hl] at hlocked ⊢
      exact hlocked
    · show (if v.lock = true then released + 1 else released) = if v.lock = true ∧ True then 1 else 0
      rw [hreleased]
      exact if_congr (and_iff_left trivial).symm rfl rfl
    · show discarded = true ↔ _
      rw [show discarded = true ↔ _ from hlists.discarded]
      refine iff_of_false ?_ ?_ <;> rintro ⟨v', heq, _⟩ <;> cases heq
  | unlocked v =>
    cases hs
    refine ⟨⟨page, hand, { hobj with inHand := hin }⟩, { hlists with discarded := ?_ }⟩
    have hbefore : discarded = true ↔ False := by
      rw [show discarded = true ↔ _ from hlists.discarded]
      refine iff_of_false ?_ id
      rintro ⟨v', heq, _⟩
      cases heq
    show (if v.l = .mFree then true else discarded) = true ↔ _
    constructor
    · intro hd
      refine ⟨v, rfl, ?_⟩
      by_contra hl
      rw [if_neg hl] at hd
      exact hbefore.mp hd
    · rintro ⟨v', heq, hl⟩
      cases heq
      rw [if_pos hl]
  | done v => cases hs
  | bug => cases hs

/-! ## Runs -/

/-- The call begins: the page is frozen and on no partial list, its objects are on its free list, on the
cpu free list that is given, or allocated, and those of the cpu free list count as in use. -/
structure Begins (cache : SlabCache) (page₀ cpu₀ : List Nat) (s : SlabState) : Prop where
  enter : ∃ freelist, s.pc = .enter freelist ∧ Links s.freePointer freelist cpu₀
  page : Links s.freePointer s.freelist page₀
  nodup : (page₀ ++ cpu₀ ++ s.allocated).Nodup
  inuse : s.counters.inuse = cpu₀.length + s.allocated.length
  frozen : s.counters.frozen = true
  unlocked : s.locked = false ∧ s.taken = 0 ∧ s.released = 0
  unlisted : cache.page ∉ s.partialPages
  fresh : s.remoteFreed = [] ∧ s.discarded = false

theorem Begins.holds (h : Begins cache page₀ cpu₀ s) : Holds cache page₀ cpu₀ s.allocated s := by
  obtain ⟨freelist, hpc, hcpu⟩ := h.enter
  have hrun : ¬s.Finished := by
    unfold Finished
    rw [hpc]
    exact id
  refine ⟨⟨page₀, cpu₀, h.page, ?_, h.nodup, ?_, ?_, h.inuse, iff_of_true h.frozen hrun⟩, ?_, ?_, ?_,
    ?_, ?_, ?_⟩
  · unfold InHand
    rw [hpc]
    exact hcpu
  · rw [h.fresh.1]
    exact List.Perm.refl _
  · rw [h.fresh.1]
    exact List.Perm.refl _
  · rw [h.unlocked.1, hpc]
    exact iff_of_false Bool.false_ne_true fun hand => Bool.false_ne_true hand.1
  · rw [h.unlocked.2.1, hpc]
    rfl
  · rw [h.unlocked.2.2, hpc]
    rfl
  · rw [hpc]
    exact List.count_eq_zero_of_not_mem h.unlisted
  · rw [hpc]
    intro hl
    cases hl
  · rw [h.fresh.2]
    refine iff_of_false Bool.false_ne_true ?_
    rintro ⟨v, heq, _⟩
    rw [hpc] at heq
    cases heq

theorem exec_holds (h : Holds cache page₀ cpu₀ allocated₀ s) (he : s.exec cache e = some s') :
    Holds cache page₀ cpu₀ allocated₀ s' := by
  cases e with
  | call => exact step_holds h he
  | remoteFree o =>
    obtain ⟨⟨ho, hrun⟩, hs⟩ := Option.ite_none_right_eq_some.mp he
    cases hs
    exact remoteFree_holds h ho hrun
  | others pages nr full =>
    obtain ⟨⟨hfree, hrun, hpages⟩, hs⟩ := Option.ite_none_right_eq_some.mp he
    cases hs
    exact others_holds h hfree hrun hpages

/-- The steps of the call and of the other cpus, in any order. -/
abbrev Steps (cache : SlabCache) (s : SlabState) (es : List SlabEvent) (s' : SlabState) : Prop :=
  Run (fun s e s' => exec cache s e = some s') s es s'

theorem run_holds {es : List SlabEvent} (h : Begins cache page₀ cpu₀ s) (hrun : Steps cache s es s') :
    Holds cache page₀ cpu₀ s.allocated s' :=
  hrun.stateInvariant h.holds fun _ _ _ ht he => exec_holds ht he

/-- `VM_BUG_ON` does not fail. -/
theorem deactivateSlab_noBug {es : List SlabEvent} (h : Begins cache page₀ cpu₀ s)
    (hrun : Steps cache s es s') : s'.pc ≠ .bug := by
  obtain ⟨page, hand, hobj⟩ := (run_holds h hrun).objects
  intro hpc
  have hin := hobj.inHand
  unfold InHand at hin
  rw [hpc] at hin
  exact hin

/-- The call discards the page at its end. -/
def Discards (s : SlabState) : Prop := s.pc.vars.l = .mFree

instance (s : SlabState) : Decidable s.Discards := by
  unfold Discards
  infer_instance

/-- From the compare-and-exchange that unfreezes the page on, whatever other cpus have freed before it:
the page is not frozen; its free list has, each once, the objects that it had, those of the cpu free
list and those that the other cpus have freed; what is in use is what is still allocated; the page is
once on the partial list if it has a free object and is not discarded, and else not at all; it is only
discarded when nothing is in use. At the end the lock has been released as often as it was taken, once
at most, and the page has been discarded if it was to be. -/
theorem deactivateSlab_run {es : List SlabEvent} (h : Begins cache page₀ cpu₀ s)
    (hrun : Steps cache s es s') (hfin : s'.Finished) :
    s'.counters.frozen = false ∧
    (∃ page, Links s'.freePointer s'.freelist page ∧ page.Nodup ∧
      page.Perm (s'.remoteFreed ++ page₀ ++ cpu₀)) ∧
    (s'.counters.inuse = s'.allocated.length ∧
      (s'.remoteFreed ++ s'.allocated).Perm s.allocated) ∧
    s'.partialPages.count cache.page = (if s'.freelist ≠ none ∧ ¬s'.Discards then 1 else 0) ∧
    (s'.Discards → s'.counters.inuse = 0) ∧
    ((∃ v, s'.pc = .done v) → s'.locked = false ∧ s'.released = s'.taken ∧ s'.taken ≤ 1 ∧
      (s'.discarded = true ↔ s'.Discards)) := by
  obtain ⟨⟨page, hand, hobj⟩, hlists⟩ := run_holds h hrun
  have hend : hand = [] ∧ (s'.pc.vars.l = .mPartial → s'.freelist ≠ none) ∧
      (s'.pc.vars.l = .mFull → s'.freelist = none) ∧
      (s'.pc.vars.l = .mFree → s'.counters.inuse = 0) ∧ s'.pc.vars.l ≠ .mNone := by
    have hin := hobj.inHand
    unfold InHand at hin
    unfold Finished at hfin
    split at hfin
    · next v hpc => rw [hpc] at hin ⊢; exact hin
    · next v hpc => rw [hpc] at hin ⊢; exact hin
    · next v hpc => rw [hpc] at hin ⊢; exact hin
    · exact hfin.elim
  obtain ⟨rfl, hkeeps, hfull, hfree, hnone⟩ := hend
  refine ⟨?_, ⟨page, hobj.links, ?_, ?_⟩, ⟨?_, hobj.taken⟩, ?_, hfree, ?_⟩
  · exact Bool.eq_false_iff.mpr fun hf => hobj.frozen.mp hf hfin
  · have hnd := (List.nodup_append.mp hobj.nodup).1
    rwa [List.append_nil] at hnd
  · have hgiven := hobj.given
    rwa [List.append_nil] at hgiven
  · rw [hobj.inuse, List.length_nil, Nat.zero_add]
  · rw [hlists.listed]
    refine if_congr ?_ rfl rfl
    unfold Discards
    constructor
    · intro hl
      exact ⟨hkeeps hl, by rw [hl]; decide⟩
    · rintro ⟨hsome, hkept⟩
      cases hl : s'.pc.vars.l with
      | mNone => exact absurd hl hnone
      | mPartial => rfl
      | mFull => exact absurd (hfull hl) hsome
      | mFree => exact absurd hl hkept
  · rintro ⟨v, hpc⟩
    have hlocked := hlists.locked
    have htaken := hlists.taken
    have hreleased := hlists.released
    have hdiscarded := hlists.discarded
    unfold Discards
    rw [hpc] at hlocked htaken hreleased hdiscarded ⊢
    refine ⟨Bool.eq_false_iff.mpr fun hl => (hlocked.mp hl).2 trivial, ?_, ?_, ?_⟩
    · rw [hreleased, htaken]
      exact if_congr (and_iff_left trivial) rfl rfl
    · rw [htaken]
      split <;> decide
    · rw [hdiscarded]
      constructor
      · rintro ⟨v', heq, hl⟩
        cases heq
        exact hl
      · intro hl
        exact ⟨v, rfl, hl⟩

/-- A page with four objects: one on its free list, two on the cpu free list, one allocated. -/
def fourObjects : SlabState where
  freePointer o := if o = 2 then some 3 else none
  freelist := some 1
  counters := ⟨3, 4, true⟩
  partialPages := []
  nrPartial := 0
  fullPages := []
  locked := false
  pc := .enter (some 2)
  allocated := [4]
  remoteFreed := []
  taken := 0
  released := 0
  discarded := false

/-- The last object is freed when the page is on the partial list already: it is taken off again and
discarded. -/
def freedTooLate : List SlabEvent :=
  List.replicate 10 .call ++ .remoteFree 4 :: List.replicate 8 .call

theorem deactivateSlab_run_freedTooLate : ∃ s', Steps ⟨9, 1, false, false⟩ fourObjects freedTooLate s' ∧
    s'.discarded = true ∧ s'.partialPages.count 9 = 0 ∧ s'.counters.inuse = 0 ∧
    ∃ page, Links s'.freePointer s'.freelist page ∧ page.Perm [4, 1, 2, 3] := by
  obtain ⟨s', hrun, hseen⟩ := Run.exists_of_foldlM_option (exec ⟨9, 1, false, false⟩) fourObjects
    freedTooLate (fun s => (s.pc, s.remoteFreed, s.discarded))
    (b := (.done ⟨some 3, true, true, .mFree⟩, [4], true)) (by decide)
  have hpc : s'.pc = .done ⟨some 3, true, true, .mFree⟩ := congrArg Prod.fst hseen
  have hremote : s'.remoteFreed = [4] := congrArg (fun x => x.2.1) hseen
  have hdiscarded : s'.discarded = true := congrArg (fun x => x.2.2) hseen
  have hbegins : Begins ⟨9, 1, false, false⟩ [1] [2, 3] fourObjects :=
    ⟨⟨some 2, rfl, by simp [Links, fourObjects]⟩, by simp [Links, fourObjects], by decide, rfl, rfl,
      ⟨rfl, rfl, rfl⟩, by decide, rfl, rfl⟩
  have hfin : s'.Finished := by
    unfold Finished
    rw [hpc]
    trivial
  have hdiscards : s'.Discards := by
    unfold Discards
    rw [hpc]
    rfl
  obtain ⟨_, ⟨page, hlinks, _, hperm⟩, _, hcount, hinuse, _⟩ := deactivateSlab_run hbegins hrun hfin
  rw [hremote] at hperm
  rw [if_neg fun hkept => hkept.2 hdiscards] at hcount
  exact ⟨s', hrun, hdiscarded, hcount, hinuse hdiscards, page, hlinks, hperm⟩

end SlabState

end Rtfsc.Linux
