import Rtfsc.Redis.VmInv

/-!
# redis: freeing and cancelling a job

`freeIOJob`, `vmCancelThreadedIOJob` and `decrRefCount` keep the invariant. Freeing a job drops what it
refers to; cancelling one also undoes the storage of its value and frees the pages that were waiting
for it.
-/

namespace Rtfsc.Redis.Vm

open Rtfsc.Machine

namespace State

variable {s s' : State} {ok : Prop} {owed : List Addr} {a x : Addr} {o : Object} {j : JobId}
  {job : IoJob} {depth : Nat}

/-- Two states that differ in the memory and the jobs at most. -/
structure SameRest (s s' : State) : Prop where
  dict : s'.dict = s.dict
  held : s'.held = s.held
  queues : s'.queues = s.queues
  ioKeys : s'.ioKeys = s.ioKeys
  clients : s'.clients = s.clients
  ready : s'.ready = s.ready
  swap : s'.swap = s.swap
  swappedObjects : s'.swappedObjects = s.swappedObjects

/-- What `freeIOJob` leaves behind. -/
structure JobFreed (s : State) (j : JobId) (job : IoJob) (s' : State) : Prop where
  rest : SameRest s s'
  jobs : s'.jobs = s.jobs.erase j
  swapping : ∀ a, s'.isSwapping a = if job.val = some a then false else s.isSwapping a
  loading : ∀ a, s'.isLoading a = s.isLoading a
  pagesOf : ∀ a, s'.pagesOf a = s.pagesOf a
  bytes : SameBytes s s'
  objects : ∀ a o', s'.heap a = some (.robj o') → ∃ o, s.heap a = some (.robj o)

theorem Counted.owed_ne_none (h : s.Counted (a :: owed)) : s.heap a ≠ none := by
  intro hnone
  have := (h.freed hnone).2.2
  rw [List.count_cons_self] at this
  omega

theorem refs_eq_count (job : IoJob) (a : Addr) :
    job.refs a = (job.key :: job.val.toList).count a := by
  unfold IoJob.refs
  rw [List.count_cons]
  cases job.val with
  | none => simp
  | some v =>
    rw [Option.toList_some, List.count_singleton]
    simp only [beq_iff_eq, Option.some.injEq]
    omega

/-- A job is gone, and with it nothing but what it referred to. -/
theorem otherRefs_erased (hj : s.jobs.lookup j = some job) (hjobs : s'.jobs = s.jobs.erase j)
    (hheld : s'.held = s.held) (hioKeys : s'.ioKeys = s.ioKeys) (hclients : s'.clients = s.clients)
    (a : Addr) : s'.otherRefs a + job.refs a = s.otherRefs a := by
  have htotal := total_of_lookup hj fun _ job => job.refs a
  unfold otherRefs jobRefs waitRefs
  rw [hjobs, hheld, hioKeys, hclients]
  omega

/-- The key of a job that is still there has its old bytes. -/
theorem SameBytes.key_erased (h : SameBytes s s') (hc : s.Counted owed) (hc' : s'.Counted owed')
    (hjobs : s'.jobs = s.jobs.erase j) {i : JobId} {other : IoJob} (hne : i ≠ j)
    (hi : s.jobs.lookup i = some other) : s'.bytesOf other.key = s.bytesOf other.key := by
  have hi' : s'.jobs.lookup i = some other := by
    rw [hjobs, lookup_erase_eq, if_neg hne]
    exact hi
  exact h.bytesOf hc hc' (key_otherRefs hi) (key_otherRefs hi')

/-- What a job refers to is owed once the job is gone. -/
theorem Counted.eraseJob (h : s.Counted owed) (hj : s.jobs.lookup j = some job) :
    ({ s with jobs := s.jobs.erase j } : State).Counted (job.key :: (job.val.toList ++ owed)) := by
  have hrefs : ∀ b, ({ s with jobs := s.jobs.erase j } : State).otherRefs b + job.refs b =
      s.otherRefs b := otherRefs_erased hj rfl rfl rfl rfl
  refine h.move rfl (fun b => ?_) fun b v hb => ?_
  · have hb := hrefs b
    rw [refs_eq_count, List.count_cons] at hb
    rw [List.count_cons, List.count_append]
    show s.dictRefs b + _ + _ = _
    omega
  · have hzero := (h.pointer hb).2
    have hb' := hrefs b
    omega

theorem heap_setCell_self (s : State) (a : Addr) (c : Option Cell) : (s.setCell a c).heap a = c :=
  Function.update_self ..

theorem heap_setCell_ne {b : Addr} (h : b ≠ a) (c : Option Cell) :
    (s.setCell a c).heap b = s.heap b :=
  Function.update_of_ne h ..

theorem bytesOf_setCell {o' : Object} (ha : s.heap a = some (.robj o)) (hptr : o'.ptr = o.ptr)
    (b : Addr) : (s.setCell a (some (.robj o'))).bytesOf b = s.bytesOf b := by
  unfold bytesOf
  by_cases hb : b = a
  · subst hb
    rw [heap_setCell_self, ha]
    exact congrArg some hptr
  · rw [heap_setCell_ne hb]

theorem bytesOf_robj (ha : s.heap a = some (.robj o)) : s.bytesOf a = some o.ptr := by
  unfold bytesOf
  rw [ha]

/-- An object is written over, or freed, with the same bytes. -/
structure Rewritten (s : State) (a : Addr) (s' : State) : Prop where
  swapping : ∀ b, s'.isSwapping b = if b = a then false else s.isSwapping b
  loading : ∀ b, s'.isLoading b = s.isLoading b
  pagesOf : ∀ b, s'.pagesOf b = s.pagesOf b
  bytes : SameBytes s s'
  objects : ∀ b o', s'.heap b = some (.robj o') → ∃ o, s.heap b = some (.robj o)
  pointers : ∀ b v, s'.heap b = some (.vmpointer v) ↔ s.heap b = some (.vmpointer v)

theorem Rewritten.setCell {c : Option Cell} (ha : s.heap a = some (.robj o))
    (hc : c = none ∨ ∃ o', c = some (.robj o') ∧ o'.swapping = false ∧ o'.ptr = o.ptr) :
    Rewritten s a (s.setCell a c) where
  swapping b := by
    rw [setCell_isSwapping]
    split
    · rcases hc with rfl | ⟨o', rfl, hs, -⟩
      · rfl
      · exact hs
    · rfl
  loading b := by
    rw [setCell_isLoading]
    split
    · next hb =>
      subst hb
      rw [isLoading_robj ha]
      rcases hc with rfl | ⟨o', rfl, -⟩ <;> rfl
    · rfl
  pagesOf b := by
    rw [setCell_pagesOf]
    split
    · next hb =>
      subst hb
      rw [pagesOf_robj ha]
      rcases hc with rfl | ⟨o', rfl, -⟩ <;> rfl
    · rfl
  bytes := by
    refine SameBytes.setCell rfl ?_
    intro o₁ o₂ ho₁ ho₂
    rw [ha] at ho₁
    cases ho₁
    rcases hc with rfl | ⟨o', rfl, -, hptr⟩
    · cases ho₂
    · cases ho₂
      exact hptr
  objects b o' hb := by
    by_cases hba : b = a
    · subst hba
      exact ⟨o, ha⟩
    · rw [heap_setCell_ne hba] at hb
      exact ⟨o', hb⟩
  pointers b v := by
    by_cases hba : b = a
    · subst hba
      rw [heap_setCell_self, ha]
      rcases hc with rfl | ⟨o', rfl, -⟩ <;> simp
    · rw [heap_setCell_ne hba]

/-- One object after another is written over. -/
theorem Rewritten.trans {s₁ s₂ s₃ : State} {b : Addr} (h : Rewritten s₁ a s₂)
    (h' : Rewritten s₂ b s₃) : (∀ c, s₃.isLoading c = s₁.isLoading c) ∧
      (∀ c, s₃.pagesOf c = s₁.pagesOf c) ∧ SameBytes s₁ s₃ := by
  refine ⟨fun c => (h'.loading c).trans (h.loading c), fun c => (h'.pagesOf c).trans (h.pagesOf c), ?_⟩
  intro c o₁ o₃ ho₁ ho₃
  -- nothing new appears, so what is there in the end was there in between
  obtain ⟨o₂, ho₂⟩ := h'.objects c o₃ ho₃
  exact (h'.bytes c o₂ o₃ ho₂ ho₃).trans (h.bytes c o₁ o₂ ho₁ ho₂)

theorem dropCell_rewrites (hs : o.swapping = false) :
    dropCell o = none ∨
      ∃ o', dropCell o = some (.robj o') ∧ o'.swapping = false ∧ o'.ptr = o.ptr := by
  rcases dropCell_cases hs with h | ⟨o', h, hs'⟩
  · exact .inl h
  · exact .inr ⟨o', h, hs', dropCell_ptr h⟩

/-- `freeIOJob` drops what the job refers to; the key must not be an object being swapped out. -/
theorem freeIOJob_eq (depth : Nat) (hc : s.Counted owed) (hj : s.jobs.lookup j = some job)
    (hkey : s.isSwapping job.key = false) :
    ∃ s', s.freeIOJob (decrRefCountAux (depth + 1)) j = .ok s' ∧ s'.Counted owed ∧
      JobFreed s j job s' := by
  obtain ⟨ko, hko⟩ := hc.object (key_otherRefs hj)
  have hks : ko.swapping = false := (isSwapping_robj hko).symm.trans hkey
  have herased := hc.eraseJob hj
  unfold freeIOJob
  rw [hj, need_some, value_bind]
  cases hval : job.val with
  | none =>
    rw [hval] at herased
    have hdecr := decrRefCountAux_memory depth hko hks (hc.refcount_pos hko)
    have hrw : Rewritten s job.key (s.setCell job.key (dropCell ko)) :=
      .setCell hko (dropCell_rewrites hks)
    refine ⟨{ s.setCell job.key (dropCell ko) with jobs := s.jobs.erase j }, ?_, ?_, ?_⟩
    · show (decrRefCountAux (depth + 1) s job.key >>= _) = _
      rw [hdecr]
      rfl
    · exact herased.drop hko
    · refine ⟨⟨rfl, rfl, rfl, rfl, rfl, rfl, rfl, rfl⟩, rfl, fun a => ?_, hrw.loading, hrw.pagesOf,
        hrw.bytes, hrw.objects⟩
      rw [hval, if_neg (by exact nofun)]
      refine (hrw.swapping a).trans ?_
      split
      · next ha =>
        rw [ha, hkey]
      · rfl
  | some v =>
    rw [hval] at herased
    have hvref : 0 < s.otherRefs v := lt_of_lt_of_le (refs_val hval) (le_otherRefs hj)
    obtain ⟨vo, hvo⟩ := hc.object hvref
    obtain ⟨vo', hvo'⟩ : ∃ vo', vo' = { vo with swapping := false } := ⟨_, rfl⟩
    have hvs : vo'.swapping = false := by rw [hvo']
    have hptr : vo'.ptr = vo.ptr := by rw [hvo']
    -- fixing the storage writes the object back in any case
    have hfix : (if vo.swapping = true then s.setCell v (some (.robj { vo with swapping := false }))
        else s) = s.setCell v (some (.robj vo')) := by
      rw [hvo']
      split
      · rfl
      · next hs =>
        have hself : vo = { vo with swapping := false } := by
          cases vo
          simp only [Bool.not_eq_true] at hs
          simp only [hs]
        rw [← hself]
        unfold setCell
        rw [← hvo, Function.update_eq_self]
    have hc₁ : ({ s.setCell v (some (.robj vo')) with jobs := s.jobs.erase j } : State).Counted
        (job.key :: (v :: owed)) := by
      rw [hvo']
      exact herased.setSwapping hvo false
    have hheap₁ : (s.setCell v (some (.robj vo'))).heap v = some (.robj vo') := heap_setCell_self ..
    have hpos : 0 < vo'.refcount := hc₁.refcount_pos hheap₁
    have hdecr₁ := decrRefCountAux_memory depth hheap₁ hvs hpos
    have hc₂ : ({ (s.setCell v (some (.robj vo'))).setCell v (dropCell vo') with
        jobs := s.jobs.erase j } : State).Counted (job.key :: owed) := by
      refine Counted.drop (s := { s.setCell v (some (.robj vo')) with jobs := s.jobs.erase j }) ?_
        hheap₁
      exact hc₁.perm (List.Perm.swap v job.key owed)
    have hrw₁ : Rewritten s v (s.setCell v (some (.robj vo'))) :=
      .setCell hvo (.inr ⟨vo', rfl, hvs, hptr⟩)
    have hrw₂ : Rewritten (s.setCell v (some (.robj vo'))) v
        ((s.setCell v (some (.robj vo'))).setCell v (dropCell vo')) :=
      .setCell hheap₁ (dropCell_rewrites hvs)
    -- the key is still there: its reference is owed
    obtain ⟨ko', hko'⟩ : ∃ ko', ((s.setCell v (some (.robj vo'))).setCell v (dropCell vo')).heap
        job.key = some (.robj ko') := by
      have hne := hc₂.owed_ne_none
      have hne' : ((s.setCell v (some (.robj vo'))).setCell v (dropCell vo')).heap job.key ≠ none :=
        hne
      cases hcell : ((s.setCell v (some (.robj vo'))).setCell v (dropCell vo')).heap job.key with
      | none => exact absurd hcell hne'
      | some cell =>
        cases cell with
        | robj o => exact ⟨o, rfl⟩
        | vmpointer p =>
          rw [hrw₂.pointers, hrw₁.pointers, hko] at hcell
          cases hcell
    have hks' : ko'.swapping = false := by
      rw [← isSwapping_robj hko', hrw₂.swapping, hrw₁.swapping, hkey]
      split <;> rfl
    have hdecr₂ := decrRefCountAux_memory depth hko' hks' (hc₂.refcount_pos hko')
    have hrw₃ := Rewritten.setCell (c := dropCell ko') hko' (dropCell_rewrites hks')
    obtain ⟨hld, hpg, hby⟩ := hrw₁.trans hrw₂
    refine ⟨{ ((s.setCell v (some (.robj vo'))).setCell v (dropCell vo')).setCell job.key
      (dropCell ko') with jobs := s.jobs.erase j }, ?_, ?_, ?_⟩
    · dsimp only
      rw [object_eq_ok.mpr hvo, value_bind, hfix, hdecr₁, value_bind, hdecr₂]
      rfl
    · exact hc₂.drop hko'
    · refine ⟨⟨rfl, rfl, rfl, rfl, rfl, rfl, rfl, rfl⟩, rfl, fun a => ?_, fun a => ?_, fun a => ?_, ?_,
        fun a o₃ ho₃ => ?_⟩
      · refine (hrw₃.swapping a).trans ?_
        rw [hrw₂.swapping, hrw₁.swapping, hval]
        by_cases hav : a = v
        · rw [if_pos hav, if_pos (congrArg some hav.symm)]
          split <;> rfl
        · rw [if_neg hav, if_neg hav, if_neg fun hv => hav (Option.some.inj hv).symm]
          split
          · next hak => rw [hak, hkey]
          · rfl
      · exact (hrw₃.loading a).trans (hld a)
      · exact (hrw₃.pagesOf a).trans (hpg a)
      · intro a o₁ o₃ ho₁ ho₃
        obtain ⟨o₂, ho₂⟩ := hrw₃.objects a o₃ ho₃
        exact (hrw₃.bytes a o₂ o₃ ho₂ ho₃).trans (hby a o₁ o₂ ho₁ ho₂)
      · obtain ⟨o₂, ho₂⟩ := hrw₃.objects a o₃ ho₃
        obtain ⟨o₁, ho₁⟩ := hrw₂.objects a o₂ ho₂
        exact hrw₁.objects a o₁ ho₁

/-! ## Looking for a job -/

/-- A search of a list of jobs finds the first live one about `o`, if there is one. -/
theorem searchJobs_eq {l : List JobId} (hl : ∀ j ∈ l, ∃ job, s.jobs.lookup j = some job) (x : Addr) :
    ∃ r, s.searchJobs x l = .ok r ∧
      (∀ j job, r = some (j, job) → j ∈ l ∧ s.jobs.lookup j = some job ∧ job.canceled = false ∧
        job.id = x) ∧
      (r = none → ∀ j ∈ l, ∀ job, s.jobs.lookup j = some job → job.canceled = false →
        job.id ≠ x) := by
  induction l with
  | nil => exact ⟨none, rfl, fun _ _ h => (nomatch h), fun _ _ h => (nomatch h)⟩
  | cons j l ih =>
    obtain ⟨job, hj⟩ := hl j (List.mem_cons_self ..)
    rw [searchJobs, hj, need_some, value_bind]
    by_cases hfound : job.canceled = false ∧ job.id = x
    · rw [if_pos hfound]
      refine ⟨_, rfl, ?_, fun h => (nomatch h)⟩
      rintro j' job' ⟨⟩
      exact ⟨List.mem_cons_self .., hj, hfound⟩
    · rw [if_neg hfound]
      obtain ⟨r, hr, hsome, hnone⟩ := ih fun j' hj' => hl j' (List.mem_cons_of_mem _ hj')
      refine ⟨r, hr, fun j' job' h => ?_, fun h j' hj' job' hlookup hlive hid => ?_⟩
      · obtain ⟨hmem, hrest⟩ := hsome j' job' h
        exact ⟨List.mem_cons_of_mem _ hmem, hrest⟩
      · rcases List.mem_cons.mp hj' with rfl | hj'
        · rw [hj] at hlookup
          cases hlookup
          exact hfound ⟨hlive, hid⟩
        · exact hnone h j' hj' job' hlookup hlive hid

theorem Placed.lookup (h : s.Placed) (hj : j ∈ s.queues.placed) :
    ∃ job, s.jobs.lookup j = some job := by
  have hmem : j ∈ s.jobs := AList.mem_keys.mpr (h.jobs.mem_iff.mp hj)
  exact Option.isSome_iff_exists.mp (AList.lookup_isSome.mpr hmem)

theorem Placed.nodup (h : s.Placed) : s.queues.placed.Nodup :=
  h.jobs.nodup_iff.mpr s.jobs.keys_nodup

theorem Placed.mem (h : s.Placed) (hj : s.jobs.lookup j = some job) : j ∈ s.queues.placed := by
  refine h.jobs.mem_iff.mpr (AList.mem_keys.mp (AList.lookup_isSome.mp ?_))
  rw [hj]
  rfl

/-- A processed job, or the one in the main thread's hand, is not pending. -/
theorem Placed.not_pending (h : s.Placed)
    (hj : j ∈ s.queues.processed ∨ j ∈ s.queues.main.job) : ¬ s.queues.Pending j := by
  have hnodup := h.nodup
  unfold Queues.placed at hnodup
  have hdisj : j ∉ s.queues.newjobs ++ s.queues.processing := by
    intro hmem
    rcases hj with hj | hj
    · exact List.disjoint_of_nodup_append hnodup.of_append_left hmem hj
    · exact List.disjoint_of_nodup_append hnodup (List.mem_append_left _ hmem) hj
  rintro (hnew | ⟨t, ht⟩)
  · exact hdisj (List.mem_append_left _ hnew)
  · exact hdisj (List.mem_append_right _
      (Queues.mem_processing h.handOff ht (List.mem_singleton_self j)))

/-! ## The pages of a job -/

theorem ownsPage_iff (hlive : job.canceled = false) (p : Nat) :
    job.ownsPage p = if job.type = .doSwap ∧ SwapFile.Covers job.page job.pages p then 1 else 0 := by
  unfold IoJob.ownsPage
  simp only [hlive, true_and]

theorem ownsPage_canceled {j : IoJob} (hcan : j.canceled = true) (p : Nat) : j.ownsPage p = 0 := by
  unfold IoJob.ownsPage
  rw [hcan]
  exact if_neg fun h => (nomatch h.2.1)

/-- Where each page in use has an owner, a live job's pages are in use. -/
theorem PageShape.used_of_job (h : s.PageShape ok) (hok : ok) (hj : s.jobs.lookup j = some job)
    {p : Nat} (hp : job.ownsPage p = 1) : s.swap.Used p := by
  have howned := h.owned hok p
  have hle := le_total hj fun _ job => job.ownsPage p
  unfold owners at howned
  by_contra hu
  rw [if_neg hu] at howned
  omega

/-- The swap file after pages of one owner have been given back. -/
structure GivenBack (ok : Prop) (f : SwapFile) (w : Nat → Nat) (f' : SwapFile) : Prop where
  tallied : f'.Tallied
  nextPage : f'.nextPage ≤ f'.pages
  used : ok → ∀ p, (if f'.Used p then 1 else 0) + w p = if f.Used p then 1 else 0

/-- What has an owner can be freed. -/
theorem PageShape.free_ends (h : s.PageShape ok) {first n : Nat} {w : Nat → Nat}
    (hw : ∀ p, w p = if SwapFile.Covers first n p then 1 else 0)
    (howner : ok → ∀ p, w p = 1 → s.swap.Used p) :
    Ends (Allowed ok) (GivenBack ok s.swap w) (s.swap.vmMarkPagesFree first n) := by
  refine (SwapFile.vmMarkPagesFree_ends s.swap first n).mono ?_ ?_
  · rintro f ⟨hin, hused, hcount, hlayout⟩
    refine ⟨h.tallied.freed hin hused hcount, ?_, fun _ p => ?_⟩
    · rw [hlayout.nextPage, hlayout.pages]
      exact h.nextPage
    · rw [hw]
      by_cases hp : SwapFile.Covers first n p
      · rw [if_neg fun hu : f.Used p => ((hused p).mp hu).1 hp, if_pos hp, if_pos (hin p hp)]
      · have hiff : f.Used p ↔ s.swap.Used p := (hused p).trans (and_iff_right hp)
        simp only [hp, hiff, if_false, Nat.add_zero]
  · rintro e ⟨rfl, p, hp, hu⟩
    refine .inr ⟨fun hok => hu (howner hok p ?_), .inr rfl⟩
    rw [hw, if_pos hp]

/-- Freeing the pages of a live job. -/
theorem freeJobPages_ends (h : s.PageShape ok) (hj : s.jobs.lookup j = some job)
    (hlive : job.canceled = false) :
    Ends (Allowed ok) (fun s' => ∃ swap, s' = { s with swap } ∧
      GivenBack ok s.swap job.ownsPage swap) (s.freeJobPages job) := by
  unfold freeJobPages
  split
  · next ht =>
    refine (h.free_ends (w := job.ownsPage) (fun p => ?_) fun hok p => h.used_of_job hok hj).bind ?_
    · rw [ownsPage_iff hlive]
      simp only [ht, true_and]
    · exact fun f _ hf => Ends.pure ⟨f, rfl, hf⟩
  · next ht =>
    refine Ends.pure ⟨s.swap, rfl, h.tallied, h.nextPage, fun _ p => ?_⟩
    have hnot : ¬ (job.type = .doSwap ∧ SwapFile.Covers job.page job.pages p) := fun hd => ht hd.1
    rw [ownsPage_iff hlive, if_neg hnot, Nat.add_zero]

/-! ## Undoing the storage -/

theorem undoStorage_eq {c : Cell} (h : s.heap x = some c) :
    s.undoStorage x = .ok (s.setCell x (some c.undo)) := by
  unfold undoStorage
  rw [h]
  rfl

/-- The storage of one value is undone, and the others' stays. -/
structure Undone (s : State) (x : Addr) (s' : State) : Prop where
  swapping : ∀ b, s'.isSwapping b = if b = x then false else s.isSwapping b
  loading : ∀ b, s'.isLoading b = if b = x then false else s.isLoading b
  pagesOf : ∀ b, s'.pagesOf b = s.pagesOf b
  bytes : SameBytes s s'

theorem Undone.setCell {cell : Cell} (h : s.heap x = some cell) :
    Undone s x (s.setCell x (some cell.undo)) where
  swapping b := by
    rw [setCell_isSwapping]
    split
    · cases cell <;> rfl
    · rfl
  loading b := by
    rw [setCell_isLoading]
    split
    · cases cell <;> rfl
    · rfl
  pagesOf b := by
    rw [setCell_pagesOf]
    split
    · next hb =>
      subst hb
      unfold State.pagesOf
      rw [h]
      cases cell <;> rfl
    · rfl
  bytes := by
    refine SameBytes.setCell rfl fun o₁ o₂ ho₁ ho₂ => ?_
    rw [h] at ho₁
    cases ho₁
    cases ho₂
    rfl

theorem heap_undo {c : Cell} (hcell : s.heap x = some c) {b : Addr} {o' : Object}
    (hb : (s.setCell x (some c.undo)).heap b = some (.robj o')) :
    ∃ o, s.heap b = some (.robj o) := by
  by_cases hbx : b = x
  · subst hbx
    rw [heap_setCell_self] at hb
    cases c with
    | robj o => exact ⟨o, hcell⟩
    | vmpointer v => cases hb
  · rw [heap_setCell_ne hbx] at hb
    exact ⟨o', hb⟩

theorem Counted.undo {c : Cell} (h : s.Counted owed) (hcell : s.heap x = some c) :
    (s.setCell x (some c.undo)).Counted owed := by
  cases c with
  | robj o => exact h.setSwapping hcell false
  | vmpointer v => exact h.setLoading hcell false

/-- What a call of `vmCancelThreadedIOJob` leaves alone, and what it leaves of the storages. -/
structure Cancelled (s : State) (x : Addr) (s' : State) : Prop where
  undone : Undone s x s'
  dict : s'.dict = s.dict
  held : s'.held = s.held
  ioKeys : s'.ioKeys = s.ioKeys
  clients : s'.clients = s.clients
  ready : s'.ready = s.ready
  swappedObjects : s'.swappedObjects = s.swappedObjects
  main : s'.queues.main = s.queues.main

/-- The parts of the invariant that a cancelled job has nothing to do with. -/
theorem Cancelled.inv (hc : Cancelled s x s') (h : s.Inv ok owed) (hcounted : s'.Counted owed)
    (hjobs : s'.JobShape ok) (hplaced : s'.Placed) (htallied : s'.swap.Tallied)
    (hnext : s'.swap.nextPage ≤ s'.swap.pages)
    (howned : ok → ∀ p, s'.owners p = if s'.swap.Used p then 1 else 0) : s'.Inv ok owed where
  counted := hcounted
  jobs := hjobs
  waits := h.waits.sameBytes h.counted hcounted hc.ioKeys hc.clients hc.undone.bytes
  pages := by
    refine ⟨?_, htallied, hnext, howned⟩
    rw [hc.swappedObjects, hc.dict, h.pages.pointers]
    congr 1
    exact total_congr fun k v _ => by rw [hc.undone.pagesOf]
  placed := hplaced

theorem Cancelled.dictPages (hc : Cancelled s x s') (p : Nat) :
    total (fun _ v => s'.ownsPage p v) s'.dict = total (fun _ v => s.ownsPage p v) s.dict := by
  rw [hc.dict]
  exact total_congr fun k v _ => ownsPage_congr (hc.undone.pagesOf v) p

/-- A value that is neither loading nor being swapped out has nothing to undo. -/
theorem Cancelled.refl (hld : s.isLoading x = false) (hsw : s.isSwapping x = false) :
    Cancelled s x s := by
  refine ⟨⟨fun b => ?_, fun b => ?_, fun _ => rfl, SameBytes.of_heap_eq rfl⟩, rfl, rfl, rfl, rfl, rfl,
    rfl, rfl⟩
  · split
    · next hb => rw [hb, hsw]
    · rfl
  · split
    · next hb => rw [hb, hld]
    · rfl

/-- A `vmpointer` is a `vmpointer` still, with its pages. -/
theorem Cancelled.pointer (h : Cancelled s x s') {v : VmPointer}
    (hx : s.heap x = some (.vmpointer v)) :
    ∃ v', s'.heap x = some (.vmpointer v') ∧ v'.page = v.page ∧ v'.usedpages = v.usedpages := by
  have hpages := h.undone.pagesOf x
  rw [pagesOf_pointer hx] at hpages
  unfold State.pagesOf at hpages
  split at hpages
  · next v' hv' =>
    obtain ⟨hpage, hused⟩ := Prod.mk.inj (Option.some.inj hpages)
    exact ⟨v', hv', hpage, hused⟩
  · cases hpages

/-- An object that is still referenced is an object still. -/
theorem Cancelled.robj (h : Cancelled s x s') (hcounted : s'.Counted owed) (hdict : 0 < s'.dictRefs x)
    (hx : s.heap x = some (.robj o)) : ∃ o', s'.heap x = some (.robj o') ∧ o'.swapping = false := by
  obtain ⟨cell, hcell⟩ := Option.ne_none_iff_exists'.mp (hcounted.ne_none hdict)
  cases cell with
  | robj o' =>
    refine ⟨o', hcell, ?_⟩
    rw [← isSwapping_robj hcell, h.undone.swapping, if_pos rfl]
  | vmpointer v =>
    have hpages := h.undone.pagesOf x
    rw [pagesOf_robj hx, pagesOf_pointer hcell] at hpages
    cases hpages

/-! ## Cancelling -/

/-- A value that is being loaded or swapped out has a job to cancel. -/
theorem Inv.exists_live (h : s.Inv ok owed) (hok : ok)
    (hbusy : s.isLoading x = true ∨ s.isSwapping x = true) :
    ∃ j job, s.jobs.lookup j = some job ∧ job.canceled = false ∧ job.id = x := by
  rcases hbusy with hload | hsw
  · have hcount := h.jobs.loading x
    rw [if_pos hload] at hcount
    obtain ⟨j, job, hj, hpos⟩ := exists_of_total_pos (t := s.jobs) (f := fun _ job =>
      if job.type = .load ∧ job.canceled = false ∧ job.id = x then 1 else 0) (by
        show 0 < s.loadJobs x
        omega)
    by_cases hjob : job.type = .load ∧ job.canceled = false ∧ job.id = x
    · exact ⟨j, job, hj, hjob.2⟩
    · rw [if_neg hjob] at hpos
      exact absurd hpos (Nat.lt_irrefl 0)
  · obtain ⟨-, -, hcount⟩ := h.jobs.swapping x hsw
    obtain ⟨j, job, hj, hpos⟩ := exists_of_total_pos (t := s.jobs) (f := fun _ job =>
      if job.type ≠ .load ∧ job.val = some x then 1 else 0) (by
        show 0 < s.swapJobs x
        omega)
    by_cases hjob : job.type ≠ .load ∧ job.val = some x
    · cases hcan : job.canceled with
      | false =>
        refine ⟨j, job, hj, hcan, ?_⟩
        have hval := (h.jobs.dict_swapping hj hcan hjob.1).1
        rw [hjob.2] at hval
        exact (Option.some.inj hval).symm
      | true =>
        have hno := h.jobs.undone hok j job hj hjob.1 hcan x hjob.2
        rw [hsw] at hno
        cases hno
    · rw [if_neg hjob] at hpos
      exact absurd hpos (Nat.lt_irrefl 0)

/-- An object that is being swapped out and that a job does not pin has nothing to do with it. -/
theorem JobShape.refs_eq_zero (h : s.JobShape ok) (hj : s.jobs.lookup j = some job)
    (hx : About job x) (ha : s.isSwapping a = true) (hax : a ≠ x) : job.refs a = 0 := by
  by_contra hne
  have hval := (h.only_job ha hj (Nat.pos_of_ne_zero hne)).2.1
  exact h.val_of_swapping hj hx ha hax hval

theorem about_live (hlive : job.canceled = false) (hid : job.id = x) : About job x :=
  ⟨fun _ => hid.symm, fun hcan => by rw [hlive] at hcan; exact nomatch hcan⟩

/-- A job that is still in `io_newjobs` is taken out and freed. -/
theorem cancelNew_ends (h : s.Inv ok owed) (hj : s.jobs.lookup j = some job)
    (hlive : job.canceled = false) (hid : job.id = x) (hnew : j ∈ s.queues.newjobs) :
    Ends (Allowed ok) (fun s' => s'.Inv ok owed ∧ Cancelled s x s') (do
      let s ← s.freeJobPages job
      let s ← s.freeIOJob (decrRefCountAux (depth + 1)) j
      undoStorage { s with queues := s.queues.dropNew j } x) := by
  have hx := about_live hlive hid
  refine (freeJobPages_ends h.pages hj hlive).bind ?_
  rintro _ - ⟨swap, rfl, hback⟩
  obtain ⟨s₂, hs₂, hcounted, hfreed⟩ := freeIOJob_eq (s := { s with swap }) depth
    h.counted hj (h.jobs.key_not_swapping hj)
  rw [hs₂, value_bind]
  -- the value is still there: its key refers to it
  have hdict : 0 < s.dictRefs x := by
    obtain ⟨k, -, hk, -⟩ := h.jobs.linked j job hj hlive
    rw [hid] at hk
    have hle := le_total hk fun _ v => if v = x then 1 else 0
    rw [if_pos rfl] at hle
    exact hle
  obtain ⟨cell, hcell⟩ : ∃ cell, s₂.heap x = some cell := by
    refine Option.ne_none_iff_exists'.mp (hcounted.ne_none ?_)
    rw [dictRefs, hfreed.rest.dict]
    exact hdict
  obtain ⟨s₃, hs₃⟩ : ∃ s₃, s₃ = { s₂ with queues := s₂.queues.dropNew j } := ⟨_, rfl⟩
  rw [← hs₃, undoStorage_eq (c := cell) (by rw [hs₃]; exact hcell)]
  have hundone : Undone s₃ x (s₃.setCell x (some cell.undo)) :=
    .setCell (by rw [hs₃]; exact hcell)
  have hcounted₃ : s₃.Counted owed := by
    rw [hs₃]
    exact hcounted
  have hcounted' := hcounted₃.undo (c := cell) (x := x) (by rw [hs₃]; exact hcell)
  generalize hs₄ : s₃.setCell x (some cell.undo) = s₄ at hundone hcounted'
  have hrest : s₄.dict = s.dict ∧ s₄.held = s.held ∧ s₄.ioKeys = s.ioKeys ∧
      s₄.clients = s.clients ∧ s₄.ready = s.ready ∧ s₄.swappedObjects = s.swappedObjects ∧
      s₄.jobs = s.jobs.erase j ∧ s₄.queues = s.queues.dropNew j ∧ s₄.swap = swap := by
    rw [← hs₄, hs₃]
    exact ⟨hfreed.rest.dict, hfreed.rest.held, hfreed.rest.ioKeys, hfreed.rest.clients,
      hfreed.rest.ready, hfreed.rest.swappedObjects, hfreed.jobs,
      congrArg (Queues.dropNew · j) hfreed.rest.queues, hfreed.rest.swap⟩
  obtain ⟨hdict₄, hheld₄, hioKeys₄, hclients₄, hready₄, hswapped₄, hjobs₄, hqueues₄, hswap₄⟩ := hrest
  have hsw : ∀ b, s₄.isSwapping b = if b = x then false else s.isSwapping b := by
    intro b
    rw [hundone.swapping]
    split
    · rfl
    · next hbx =>
      have hb : s₃.isSwapping b = s₂.isSwapping b := by rw [hs₃]; rfl
      rw [hb, hfreed.swapping]
      split
      · next hv =>
        by_cases hb : s.isSwapping b = true
        · exact absurd hv (h.jobs.val_of_swapping hj hx hb hbx)
        · exact (Bool.eq_false_iff.mpr hb).symm
      · rfl
  have hld : ∀ b, s₄.isLoading b = if b = x then false else s.isLoading b := by
    intro b
    rw [hundone.loading]
    split
    · rfl
    · have hb : s₃.isLoading b = s₂.isLoading b := by rw [hs₃]; rfl
      rw [hb]
      exact hfreed.loading b
  have hpg : ∀ b, s₄.pagesOf b = s.pagesOf b := by
    intro b
    have hb : s₃.pagesOf b = s₂.pagesOf b := by rw [hs₃]; rfl
    rw [hundone.pagesOf, hb]
    exact hfreed.pagesOf b
  have hbytes : SameBytes s s₄ := by
    intro b o₁ o₄ ho₁ ho₄
    obtain ⟨o₃, ho₃⟩ : ∃ o₃, s₃.heap b = some (.robj o₃) := by
      rw [← hs₄] at ho₄
      exact heap_undo (c := cell) (by rw [hs₃]; exact hcell) ho₄
    have ho₂ : s₂.heap b = some (.robj o₃) := by
      rw [hs₃] at ho₃
      exact ho₃
    exact (hundone.bytes b o₃ o₄ ho₃ ho₄).trans (hfreed.bytes b o₁ o₃ ho₁ ho₂)
  have hcancelled : Cancelled s x s₄ :=
    ⟨⟨hsw, hld, hpg, hbytes⟩, hdict₄, hheld₄, hioKeys₄, hclients₄, hready₄, hswapped₄, by
      rw [hqueues₄]
      rfl⟩
  have hdicts : s₄.dictRefs = s.dictRefs := by
    unfold dictRefs
    rw [hdict₄]
  have hothers := otherRefs_erased hj hjobs₄ hheld₄ hioKeys₄ hclients₄
  refine Ends.pure ⟨hcancelled.inv h hcounted' ?_ ?_ ?_ ?_ ?_, hcancelled⟩
  · refine h.jobs.remove h.counted hj hx hjobs₄ ?_ hsw hld ?_ ?_ ?_
    · intro i hne
      rw [hqueues₄]
      exact Queues.mem_pending_dropNew hne
    · intro b hbx hb
      have hzero := h.jobs.refs_eq_zero hj hx hb hbx
      have hb' := hothers b
      exact ⟨by rw [hdicts], by omega⟩
    · intro i other _ _ _ k hk
      rw [hdict₄]
      exact hk
    · exact fun i other hne hi _ => hbytes.key_erased h.counted hcounted' hjobs₄ hne hi
  · refine ⟨?_, ?_⟩
    · rw [hqueues₄]
      exact h.placed.handOff.dropNew j
    · rw [hqueues₄, hjobs₄]
      have hperm := (Queues.dropNew_placed hnew).symm.trans
        (h.placed.jobs.trans (keys_perm_cons_erase hj))
      exact hperm.cons_inv
  · rw [hswap₄]
    exact hback.tallied
  · rw [hswap₄]
    exact hback.nextPage
  · intro hok p
    have howned := h.pages.owned hok p
    have hp := hback.used hok p
    have htotal := total_of_lookup hj fun _ job => job.ownsPage p
    have hdictPages := hcancelled.dictPages p
    unfold owners at howned ⊢
    rw [hdictPages, hjobs₄, hswap₄]
    omega

/-- A processed job is only marked; its value is what it was. -/
theorem cancelProcessed_ends (h : s.Inv ok owed) (hj : s.jobs.lookup j = some job)
    (hlive : job.canceled = false) (hid : job.id = x) (hproc : j ∈ s.queues.processed) :
    Ends (Allowed ok) (fun s' => s'.Inv ok owed ∧ Cancelled s x s') (do
      let s ← s.freeJobPages job
      undoStorage { s with jobs := s.jobs.insert j { job with canceled := true } } x) := by
  refine (freeJobPages_ends h.pages hj hlive).bind ?_
  rintro _ - ⟨swap, rfl, hback⟩
  obtain ⟨cell, hcell⟩ : ∃ cell, s.heap x = some cell := by
    rcases h.jobs.busy hj hlive with hb | hb
    · rw [hid] at hb
      cases hx : s.heap x with
      | none => rw [(views_free hx).2.1] at hb; cases hb
      | some cell => exact ⟨cell, rfl⟩
    · rw [hid] at hb
      cases hx : s.heap x with
      | none => rw [(views_free hx).1] at hb; cases hb
      | some cell => exact ⟨cell, rfl⟩
  obtain ⟨s₁, hs₁⟩ : ∃ s₁ : State, s₁ = { { s with swap } with
      jobs := s.jobs.insert j { job with canceled := true } } := ⟨_, rfl⟩
  have hcell₁ : s₁.heap x = some cell := by
    rw [hs₁]
    exact hcell
  have hother₁ : ∀ b, s₁.otherRefs b = s.otherRefs b := by
    intro b
    have htotal := total_replace hj { job with canceled := true } fun _ job => job.refs b
    have hsame : ({ job with canceled := true } : IoJob).refs b = job.refs b := rfl
    rw [hs₁]
    show total _ (s.jobs.insert j _) + s.waitRefs b + s.held.count b = _
    unfold otherRefs jobRefs
    omega
  have hcounted₁ : s₁.Counted owed := by
    refine h.counted.move (by rw [hs₁]) (fun b => ?_) fun b v hb => ?_
    · rw [hother₁, hs₁]
      rfl
    · rw [hother₁]
      exact (h.counted.pointer hb).2
  show Ends _ _ (undoStorage { { s with swap } with
      jobs := s.jobs.insert j { job with canceled := true } } x)
  rw [← hs₁, undoStorage_eq hcell₁]
  have hundone₁ : Undone s₁ x (s₁.setCell x (some cell.undo)) := .setCell hcell₁
  have hcounted₂ := hcounted₁.undo hcell₁
  obtain ⟨s₂, hs₂⟩ : ∃ s₂, s₂ = s₁.setCell x (some cell.undo) := ⟨_, rfl⟩
  rw [← hs₂] at hundone₁ hcounted₂ ⊢
  have hundone : Undone s x s₂ := by
    constructor
    · intro b
      rw [hundone₁.swapping, hs₁]
      rfl
    · intro b
      rw [hundone₁.loading, hs₁]
      rfl
    · intro b
      rw [hundone₁.pagesOf, hs₁]
      rfl
    · intro b o₁ o₂ ho₁ ho₂
      exact hundone₁.bytes b o₁ o₂ (by rw [hs₁]; exact ho₁) ho₂
  have hcancelled : Cancelled s x s₂ := by
    constructor
    case undone => exact hundone
    all_goals
      rw [hs₂, hs₁]
      rfl
  have hqueues : s₂.queues = s.queues := by
    rw [hs₂, hs₁]
    rfl
  have hjobs : s₂.jobs = s.jobs.insert j { job with canceled := true } := by
    rw [hs₂, hs₁]
    rfl
  have hswap : s₂.swap = swap := by
    rw [hs₂, hs₁]
    rfl
  refine Ends.pure ⟨hcancelled.inv h hcounted₂ ?_ ?_ ?_ ?_ ?_, hcancelled⟩
  · refine h.jobs.retire h.counted hj hlive (h.placed.not_pending (.inl hproc)) hjobs
      hcancelled.dict ?_ ?_ ?_ ?_ ?_
    · intro i
      rw [hqueues]
    · rw [hid]
      exact hundone.swapping
    · rw [hid]
      exact hundone.loading
    · intro b
      rw [← hother₁, hs₂]
      rfl
    · intro b
      unfold bytesOf
      rw [hs₂, hs₁]
      by_cases hb : b = x
      · subst hb
        rw [heap_setCell_self, hcell]
        cases cell <;> rfl
      · rw [heap_setCell_ne hb]
  · refine ⟨?_, ?_⟩
    · rw [hqueues]
      exact h.placed.handOff
    · rw [hqueues, hjobs]
      exact h.placed.jobs.trans (keys_insert_perm hj _).symm
  · rw [hswap]
    exact hback.tallied
  · rw [hswap]
    exact hback.nextPage
  · intro hok p
    have howned := h.pages.owned hok p
    have hp := hback.used hok p
    have htotal := total_replace hj { job with canceled := true } fun _ job => job.ownsPage p
    rw [ownsPage_canceled (j := { job with canceled := true }) rfl] at htotal
    have hdictPages := hcancelled.dictPages p
    unfold owners at howned ⊢
    rw [hdictPages, hjobs, hswap]
    omega

/-- `vmCancelThreadedIOJob` of a value that is being loaded or swapped out. -/
theorem vmCancelThreadedIOJob_ends (depth : Nat) (h : s.Inv ok owed) (hmain : s.queues.main = .idle)
    (hbusy : s.isLoading x = true ∨ s.isSwapping x = true) :
    Ends (Allowed ok) (fun s' => s'.Inv ok owed ∧ Cancelled s x s')
      (s.vmCancelThreadedIOJob (decrRefCountAux (depth + 1)) x) := by
  have hplaced : s.queues.placed =
      s.queues.newjobs ++ s.queues.processing ++ s.queues.processed := by
    unfold Queues.placed
    rw [hmain]
    exact List.append_nil _
  have hlookup : ∀ j, j ∈ s.queues.newjobs ++ s.queues.processing ++ s.queues.processed →
      ∃ job, s.jobs.lookup j = some job := by
    intro j hj
    rw [← hplaced] at hj
    exact h.placed.lookup hj
  obtain ⟨cell, hcell⟩ : ∃ cell, s.heap x = some cell := by
    cases hx : s.heap x with
    | none =>
      obtain ⟨hsw, hld, -⟩ := views_free hx
      rw [hsw, hld] at hbusy
      rcases hbusy with hb | hb <;> cases hb
    | some cell => exact ⟨cell, rfl⟩
  have hcellbusy : cell.busy = true := by
    cases cell with
    | robj o =>
      rw [isSwapping_robj hcell, isLoading_robj hcell] at hbusy
      exact hbusy.resolve_left nofun
    | vmpointer v =>
      rw [isSwapping_pointer hcell, isLoading_pointer hcell] at hbusy
      exact hbusy.resolve_right nofun
  unfold vmCancelThreadedIOJob
  rw [hcell, need_some, value_bind, check_pos hcellbusy, value_bind]
  obtain ⟨r, hr, hsome, hnone⟩ := searchJobs_eq (s := s) (l := s.queues.newjobs)
    (fun j hj => hlookup j (List.mem_append_left _ (List.mem_append_left _ hj))) x
  rw [hr, value_bind]
  cases r with
  | some e =>
    obtain ⟨hmem, hj, hlive, hid⟩ := hsome e.1 e.2 rfl
    exact cancelNew_ends h hj hlive hid hmem
  | none =>
    obtain ⟨r', hr', -, hnone'⟩ := searchJobs_eq (s := s) (l := s.queues.processing)
      (fun j hj => hlookup j (List.mem_append_left _ (List.mem_append_right _ hj))) x
    dsimp only
    rw [hr', value_bind]
    cases r' with
    | some e => exact allowed_disabled
    | none =>
      obtain ⟨r'', hr'', hsome'', hnone''⟩ := searchJobs_eq (s := s) (l := s.queues.processed)
        (fun j hj => hlookup j (List.mem_append_right _ hj)) x
      dsimp only
      rw [hr'', value_bind]
      cases r'' with
      | some e =>
        obtain ⟨hmem, hj, hlive, hid⟩ := hsome'' e.1 e.2 rfl
        exact cancelProcessed_ends h hj hlive hid hmem
      | none =>
        refine .inr ⟨fun hok => ?_, .inl rfl⟩
        obtain ⟨j, job, hj, hlive, hid⟩ := h.exists_live hok hbusy
        have hmem := h.placed.mem hj
        rw [hplaced, List.mem_append, List.mem_append] at hmem
        rcases hmem with (hmem | hmem) | hmem
        · exact hnone rfl j hmem job hj hlive hid
        · exact hnone' rfl j hmem job hj hlive hid
        · exact hnone'' rfl j hmem job hj hlive hid

/-- The job of a value that is being loaded or swapped out is cancelled before the code goes on. -/
theorem settle_ends {β : Type} {R : β → Prop} {f : State → Except Stop β} (depth : Nat) (h : s.Inv ok owed)
    (hmain : s.queues.main = .idle) {b : Bool}
    (hb : b = true ↔ s.isLoading x = true ∨ s.isSwapping x = true)
    (hf : ∀ s', s'.Inv ok owed → Cancelled s x s' → Ends (Allowed ok) R (f s')) :
    Ends (Allowed ok) R (if b = true
      then s.vmCancelThreadedIOJob (decrRefCountAux (depth + 1)) x >>= f
      else pure s >>= f) := by
  split
  · next hbusy =>
    refine (vmCancelThreadedIOJob_ends depth h hmain (hb.mp hbusy)).bind ?_
    exact fun s' _ hs' => hf s' hs'.1 hs'.2
  · next hidle =>
    have hnot := mt hb.mpr hidle
    rw [not_or, Bool.not_eq_true, Bool.not_eq_true] at hnot
    exact hf s h (.refl hnot.1 hnot.2)

end State

end Rtfsc.Redis.Vm
