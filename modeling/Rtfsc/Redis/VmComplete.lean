import Rtfsc.Redis.VmWaits

/-!
# redis: a job is processed and completed

What an I/O thread does with its job, and what the main thread does with a job it has taken off
`io_processed`: a cancelled job is freed, a loaded value goes under its key, a value that has been
written gives way to a `vmpointer`, and a value whose size is known now gets pages and is queued again.
-/

namespace Rtfsc.Redis.Vm

open Rtfsc.Machine

namespace State

variable {s s' s₁ : State} {ok : Prop} {owed : List Addr} {a x v : Addr} {o : Object} {j : JobId}
  {job : IoJob} {k : DbKey}

/-! ## The job in the main thread's hand -/

/-- The job in the main thread's hand goes away, with what it was about. -/
theorem Inv.finishJob (h : s.Inv ok []) (hmain : s.queues.main = .holding j)
    (hj : s.jobs.lookup j = some job) (hx : About job x) (hjobs : s'.jobs = s.jobs.erase j)
    (hqueues : s'.queues = s.queues.release) (hcounted : s'.Counted []) (hwaits : s'.Waits)
    (hpages : s'.PageShape ok)
    (hsw : ∀ a, s'.isSwapping a = if a = x then false else s.isSwapping a)
    (hld : ∀ a, s'.isLoading a = if a = x then false else s.isLoading a)
    (hrefs : ∀ a, a ≠ x → s.isSwapping a = true →
      s'.dictRefs a = s.dictRefs a ∧ s'.otherRefs a = s.otherRefs a)
    (hdict : ∀ i other, i ≠ j → s.jobs.lookup i = some other → other.canceled = false → ∀ k,
      s.dict.lookup (other.db, k) = some other.id → s'.dict.lookup (other.db, k) = some other.id)
    (hbytes : SameBytes s s') : s'.Inv ok [] where
  counted := hcounted
  jobs := by
    refine h.jobs.remove h.counted hj hx hjobs (fun i _ => ?_) hsw hld hrefs hdict ?_
    · rw [hqueues]
      exact Iff.rfl
    · exact fun i other hne hi _ => hbytes.key_erased h.counted hcounted hjobs hne hi
  waits := hwaits
  pages := hpages
  placed := by
    refine ⟨?_, ?_⟩
    · rw [hqueues]
      exact h.placed.handOff.release (by rw [hmain]; exact nofun)
    · rw [hqueues, hjobs]
      exact ((Queues.release_placed hmain).symm.trans
        (h.placed.jobs.trans (keys_perm_cons_erase hj))).cons_inv

/-- The job in hand has been processed. -/
theorem Inv.inHand (h : s.Inv ok []) (hmain : s.queues.main = .holding j) :
    ∃ job v, s.jobs.lookup j = some job ∧ job.val = some v ∧ ¬ s.queues.Pending j := by
  have hmem : j ∈ s.queues.main.job := by
    rw [hmain]
    exact List.mem_singleton_self j
  have hnot := h.placed.not_pending (.inr hmem)
  obtain ⟨job, hj⟩ := h.placed.lookup (j := j) (List.mem_append_right _ hmem)
  cases hval : job.val with
  | none => exact absurd (h.jobs.val_none j job hj hval).2 hnot
  | some v => exact ⟨job, v, hj, hval, hnot⟩

/-- A job that owns no pages is freed, and its value stays what it is. -/
theorem Inv.freeInHand (h : s.Inv ok []) (hmain : s.queues.main = .holding j)
    (hj : s.jobs.lookup j = some job) (hx : About job x) (hval : job.val = some x)
    (hpages : ∀ p, job.ownsPage p = 0) (hcounted : s₁.Counted [])
    (hjobs : s₁.jobs = s.jobs.erase j) (hdict : s₁.dict = s.dict) (hheld : s₁.held = s.held)
    (hqueues : s₁.queues = s.queues) (hioKeys : s₁.ioKeys = s.ioKeys)
    (hclients : s₁.clients = s.clients) (hswapped : s₁.swappedObjects = s.swappedObjects)
    (hswap : Taken s.swap (fun _ => 0) s₁.swap)
    (hsw : ∀ a, s₁.isSwapping a = if a = x then false else s.isSwapping a)
    (hld : ∀ a, s₁.isLoading a = s.isLoading a) (hpg : ∀ a, s₁.pagesOf a = s.pagesOf a)
    (hbytes : SameBytes s s₁) :
    ({ s₁ with queues := s₁.queues.release } : State).Inv ok [] := by
  obtain ⟨o, ho⟩ := h.counted.object (lt_of_lt_of_le (refs_val hval) (le_otherRefs hj))
  have hother := otherRefs_erased hj hjobs hheld hioKeys hclients
  refine h.finishJob hmain hj hx hjobs ?_ hcounted ?_ ?_ hsw (fun b => ?_) ?_ ?_ hbytes
  · show s₁.queues.release = _
    rw [hqueues]
  · exact h.waits.sameBytes h.counted hcounted hioKeys hclients hbytes
  · refine ⟨?_, hswap.tallied, hswap.nextPage, fun hok p => ?_⟩
    · show s₁.swappedObjects = (total (fun _ v => if (s₁.pagesOf v).isSome then 1 else 0) s₁.dict : Nat)
      rw [hswapped, hdict, h.pages.pointers]
      congr 1
      exact total_congr fun k v _ => by rw [hpg]
    · have howned := h.pages.owned hok p
      have htotal := total_of_lookup hj fun _ job => job.ownsPage p
      have hjob := hpages p
      have hused := hswap.used p
      have hdictPages : total (fun _ v => s₁.ownsPage p v) s.dict =
          total (fun _ v => s.ownsPage p v) s.dict :=
        total_congr fun k v _ => ownsPage_congr (hpg v) p
      show s₁.owners p = if s₁.swap.Used p then 1 else 0
      unfold owners at howned ⊢
      rw [hdict, hjobs]
      omega
  · show s₁.isLoading b = _
    rw [hld]
    split
    · next hb => rw [hb, isLoading_robj ho]
    · rfl
  · intro b hbx hb
    have hzero := h.jobs.refs_eq_zero hj hx hb hbx
    have hb' := hother b
    refine ⟨?_, ?_⟩
    · show s₁.dictRefs b = _
      rw [dictRefs, hdict, dictRefs]
    · show s₁.otherRefs b = _
      omega
  · intro i other _ _ _ k hk
    show s₁.dict.lookup _ = _
    rw [hdict]
    exact hk

theorem Taken.refl (h : s.PageShape ok) : Taken s.swap (fun _ => 0) s.swap :=
  ⟨h.tallied, h.nextPage, fun _ => rfl⟩

/-- A cancelled job is freed. -/
theorem completeCanceled_ends (h : s.Inv ok []) (hmain : s.queues.main = .holding j)
    (hj : s.jobs.lookup j = some job) (hcan : job.canceled = true) :
    Ends (Allowed ok) (fun s' => s'.Inv ok [] ∧ Readied s s') (do
      let s ← s.freeIOJob decrRefCount j
      return { s with queues := s.queues.release }) := by
  obtain ⟨job', v, hj', hval, -⟩ := h.inHand hmain
  rw [hj] at hj'
  cases hj'
  obtain ⟨s₁, hs₁, hc₁, hfreed⟩ := freeIOJob_eq 1 h.counted hj (h.jobs.key_not_swapping hj)
  have hrun : s.freeIOJob decrRefCount j = .ok s₁ := hs₁
  rw [hrun, value_bind]
  have hx : About job v := by
    refine ⟨fun hlive => ?_, fun _ => hval⟩
    rw [hcan] at hlive
    cases hlive
  refine Ends.pure ⟨h.freeInHand hmain hj hx hval (fun p => ownsPage_canceled hcan p) hc₁ hfreed.jobs
    hfreed.rest.dict hfreed.rest.held hfreed.rest.queues hfreed.rest.ioKeys hfreed.rest.clients
    hfreed.rest.swappedObjects ?_ (fun a => ?_) hfreed.loading hfreed.pagesOf hfreed.bytes,
    .same hfreed.rest.clients hfreed.rest.ready⟩
  · rw [hfreed.rest.swap]
    exact .refl h.pages
  · rw [hfreed.swapping, hval]
    simp only [Option.some.injEq, eq_comm]

/-- There is no room for a value, or it cannot be swapped out now: it stays in memory. -/
theorem completeNoRoom_ends (h : s.Inv ok []) (hmain : s.queues.main = .holding j)
    (hj : s.jobs.lookup j = some job) (hlive : job.canceled = false) (ht : job.type = .prepareSwap)
    (hval : job.val = some v) (ho : s.heap v = some (.robj o)) {swap : SwapFile}
    (hswap : Taken s.swap (fun _ => 0) swap) :
    Ends (Allowed ok) (fun s' => s'.Inv ok [] ∧ Readied s s') (do
      let s ← freeIOJob { s.setCell v (some (.robj { o with swapping := false })) with swap }
        decrRefCount j
      return { s with queues := s.queues.release }) := by
  obtain ⟨hid, -⟩ := h.jobs.dict_swapping hj hlive (by rw [ht]; decide)
  rw [hval] at hid
  have hid' : v = job.id := Option.some.inj hid
  obtain ⟨s₀, hs₀⟩ : ∃ s₀ : State, s₀ =
    { s.setCell v (some (.robj { o with swapping := false })) with swap } := ⟨_, rfl⟩
  rw [← hs₀]
  have hrw : Rewritten s v (s.setCell v (some (.robj { o with swapping := false }))) :=
    .setCell ho (.inr ⟨_, rfl, rfl, rfl⟩)
  have hcounted₀ : s₀.Counted [] := by
    rw [hs₀]
    exact h.counted.setSwapping ho false
  have hj₀ : s₀.jobs.lookup j = some job := by
    rw [hs₀]
    exact hj
  have hsw₀ : ∀ b, s₀.isSwapping b = if b = v then false else s.isSwapping b := by
    rw [hs₀]
    exact hrw.swapping
  obtain ⟨s₁, hs₁, hc₁, hfreed⟩ := freeIOJob_eq 1 hcounted₀ hj₀ (by
    rw [hsw₀, h.jobs.key_not_swapping hj]
    split <;> rfl)
  have hrun : s₀.freeIOJob decrRefCount j = .ok s₁ := hs₁
  rw [hrun, value_bind]
  have hx : About job v := about_live hlive hid'.symm
  have hrest₀ : s₀.jobs = s.jobs ∧ s₀.dict = s.dict ∧ s₀.held = s.held ∧ s₀.queues = s.queues ∧
      s₀.ioKeys = s.ioKeys ∧ s₀.clients = s.clients ∧ s₀.swappedObjects = s.swappedObjects ∧
      s₀.swap = swap ∧ s₀.ready = s.ready := by
    rw [hs₀]
    exact ⟨rfl, rfl, rfl, rfl, rfl, rfl, rfl, rfl, rfl⟩
  obtain ⟨hjobs₀, hdict₀, hheld₀, hqueues₀, hioKeys₀, hclients₀, hswapped₀, hswap₀, hready₀⟩ := hrest₀
  refine Ends.pure ⟨h.freeInHand hmain hj hx hval (fun p => ?_) hc₁ (hfreed.jobs.trans (by rw [hjobs₀]))
    (hfreed.rest.dict.trans hdict₀) (hfreed.rest.held.trans hheld₀)
    (hfreed.rest.queues.trans hqueues₀) (hfreed.rest.ioKeys.trans hioKeys₀)
    (hfreed.rest.clients.trans hclients₀) (hfreed.rest.swappedObjects.trans hswapped₀) ?_
    (fun b => ?_) (fun b => ?_) (fun b => ?_) ?_,
    .same (hfreed.rest.clients.trans hclients₀) (hfreed.rest.ready.trans hready₀)⟩
  · rw [ownsPage_iff hlive, if_neg]
    rw [ht]
    exact fun hd => nomatch hd.1
  · rw [hfreed.rest.swap, hswap₀]
    exact hswap
  · rw [hfreed.swapping, hval, hsw₀]
    by_cases hb : b = v
    · rw [if_pos hb, if_pos (congrArg some hb.symm)]
    · rw [if_neg hb, if_neg fun heq => hb (Option.some.inj heq).symm]
  · rw [hfreed.loading, hs₀]
    exact hrw.loading b
  · rw [hfreed.pagesOf, hs₀]
    exact hrw.pagesOf b
  · intro b o₁ o₂ ho₁ ho₂
    obtain ⟨o₀, ho₀⟩ := hfreed.objects b o₂ ho₂
    refine (hfreed.bytes b o₀ o₂ ho₀ ho₂).trans (hrw.bytes b o₁ o₀ ho₁ ?_)
    rw [hs₀] at ho₀
    exact ho₀

/-- A value whose size is known gets pages, and its job is queued again to write it. -/
theorem completeQueued_ends (h : s.Inv ok []) (hmain : s.queues.main = .holding j)
    (hj : s.jobs.lookup j = some job) (hlive : job.canceled = false) (ht : job.type = .prepareSwap)
    {random : Nat → Nat} {page : Nat} {swap : SwapFile}
    (hfind : s.swap.vmFindContiguousPages job.pages random = (some page, swap)) (t : ThreadId) :
    Ends (Allowed ok) (fun s' => s'.Inv ok [] ∧ Readied s s') (do
      let swap ← swap.vmMarkPagesUsed page job.pages
      queueIOJob { s with
        swap
        jobs := s.jobs.insert j { job with type := .doSwap, page }
        queues := s.queues.release } j t) := by
  obtain ⟨job₀, v, hj₀, hval, hnot⟩ := h.inHand hmain
  rw [hj] at hj₀
  cases hj₀
  refine ((h.pages.take_ends hfind).mono (fun _ => id) fun _ => False.elim).bind ?_
  intro f _ htaken
  obtain ⟨job', hjob'⟩ : ∃ job' : IoJob, job' = { job with type := .doSwap, page } := ⟨_, rfl⟩
  rw [← hjob']
  refine (queueIOJob_ends ?_ j t).imp ?_
  · exact h.placed.handOff.release (by rw [hmain]; exact nofun)
  rintro _ ⟨q', hq, rfl⟩
  have hq' : s.queues.release.Queued j q' := hq
  have hpending : ∀ i, i ≠ j → (q'.Pending i ↔ s.queues.Pending i) := by
    intro i hne
    rw [hq'.pending]
    exact or_iff_right hne
  have hrefs : ∀ b, job'.refs b = job.refs b := by
    intro b
    rw [hjob']
    rfl
  have hother : ∀ b, State.otherRefs { s with
      swap := f, jobs := s.jobs.insert j job', queues := q' } b = s.otherRefs b := by
    intro b
    have htotal := total_replace hj job' fun _ job => job.refs b
    have hb := hrefs b
    show total _ (s.jobs.insert j job') + s.waitRefs b + s.held.count b = _
    unfold otherRefs jobRefs
    omega
  refine ⟨⟨?_, ?_, ?_, ?_, ?_⟩, .same rfl rfl⟩
  · refine h.counted.move rfl (fun b => ?_) fun b vp hb => ?_
    · show s.dictRefs b + _ + _ = _
      rw [hother]
    · rw [hother]
      exact (h.counted.pointer hb).2
  · have hswap : job'.type = .doSwap := by rw [hjob']
    refine h.jobs.update job' hj (by rw [hjob']) (by rw [hjob']) (by rw [hjob']) ?_ ?_ ?_ ?_
      ?_ ?_ ?_ rfl rfl hpending (fun _ => rfl) (fun _ => rfl) (fun b _ => hother b) fun _ _ _ => rfl
    · rw [hswap, ht]
      exact ⟨nofun, nofun⟩
    · exact fun _ => hlive
    · exact fun hload => by rw [ht] at hload; cases hload
    · exact fun _ => by rw [hjob']
    · refine fun _ => ⟨?_, fun hload => ?_⟩
      · rw [hjob']
        exact hlive
      · rw [hswap] at hload
        cases hload
    · intro hnone
      have hval' : job'.val = job.val := by rw [hjob']
      rw [hval', hval] at hnone
      cases hnone
    · intro _ hcan
      rw [hjob'] at hcan
      exact hcan
  · exact h.waits.congr rfl rfl fun _ _ => rfl
  · refine ⟨h.pages.pointers, htaken.tallied, htaken.nextPage, fun hok p => ?_⟩
    have howned := h.pages.owned hok p
    have hused := htaken.used p
    have htotal := total_replace hj job' fun _ job => job.ownsPage p
    have hnone : job.ownsPage p = 0 := by
      rw [ownsPage_iff hlive, if_neg]
      rw [ht]
      exact fun hd => nomatch hd.1
    have hown : job'.ownsPage p = if SwapFile.Covers page job.pages p then 1 else 0 := by
      rw [hjob', IoJob.ownsPage]
      simp only [hlive, true_and]
    show total (fun _ v => s.ownsPage p v) s.dict + total _ (s.jobs.insert j job') =
      if f.Used p then 1 else 0
    unfold owners at howned
    omega
  · refine ⟨hq'.handOff, ?_⟩
    exact (hq'.placed.trans (Queues.release_placed hmain).symm).trans
      (h.placed.jobs.trans (keys_insert_perm hj job').symm)

/-- The entry of a job in hand is that of no other live job. -/
theorem JobShape.entry_ne (h : s.JobShape ok) (hj : s.jobs.lookup j = some job)
    (hlive : job.canceled = false) (hk : s.dict.lookup k = some job.id) (n : Addr) :
    ∀ i other, i ≠ j → s.jobs.lookup i = some other → other.canceled = false → ∀ k',
      s.dict.lookup (other.db, k') = some other.id →
        (s.dict.insert k n).lookup (other.db, k') = some other.id := by
  intro i other hne hi hlive' k' hk'
  rw [lookup_insert_eq, if_neg, hk']
  rintro rfl
  rw [hk] at hk'
  exact hne (h.live_unique hj hi hlive hlive' (Option.some.inj hk').symm)

/-- The job in the main thread's hand goes away, and something else takes the place of the value that it
was about. -/
theorem Inv.finishPut {n : Addr} (h : s.Inv ok []) (hmain : s.queues.main = .holding j)
    (hj : s.jobs.lookup j = some job) (hlive : job.canceled = false)
    (hk : s.dict.lookup k = some job.id) (hn : s.isSwapping n = false)
    (hjobs : s'.jobs = s.jobs.erase j) (hqueues : s'.queues = s.queues)
    (hdict : s'.dict = s.dict.insert k n) (hcounted : s'.Counted []) (hwaits : s'.Waits)
    (hpages : s'.PageShape ok)
    (hsw : ∀ a, s'.isSwapping a = if a = job.id then false else s.isSwapping a)
    (hld : ∀ a, s'.isLoading a = if a = job.id then false else s.isLoading a)
    (hother : ∀ a, s.isSwapping a = true → s'.otherRefs a + job.refs a = s.otherRefs a)
    (hbytes : SameBytes s s') : ({ s' with queues := s'.queues.release } : State).Inv ok [] := by
  have hx : About job job.id := about_live hlive rfl
  refine h.finishJob hmain hj hx hjobs (congrArg Queues.release hqueues) hcounted
    (hwaits.congr rfl rfl fun _ _ => rfl) (hpages.congr rfl rfl rfl rfl fun _ _ _ => rfl) hsw hld
    (fun a ha hs => ⟨?_, ?_⟩) ?_ hbytes
  · have hrefs := dictRefs_put (t := s') (n := some n) hdict a
    have han : a ≠ n := by
      rintro rfl
      rw [hn] at hs
      cases hs
    rw [hk, Option.toList_some, Option.toList_some, List.count_eq_zero.mpr (by simpa using ha),
      List.count_eq_zero.mpr (by simpa using han)] at hrefs
    exact hrefs
  · have hzero := h.jobs.refs_eq_zero hj hx hs ha
    have hrefs := hother a hs
    show s'.otherRefs a = _
    omega
  · intro i other hne hi hlive' k' hk'
    show s'.dict.lookup _ = _
    rw [hdict]
    exact h.jobs.entry_ne hj hlive hk n i other hne hi hlive' k' hk'

/-- A `vmpointer` has taken the place of a value that its job alone refers to now. -/
structure GaveWay (s : State) (k : DbKey) (x vp : Addr) (p : VmPointer) (s' : State) : Prop where
  rest : s' = { s with heap := s'.heap, dict := s.dict.insert k vp }
  counted : s'.Counted []
  swapping : ∀ b, s'.isSwapping b = if b = x then false else s.isSwapping b
  loading : ∀ b, s'.isLoading b = s.isLoading b
  pagesOf : ∀ b, s'.pagesOf b = if b = vp then some (p.page, p.usedpages) else s.pagesOf b
  bytes : SameBytes s s'

theorem decrRefCount_gaveWay {p : VmPointer} {vp : Addr} (h : s.Counted [])
    (hk : s.dict.lookup k = some x) (ho : s.heap x = some (.robj o)) (hvp : s.heap vp = none)
    (hdone : s.dictRefs x = 1) (hother : s.otherRefs x = 1) (hp : p.loading = false) :
    ∃ s', decrRefCount ({ s.setCell vp (some (.vmpointer p)) with
        dict := s.dict.insert k vp }.setCell x (some (.robj { o with swapping := false }))) x = .ok s' ∧
      GaveWay s k x vp p s' := by
  have hne : x ≠ vp := by
    rintro rfl
    rw [ho] at hvp
    cases hvp
  obtain ⟨o₁, ho₁⟩ : ∃ o₁ : Object, o₁ = { o with swapping := false } := ⟨_, rfl⟩
  obtain ⟨s₁, hs₁⟩ : ∃ s₁ : State, s₁ = { s.setCell vp (some (.vmpointer p)) with
    dict := s.dict.insert k vp } := ⟨_, rfl⟩
  obtain ⟨s₂, hs₂⟩ : ∃ s₂, s₂ = s₁.setCell x (some (.robj o₁)) := ⟨_, rfl⟩
  have hheap₁ : s₁.heap x = some (.robj o) := by
    rw [hs₁]
    exact (heap_setCell_ne hne _).trans ho
  have hheap₂ : s₂.heap x = some (.robj o₁) := by
    rw [hs₂]
    exact heap_setCell_self ..
  have hcounted₁ : s₁.Counted [x] := by
    have hcreated := h.createPointer hvp p
    rw [hs₁]
    refine hcreated.put (k := k) (n := some vp) rfl rfl (fun b => ?_) fun b => le_refl _
    show s.otherRefs b + [x].count b + [vp].count b =
      s.otherRefs b + [vp].count b + (s.dict.lookup k).toList.count b
    rw [hk, Option.toList_some]
    omega
  have hcounted₂ : s₂.Counted [x] := by
    rw [hs₂, ho₁]
    exact hcounted₁.setSwapping hheap₁ false
  rw [← ho₁, ← hs₁, ← hs₂]
  refine ⟨s₂.setCell x (dropCell o₁), decrRefCountAux_memory 1 hheap₂ (by rw [ho₁])
    (hcounted₂.refcount_pos hheap₂), ?_⟩
  -- what is at the two addresses now: the job alone refers to the object
  obtain ⟨o₂, ho₂, hs₂', hptr₂⟩ : ∃ o₂, dropCell o₁ = some (.robj o₂) ∧ o₂.swapping = false ∧
      o₂.ptr = o.ptr := by
    have hrefcount := (h.robj ho).1
    rw [hdone, hother, List.count_nil] at hrefcount
    refine ⟨{ o₁ with refcount := o₁.refcount - 1 }, ?_, by rw [ho₁], by rw [ho₁]⟩
    unfold dropCell
    rw [if_neg]
    rw [ho₁]
    show ¬ o.refcount - 1 = 0
    omega
  obtain ⟨s₃, hs₃⟩ : ∃ s₃, s₃ = s₂.setCell x (dropCell o₁) := ⟨_, rfl⟩
  rw [← hs₃]
  have hheapVal : s₃.heap x = some (.robj o₂) := by
    rw [hs₃, ho₂]
    exact heap_setCell_self ..
  have hheapVp : s₃.heap vp = some (.vmpointer p) := by
    rw [hs₃, heap_setCell_ne (Ne.symm hne), hs₂, heap_setCell_ne (Ne.symm hne), hs₁]
    exact heap_setCell_self ..
  have hheapRest : ∀ b, b ≠ x → b ≠ vp → s₃.heap b = s.heap b := by
    intro b hb hb'
    rw [hs₃, heap_setCell_ne hb, hs₂, heap_setCell_ne hb, hs₁]
    exact heap_setCell_ne hb' _
  obtain ⟨hfree, hfree', -⟩ := views_free hvp
  constructor
  case rest =>
    rw [hs₃, hs₂, hs₁]
    rfl
  case counted =>
    rw [hs₃]
    exact hcounted₂.drop hheap₂
  case swapping =>
    intro b
    by_cases hb : b = x
    · rw [if_pos hb, hb, isSwapping_robj hheapVal, hs₂']
    · rw [if_neg hb]
      by_cases hb' : b = vp
      · rw [hb', isSwapping_pointer hheapVp, hfree]
      · exact isSwapping_congr (hheapRest b hb hb')
  case loading =>
    intro b
    by_cases hb : b = x
    · rw [hb, isLoading_robj hheapVal, isLoading_robj ho]
    · by_cases hb' : b = vp
      · rw [hb', isLoading_pointer hheapVp, hfree', hp]
      · exact isLoading_congr (hheapRest b hb hb')
  case pagesOf =>
    intro b
    by_cases hb' : b = vp
    · rw [if_pos hb', hb', pagesOf_pointer hheapVp]
    · rw [if_neg hb']
      by_cases hb : b = x
      · rw [hb, pagesOf_robj hheapVal, pagesOf_robj ho]
      · exact pagesOf_congr (hheapRest b hb hb')
  case bytes =>
    intro b o₁' o₃ hb₁ hb₃
    have hb' : b ≠ vp := by
      rintro rfl
      rw [hvp] at hb₁
      cases hb₁
    by_cases hb : b = x
    · subst hb
      rw [ho] at hb₁
      rw [hheapVal] at hb₃
      cases hb₁
      cases hb₃
      exact hptr₂
    · rw [hheapRest b hb hb', hb₁] at hb₃
      cases hb₃
      rfl

/-- A value has been written: a `vmpointer` takes its place, and it is freed. -/
theorem completeSwapped_ends (h : s.Inv ok []) (hmain : s.queues.main = .holding j)
    (hj : s.jobs.lookup j = some job) (hlive : job.canceled = false) (ht : job.type = .doSwap)
    (hk : s.dict.lookup k = some job.id) (ho : s.heap job.id = some (.robj o))
    (hs : o.swapping = true) (hval : job.val = some job.id) (vp : Addr) :
    Ends (Allowed ok) (fun s' => s'.Inv ok [] ∧ Readied s s') (do
      let s ← s.create vp (.vmpointer ⟨false, job.page, job.pages⟩)
      let s ← decrRefCount ({ s with dict := s.dict.insert k vp }.setCell job.id
        (some (.robj { o with swapping := false }))) job.id
      let s ← freeIOJob { s with swappedObjects := s.swappedObjects + 1 } decrRefCount j
      return { s with queues := s.queues.release }) := by
  refine create_ends fun hvp => ?_
  obtain ⟨hdone, hother, -⟩ := h.jobs.swapping job.id ((isSwapping_robj ho).trans hs)
  obtain ⟨s₂, hs₂, hgave⟩ := decrRefCount_gaveWay (p := ⟨false, job.page, job.pages⟩) h.counted hk ho
    hvp hdone hother rfl
  have hdecr : decrRefCount ({ s.setCell vp (some (.vmpointer ⟨false, job.page, job.pages⟩)) with
      dict := s.dict.insert k vp }.setCell job.id (some (.robj { o with swapping := false }))) job.id =
        .ok s₂ := hs₂
  show Ends _ _ (do
    let s ← decrRefCount ({ s.setCell vp (some (.vmpointer ⟨false, job.page, job.pages⟩)) with
      dict := s.dict.insert k vp }.setCell job.id (some (.robj { o with swapping := false }))) job.id
    let s ← freeIOJob { s with swappedObjects := s.swappedObjects + 1 } decrRefCount j
    return { s with queues := s.queues.release })
  rw [hdecr, value_bind]
  obtain ⟨s₃, hs₃⟩ : ∃ s₃ : State, s₃ = { s₂ with swappedObjects := s₂.swappedObjects + 1 } := ⟨_, rfl⟩
  rw [← hs₃]
  have hrest : s₃ = { s with
      heap := s₂.heap, dict := s.dict.insert k vp, swappedObjects := s.swappedObjects + 1 } := by
    rw [hs₃, hgave.rest]
  have hcounted₃ : s₃.Counted [] := by
    rw [hs₃]
    exact hgave.counted
  have hsw₃ : ∀ b, s₃.isSwapping b = if b = job.id then false else s.isSwapping b := by
    rw [hs₃]
    exact hgave.swapping
  have hj₃ : s₃.jobs.lookup j = some job := by
    rw [hrest]
    exact hj
  obtain ⟨s₄, hs₄, hc₄, hfreed⟩ := freeIOJob_eq 1 hcounted₃ hj₃ (by
    rw [hsw₃, h.jobs.key_not_swapping hj]
    split <;> rfl)
  have hrun : s₃.freeIOJob decrRefCount j = .ok s₄ := hs₄
  rw [hrun, value_bind]
  have hjobs : s₄.jobs = s.jobs.erase j := hfreed.jobs.trans (by rw [hrest])
  have hdict : s₄.dict = s.dict.insert k vp := hfreed.rest.dict.trans (by rw [hrest])
  have hheld : s₄.held = s.held := hfreed.rest.held.trans (by rw [hrest])
  have hioKeys : s₄.ioKeys = s.ioKeys := hfreed.rest.ioKeys.trans (by rw [hrest])
  have hclients : s₄.clients = s.clients := hfreed.rest.clients.trans (by rw [hrest])
  have hswap : s₄.swap = s.swap := hfreed.rest.swap.trans (by rw [hrest])
  have hbytes : SameBytes s s₄ := by
    intro b o₁ o₄ hb₁ hb₄
    obtain ⟨o₃, hb₃⟩ := hfreed.objects b o₄ hb₄
    refine (hfreed.bytes b o₃ o₄ hb₃ hb₄).trans (hgave.bytes b o₁ o₃ hb₁ ?_)
    rw [hs₃] at hb₃
    exact hb₃
  have hpg : ∀ b, s₄.pagesOf b = if b = vp then some (job.page, job.pages) else s.pagesOf b := by
    intro b
    rw [hfreed.pagesOf, hs₃]
    exact hgave.pagesOf b
  have hpgVp : s₄.pagesOf vp = some (job.page, job.pages) := (hpg vp).trans (if_pos rfl)
  refine Ends.pure ⟨h.finishPut hmain hj hlive hk (views_free hvp).1 hjobs
    (hfreed.rest.queues.trans (by rw [hrest])) hdict hc₄
    (h.waits.sameBytes h.counted hc₄ hioKeys hclients hbytes) ?_ (fun b => ?_) (fun b => ?_)
    (fun b _ => otherRefs_erased hj hjobs hheld hioKeys hclients b) hbytes,
    .same hclients (hfreed.rest.ready.trans (by rw [hrest]))⟩
  · refine h.pages.put (k := k) (n := some vp) hdict (fun k' v' _ hv' => ?_) ?_ ?_ ?_ fun hok p => ?_
    · rw [hpg, if_neg]
      rintro rfl
      exact h.counted.ne_none (dictRefs_pos hv') hvp
    · have hnew : s₄.pointerAt vp = 1 := by
        unfold pointerAt
        rw [hpgVp]
        rfl
      have hswapped : s₄.swappedObjects = s.swappedObjects + 1 :=
        hfreed.rest.swappedObjects.trans (by rw [hrest])
      rw [hk, hswapped]
      simp only [Option.elim_some]
      rw [hnew, pointerAt_robj ho]
      omega
    · rw [hswap]
      exact h.pages.tallied
    · rw [hswap]
      exact h.pages.nextPage
    · have hnew : s₄.ownsPage p vp = job.ownsPage p := by
        rw [ownsPage_iff hlive]
        unfold State.ownsPage
        rw [hpgVp]
        simp only [ht, true_and]
      have htotal := total_of_lookup hj fun _ job => job.ownsPage p
      rw [hk, hjobs, hswap]
      simp only [Option.elim_some]
      rw [hnew, ownsPage_robj ho p]
      omega
  · rw [hfreed.swapping, hsw₃]
    split
    · next hv =>
      rw [hval] at hv
      rw [if_pos (Option.some.inj hv).symm]
    · rfl
  · rw [hfreed.loading, hs₃]
    refine (hgave.loading b).trans ?_
    split
    · next hb => rw [hb, isLoading_robj ho]
    · rfl

/-- A loaded value is stored under its key, and the one that was there is owed. -/
structure Stored (s : State) (k : DbKey) (x val : Addr) (swap : SwapFile) (n : Int) (s' : State) :
    Prop where
  rest : s' = { s with
    heap := s'.heap, swap := swap, swappedObjects := n, dict := s.dict.insert k val }
  keys : s'.Keys [x]
  swapping : ∀ b, s'.isSwapping b = s.isSwapping b
  loading : ∀ b, s'.isLoading b = s.isLoading b
  pagesOf : ∀ b, s'.pagesOf b = s.pagesOf b
  bytes : ∀ b, s'.bytesOf b = s.bytesOf b
  sameBytes : SameBytes s s'

theorem incrRefCount_stored {val : Addr} (h : s.Keys []) (hk : s.dict.lookup k = some x)
    (ho : s.heap val = some (.robj o)) (hs : o.swapping = false) (swap : SwapFile) (n : Int) :
    ∃ s', incrRefCount { s with
        swap := swap, swappedObjects := n, dict := s.dict.insert k val } val = .ok s' ∧
      Stored s k x val swap n s' := by
  obtain ⟨o₁, ho₁⟩ : ∃ o₁ : Object, o₁ = { o with refcount := o.refcount + 1 } := ⟨_, rfl⟩
  obtain ⟨s₂, hs₂⟩ : ∃ s₂ : State, s₂ = { s.setCell val (some (.robj o₁)) with
    swap := swap, swappedObjects := n, dict := s.dict.insert k val } := ⟨_, rfl⟩
  have hrw : Rewritten s val (s.setCell val (some (.robj o₁))) :=
    .setCell ho (.inr ⟨o₁, rfl, by rw [ho₁]; exact hs, by rw [ho₁]⟩)
  have hsw : ∀ b, s₂.isSwapping b = s.isSwapping b := by
    intro b
    rw [hs₂]
    refine (hrw.swapping b).trans ?_
    split
    · next hb => rw [hb, isSwapping_robj ho, hs]
    · rfl
  have hbytes : ∀ b, s₂.bytesOf b = s.bytesOf b := by
    intro b
    rw [hs₂]
    exact bytesOf_setCell ho (by rw [ho₁]) b
  refine ⟨s₂, ?_, ?_⟩
  · rw [incrRefCount_eq (s := { s with
      swap := swap, swappedObjects := n, dict := s.dict.insert k val }) ho, hs₂, ho₁]
    rfl
  constructor
  case rest =>
    rw [hs₂]
    rfl
  case keys =>
    refine ⟨?_, ?_, fun b hb => ?_⟩
    · have hincr := h.counted.incr ho
      rw [← ho₁] at hincr
      rw [hs₂]
      refine hincr.put (k := k) (n := some val) rfl rfl (fun b => ?_) fun b => le_refl _
      show s.otherRefs b + [x].count b + [val].count b =
        s.otherRefs b + [val].count b + (s.dict.lookup k).toList.count b
      rw [hk, Option.toList_some]
      omega
    · refine h.waits.congr ?_ ?_ fun b _ => hbytes b
      · rw [hs₂]
        rfl
      · rw [hs₂]
        rfl
    · rw [hsw]
      rw [hs₂] at hb
      exact h.memory b hb
  case swapping => exact hsw
  case loading =>
    rw [hs₂]
    exact hrw.loading
  case pagesOf =>
    rw [hs₂]
    exact hrw.pagesOf
  case bytes => exact hbytes
  case sameBytes =>
    rw [hs₂]
    exact hrw.bytes

/-- The clients of a key have been handled, and the job that pinned it is freed. -/
structure HandledFreed (s : State) (j : JobId) (job : IoJob) (k : DbKey) (owed : List Addr)
    (s' : State) : Prop where
  jobs : s'.jobs = s.jobs.erase j
  dict : s'.dict = s.dict
  queues : s'.queues = s.queues
  swap : s'.swap = s.swap
  swappedObjects : s'.swappedObjects = s.swappedObjects
  counted : s'.Counted owed
  waits : s'.Waits
  swapping : ∀ b, s'.isSwapping b = s.isSwapping b
  loading : ∀ b, s'.isLoading b = s.isLoading b
  pagesOf : ∀ b, s'.pagesOf b = s.pagesOf b
  other : ∀ b, s.isSwapping b = true → s'.otherRefs b + job.refs b = s.otherRefs b
  bytes : SameBytes s s'
  objects : ∀ b o', s'.heap b = some (.robj o') → ∃ o, s.heap b = some (.robj o)
  gone : s'.ioKeys.lookup k = none
  ready : Readied s s'

theorem handleFree_eq {ko : Object} (h : s.Keys owed) (hj : s.jobs.lookup j = some job)
    (hko : s.heap job.key = some (.robj ko)) (hks : ko.swapping = false)
    (hval : ∀ v, job.val = some v → s.isSwapping v = false) :
    ∃ s₁ s₂, s.handleClientsBlockedOnSwappedKey job.db job.key = .ok s₁ ∧
      s₁.freeIOJob decrRefCount j = .ok s₂ ∧ HandledFreed s j job (job.db, ko.ptr) owed s₂ := by
  have hpin : 0 < s.jobRefs job.key + s.held.count job.key := by
    have hle : job.refs job.key ≤ s.jobRefs job.key := le_total hj fun _ job' => job'.refs job.key
    have hpos := refs_key job
    omega
  obtain ⟨s₁, hs₁, hkeys, hst, hhandled⟩ :=
    handleClientsBlockedOnSwappedKey_eq h hko hks hpin job.db
  have hj₁ : s₁.jobs.lookup j = some job := by
    rw [hst.jobs]
    exact hj
  obtain ⟨s₂, hs₂, hc₂, hfreed⟩ := freeIOJob_eq 1 hkeys.counted hj₁ (by
    rw [hst.swapping, isSwapping_robj hko, hks])
  have hjobs : s₂.jobs = s.jobs.erase j := by rw [hfreed.jobs, hst.jobs]
  refine ⟨s₁, s₂, hs₁, hs₂, ?_⟩
  constructor
  case jobs => exact hjobs
  case dict => rw [hfreed.rest.dict, hst.dict]
  case queues => rw [hfreed.rest.queues, hst.queues]
  case swap => rw [hfreed.rest.swap, hst.swap]
  case swappedObjects => rw [hfreed.rest.swappedObjects, hst.swappedObjects]
  case counted => exact hc₂
  case waits =>
    exact hkeys.waits.sameBytes hkeys.counted hc₂ hfreed.rest.ioKeys hfreed.rest.clients hfreed.bytes
  case swapping =>
    intro b
    rw [hfreed.swapping, hst.swapping]
    split
    · next hv => exact (hval b hv).symm
    · rfl
  case loading => exact fun b => (hfreed.loading b).trans (hst.loading b)
  case pagesOf => exact fun b => (hfreed.pagesOf b).trans (hst.pagesOf b)
  case other =>
    -- nobody waits for a value that is being swapped out, before or after
    intro b hb
    have hwait : s.waitRefs b = 0 := by
      by_contra hne
      rw [h.memory b (Nat.pos_of_ne_zero hne)] at hb
      cases hb
    have hwait' : s₁.waitRefs b = 0 := by
      by_contra hne
      have hfalse := hkeys.memory b (Nat.pos_of_ne_zero hne)
      rw [hst.swapping, hb] at hfalse
      cases hfalse
    have herased := otherRefs_erased hj₁ hfreed.jobs hfreed.rest.held hfreed.rest.ioKeys
      hfreed.rest.clients b
    rw [herased]
    unfold otherRefs jobRefs
    rw [hwait, hwait', hst.jobs, hst.held]
  case bytes =>
    intro b o₀ o₂ hb₀ hb₂
    obtain ⟨o₁, hb₁⟩ := hfreed.objects b o₂ hb₂
    exact (hfreed.bytes b o₁ o₂ hb₁ hb₂).trans (hst.bytes b o₀ o₁ hb₀ hb₁)
  case objects =>
    intro b o₂ hb₂
    obtain ⟨o₁, hb₁⟩ := hfreed.objects b o₂ hb₂
    exact hst.objects b o₁ hb₁
  case gone =>
    rw [hfreed.rest.ioKeys]
    exact hhandled.gone
  case ready => exact hhandled.ready.congr rfl rfl hfreed.rest.clients hfreed.rest.ready

/-- A value has been loaded: it goes under its key, and who waited for the key alone is ready. -/
theorem completeLoaded_ends {ko : Object} {vp : VmPointer} {val : Addr} (h : s.Inv ok [])
    (hmain : s.queues.main = .holding j) (hj : s.jobs.lookup j = some job)
    (hlive : job.canceled = false) (ht : job.type = .load) (hko : s.heap job.key = some (.robj ko))
    (hk : s.dict.lookup (job.db, ko.ptr) = some job.id) (hvp : s.heap job.id = some (.vmpointer vp))
    (hval : job.val = some val) :
    Ends (Allowed ok) (fun s' => (s'.Inv ok [] ∧ Readied s s') ∧
        s'.ioKeys.lookup (job.db, ko.ptr) = none) (do
      let swap ← s.swap.vmMarkPagesFree vp.page vp.usedpages
      let s ← incrRefCount { s with
        swap
        swappedObjects := s.swappedObjects - 1
        dict := s.dict.insert (job.db, ko.ptr) val } val
      let s ← s.handleClientsBlockedOnSwappedKey job.db job.key
      let s ← s.freeIOJob decrRefCount j
      return { s.setCell job.id none with queues := s.queues.release }) := by
  obtain ⟨vo, hvo⟩ := h.counted.object (lt_of_lt_of_le (refs_val hval) (le_otherRefs hj))
  -- a loaded value is not being swapped out: it belongs to a load job
  have hvs : s.isSwapping val = false := by
    by_contra hne
    have hnot := (h.jobs.only_job (Bool.eq_true_of_not_eq_false hne) hj (refs_val hval)).1
    exact hnot ht
  have hks := h.jobs.key_not_swapping hj
  have hne : val ≠ job.id := by
    intro heq
    rw [← heq, hvo] at hvp
    cases hvp
  refine (freeValuePages_ends h.pages hk hvp rfl rfl).bind ?_
  intro swap _ hback
  obtain ⟨s₂, hs₂, hst⟩ := incrRefCount_stored h.keys hk hvo ((isSwapping_robj hvo).symm.trans hvs)
    swap (s.swappedObjects - 1)
  rw [hs₂, value_bind]
  have hj₂ : s₂.jobs.lookup j = some job := by
    rw [hst.rest]
    exact hj
  obtain ⟨ko₂, hko₂⟩ := hst.keys.counted.object (key_otherRefs hj₂)
  have hks₂ : ko₂.swapping = false := by rw [← isSwapping_robj hko₂, hst.swapping, hks]
  have hptr : ko₂.ptr = ko.ptr := by
    have hb := hst.bytes job.key
    rw [bytesOf_robj hko₂, bytesOf_robj hko] at hb
    exact Option.some.inj hb
  obtain ⟨s₃, s₄, hs₃, hs₄, hdone⟩ := handleFree_eq hst.keys hj₂ hko₂ hks₂ fun v hv => by
    rw [hval] at hv
    rw [hst.swapping, ← Option.some.inj hv, hvs]
  rw [hptr] at hdone
  rw [hs₃, value_bind, hs₄, value_bind]
  have hpg : ∀ b, s₄.pagesOf b = s.pagesOf b := fun b => (hdone.pagesOf b).trans (hst.pagesOf b)
  obtain ⟨vp₄, hvp₄⟩ : ∃ vp₄, s₄.heap job.id = some (.vmpointer vp₄) := by
    have hb := hpg job.id
    rw [pagesOf_pointer hvp] at hb
    unfold State.pagesOf at hb
    split at hb
    · next vp₄ hvp₄ => exact ⟨vp₄, hvp₄⟩
    · cases hb
  -- in the end the `vmpointer` is freed
  obtain ⟨s₅, hs₅⟩ : ∃ s₅, s₅ = s₄.setCell job.id none := ⟨_, rfl⟩
  have hrest : s₅ = { s₄ with heap := s₅.heap } := by
    rw [hs₅]
    rfl
  have hc₅ : s₅.Counted [] := by
    rw [hs₅]
    exact hdone.counted.freePointer hvp₄
  have hbytes₅ : SameBytes s₄ s₅ := by
    rw [hs₅]
    exact .setCell rfl fun _ _ _ => nofun
  have hbytes : SameBytes s s₅ := by
    intro b o₁ o₅ hb₁ hb₅
    have hb₄ : s₄.heap b = some (.robj o₅) := by
      have hbi : b ≠ job.id := by
        rintro rfl
        rw [hs₅, heap_setCell_self] at hb₅
        cases hb₅
      rw [hs₅, heap_setCell_ne hbi] at hb₅
      exact hb₅
    obtain ⟨o₂, hb₂⟩ := hdone.objects b o₅ hb₄
    exact (hdone.bytes b o₂ o₅ hb₂ hb₄).trans (hst.sameBytes b o₁ o₂ hb₁ hb₂)
  have hdict : s₅.dict = s.dict.insert (job.db, ko.ptr) val := by
    rw [hrest]
    exact hdone.dict.trans (by rw [hst.rest])
  have hjobs : s₅.jobs = s.jobs.erase j := by
    rw [hrest]
    exact hdone.jobs.trans (by rw [hst.rest])
  have hswap : s₅.swap = swap := by
    rw [hrest]
    exact hdone.swap.trans (by rw [hst.rest])
  have hqueues : s₅.queues = s.queues := by
    rw [hrest]
    exact hdone.queues.trans (by rw [hst.rest])
  have hswapped : s₅.swappedObjects = s.swappedObjects - 1 := by
    rw [hrest]
    exact hdone.swappedObjects.trans (by rw [hst.rest])
  have hvalpg : s₅.pagesOf val = none := by
    rw [hs₅, setCell_pagesOf, if_neg hne, hpg, pagesOf_robj hvo]
  have hinv := h.finishPut hmain hj hlive hk hvs hjobs hqueues hdict hc₅
    (hdone.waits.sameBytes hdone.counted hc₅ (by rw [hrest]) (by rw [hrest]) hbytes₅) ?_ (fun b => ?_)
    (fun b => ?_) (fun b hb => ?_) hbytes
  · rw [hs₅] at hinv
    refine Ends.pure ⟨⟨hinv, hdone.ready.congr ?_ ?_ rfl rfl⟩, hdone.gone⟩
    · rw [hst.rest]
    · rw [hst.rest]
  · refine h.pages.put (k := (job.db, ko.ptr)) (n := some val) hdict (fun k' v' hne' hv' => ?_) ?_ ?_ ?_
      fun hok p => ?_
    · rw [hs₅, setCell_pagesOf, if_neg, hpg]
      rintro rfl
      exact h.counted.pointer_unique hvp hk hne' hv'
    · rw [hk]
      simp only [Option.elim_some]
      rw [pointerAt_of_none hvalpg, pointerAt_pointer hvp, hswapped]
      omega
    · rw [hswap]
      exact hback.tallied
    · rw [hswap]
      exact hback.nextPage
    · have hused := hback.used hok p
      have htotal := total_of_lookup hj fun _ job => job.ownsPage p
      have hjob : job.ownsPage p = 0 := by
        rw [ownsPage_iff hlive, if_neg]
        rw [ht]
        exact fun hd => nomatch hd.1
      rw [hk]
      simp only [Option.elim_some]
      rw [ownsPage_of_none hvalpg p, hjobs, hswap]
      omega
  · rw [hs₅, setCell_isSwapping, hdone.swapping, hst.swapping]
  · rw [hs₅, setCell_isLoading, hdone.loading, hst.loading]
  · have hother := hdone.other b ((hst.swapping b).trans hb)
    have hrest₂ : s₂.otherRefs b = s.otherRefs b := by
      rw [hst.rest]
      rfl
    rw [← hrest₂, ← hother, hrest]
    rfl

/-- Nobody waits any more for the value that the job has loaded. -/
def Arrived (s : State) (j : JobId) (s' : State) : Prop :=
  ∀ job k, s.jobs.lookup j = some job → job.canceled = false → job.type = .load →
    s.bytesOf job.key = some k → s'.ioKeys.lookup (job.db, k) = none

theorem Arrived.of_job (hj : s.jobs.lookup j = some job) (h : job.canceled = true ∨ job.type ≠ .load) :
    s.Arrived j s' := by
  intro job' k hj' hlive hload
  rw [hj] at hj'
  cases hj'
  rcases h with h | h
  · rw [hlive] at h
    cases h
  · exact absurd hload h

/-- The main thread completes the job in its hand. -/
theorem completeJob_ends (h : s.Inv ok []) (hmain : s.queues.main = .holding j) (canSwapOut : Bool)
    (random : Nat → Nat) (t : ThreadId) (vp : Addr) :
    Ends (Allowed ok) (fun s' => (s'.Inv ok [] ∧ Readied s s') ∧ s.Arrived j s')
      (s.completeJob j canSwapOut random t vp) := by
  obtain ⟨job, val, hj, hval, hnot⟩ := h.inHand hmain
  unfold completeJob
  rw [hj, need_some, value_bind]
  cases hcan : job.canceled with
  | true =>
    exact (completeCanceled_ends h hmain hj hcan).imp fun _ hs' => ⟨hs', .of_job hj (.inl hcan)⟩
  | false =>
    obtain ⟨k, hk, hentry, hm⟩ := h.jobs.linked j job hj hcan
    obtain ⟨ko, hko⟩ := h.counted.object (key_otherRefs hj)
    rw [bytesOf_robj hko] at hk
    cases hk
    rw [if_neg Bool.false_ne_true, object_eq_ok.mpr hko, value_bind, hentry, need_some, value_bind,
      hval, need_some, value_bind]
    cases ht : job.type with
    | load =>
      have hld := h.jobs.load_loading hj hcan ht
      dsimp only
      split
      · next v hv =>
        refine (completeLoaded_ends h hmain hj hcan ht hko hentry hv hval).imp fun s' hs' =>
          ⟨hs'.1, fun job' k hj' _ _ hk => ?_⟩
        rw [hj] at hj'
        cases hj'
        rw [bytesOf_robj hko] at hk
        cases hk
        exact hs'.2
      · next hnone =>
        unfold isLoading at hld
        split at hld
        · next v hv => exact absurd hv (hnone v)
        · cases hld
    | prepareSwap =>
      obtain ⟨o, ho⟩ := h.counted.object (lt_of_lt_of_le (refs_val hval) (le_otherRefs hj))
      have harrived : ∀ s', s.Arrived j s' := fun s' => .of_job hj (.inr (by rw [ht]; decide))
      dsimp only
      rw [object_eq_ok.mpr ho, value_bind]
      split
      · next swap hfind =>
        refine (completeNoRoom_ends h hmain hj hcan ht hval ho ?_).imp fun s' hs' =>
          ⟨hs', harrived s'⟩
        split at hfind
        · exact h.pages.search hfind
        · cases hfind
          exact .refl h.pages
      · next page swap hfind =>
        split at hfind
        · have hqueued := completeQueued_ends h hmain hj hcan ht hfind t
          rw [hval, hcan] at hqueued
          exact hqueued.imp fun s' hs' => ⟨hs', harrived s'⟩
        · cases hfind
    | doSwap =>
      obtain ⟨hid, hsw⟩ := h.jobs.dict_swapping hj hcan (by rw [ht]; decide)
      rw [hval] at hid
      cases hid
      obtain ⟨o, ho⟩ := h.counted.object (lt_of_lt_of_le (refs_val hval) (le_otherRefs hj))
      have hs : o.swapping = true := (isSwapping_robj ho).symm.trans hsw
      dsimp only
      rw [object_eq_ok.mpr ho, value_bind, check_pos hs, value_bind]
      exact (completeSwapped_ends h hmain hj hcan ht hentry ho hs hval vp).imp fun s' hs' =>
        ⟨hs', .of_job hj (.inr (by rw [ht]; decide))⟩

/-! ## The job in a thread's hand -/

/-- The job a thread is processing is live, and what it needs is there. -/
theorem Inv.working (h : s.Inv ok []) {t : ThreadId}
    (ht : s.queues.threads.lookup t = some (.working j)) :
    ∃ job, s.jobs.lookup j = some job ∧ job.canceled = false ∧
      (job.type = .load → job.val = none) := by
  have hmem : j ∈ s.queues.processing :=
    Queues.mem_processing h.placed.handOff ht (List.mem_singleton_self j)
  obtain ⟨job, hj⟩ := h.placed.lookup (j := j)
    (List.mem_append_left _ (List.mem_append_left _ (List.mem_append_right _ hmem)))
  obtain ⟨hlive, hload⟩ := h.jobs.pending j job hj (.inr ⟨t, ht⟩)
  exact ⟨job, hj, hlive, hload⟩

/-- The thread's job changes in its place, and the thread is through with it. -/
theorem Inv.processed {t : ThreadId} (h : s.Inv ok []) (job' : IoJob) (s' : State)
    (ht : s.queues.threads.lookup t = some (.working j)) (hj : s.jobs.lookup j = some job)
    (hkey : job'.key = job.key) (hdb : job'.db = job.db) (hid : job'.id = job.id)
    (htype : job'.type = job.type) (hcan : job'.canceled = false → job.canceled = false)
    (hcan' : job.type = .load → job'.canceled = job.canceled)
    (hval : job.type ≠ .load → job'.val = job.val) (hsome : job'.val ≠ none)
    (hfail : ok → job'.canceled = true → job.canceled = true)
    (hpages : ok → ∀ p, job'.ownsPage p = job.ownsPage p)
    (hjobs : s'.jobs = s.jobs.insert j job') (hqueues : s'.queues = s.queues)
    (hdict : s'.dict = s.dict) (hioKeys : s'.ioKeys = s.ioKeys)
    (hclients : s'.clients = s.clients) (hswap : s'.swap = s.swap)
    (hswapped : s'.swappedObjects = s.swappedObjects) (hcounted : s'.Counted [])
    (hsw : ∀ a, s'.isSwapping a = s.isSwapping a) (hld : ∀ a, s'.isLoading a = s.isLoading a)
    (hpg : ∀ a, s'.pagesOf a = s.pagesOf a)
    (hother : ∀ a, s.isSwapping a = true → s'.otherRefs a = s.otherRefs a)
    (hbytes : ∀ a, 0 < s.otherRefs a → s'.bytesOf a = s.bytesOf a) :
    ({ s' with queues := s'.queues.ioFinish t j } : State).Inv ok [] where
  counted := hcounted
  jobs := by
    have hpending : ∀ i, (s'.queues.ioFinish t j).Pending i ↔ i ≠ j ∧ s.queues.Pending i := by
      rw [hqueues]
      exact Queues.ioFinish_pending h.placed.handOff h.placed.nodup ht
    have hno : ¬ (s'.queues.ioFinish t j).Pending j := fun hp => ((hpending j).mp hp).1 rfl
    refine h.jobs.update job' hj hkey hdb hid (by rw [htype]) hcan hcan' hval
      (fun hp => absurd hp hno) (fun hnone => absurd hnone hsome) hfail hjobs hdict
      (fun i hne => ?_) hsw hld hother fun i other hi => hbytes _ (key_otherRefs hi)
    exact (hpending i).trans (and_iff_right hne)
  waits := by
    refine h.waits.congr hioKeys hclients fun a ha => hbytes a ?_
    unfold otherRefs
    omega
  pages := by
    refine ⟨?_, ?_, ?_, fun hok p => ?_⟩
    · show s'.swappedObjects = (total (fun _ v => if (s'.pagesOf v).isSome then 1 else 0) s'.dict : Nat)
      rw [hswapped, hdict, h.pages.pointers]
      congr 1
      exact total_congr fun k v _ => by rw [hpg]
    · show s'.swap.Tallied
      rw [hswap]
      exact h.pages.tallied
    · show s'.swap.nextPage ≤ s'.swap.pages
      rw [hswap]
      exact h.pages.nextPage
    · have howned := h.pages.owned hok p
      have htotal := total_replace hj job' fun _ job => job.ownsPage p
      have hown := hpages hok p
      have hdictPages : total (fun _ v => s'.ownsPage p v) s.dict =
          total (fun _ v => s.ownsPage p v) s.dict :=
        total_congr fun k v _ => ownsPage_congr (hpg v) p
      show s'.owners p = if s'.swap.Used p then 1 else 0
      unfold owners at howned ⊢
      rw [hdict, hjobs, hswap]
      omega
  placed := by
    refine ⟨?_, ?_⟩
    · show (s'.queues.ioFinish t j).HandOff
      rw [hqueues]
      exact Queues.ioFinish_handOff h.placed.handOff ht
    · show (s'.queues.ioFinish t j).placed.Perm s'.jobs.keys
      rw [hqueues, hjobs]
      exact h.placed.jobs.trans (keys_insert_perm hj job').symm

theorem otherRefs_replaceJob (hj : s.jobs.lookup j = some job) (job' : IoJob) (a : Addr) :
    ({ s with jobs := s.jobs.insert j job' } : State).otherRefs a + job.refs a =
      s.otherRefs a + job'.refs a := by
  have htotal := total_replace hj job' fun _ job => job.refs a
  show total _ (s.jobs.insert j job') + s.waitRefs a + s.held.count a + _ = _
  unfold otherRefs jobRefs
  omega

/-- A job changes and refers to what it did before. -/
theorem Counted.replaceJob (h : s.Counted owed) (hj : s.jobs.lookup j = some job) {job' : IoJob}
    (hrefs : ∀ a, job'.refs a = job.refs a) :
    ({ s with jobs := s.jobs.insert j job' } : State).Counted owed := by
  have hother : ∀ a, ({ s with jobs := s.jobs.insert j job' } : State).otherRefs a =
      s.otherRefs a := by
    intro a
    have ha := otherRefs_replaceJob hj job' a
    rw [hrefs] at ha
    exact Nat.add_right_cancel ha
  refine h.move rfl (fun a => ?_) fun a v ha => ?_
  · rw [hother]
    rfl
  · rw [hother]
    exact (h.pointer ha).2

/-- A thread has loaded a value: the object it has made is the job's. -/
theorem Inv.processedLoad {t : ThreadId} {val : Addr} (h : s.Inv ok [])
    (ht : s.queues.threads.lookup t = some (.working j)) (hj : s.jobs.lookup j = some job)
    (hlive : job.canceled = false) (htype : job.type = .load) (hnone : job.val = none)
    (hfree : s.heap val = none) (bytes : CStr) :
    State.Inv { s.setCell val (some (.robj ⟨1, false, bytes⟩)) with
      jobs := s.jobs.insert j { job with val := some val }, queues := s.queues.ioFinish t j } ok [] := by
  -- the loaded object is the job's
  have hnew : ∀ b, ({ job with val := some val } : IoJob).refs b = job.refs b + [val].count b := by
    intro b
    rw [refs_eq_count, refs_eq_count, hnone, ← List.count_append]
    rfl
  have hother : ∀ b, State.otherRefs { s.setCell val (some (.robj ⟨1, false, bytes⟩)) with
      jobs := s.jobs.insert j { job with val := some val } } b =
        s.otherRefs b + [val].count b := by
    intro b
    have hb := otherRefs_replaceJob hj { job with val := some val } b
    have hsame : State.otherRefs { s.setCell val (some (.robj ⟨1, false, bytes⟩)) with
      jobs := s.jobs.insert j { job with val := some val } } b = State.otherRefs { s with
      jobs := s.jobs.insert j { job with val := some val } } b := rfl
    rw [hnew] at hb
    omega
  have hzero := (h.counted.freed hfree).2.1
  have hneVal : ∀ b, 0 < s.otherRefs b → b ≠ val := by
    rintro b hb rfl
    omega
  obtain ⟨hfs, hfl, hfp⟩ := views_free hfree
  refine h.processed { job with val := some val } { s.setCell val
    (some (.robj ⟨1, false, bytes⟩)) with jobs := s.jobs.insert j { job with val := some val } } ht
    hj rfl rfl rfl rfl (fun _ => hlive) (fun _ => rfl) (fun hnot => absurd htype hnot)
    (Option.some_ne_none _) (fun _ hcan => hcan) (fun _ _ => rfl) rfl rfl rfl rfl rfl rfl rfl ?_
    (fun b => ?_) (fun b => ?_) (fun b => ?_) (fun b hb => ?_) (fun b hb => ?_)
  · refine (h.counted.create hfree bytes).move rfl (fun b => ?_) fun b v hb => ?_
    · have hb := hother b
      show s.dictRefs b + State.otherRefs _ b + [].count b = s.dictRefs b + s.otherRefs b + _
      rw [hb, List.count_nil]
      omega
    · have hbv : b ≠ val := by
        rintro rfl
        rw [heap_setCell_self] at hb
        cases hb
      rw [heap_setCell_ne hbv] at hb
      rw [hother, (h.counted.pointer hb).2, List.count_eq_zero.mpr (by simpa using hbv)]
  · show (s.setCell val _).isSwapping b = _
    rw [setCell_isSwapping]
    split
    · next hb => rw [hb, hfs]
    · rfl
  · show (s.setCell val _).isLoading b = _
    rw [setCell_isLoading]
    split
    · next hb => rw [hb, hfl]
    · rfl
  · show (s.setCell val _).pagesOf b = _
    rw [setCell_pagesOf]
    split
    · next hb => rw [hb, hfp]
    · rfl
  · have hbv : b ≠ val := by
      rintro rfl
      rw [hfs] at hb
      cases hb
    rw [hother, List.count_eq_zero.mpr (by simpa using hbv), Nat.add_zero]
  · show (s.setCell val _).bytesOf b = _
    unfold bytesOf
    rw [heap_setCell_ne (hneVal b hb)]

/-- A thread processes its job. When every write succeeds, only what it reads comes new. -/
theorem processJob_ends (h : s.Inv ok []) {t : ThreadId}
    (ht : s.queues.threads.lookup t = some (.working j)) (val : Addr) (bytes : CStr) (pages : Nat)
    {written : Bool}
    (hok : ok → ∀ job, s.jobs.lookup j = some job → job.type = .doSwap → written = true) :
    Ends (Allowed ok) (fun s' => ({ s' with queues := s'.queues.ioFinish t j } : State).Inv ok [])
      (s.processJob j val bytes pages written) := by
  obtain ⟨job, hj, hlive, hnone⟩ := h.working ht
  unfold processJob
  rw [hj, need_some, value_bind]
  split
  · next htype =>
    have hld := h.jobs.load_loading hj hlive htype
    split
    swap
    · next hnot =>
      unfold isLoading at hld
      split at hld
      · next v hv => exact absurd hv (hnot v)
      · cases hld
    exact create_ends fun hfree =>
      Ends.pure (h.processedLoad ht hj hlive htype (hnone htype) hfree bytes)
  · next htype =>
    obtain ⟨hval, -⟩ := h.jobs.dict_swapping hj hlive (by rw [htype]; decide)
    obtain ⟨o, ho⟩ := h.counted.object (lt_of_lt_of_le (refs_val hval) (le_otherRefs hj))
    have hneed : need job.val Stop.badPointer = .ok job.id := by
      rw [hval]
      rfl
    rw [hneed, value_bind, object_eq_ok.mpr ho, value_bind]
    refine Ends.pure (h.processed { job with pages }
      { s with jobs := s.jobs.insert j { job with pages } } ht hj rfl rfl rfl rfl
      (fun _ => hlive) (fun _ => rfl) (fun _ => rfl) ?_ (fun _ hcan => hcan) (fun _ p => ?_) rfl rfl
      rfl rfl rfl rfl rfl (h.counted.replaceJob hj fun _ => rfl) (fun _ => rfl) (fun _ => rfl)
      (fun _ => rfl) (fun b _ => ?_) fun _ _ => rfl)
    · show job.val ≠ none
      rw [hval]
      exact Option.some_ne_none _
    · unfold IoJob.ownsPage
      simp only [htype, reduceCtorEq, false_and, if_false]
    · exact Nat.add_right_cancel (otherRefs_replaceJob hj { job with pages } b)
  · next htype =>
    obtain ⟨hval, -⟩ := h.jobs.dict_swapping hj hlive (by rw [htype]; decide)
    obtain ⟨o, ho⟩ := h.counted.object (lt_of_lt_of_le (refs_val hval) (le_otherRefs hj))
    have hneed : need job.val Stop.badPointer = .ok job.id := by
      rw [hval]
      rfl
    rw [hneed, value_bind, object_eq_ok.mpr ho, value_bind]
    -- a failed write marks the job, and so the value keeps its storage
    obtain ⟨job', hjob', hsame⟩ : ∃ job' : IoJob,
        job' = (if written = true then job else { job with canceled := true }) ∧
        job'.key = job.key ∧ job'.db = job.db ∧ job'.id = job.id ∧ job'.type = job.type ∧
        job'.val = job.val ∧ (written = true → job' = job) := by
      refine ⟨_, rfl, ?_⟩
      by_cases hw : written = true
      · rw [if_pos hw]
        exact ⟨rfl, rfl, rfl, rfl, rfl, fun _ => rfl⟩
      · rw [if_neg hw]
        exact ⟨rfl, rfl, rfl, rfl, rfl, fun hw' => absurd hw' hw⟩
    obtain ⟨hkey, hdb, hid, htype', hval', hwritten⟩ := hsame
    rw [← hjob']
    have hrefs : ∀ b, job'.refs b = job.refs b := by
      intro b
      unfold IoJob.refs
      rw [hkey, hval']
    refine Ends.pure (h.processed job' { s with jobs := s.jobs.insert j job' } ht hj
      hkey hdb hid htype' (fun _ => hlive) (fun hload => ?_) (fun _ => hval') ?_ (fun hok' hcan => ?_)
      (fun hok' p => ?_) rfl rfl rfl rfl rfl rfl rfl (h.counted.replaceJob hj hrefs) (fun _ => rfl)
      (fun _ => rfl) (fun _ => rfl) (fun b _ => ?_) fun _ _ => rfl)
    · rw [htype] at hload
      cases hload
    · rw [hval', hval]
      exact Option.some_ne_none _
    · rw [hwritten (hok hok' job hj htype)] at hcan
      exact hcan
    · rw [hwritten (hok hok' job hj htype)]
    · have hb := otherRefs_replaceJob hj job' b
      rw [hrefs] at hb
      exact Nat.add_right_cancel hb

end State

end Rtfsc.Redis.Vm
