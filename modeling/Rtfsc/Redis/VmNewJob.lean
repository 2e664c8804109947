import Rtfsc.Redis.VmEntry

/-!
# redis: a job is made and queued

A value that is to be swapped out by a thread, or loaded by one, gets its storage, and a job that pins
its key and, when it is in memory, itself.
-/

namespace Rtfsc.Redis.Vm

open Rtfsc.Machine

namespace State

variable {s s' : State} {ok : Prop} {owed owed' : List Addr} {a key val v : Addr} {o : Object}
  {j : JobId} {job : IoJob} {q' : Queues} {db : DbId} {k : CStr}

theorem otherRefs_insertJob (hj : s.jobs.lookup j = none) (job : IoJob) (a : Addr) :
    ({ s with jobs := s.jobs.insert j job } : State).otherRefs a = s.otherRefs a + job.refs a := by
  have htotal := total_insert_new hj job fun _ job => job.refs a
  show total _ (s.jobs.insert j job) + s.waitRefs a + s.held.count a = _
  unfold otherRefs jobRefs
  omega

/-- The references owed become those of a new job. -/
theorem Counted.insertJob (h : s.Counted (job.key :: (job.val.toList ++ owed)))
    (hj : s.jobs.lookup j = none)
    (hobject : ∀ a vp, 0 < job.refs a → s.heap a ≠ some (.vmpointer vp)) :
    ({ s with jobs := s.jobs.insert j job } : State).Counted owed := by
  refine h.move rfl (fun b => ?_) fun b vp hb => ?_
  · have hrefs := otherRefs_insertJob hj job b
    rw [refs_eq_count, List.count_cons] at hrefs
    rw [List.count_cons, List.count_append]
    show s.dictRefs b + _ + _ = _
    omega
  · have hzero := (h.pointer hb).2
    have hnot : job.refs b = 0 := by
      by_contra hne
      exact hobject b vp (Nat.pos_of_ne_zero hne) hb
    rw [otherRefs_insertJob hj]
    omega

/-- A new job that owns no pages is queued. -/
theorem Inv.insertJob (h : s.Inv ok owed) (hj : s.jobs.lookup j = none) (ht : job.type ≠ .doSwap)
    (hq : s.queues.Queued j q') (hjobs : s'.jobs = s.jobs.insert j job) (hqueues : s'.queues = q')
    (hdict : s'.dict = s.dict) (hswap : s'.swap = s.swap)
    (hswapped : s'.swappedObjects = s.swappedObjects)
    (hpages : ∀ k v, s.dict.lookup k = some v → s'.pagesOf v = s.pagesOf v)
    (hcounted : s'.Counted owed') (hshape : s'.JobShape ok) (hwaits : s'.Waits) : s'.Inv ok owed' where
  counted := hcounted
  jobs := hshape
  waits := hwaits
  pages := by
    refine ⟨?_, ?_, ?_, fun hok p => ?_⟩
    · rw [hswapped, hdict, h.pages.pointers]
      congr 1
      exact total_congr fun k v hv => by rw [hpages k v hv]
    · rw [hswap]
      exact h.pages.tallied
    · rw [hswap]
      exact h.pages.nextPage
    · have howned := h.pages.owned hok p
      have htotal := total_insert_new hj job fun _ job => job.ownsPage p
      have hnone : job.ownsPage p = 0 := if_neg fun hd => ht hd.1
      have hdictPages : total (fun _ v => s'.ownsPage p v) s.dict =
          total (fun _ v => s.ownsPage p v) s.dict :=
        total_congr fun k v hv => ownsPage_congr (hpages k v hv) p
      unfold owners at howned ⊢
      rw [hdict, hjobs, hswap]
      omega
  placed := by
    refine ⟨?_, ?_⟩
    · rw [hqueues]
      exact hq.handOff
    · rw [hqueues, hjobs]
      exact (hq.placed.trans (h.placed.jobs.cons j)).trans (keys_insert_perm_new hj job).symm

theorem queueIOJob_ends (h : s.queues.HandOff) (j : JobId) (t : ThreadId) :
    Ends (Allowed ok) (fun s' => ∃ queues, s.queues.Queued j queues ∧ s' = { s with queues })
      (s.queueIOJob j t) := by
  unfold queueIOJob
  refine ((Queues.queueIOJob_ends h j t).mono (fun _ => id) fun e he => ?_).bind ?_
  · exact .inl he
  · exact fun queues _ hq => Ends.pure ⟨queues, hq, rfl⟩

theorem createJob_ends {β : Type} {R : β → Prop} {f : State → Except Stop β}
    (hf : s.jobs.lookup j = none → Ends (Allowed ok) R (f { s with jobs := s.jobs.insert j job })) :
    Ends (Allowed ok) R (s.createJob j job >>= f) := by
  unfold createJob
  by_cases hj : s.jobs.lookup j = none
  · rw [check_pos hj]
    exact hf hj
  · have hstop : check (s.jobs.lookup j = none) Stop.disabled = .error .disabled := if_neg hj
    rw [hstop]
    exact allowed_disabled

/-- What a new job begins with: its value's storage says so, and the references that the job is to have
are owed. -/
structure Begun (s : State) (job : IoJob) (s' : State) : Prop where
  rest : s' = { s with heap := s'.heap }
  counted : s'.Counted (job.key :: job.val.toList)
  objects : ∀ b vp, 0 < job.refs b → s'.heap b ≠ some (.vmpointer vp)
  swapping : ∀ b, s'.isSwapping b = if b = job.id then decide (job.type ≠ .load) else s.isSwapping b
  loading : ∀ b, s'.isLoading b = if b = job.id then decide (job.type = .load) else s.isLoading b
  pagesOf : ∀ b, s'.pagesOf b = s.pagesOf b
  bytes : ∀ b, 0 < s.otherRefs b → s'.bytesOf b = s.bytesOf b

/-- A job that has begun is inserted and queued. -/
theorem Inv.insertBegun (h : s.Inv ok []) (hb : Begun s job s') (hj : s.jobs.lookup j = none)
    (hq : s.queues.Queued j q') (hlive : job.canceled = false) (ht : job.type ≠ .doSwap)
    (hval : job.type = .load → job.val = none) (hval' : job.type ≠ .load → job.val = some job.id)
    (hidle : s.isLoading job.id = false ∧ s.isSwapping job.id = false)
    (honly : job.type ≠ .load → s.dictRefs job.id = 1 ∧ s.otherRefs job.id = 0 ∧ job.key ≠ job.id)
    (hkey : s.isSwapping job.key = false)
    (hlinked : ∃ k, s'.bytesOf job.key = some k ∧ s.dict.lookup (job.db, k) = some job.id) :
    ({ s' with jobs := s.jobs.insert j job, queues := q' } : State).Inv ok [] := by
  have hjobs : s'.jobs = s.jobs := by rw [hb.rest]
  have hcounted : ({ s' with jobs := s'.jobs.insert j job } : State).Counted [] :=
    .insertJob (by rw [List.append_nil]; exact hb.counted) (by rw [hjobs]; exact hj) hb.objects
  rw [hjobs] at hcounted
  have hother : ∀ b, State.otherRefs { s' with jobs := s.jobs.insert j job, queues := q' } b =
      s.otherRefs b + job.refs b := by
    intro b
    rw [hb.rest]
    exact otherRefs_insertJob hj job b
  have hdict : s'.dict = s.dict := by rw [hb.rest]
  refine h.insertJob hj ht hq rfl rfl hdict ?_ ?_ (fun _ v _ => hb.pagesOf v) hcounted ?_ ?_
  · show s'.swap = _
    rw [hb.rest]
  · show s'.swappedObjects = _
    rw [hb.rest]
  · refine h.jobs.insert hj hlive hval hval' hidle (fun hswap => ?_) rfl hdict hq.pending hb.swapping
      hb.loading (fun b hsw => ?_) hlinked fun i other hi => hb.bytes _ (key_otherRefs hi)
    · obtain ⟨hone, hzero, hne⟩ := honly hswap
      refine ⟨?_, ?_, ?_⟩
      · have hle := swapJobs_le s job.id
        unfold otherRefs at hzero
        omega
      · show total _ s'.dict = 1
        rw [hdict]
        exact hone
      · rw [hother, hzero, IoJob.refs, if_neg hne, if_pos (hval' hswap)]
    · have hnot : job.refs b = 0 := by
        rw [IoJob.refs, if_neg, if_neg]
        · intro hv
          by_cases hload : job.type = .load
          · rw [hval hload] at hv
            cases hv
          · rw [hval' hload] at hv
            rw [← Option.some.inj hv, hidle.2] at hsw
            cases hsw
        · rintro rfl
          rw [hkey] at hsw
          cases hsw
      rw [hother, hnot, Nat.add_zero]
  · refine h.waits.congr ?_ ?_ fun b hw => hb.bytes b ?_
    · show s'.ioKeys = _
      rw [hb.rest]
    · show s'.clients = _
      rw [hb.rest]
    · unfold otherRefs
      omega

/-- The `vmpointer` of a value is marked, and the job's reference to the key is taken. -/
theorem begun_load {vp : VmPointer} (h : s.Counted []) (hvp : s.heap v = some (.vmpointer vp))
    (hkey : s.heap key = some (.robj o)) (db : DbId) (page : Nat) :
    Begun s ⟨.load, db, key, v, none, page, 0, false⟩
      ((s.setCell v (some (.vmpointer { vp with loading := true }))).setCell key
        (some (.robj { o with refcount := o.refcount + 1 }))) := by
  have hne : key ≠ v := by
    rintro rfl
    rw [hkey] at hvp
    cases hvp
  have hkey₀ : (s.setCell v (some (.vmpointer { vp with loading := true }))).heap key =
      some (.robj o) := by
    rw [heap_setCell_ne hne]
    exact hkey
  constructor
  case rest => rfl
  case counted => exact (h.setLoading hvp true).incr hkey₀
  case objects =>
    intro b vp' hb
    have hbk : b = key := by
      by_contra hnot
      rw [IoJob.refs, if_neg (Ne.symm hnot)] at hb
      exact Nat.lt_irrefl 0 hb
    rw [hbk, heap_setCell_self]
    exact nofun
  case swapping =>
    intro b
    rw [setCell_isSwapping, setCell_isSwapping]
    by_cases hb : b = key
    · rw [if_pos hb, hb, if_neg hne, isSwapping_robj hkey]
    · rw [if_neg hb]
      rfl
  case loading =>
    intro b
    rw [setCell_isLoading, setCell_isLoading]
    by_cases hb : b = key
    · rw [if_pos hb, hb, if_neg hne, isLoading_robj hkey]
    · rw [if_neg hb]
      rfl
  case pagesOf =>
    intro b
    rw [setCell_pagesOf, setCell_pagesOf]
    split
    · next hb => rw [hb, pagesOf_robj hkey]
    · split
      · next hb => rw [hb, pagesOf_pointer hvp]
      · rfl
  case bytes =>
    intro b _
    rw [bytesOf_setCell hkey₀ (show ({ o with refcount := o.refcount + 1 } : Object).ptr = o.ptr from rfl)]
    by_cases hbv : b = v
    · subst hbv
      unfold bytesOf
      rw [heap_setCell_self, hvp]
    · exact bytesOf_congr (heap_setCell_ne hbv _)

/-- The value of a key begins to load. -/
theorem queueLoad_ends (h : s.Inv ok []) {vp : VmPointer} (hv : s.dict.lookup (db, k) = some v)
    (hvp : s.heap v = some (.vmpointer vp)) (hld : vp.loading = false)
    (hkey : s.heap key = some (.robj o)) (hs : o.swapping = false) (hbytes : o.ptr = k) (j : JobId)
    (t : ThreadId) :
    Ends (Allowed ok) (fun s' => s'.Inv ok []) (do
      let s ← (s.setCell v (some (.vmpointer { vp with loading := true }))).createJob j
        ⟨.load, db, key, v, none, vp.page, 0, false⟩
      let s ← s.incrRefCount key
      s.queueIOJob j t) := by
  have hbegun := begun_load h.counted hvp hkey db vp.page
  obtain ⟨job, hjob⟩ : ∃ job : IoJob, job = ⟨.load, db, key, v, none, vp.page, 0, false⟩ := ⟨_, rfl⟩
  obtain ⟨s₀, hs₀⟩ : ∃ s₀, s₀ = s.setCell v (some (.vmpointer { vp with loading := true })) :=
    ⟨_, rfl⟩
  obtain ⟨s₁, hs₁⟩ : ∃ s₁, s₁ = s₀.setCell key (some (.robj { o with refcount := o.refcount + 1 })) :=
    ⟨_, rfl⟩
  rw [← hjob, ← hs₀, ← hs₁] at hbegun
  rw [← hjob, ← hs₀]
  refine createJob_ends fun hj => ?_
  have hne : key ≠ v := by
    rintro rfl
    rw [hkey] at hvp
    cases hvp
  have hkey₀ : s₀.heap key = some (.robj o) := by
    rw [hs₀, heap_setCell_ne hne]
    exact hkey
  have hjobs : s₀.jobs = s.jobs := by
    rw [hs₀]
    rfl
  rw [hjobs] at hj ⊢
  have hincr : incrRefCount { s₀ with jobs := s.jobs.insert j job } key =
      .ok { s₁ with jobs := s.jobs.insert j job } := by
    rw [incrRefCount_eq (s := { s₀ with jobs := s.jobs.insert j job }) hkey₀, hs₁]
    rfl
  rw [hincr, value_bind]
  have hqueues : s₁.queues = s.queues := by rw [hbegun.rest]
  refine (queueIOJob_ends (s := { s₁ with jobs := s.jobs.insert j job }) ?_ j t).imp ?_
  · show s₁.queues.HandOff
    rw [hqueues]
    exact h.placed.handOff
  rintro _ ⟨q', hq, rfl⟩
  have hq' : s.queues.Queued j q' := by
    rw [← hqueues]
    exact hq
  have hbytes₁ : s₁.bytesOf key = some k := by
    rw [hs₁, bytesOf_robj (heap_setCell_self ..), ← hbytes]
  show State.Inv { s₁ with jobs := s.jobs.insert j job, queues := q' } ok []
  refine h.insertBegun hbegun hj hq' ?_ ?_ ?_ ?_ ?_ ?_ ?_ ⟨k, ?_⟩ <;> rw [hjob]
  · exact nofun
  · exact fun _ => rfl
  · exact fun hnot => absurd rfl hnot
  · exact ⟨(isLoading_pointer hvp).trans hld, isSwapping_pointer hvp⟩
  · exact fun hnot => absurd rfl hnot
  · exact (isSwapping_robj hkey).trans hs
  · exact ⟨hbytes₁, hv⟩

/-- The writes of `vmSwapObjectThreaded` to a new key object and a value: both get the job's reference,
the value its storage, and the caller gives its own reference to the key back. -/
def swapWrites (s : State) (key val : Addr) (k : CStr) (o : Object) : State :=
  ((((s.setCell key (some (.robj ⟨1, false, k⟩))).setCell key (some (.robj ⟨2, false, k⟩))).setCell val
    (some (.robj { o with refcount := o.refcount + 1 }))).setCell val
    (some (.robj { o with refcount := o.refcount + 1, swapping := true }))).setCell key
    (some (.robj ⟨1, false, k⟩))

/-- The states between the writes of `vmSwapObjectThreaded`, and what each write finds. -/
structure SwapSteps (s : State) (key val : Addr) (k : CStr) (o v₁ : Object) (s₁ s₂ s₃ s₄ : State) :
    Prop where
  value : v₁ = { o with refcount := o.refcount + 1 }
  created : s₁ = s.setCell key (some (.robj ⟨1, false, k⟩))
  incrKey : s₂ = s₁.setCell key (some (.robj ⟨2, false, k⟩))
  incrVal : s₃ = s₂.setCell val (some (.robj v₁))
  marked : s₄ = s₃.setCell val (some (.robj { v₁ with swapping := true }))
  writes : s.swapWrites key val k o = s₄.setCell key (some (.robj ⟨1, false, k⟩))
  key₁ : s₁.heap key = some (.robj ⟨1, false, k⟩)
  val₂ : s₂.heap val = some (.robj o)
  val₃ : s₃.heap val = some (.robj v₁)
  key₄ : s₄.heap key = some (.robj ⟨2, false, k⟩)

theorem exists_swapSteps (ho : s.heap val = some (.robj o)) (hne : val ≠ key) (k : CStr) :
    ∃ v₁ s₁ s₂ s₃ s₄, SwapSteps s key val k o v₁ s₁ s₂ s₃ s₄ := by
  refine ⟨_, _, _, _, _, rfl, rfl, rfl, rfl, rfl, rfl, heap_setCell_self .., ?_,
    heap_setCell_self .., ?_⟩
  · rw [heap_setCell_ne hne, heap_setCell_ne hne]
    exact ho
  · rw [heap_setCell_ne (Ne.symm hne), heap_setCell_ne (Ne.symm hne)]
    exact heap_setCell_self ..

/-- A new key object has appeared, and the value is being swapped out. -/
theorem begun_swap (h : s.Counted []) (ho : s.heap val = some (.robj o)) (hkey : s.heap key = none)
    (db : DbId) (k : CStr) :
    Begun s ⟨.prepareSwap, db, key, val, some val, 0, 0, false⟩ (s.swapWrites key val k o) := by
  have hne : val ≠ key := by
    rintro rfl
    rw [ho] at hkey
    cases hkey
  obtain ⟨v₁, s₁, s₂, s₃, s₄, hv₁, hs₁, hs₂, hs₃, hs₄, hwrites, hkey₁, hval₂, hval₃, hkey₄⟩ :=
    exists_swapSteps ho hne k
  obtain ⟨s₅, hs₅⟩ : ∃ s₅, s₅ = s₄.setCell key (some (.robj ⟨1, false, k⟩)) := ⟨_, rfl⟩
  rw [hwrites, ← hs₅]
  -- what is at the two addresses in the end
  have hheapKey : s₅.heap key = some (.robj ⟨1, false, k⟩) := by
    rw [hs₅]
    exact heap_setCell_self ..
  have hheapVal : s₅.heap val = some (.robj { v₁ with swapping := true }) := by
    rw [hs₅, heap_setCell_ne hne, hs₄]
    exact heap_setCell_self ..
  have hheapRest : ∀ b, b ≠ key → b ≠ val → s₅.heap b = s.heap b := by
    intro b hbk hbv
    rw [hs₅, heap_setCell_ne hbk, hs₄, heap_setCell_ne hbv, hs₃, heap_setCell_ne hbv, hs₂,
      heap_setCell_ne hbk, hs₁, heap_setCell_ne hbk]
  obtain ⟨hfree, hfree', hfree''⟩ := views_free hkey
  constructor
  case rest =>
    rw [hs₅, hs₄, hs₃, hs₂, hs₁]
    rfl
  case counted =>
    have hcreated := h.create hkey k
    rw [← hs₁] at hcreated
    have hincrKey : s₂.Counted [key, key] := by
      rw [hs₂]
      exact hcreated.incr hkey₁
    have hincrVal := hincrKey.incr hval₂
    rw [← hv₁, ← hs₃] at hincrVal
    have hstored := hincrVal.setSwapping hval₃ true
    rw [← hs₄] at hstored
    rw [hs₅]
    exact (hstored.perm ((List.Perm.swap key val [key]).trans (.cons key (.swap key val [])))).drop hkey₄
  case objects =>
    intro b vp hb
    have hor : b = key ∨ b = val := by
      by_contra hnot
      rw [not_or] at hnot
      rw [IoJob.refs, if_neg (Ne.symm hnot.1),
        if_neg fun heq => hnot.2 (Option.some.inj heq).symm] at hb
      exact Nat.lt_irrefl 0 hb
    rcases hor with rfl | rfl
    · rw [hheapKey]
      exact nofun
    · rw [hheapVal]
      exact nofun
  case swapping =>
    intro b
    by_cases hbv : b = val
    · rw [if_pos hbv, hbv, isSwapping_robj hheapVal]
      rfl
    · rw [if_neg hbv]
      by_cases hbk : b = key
      · rw [hbk, isSwapping_robj hheapKey, hfree]
      · exact isSwapping_congr (hheapRest b hbk hbv)
  case loading =>
    intro b
    by_cases hbv : b = val
    · rw [if_pos hbv, hbv, isLoading_robj hheapVal]
      rfl
    · rw [if_neg hbv]
      by_cases hbk : b = key
      · rw [hbk, isLoading_robj hheapKey, hfree']
      · exact isLoading_congr (hheapRest b hbk hbv)
  case pagesOf =>
    intro b
    by_cases hbv : b = val
    · rw [hbv, pagesOf_robj hheapVal, pagesOf_robj ho]
    · by_cases hbk : b = key
      · rw [hbk, pagesOf_robj hheapKey, hfree'']
      · exact pagesOf_congr (hheapRest b hbk hbv)
  case bytes =>
    -- nobody referred to the address of the new key object
    intro b hb
    have hbk : b ≠ key := by
      rintro rfl
      have hzero := (h.freed hkey).2.1
      omega
    by_cases hbv : b = val
    · rw [hbv, bytesOf_robj hheapVal, bytesOf_robj ho, hv₁]
    · exact bytesOf_congr (hheapRest b hbk hbv)

/-- `vmSwapObjectThreaded` and its caller write to the heap and queue the job. -/
theorem vmSwapObjectThreaded_writes (h : s.queues.HandOff) (ho : s.heap val = some (.robj o))
    (hkey : s.heap key = none) (j : JobId) (t : ThreadId) :
    Ends (Allowed ok) (fun s' => s.jobs.lookup j = none ∧ ∃ q', s.queues.Queued j q' ∧
        s' = { s.swapWrites key val k o with
          jobs := s.jobs.insert j ⟨.prepareSwap, db, key, val, some val, 0, 0, false⟩, queues := q' })
      (do
        let s ← (s.setCell key (some (.robj ⟨1, false, k⟩))).vmSwapObjectThreaded key val db j t
        s.decrRefCount key) := by
  have hne : val ≠ key := by
    rintro rfl
    rw [ho] at hkey
    cases hkey
  obtain ⟨job, hjob⟩ : ∃ job : IoJob, job = ⟨.prepareSwap, db, key, val, some val, 0, 0, false⟩ :=
    ⟨_, rfl⟩
  obtain ⟨v₁, s₁, s₂, s₃, s₄, hv₁, hs₁, hs₂, hs₃, hs₄, hwrites, hkey₁, hval₂, hval₃, hkey₄⟩ :=
    exists_swapSteps ho hne k
  rw [← hs₁, ← hjob, hwrites]
  have hrest : s₄ = { s with heap := s₄.heap } := by
    rw [hs₄, hs₃, hs₂, hs₁]
    rfl
  have hinner : Ends (Allowed ok) (fun s' => s.jobs.lookup j = none ∧ ∃ queues,
      s.queues.Queued j queues ∧ s' = { s₄ with jobs := s.jobs.insert j job, queues })
      (s₁.vmSwapObjectThreaded key val db j t) := by
    unfold vmSwapObjectThreaded
    rw [← hjob]
    refine createJob_ends fun hj => ?_
    have hjobs₁ : s₁.jobs = s.jobs := by rw [hs₁]; rfl
    rw [hjobs₁] at hj ⊢
    have hincrKey : incrRefCount { s₁ with jobs := s.jobs.insert j job } key =
        .ok { s₂ with jobs := s.jobs.insert j job } := by
      rw [incrRefCount_eq (s := { s₁ with jobs := s.jobs.insert j job }) hkey₁, hs₂]
      rfl
    have hincrVal : incrRefCount { s₂ with jobs := s.jobs.insert j job } val =
        .ok { s₃ with jobs := s.jobs.insert j job } := by
      rw [incrRefCount_eq (s := { s₂ with jobs := s.jobs.insert j job }) hval₂, hs₃, hv₁]
      rfl
    have hobject : object { s₃ with jobs := s.jobs.insert j job } val = .ok v₁ :=
      object_eq_ok.mpr hval₃
    have hwrite : ({ s₃ with jobs := s.jobs.insert j job } : State).setCell val
        (some (.robj { v₁ with swapping := true })) = { s₄ with jobs := s.jobs.insert j job } := by
      rw [hs₄]
      rfl
    rw [hincrKey, value_bind, hincrVal, value_bind, hobject, value_bind, hwrite]
    have hqueues : s₄.queues = s.queues := by rw [hrest]
    refine (queueIOJob_ends (s := { s₄ with jobs := s.jobs.insert j job }) ?_ j t).imp ?_
    · show s₄.queues.HandOff
      rw [hqueues]
      exact h
    · rintro _ ⟨q', hq, rfl⟩
      refine ⟨hj, q', ?_, rfl⟩
      rw [← hqueues]
      exact hq
  refine hinner.bind ?_
  rintro _ - ⟨hj, q', hq, rfl⟩
  have hdrop : decrRefCount { s₄ with jobs := s.jobs.insert j job, queues := q' } key =
      .ok { s₄.setCell key (some (.robj ⟨1, false, k⟩)) with
        jobs := s.jobs.insert j job, queues := q' } := by
    unfold decrRefCount
    rw [decrRefCountAux_memory 1 (s := { s₄ with jobs := s.jobs.insert j job, queues := q' }) hkey₄ rfl
      (show (0 : Int) < 2 by decide)]
    rfl
  rw [hdrop]
  exact Ends.pure ⟨hj, q', hq, rfl⟩

/-- A candidate, referenced by its key alone, begins to be swapped out. -/
theorem vmSwapObjectThreaded_ends (h : s.Inv ok []) (hk : s.dict.lookup (db, k) = some val)
    (ho : s.heap val = some (.robj o)) (hs : o.swapping = false) (hone : o.refcount = 1) (key : Addr)
    (j : JobId) (t : ThreadId) :
    Ends (Allowed ok) (fun s' => s'.Inv ok []) (do
      let s ← s.create key (.robj ⟨1, false, k⟩)
      let s ← s.vmSwapObjectThreaded key val db j t
      s.decrRefCount key) := by
  refine create_ends fun hkey => ?_
  refine (vmSwapObjectThreaded_writes h.placed.handOff ho hkey j t).imp ?_
  rintro _ ⟨hj, q', hq, rfl⟩
  -- the key's reference was the only one
  have hrefcount := (h.counted.robj ho).1
  rw [hone, List.count_nil] at hrefcount
  have hpos := dictRefs_pos hk
  have hbytes : (s.swapWrites key val k o).bytesOf key = some k :=
    bytesOf_robj (heap_setCell_self ..)
  refine h.insertBegun (begun_swap h.counted ho hkey db k) hj hq rfl nofun nofun (fun _ => rfl)
    ⟨isLoading_robj ho, (isSwapping_robj ho).trans hs⟩ (fun _ => ⟨?_, ?_, ?_⟩) (views_free hkey).1
    ⟨k, hbytes, hk⟩
  · show s.dictRefs val = 1
    omega
  · show s.otherRefs val = 0
    omega
  · show key ≠ val
    rintro rfl
    rw [ho] at hkey
    cases hkey

end State

end Rtfsc.Redis.Vm
