import Rtfsc.Redis.VmRefs

/-!
# redis: jobs and the storage of their objects

A value that is being loaded or swapped out has a job, and a job that is not cancelled has a value it
is about, stored under its key. An object that is being swapped out is pinned by its job and
referenced by its key alone, so nobody else can come to hold it. The lemmas say how this is kept when a
job is made, processed, cancelled or freed and when the databases change.
-/

namespace Rtfsc.Redis.Vm

open Rtfsc.Machine

namespace State

variable (s : State)

/-- The number of jobs, cancelled or not, that swap out the object at an address. -/
def swapJobs (a : Addr) : Nat :=
  total (fun _ job => if job.type ≠ .load ∧ job.val = some a then 1 else 0) s.jobs

/-- The number of jobs that load the value at an address. -/
def loadJobs (a : Addr) : Nat :=
  total (fun _ job => if job.type = .load ∧ job.canceled = false ∧ job.id = a then 1 else 0) s.jobs

/-- The job is about the value under its key, which has the storage that goes with the job. -/
def Linked (job : IoJob) : Prop :=
  ∃ k, s.bytesOf job.key = some k ∧ s.dict.lookup (job.db, k) = some job.id ∧
    match job.type with
    | .load => s.isLoading job.id = true
    | _ => job.val = some job.id ∧ s.isSwapping job.id = true

/-- Jobs and storages agree. When no write to the swap file fails (`ok`), a cancelled job has a value
that is not being swapped out. -/
structure JobShape (ok : Prop) : Prop where
  swapping : ∀ a, s.isSwapping a = true → s.dictRefs a = 1 ∧ s.otherRefs a = 1 ∧ s.swapJobs a = 1
  loading : ∀ a, s.loadJobs a = if s.isLoading a = true then 1 else 0
  linked : ∀ j job, s.jobs.lookup j = some job → job.canceled = false → s.Linked job
  val_none : ∀ j job, s.jobs.lookup j = some job → job.val = none →
    job.type = .load ∧ s.queues.Pending j
  pending : ∀ j job, s.jobs.lookup j = some job → s.queues.Pending j →
    job.canceled = false ∧ (job.type = .load → job.val = none)
  undone : ok → ∀ j job, s.jobs.lookup j = some job → job.type ≠ .load → job.canceled = true →
    ∀ a, job.val = some a → s.isSwapping a = false

variable {s} {s' : State} {ok : Prop} {owed owed' : List Addr} {a x : Addr} {j i : JobId}
  {job : IoJob}

/-! ## What follows for one job -/

theorem le_otherRefs (h : s.jobs.lookup j = some job) : job.refs a ≤ s.otherRefs a := by
  have hle : job.refs a ≤ s.jobRefs a := le_total h fun _ job => job.refs a
  unfold otherRefs
  omega

theorem refs_key (job : IoJob) : 0 < job.refs job.key := by
  unfold IoJob.refs
  rw [if_pos rfl]
  omega

theorem refs_val (h : job.val = some a) : 0 < job.refs a := by
  unfold IoJob.refs
  rw [if_pos h]
  omega

theorem swapJobs_le (s : State) (a : Addr) : s.swapJobs a ≤ s.jobRefs a := by
  refine total_mono fun j job _ => ?_
  split
  · next hv => exact refs_val hv.2
  · exact Nat.zero_le _

/-- The only job that refers to an object being swapped out does so as its value, to swap it out. -/
theorem JobShape.only_job (h : s.JobShape ok) (ha : s.isSwapping a = true)
    (hj : s.jobs.lookup j = some job) (href : 0 < job.refs a) :
    job.type ≠ .load ∧ job.val = some a ∧ job.key ≠ a ∧
      ∀ i other, s.jobs.lookup i = some other → i ≠ j → other.refs a = 0 := by
  obtain ⟨-, hother, hswap⟩ := h.swapping a ha
  have hall := total_of_lookup hj fun _ job => job.refs a
  have hjobs : s.jobRefs a ≤ 1 := by
    unfold otherRefs at hother
    omega
  unfold jobRefs at hjobs
  -- the job that swaps it out is a job that refers to it, and there is room for one
  obtain ⟨i, other, hi, hpos⟩ : ∃ i other, s.jobs.lookup i = some other ∧
      0 < (if other.type ≠ .load ∧ other.val = some a then 1 else 0) := by
    apply exists_of_total_pos
    show 0 < s.swapJobs a
    omega
  have hother' : other.type ≠ .load ∧ other.val = some a := by
    by_contra hne
    rw [if_neg hne] at hpos
    exact Nat.lt_irrefl 0 hpos
  have hij : i = j := by
    by_contra hne
    have hlookup : (s.jobs.erase j).lookup i = some other := by
      rw [lookup_erase_eq, if_neg hne, hi]
    have hle := le_total hlookup fun _ job => job.refs a
    have := refs_val hother'.2
    omega
  obtain rfl := hij.symm
  rw [hj] at hi
  cases hi
  refine ⟨hother'.1, hother'.2, ?_, fun i other hi hne => ?_⟩
  · rintro rfl
    have hle := le_total hj fun _ job' => job'.refs job.key
    have htwo : job.refs job.key = 2 := by
      unfold IoJob.refs
      rw [if_pos rfl, if_pos hother'.2]
    omega
  · have hlookup : (s.jobs.erase j).lookup i = some other := by
      rw [lookup_erase_eq, if_neg hne, hi]
    have hle := le_total hlookup fun _ job => job.refs a
    omega

/-- The key of a job is not being swapped out. -/
theorem JobShape.key_not_swapping (h : s.JobShape ok) (hj : s.jobs.lookup j = some job) :
    s.isSwapping job.key = false := by
  by_contra hne
  exact (h.only_job (Bool.eq_true_of_not_eq_false hne) hj (refs_key job)).2.2.1 rfl

theorem JobShape.dict_swapping (h : s.JobShape ok) (hj : s.jobs.lookup j = some job)
    (hlive : job.canceled = false) (ht : job.type ≠ .load) :
    job.val = some job.id ∧ s.isSwapping job.id = true := by
  obtain ⟨k, -, -, hm⟩ := h.linked j job hj hlive
  cases htype : job.type with
  | load => exact absurd htype ht
  | prepareSwap =>
    rw [htype] at hm
    exact hm
  | doSwap =>
    rw [htype] at hm
    exact hm

theorem JobShape.load_loading (h : s.JobShape ok) (hj : s.jobs.lookup j = some job)
    (hlive : job.canceled = false) (ht : job.type = .load) : s.isLoading job.id = true := by
  obtain ⟨k, -, -, hm⟩ := h.linked j job hj hlive
  rw [ht] at hm
  exact hm

theorem isLoading_of_swapping (h : s.isSwapping a = true) : s.isLoading a = false := by
  unfold isSwapping at h
  unfold isLoading
  split
  · next v hv =>
    rw [hv] at h
    cases h
  · rfl

/-- What a live job is about has the storage that goes with it. -/
theorem JobShape.busy (h : s.JobShape ok) (hj : s.jobs.lookup j = some job)
    (hlive : job.canceled = false) :
    s.isLoading job.id = true ∨ s.isSwapping job.id = true := by
  by_cases ht : job.type = .load
  · exact .inl (h.load_loading hj hlive ht)
  · exact .inr (h.dict_swapping hj hlive ht).2

/-- Two live jobs are not about one value. -/
theorem JobShape.live_unique (h : s.JobShape ok) {other : IoJob} (hj : s.jobs.lookup j = some job)
    (hi : s.jobs.lookup i = some other) (hlive : job.canceled = false)
    (hlive' : other.canceled = false) (hid : other.id = job.id) : i = j := by
  by_contra hne
  by_cases ht : job.type = .load
  · have hload := h.load_loading hj hlive ht
    have ht' : other.type = .load := by
      by_contra ht'
      have hsw := (h.dict_swapping hi hlive' ht').2
      rw [hid] at hsw
      rw [isLoading_of_swapping hsw] at hload
      cases hload
    have hcount := h.loading job.id
    rw [if_pos hload] at hcount
    have hall := total_of_lookup hj fun _ job' =>
      if job'.type = .load ∧ job'.canceled = false ∧ job'.id = job.id then 1 else 0
    rw [if_pos ⟨ht, hlive, rfl⟩] at hall
    have hlookup : (s.jobs.erase j).lookup i = some other := by
      rw [lookup_erase_eq, if_neg hne, hi]
    have hle := le_total hlookup fun _ job' =>
      if job'.type = .load ∧ job'.canceled = false ∧ job'.id = job.id then 1 else 0
    rw [if_pos ⟨ht', hlive', hid⟩] at hle
    unfold loadJobs at hcount
    omega
  · obtain ⟨hval, hsw⟩ := h.dict_swapping hj hlive ht
    have ht' : other.type ≠ .load := by
      intro ht'
      have hload := h.load_loading hi hlive' ht'
      rw [hid, isLoading_of_swapping hsw] at hload
      cases hload
    obtain ⟨hval', -⟩ := h.dict_swapping hi hlive' ht'
    rw [hid] at hval'
    have hzero := (h.only_job hsw hj (refs_val hval)).2.2.2 i other hi hne
    exact absurd (refs_val hval') (by omega)

/-- A live job is not about a value that another job pins. -/
theorem JobShape.live_ne_val (h : s.JobShape ok) (hc : s.Counted owed) {other : IoJob}
    (hj : s.jobs.lookup j = some job) (hval : job.val = some x) (hi : s.jobs.lookup i = some other)
    (hlive : other.canceled = false) (hne : i ≠ j) : other.id ≠ x := by
  rintro rfl
  have href : 0 < s.otherRefs other.id :=
    lt_of_lt_of_le (refs_val hval) (le_otherRefs hj)
  rcases h.busy hi hlive with hload | hsw
  · obtain ⟨o, ho⟩ := hc.object href
    unfold isLoading at hload
    rw [ho] at hload
    cases hload
  · have ht : other.type ≠ .load := by
      intro ht
      have hload := h.load_loading hi hlive ht
      rw [isLoading_of_swapping hsw] at hload
      cases hload
    have hval' := (h.dict_swapping hi hlive ht).1
    have hzero := (h.only_job hsw hi (refs_val hval')).2.2.2 j job hj (Ne.symm hne)
    exact absurd (refs_val hval) (by omega)

/-! ## How it is kept -/

/-- A live job stays linked when its key's bytes, its entry and the storage of its value stay. -/
theorem Linked.congr (h : s.Linked job) (hbytes : s'.bytesOf job.key = s.bytesOf job.key)
    (hdict : ∀ k, s.dict.lookup (job.db, k) = some job.id →
      s'.dict.lookup (job.db, k) = some job.id)
    (hsw : s'.isSwapping job.id = s.isSwapping job.id)
    (hld : s'.isLoading job.id = s.isLoading job.id) : s'.Linked job := by
  obtain ⟨k, hk, hlookup, hm⟩ := h
  refine ⟨k, by rw [hbytes, hk], hdict k hlookup, ?_⟩
  cases htype : job.type with
  | load =>
    rw [htype] at hm
    exact hld.trans hm
  | prepareSwap =>
    rw [htype] at hm
    exact ⟨hm.1, hsw.trans hm.2⟩
  | doSwap =>
    rw [htype] at hm
    exact ⟨hm.1, hsw.trans hm.2⟩

/-- Steps that leave the jobs, the storages and the values alone. -/
theorem JobShape.congr (h : s.JobShape ok) (hjobs : s'.jobs = s.jobs)
    (hpending : ∀ j, s'.queues.Pending j ↔ s.queues.Pending j)
    (hsw : ∀ a, s'.isSwapping a = s.isSwapping a) (hld : ∀ a, s'.isLoading a = s.isLoading a)
    (hrefs : ∀ a, s.isSwapping a = true →
      s'.dictRefs a = s.dictRefs a ∧ s'.otherRefs a = s.otherRefs a)
    (hdict : ∀ j job, s.jobs.lookup j = some job → job.canceled = false → ∀ k,
      s.dict.lookup (job.db, k) = some job.id → s'.dict.lookup (job.db, k) = some job.id)
    (hbytes : ∀ j job, s.jobs.lookup j = some job → job.canceled = false →
      s'.bytesOf job.key = s.bytesOf job.key) : s'.JobShape ok where
  swapping a ha := by
    rw [hsw] at ha
    obtain ⟨hd, ho, hj⟩ := h.swapping a ha
    obtain ⟨hd', ho'⟩ := hrefs a ha
    refine ⟨hd'.trans hd, ho'.trans ho, ?_⟩
    unfold swapJobs
    rw [hjobs]
    exact hj
  loading a := by
    unfold loadJobs
    rw [hjobs, hld]
    exact h.loading a
  linked j job hj hlive := by
    rw [hjobs] at hj
    exact (h.linked j job hj hlive).congr (hbytes j job hj hlive) (hdict j job hj hlive) (hsw _)
      (hld _)
  val_none j job hj hv := by
    rw [hjobs] at hj
    obtain ⟨ht, hp⟩ := h.val_none j job hj hv
    exact ⟨ht, (hpending j).mpr hp⟩
  pending j job hj hp := by
    rw [hjobs] at hj
    exact h.pending j job hj ((hpending j).mp hp)
  undone hok j job hj ht hcan a hv := by
    rw [hjobs] at hj
    rw [hsw]
    exact h.undone hok j job hj ht hcan a hv

/-- What a job that goes away was about: the value of its id while it is live, else the object it
pins. -/
structure About (job : IoJob) (x : Addr) : Prop where
  live : job.canceled = false → x = job.id
  canceled : job.canceled = true → job.val = some x

theorem JobShape.other_id (h : s.JobShape ok) (hc : s.Counted owed) {other : IoJob}
    (hj : s.jobs.lookup j = some job) (hx : About job x) (hi : s.jobs.lookup i = some other)
    (hlive : other.canceled = false) (hne : i ≠ j) : other.id ≠ x := by
  cases hcan : job.canceled with
  | false =>
    intro hid
    rw [hx.live hcan] at hid
    exact hne (h.live_unique hj hi hcan hlive hid)
  | true => exact h.live_ne_val hc hj (hx.canceled hcan) hi hlive hne

theorem JobShape.val_of_swapping (h : s.JobShape ok) (hj : s.jobs.lookup j = some job)
    (hx : About job x) (ha : s.isSwapping a = true) (hax : a ≠ x) : job.val ≠ some a := by
  intro hv
  have ht := (h.only_job ha hj (refs_val hv)).1
  cases hcan : job.canceled with
  | false =>
    have hval := (h.dict_swapping hj hcan ht).1
    rw [hv] at hval
    exact hax ((Option.some.inj hval).trans (hx.live hcan).symm)
  | true =>
    have hval := hx.canceled hcan
    rw [hv] at hval
    exact hax (Option.some.inj hval)

/-- A job goes away, and the value it was about is neither loading nor being swapped out any more. -/
theorem JobShape.remove (h : s.JobShape ok) (hc : s.Counted owed) (hj : s.jobs.lookup j = some job)
    (hx : About job x) (hjobs : s'.jobs = s.jobs.erase j)
    (hpending : ∀ i, i ≠ j → (s'.queues.Pending i ↔ s.queues.Pending i))
    (hsw : ∀ a, s'.isSwapping a = if a = x then false else s.isSwapping a)
    (hld : ∀ a, s'.isLoading a = if a = x then false else s.isLoading a)
    (hrefs : ∀ a, a ≠ x → s.isSwapping a = true →
      s'.dictRefs a = s.dictRefs a ∧ s'.otherRefs a = s.otherRefs a)
    (hdict : ∀ i other, i ≠ j → s.jobs.lookup i = some other → other.canceled = false → ∀ k,
      s.dict.lookup (other.db, k) = some other.id → s'.dict.lookup (other.db, k) = some other.id)
    (hbytes : ∀ i other, i ≠ j → s.jobs.lookup i = some other → other.canceled = false →
      s'.bytesOf other.key = s.bytesOf other.key) : s'.JobShape ok := by
  have hlookup : ∀ i other, s'.jobs.lookup i = some other →
      i ≠ j ∧ s.jobs.lookup i = some other := by
    intro i other hi
    rw [hjobs, lookup_erase_eq] at hi
    split at hi
    · cases hi
    · next hne => exact ⟨hne, hi⟩
  have hsw' : ∀ a, s'.isSwapping a = true → a ≠ x ∧ s.isSwapping a = true := by
    intro a ha
    rw [hsw] at ha
    split at ha
    · cases ha
    · next hne => exact ⟨hne, ha⟩
  constructor
  case swapping =>
    intro a ha
    obtain ⟨hax, ha⟩ := hsw' a ha
    obtain ⟨hd, ho, hs⟩ := h.swapping a ha
    obtain ⟨hd', ho'⟩ := hrefs a hax ha
    refine ⟨hd'.trans hd, ho'.trans ho, ?_⟩
    unfold swapJobs at hs ⊢
    rw [hjobs]
    rw [total_of_lookup hj, if_neg fun hv => h.val_of_swapping hj hx ha hax hv.2] at hs
    omega
  case loading =>
    intro a
    have hl := h.loading a
    unfold loadJobs at hl ⊢
    rw [hjobs, hld]
    rw [total_of_lookup hj] at hl
    by_cases hload : job.type = .load ∧ job.canceled = false ∧ job.id = a
    · have hax : a = x := (hx.live hload.2.1 ▸ hload.2.2).symm
      rw [if_pos hload] at hl
      rw [if_pos hax, if_neg Bool.false_ne_true]
      split at hl <;> omega
    · rw [if_neg hload, Nat.zero_add] at hl
      rw [hl]
      by_cases hax : a = x
      · subst hax
        -- what is pinned or being swapped out is no vmpointer
        have hno : s.isLoading a = false := by
          cases hcan : job.canceled with
          | false =>
            have hid := hx.live hcan
            have ht : job.type ≠ .load := fun ht => hload ⟨ht, hcan, hid.symm⟩
            rw [hid]
            exact isLoading_of_swapping (h.dict_swapping hj hcan ht).2
          | true =>
            have href := lt_of_lt_of_le (refs_val (hx.canceled hcan)) (le_otherRefs hj)
            obtain ⟨o, ho⟩ := hc.object href
            unfold isLoading
            rw [ho]
        rw [hno, if_pos rfl]
      · rw [if_neg hax]
  case linked =>
    intro i other hi hlive
    obtain ⟨hne, hi⟩ := hlookup i other hi
    have hid := h.other_id hc hj hx hi hlive hne
    refine (h.linked i other hi hlive).congr (hbytes i other hne hi hlive)
      (hdict i other hne hi hlive) ?_ ?_
    · rw [hsw, if_neg hid]
    · rw [hld, if_neg hid]
  case val_none =>
    intro i other hi hv
    obtain ⟨hne, hi⟩ := hlookup i other hi
    obtain ⟨ht, hp⟩ := h.val_none i other hi hv
    exact ⟨ht, (hpending i hne).mpr hp⟩
  case pending =>
    intro i other hi hp
    obtain ⟨hne, hi⟩ := hlookup i other hi
    exact h.pending i other hi ((hpending i hne).mp hp)
  case undone =>
    intro hok i other hi ht hcan a hv
    obtain ⟨-, hi⟩ := hlookup i other hi
    rw [hsw]
    split
    · rfl
    · exact h.undone hok i other hi ht hcan a hv

/-- A job is cancelled in its place, and the storage of its value undone. -/
theorem JobShape.retire (h : s.JobShape ok) (hc : s.Counted owed) (hj : s.jobs.lookup j = some job)
    (hlive : job.canceled = false) (hdone : ¬ s.queues.Pending j)
    (hjobs : s'.jobs = s.jobs.insert j { job with canceled := true })
    (hdict : s'.dict = s.dict) (hpending : ∀ i, s'.queues.Pending i ↔ s.queues.Pending i)
    (hsw : ∀ a, s'.isSwapping a = if a = job.id then false else s.isSwapping a)
    (hld : ∀ a, s'.isLoading a = if a = job.id then false else s.isLoading a)
    (hother : ∀ a, s'.otherRefs a = s.otherRefs a)
    (hbytes : ∀ a, s'.bytesOf a = s.bytesOf a) : s'.JobShape ok := by
  have hx : About job job.id := ⟨fun _ => rfl, fun hcan => by rw [hlive] at hcan; exact nomatch hcan⟩
  have hlookup : ∀ i other, s'.jobs.lookup i = some other →
      (i = j ∧ other = { job with canceled := true }) ∨ (i ≠ j ∧ s.jobs.lookup i = some other) := by
    intro i other hi
    rw [hjobs, lookup_insert_eq] at hi
    split at hi
    · next hij => exact .inl ⟨hij, (Option.some.inj hi).symm⟩
    · next hij => exact .inr ⟨hij, hi⟩
  have hsw' : ∀ a, s'.isSwapping a = true → a ≠ job.id ∧ s.isSwapping a = true := by
    intro a ha
    rw [hsw] at ha
    split at ha
    · cases ha
    · next hne => exact ⟨hne, ha⟩
  constructor
  case swapping =>
    intro a ha
    obtain ⟨hax, ha⟩ := hsw' a ha
    obtain ⟨hd, ho, hs⟩ := h.swapping a ha
    refine ⟨by rw [← hd, dictRefs, hdict, dictRefs], (hother a).trans ho, ?_⟩
    unfold swapJobs at hs ⊢
    rw [hjobs, total_insert]
    rw [total_of_lookup hj] at hs
    exact hs
  case loading =>
    intro a
    have hl := h.loading a
    unfold loadJobs at hl ⊢
    rw [hjobs, hld, total_insert, if_neg (fun hcan => nomatch hcan.2.1), Nat.zero_add]
    rw [total_of_lookup hj] at hl
    by_cases hload : job.type = .load ∧ job.canceled = false ∧ job.id = a
    · rw [if_pos hload] at hl
      rw [if_pos hload.2.2.symm, if_neg Bool.false_ne_true]
      split at hl <;> omega
    · rw [if_neg hload, Nat.zero_add] at hl
      rw [hl]
      by_cases hax : a = job.id
      · subst hax
        have ht : job.type ≠ .load := fun ht => hload ⟨ht, hlive, rfl⟩
        rw [isLoading_of_swapping (h.dict_swapping hj hlive ht).2, if_pos rfl]
      · rw [if_neg hax]
  case linked =>
    intro i other hi hlive'
    rcases hlookup i other hi with ⟨-, rfl⟩ | ⟨hne, hi⟩
    · cases hlive'
    · have hid := h.other_id hc hj hx hi hlive' hne
      refine (h.linked i other hi hlive').congr (hbytes _) (fun k hk => by rw [hdict]; exact hk) ?_ ?_
      · rw [hsw, if_neg hid]
      · rw [hld, if_neg hid]
  case val_none =>
    intro i other hi hv
    rcases hlookup i other hi with ⟨rfl, rfl⟩ | ⟨-, hi⟩
    · exact absurd (h.val_none i job hj hv).2 hdone
    · obtain ⟨ht, hp⟩ := h.val_none i other hi hv
      exact ⟨ht, (hpending i).mpr hp⟩
  case pending =>
    intro i other hi hp
    rw [hpending] at hp
    rcases hlookup i other hi with ⟨rfl, rfl⟩ | ⟨-, hi⟩
    · exact absurd hp hdone
    · exact h.pending i other hi hp
  case undone =>
    intro hok i other hi ht hcan a hv
    rcases hlookup i other hi with ⟨rfl, rfl⟩ | ⟨-, hi⟩
    · rw [hsw, if_pos]
      have hval := (h.dict_swapping hj hlive ht).1
      rw [hv] at hval
      exact Option.some.inj hval
    · rw [hsw]
      split
      · rfl
      · exact h.undone hok i other hi ht hcan a hv

/-- A new job, for a value that had none: it is queued and not cancelled. -/
theorem JobShape.insert (h : s.JobShape ok) (hj : s.jobs.lookup j = none)
    (hlive : job.canceled = false) (hval : job.type = .load → job.val = none)
    (hval' : job.type ≠ .load → job.val = some job.id)
    (hidle : s.isLoading job.id = false ∧ s.isSwapping job.id = false)
    (hnew : job.type ≠ .load → s.swapJobs job.id = 0 ∧ s'.dictRefs job.id = 1 ∧
      s'.otherRefs job.id = 1)
    (hjobs : s'.jobs = s.jobs.insert j job) (hdict : s'.dict = s.dict)
    (hpending : ∀ i, s'.queues.Pending i ↔ i = j ∨ s.queues.Pending i)
    (hsw : ∀ a, s'.isSwapping a = if a = job.id then decide (job.type ≠ .load) else s.isSwapping a)
    (hld : ∀ a, s'.isLoading a = if a = job.id then decide (job.type = .load) else s.isLoading a)
    (hrefs : ∀ a, s.isSwapping a = true → s'.otherRefs a = s.otherRefs a)
    (hlinked : ∃ k, s'.bytesOf job.key = some k ∧ s.dict.lookup (job.db, k) = some job.id)
    (hbytes : ∀ i other, s.jobs.lookup i = some other → s'.bytesOf other.key = s.bytesOf other.key) :
    s'.JobShape ok := by
  have hlookup : ∀ i other, s'.jobs.lookup i = some other →
      (i = j ∧ other = job) ∨ (i ≠ j ∧ s.jobs.lookup i = some other) := by
    intro i other hi
    rw [hjobs, lookup_insert_eq] at hi
    split at hi
    · next hij => exact .inl ⟨hij, (Option.some.inj hi).symm⟩
    · next hij => exact .inr ⟨hij, hi⟩
  constructor
  case swapping =>
    intro a ha
    unfold swapJobs
    rw [hjobs, total_insert_new hj]
    by_cases hax : a = job.id
    · subst hax
      rw [hsw, if_pos rfl, decide_eq_true_eq] at ha
      obtain ⟨hs, hd, ho⟩ := hnew ha
      unfold swapJobs at hs
      rw [if_pos ⟨ha, hval' ha⟩, hs]
      exact ⟨hd, ho, rfl⟩
    · rw [hsw, if_neg hax] at ha
      obtain ⟨hd, ho, hs⟩ := h.swapping a ha
      refine ⟨by rw [← hd, dictRefs, hdict, dictRefs], (hrefs a ha).trans ho, ?_⟩
      unfold swapJobs at hs
      rw [hs, if_neg]
      rintro ⟨ht, hv⟩
      rw [hval' ht] at hv
      exact hax (Option.some.inj hv).symm
  case loading =>
    intro a
    have hl := h.loading a
    unfold loadJobs at hl ⊢
    rw [hjobs, hld, total_insert_new hj, hl]
    by_cases hax : a = job.id
    · subst hax
      rw [hidle.1, if_pos rfl, if_neg Bool.false_ne_true]
      by_cases ht : job.type = .load
      · rw [if_pos ⟨ht, hlive, rfl⟩, if_pos (decide_eq_true ht)]
      · rw [if_neg fun hload => ht hload.1, if_neg]
        rw [decide_eq_true_eq]
        exact ht
    · rw [if_neg fun hload => hax hload.2.2.symm, if_neg hax, Nat.zero_add]
  case linked =>
    intro i other hi hlive'
    rcases hlookup i other hi with ⟨-, rfl⟩ | ⟨-, hi⟩
    · obtain ⟨k, hk, hentry⟩ := hlinked
      refine ⟨k, hk, by rw [hdict]; exact hentry, ?_⟩
      cases htype : other.type with
      | load =>
        show s'.isLoading other.id = true
        rw [hld, if_pos rfl, htype]
        rfl
      | prepareSwap =>
        refine ⟨hval' (by rw [htype]; exact nofun), ?_⟩
        rw [hsw, if_pos rfl, htype]
        rfl
      | doSwap =>
        refine ⟨hval' (by rw [htype]; exact nofun), ?_⟩
        rw [hsw, if_pos rfl, htype]
        rfl
    · have hid : other.id ≠ job.id := by
        intro hid
        have hbusy := h.busy hi hlive'
        rw [hid, hidle.1, hidle.2] at hbusy
        rcases hbusy with hbusy | hbusy <;> cases hbusy
      refine (h.linked i other hi hlive').congr (hbytes i other hi)
        (fun k hk => by rw [hdict]; exact hk) ?_ ?_
      · rw [hsw, if_neg hid]
      · rw [hld, if_neg hid]
  case val_none =>
    intro i other hi hv
    rcases hlookup i other hi with ⟨rfl, rfl⟩ | ⟨-, hi⟩
    · refine ⟨?_, (hpending i).mpr (.inl rfl)⟩
      by_contra ht
      rw [hval' ht] at hv
      cases hv
    · obtain ⟨ht, hp⟩ := h.val_none i other hi hv
      exact ⟨ht, (hpending i).mpr (.inr hp)⟩
  case pending =>
    intro i other hi hp
    rcases hlookup i other hi with ⟨rfl, rfl⟩ | ⟨hne, hi⟩
    · exact ⟨hlive, hval⟩
    · exact h.pending i other hi (((hpending i).mp hp).resolve_left hne)
  case undone =>
    intro hok i other hi ht hcan a hv
    rcases hlookup i other hi with ⟨rfl, rfl⟩ | ⟨-, hi⟩
    · rw [hlive] at hcan
      cases hcan
    · have hno := h.undone hok i other hi ht hcan a hv
      rw [hsw]
      split
      · next hax =>
        -- a cancelled swap job of the value would be one more
        subst hax
        by_contra hne
        have ht' : job.type ≠ .load := by
          simpa using hne
        have hle := le_total hi fun _ job' =>
          if job'.type ≠ .load ∧ job'.val = some job.id then 1 else 0
        rw [if_pos ⟨ht, hv⟩] at hle
        have hzero := (hnew ht').1
        unfold swapJobs at hzero
        omega
      · exact hno

/-- A job changes in its place and keeps what it is about. -/
theorem JobShape.update (h : s.JobShape ok) (job' : IoJob) (hj : s.jobs.lookup j = some job)
    (hkey : job'.key = job.key) (hdb : job'.db = job.db) (hid : job'.id = job.id)
    (htype : job'.type = .load ↔ job.type = .load)
    (hcan : job'.canceled = false → job.canceled = false)
    (hcan' : job.type = .load → job'.canceled = job.canceled)
    (hval : job.type ≠ .load → job'.val = job.val)
    (hpend : s'.queues.Pending j → job'.canceled = false ∧ (job'.type = .load → job'.val = none))
    (hnone : job'.val = none → job'.type = .load ∧ s'.queues.Pending j)
    (hfail : ok → job'.canceled = true → job.canceled = true)
    (hjobs : s'.jobs = s.jobs.insert j job') (hdict : s'.dict = s.dict)
    (hpending : ∀ i, i ≠ j → (s'.queues.Pending i ↔ s.queues.Pending i))
    (hsw : ∀ a, s'.isSwapping a = s.isSwapping a) (hld : ∀ a, s'.isLoading a = s.isLoading a)
    (hother : ∀ a, s.isSwapping a = true → s'.otherRefs a = s.otherRefs a)
    (hbytes : ∀ i other, s.jobs.lookup i = some other → s'.bytesOf other.key = s.bytesOf other.key) :
    s'.JobShape ok := by
  have hlookup : ∀ i other, s'.jobs.lookup i = some other →
      (i = j ∧ other = job') ∨ (i ≠ j ∧ s.jobs.lookup i = some other) := by
    intro i other hi
    rw [hjobs, lookup_insert_eq] at hi
    split at hi
    · next hij => exact .inl ⟨hij, (Option.some.inj hi).symm⟩
    · next hij => exact .inr ⟨hij, hi⟩
  constructor
  case swapping =>
    intro a ha
    rw [hsw] at ha
    obtain ⟨hd, ho, hs⟩ := h.swapping a ha
    refine ⟨by rw [← hd, dictRefs, hdict, dictRefs], (hother a ha).trans ho, ?_⟩
    unfold swapJobs at hs ⊢
    rw [hjobs, total_insert]
    rw [total_of_lookup hj] at hs
    by_cases ht : job.type = .load
    · rw [if_neg fun hv => hv.1 (htype.mpr ht)]
      rw [if_neg fun hv => hv.1 ht] at hs
      exact hs
    · have ht' : job'.type ≠ .load := fun ht' => ht (htype.mp ht')
      simp only [ne_eq, ht', not_false_eq_true, true_and, hval ht]
      simpa only [ne_eq, ht, not_false_eq_true, true_and] using hs
  case loading =>
    intro a
    have hl := h.loading a
    unfold loadJobs at hl ⊢
    rw [hjobs, hld, total_insert]
    rw [total_of_lookup hj] at hl
    by_cases ht : job.type = .load
    · simpa only [htype.mpr ht, hcan' ht, hid, ht] using hl
    · have ht' : job'.type ≠ .load := fun ht' => ht (htype.mp ht')
      rw [if_neg fun hload => ht' hload.1]
      rw [if_neg fun hload => ht hload.1] at hl
      exact hl
  case linked =>
    intro i other hi hlive
    rcases hlookup i other hi with ⟨-, rfl⟩ | ⟨-, hi⟩
    · have hlive' := hcan hlive
      obtain ⟨k, hk, hentry, hm⟩ := h.linked j job hj hlive'
      refine ⟨k, ?_, ?_, ?_⟩
      · rw [hkey, hbytes j job hj, hk]
      · rw [hdict, hdb, hid]
        exact hentry
      · by_cases ht : job.type = .load
        · rw [htype.mpr ht]
          show s'.isLoading other.id = true
          rw [hld, hid]
          exact h.load_loading hj hlive' ht
        · have hsome := h.dict_swapping hj hlive' ht
          have hpair : other.val = some other.id ∧ s'.isSwapping other.id = true := by
            rw [hval ht, hid, hsw]
            exact hsome
          cases htype' : other.type with
          | load => exact absurd (htype.mp htype') ht
          | prepareSwap => exact hpair
          | doSwap => exact hpair
    · exact (h.linked i other hi hlive).congr (hbytes i other hi)
        (fun k hk => by rw [hdict]; exact hk) (hsw _) (hld _)
  case val_none =>
    intro i other hi hv
    rcases hlookup i other hi with ⟨rfl, rfl⟩ | ⟨hne, hi⟩
    · exact hnone hv
    · obtain ⟨ht, hp⟩ := h.val_none i other hi hv
      exact ⟨ht, (hpending i hne).mpr hp⟩
  case pending =>
    intro i other hi hp
    rcases hlookup i other hi with ⟨rfl, rfl⟩ | ⟨hne, hi⟩
    · exact hpend hp
    · exact h.pending i other hi ((hpending i hne).mp hp)
  case undone =>
    intro hok i other hi ht hc a hv
    rw [hsw]
    rcases hlookup i other hi with ⟨rfl, rfl⟩ | ⟨-, hi⟩
    · have ht' : job.type ≠ .load := fun ht' => ht (htype.mpr ht')
      rw [hval ht'] at hv
      exact h.undone hok i job hj ht' (hfail hok hc) a hv
    · exact h.undone hok i other hi ht hc a hv

end State

end Rtfsc.Redis.Vm
