import Rtfsc.Redis.VmJobs

/-!
# redis: the invariant of the virtual memory

Four parts beside the reference counts and the jobs: the clients that wait and the lists of waiting
clients agree, the pages in use have one owner each, the queues hold exactly the jobs there are, and
the hand-off between the threads is in order. The last part of the file is what the simplest steps do
to all of them: taking, dropping and storing a reference.
-/

namespace Rtfsc.Redis.Vm

open Rtfsc.Machine

/-- Whether a page belongs to a job: to a `DO_SWAP` job that is not cancelled. -/
def IoJob.ownsPage (job : IoJob) (p : Nat) : Nat :=
  if job.type = .doSwap ∧ job.canceled = false ∧ SwapFile.Covers job.page job.pages p then 1 else 0

namespace State

variable (s : State)

/-! ## Clients that wait -/

/-- `db.io_keys[k]`, empty when there is no entry. -/
def waiting (k : DbKey) : List ClientId := ((s.ioKeys.lookup k).map Prod.snd).getD []

/-- How often a key of a database occurs in the `io_keys` of a client. -/
def awaited (c : ClientId) (db : DbId) (k : CStr) : Nat :=
  match s.clients.lookup c with
  | some client =>
    if client.db = db then client.ioKeys.countP fun a => decide (s.bytesOf a = some k) else 0
  | none => 0

/-- The two maps between clients and keys agree, and no empty list is kept. -/
structure Waits : Prop where
  count : ∀ c db k, (s.waiting (db, k)).count c = s.awaited c db k
  nonempty : ∀ k e, s.ioKeys.lookup k = some e → e.2 ≠ []
  keyObject : ∀ k e, s.ioKeys.lookup k = some e → s.bytesOf e.1 = some k.2

/-! ## Pages -/

/-- Whether a page belongs to the value at an address. -/
def ownsPage (p : Nat) (v : Addr) : Nat :=
  match s.pagesOf v with
  | some (first, n) => if SwapFile.Covers first n p then 1 else 0
  | none => 0

/-- The number of owners of a page among the databases and the jobs. -/
def owners (p : Nat) : Nat :=
  total (fun _ v => s.ownsPage p v) s.dict + total (fun _ job => job.ownsPage p) s.jobs

/-- The counters of the swap file are right, and when no write by a thread fails (`ok`), a page in use
has exactly one owner and a free page none. -/
structure PageShape (ok : Prop) : Prop where
  pointers : s.swappedObjects = (total (fun _ v => if (s.pagesOf v).isSome then 1 else 0) s.dict : Nat)
  tallied : s.swap.Tallied
  nextPage : s.swap.nextPage ≤ s.swap.pages
  owned : ok → ∀ p, s.owners p = if s.swap.Used p then 1 else 0

/-! ## The invariant -/

/-- The queues hold the jobs there are, each once, and the hand-off is in order. -/
structure Placed : Prop where
  handOff : s.queues.HandOff
  jobs : s.queues.placed.Perm s.jobs.keys

/-- The invariant, with the references owed. -/
structure Inv (ok : Prop) (owed : List Addr) : Prop where
  counted : s.Counted owed
  jobs : s.JobShape ok
  waits : s.Waits
  pages : s.PageShape ok
  placed : s.Placed

variable {s} {s' : State} {ok : Prop} {owed owed' : List Addr} {a b : Addr} {o : Object}
  {c : Option Cell}

/-- The ways a step may stop: it is not possible now, or, after a failed write, an assert fires. -/
def Allowed (ok : Prop) (e : Stop) : Prop :=
  e = .disabled ∨ ¬ ok ∧ (e = .jobNotFound ∨ e = .pageNotInUse)

theorem allowed_disabled : Allowed ok .disabled := .inl rfl

/-! ## Steps that leave a part alone -/

theorem key_otherRefs {j : JobId} {job : IoJob} (h : s.jobs.lookup j = some job) :
    0 < s.otherRefs job.key :=
  lt_of_lt_of_le (refs_key job) (le_otherRefs h)

theorem Waits.congr (h : s.Waits) (hioKeys : s'.ioKeys = s.ioKeys) (hclients : s'.clients = s.clients)
    (hbytes : ∀ a, 0 < s.waitRefs a → s'.bytesOf a = s.bytesOf a) : s'.Waits where
  count c db k := by
    have hw : s'.waiting (db, k) = s.waiting (db, k) := by
      unfold waiting
      rw [hioKeys]
    have ha : s'.awaited c db k = s.awaited c db k := by
      unfold awaited
      rw [hclients]
      cases hclient : s.clients.lookup c with
      | none => rfl
      | some client =>
        dsimp only
        split
        · refine List.countP_congr fun a ha => ?_
          have hpos : 0 < s.waitRefs a := by
            have hle := le_total hclient fun _ client => client.ioKeys.count a
            have hcount := List.count_pos_iff.mpr ha
            unfold waitRefs
            omega
          rw [hbytes a hpos]
        · rfl
    rw [hw, ha]
    exact h.count c db k
  nonempty k e he := by
    rw [hioKeys] at he
    exact h.nonempty k e he
  keyObject k e he := by
    rw [hioKeys] at he
    have hpos : 0 < s.waitRefs e.1 := by
      have hle := le_total he fun _ e' => if e'.1 = e.1 then 1 else 0
      rw [if_pos rfl] at hle
      unfold waitRefs
      omega
    rw [hbytes e.1 hpos]
    exact h.keyObject k e he

/-- Who is waited for is referred to before and after, so it has the same bytes. -/
theorem Waits.sameBytes (h : s.Waits) (hc : s.Counted owed) (hc' : s'.Counted owed')
    (hioKeys : s'.ioKeys = s.ioKeys) (hclients : s'.clients = s.clients) (hbytes : SameBytes s s') :
    s'.Waits := by
  refine h.congr hioKeys hclients fun a ha => ?_
  have hwait : s'.waitRefs a = s.waitRefs a := by
    unfold waitRefs
    rw [hioKeys, hclients]
  have hpos : 0 < s.otherRefs a ∧ 0 < s'.otherRefs a := by
    unfold otherRefs
    omega
  exact hbytes.bytesOf hc hc' hpos.1 hpos.2

theorem ownsPage_congr (h : s'.pagesOf a = s.pagesOf a) (p : Nat) :
    s'.ownsPage p a = s.ownsPage p a := by
  unfold ownsPage
  rw [h]

theorem owners_congr (hdict : s'.dict = s.dict) (hjobs : s'.jobs = s.jobs)
    (hpages : ∀ k v, s.dict.lookup k = some v → s'.pagesOf v = s.pagesOf v) (p : Nat) :
    s'.owners p = s.owners p := by
  unfold owners
  rw [hdict, hjobs]
  congr 1
  exact total_congr fun k v hv => ownsPage_congr (hpages k v hv) p

theorem PageShape.congr (h : s.PageShape ok) (hdict : s'.dict = s.dict) (hjobs : s'.jobs = s.jobs)
    (hswap : s'.swap = s.swap) (hswapped : s'.swappedObjects = s.swappedObjects)
    (hpages : ∀ k v, s.dict.lookup k = some v → s'.pagesOf v = s.pagesOf v) : s'.PageShape ok where
  pointers := by
    rw [hswapped, hdict, h.pointers]
    congr 1
    refine total_congr fun k v hv => ?_
    rw [hpages k v hv]
  tallied := by
    rw [hswap]
    exact h.tallied
  nextPage := by
    rw [hswap]
    exact h.nextPage
  owned hok p := by
    rw [owners_congr hdict hjobs hpages, hswap]
    exact h.owned hok p

/-- One address is written to, and what is there keeps its storage, its pages and its bytes. -/
theorem Inv.write (h : s.Inv ok owed) (hc : (s.setCell a c).Counted owed')
    (hsw : ∀ b, (s.setCell a c).isSwapping b = s.isSwapping b)
    (hld : ∀ b, (s.setCell a c).isLoading b = s.isLoading b)
    (hpages : ∀ b, (s.setCell a c).pagesOf b = s.pagesOf b) (hbytes : SameBytes s (s.setCell a c)) :
    (s.setCell a c).Inv ok owed' where
  counted := hc
  jobs := h.jobs.congr rfl (fun _ => Iff.rfl) hsw hld (fun _ _ => ⟨rfl, rfl⟩) (fun _ _ _ _ _ hk => hk)
    fun _ _ hj _ => hbytes.bytesOf h.counted hc (key_otherRefs hj) (key_otherRefs hj)
  waits := h.waits.sameBytes h.counted hc rfl rfl hbytes
  pages := h.pages.congr rfl rfl rfl rfl fun _ v _ => hpages v
  placed := ⟨h.placed.handOff, h.placed.jobs⟩

/-- Views of an address that has been written to, and of the others. -/
theorem setCell_isSwapping (s : State) (a : Addr) (c : Option Cell) (b : Addr) :
    (s.setCell a c).isSwapping b =
      if b = a then (match c with | some (.robj o) => o.swapping | _ => false)
      else s.isSwapping b := by
  unfold isSwapping setCell
  dsimp only
  by_cases hb : b = a
  · subst hb
    rw [Function.update_self]
    exact (if_pos rfl).symm
  · rw [Function.update_of_ne hb, if_neg hb]

theorem setCell_isLoading (s : State) (a : Addr) (c : Option Cell) (b : Addr) :
    (s.setCell a c).isLoading b =
      if b = a then (match c with | some (.vmpointer v) => v.loading | _ => false)
      else s.isLoading b := by
  unfold isLoading setCell
  dsimp only
  by_cases hb : b = a
  · subst hb
    rw [Function.update_self]
    exact (if_pos rfl).symm
  · rw [Function.update_of_ne hb, if_neg hb]

theorem setCell_pagesOf (s : State) (a : Addr) (c : Option Cell) (b : Addr) :
    (s.setCell a c).pagesOf b =
      if b = a then (match c with | some (.vmpointer v) => some (v.page, v.usedpages) | _ => none)
      else s.pagesOf b := by
  unfold pagesOf setCell
  dsimp only
  by_cases hb : b = a
  · subst hb
    rw [Function.update_self]
    exact (if_pos rfl).symm
  · rw [Function.update_of_ne hb, if_neg hb]

theorem isSwapping_robj (h : s.heap a = some (.robj o)) : s.isSwapping a = o.swapping := by
  unfold isSwapping
  rw [h]

theorem isLoading_robj (h : s.heap a = some (.robj o)) : s.isLoading a = false := by
  unfold isLoading
  rw [h]

theorem isLoading_pointer {v : VmPointer} (h : s.heap a = some (.vmpointer v)) :
    s.isLoading a = v.loading := by
  unfold isLoading
  rw [h]

theorem isSwapping_pointer {v : VmPointer} (h : s.heap a = some (.vmpointer v)) :
    s.isSwapping a = false := by
  unfold isSwapping
  rw [h]

theorem pagesOf_robj (h : s.heap a = some (.robj o)) : s.pagesOf a = none := by
  unfold pagesOf
  rw [h]

theorem pagesOf_pointer {v : VmPointer} (h : s.heap a = some (.vmpointer v)) :
    s.pagesOf a = some (v.page, v.usedpages) := by
  unfold pagesOf
  rw [h]

theorem isSwapping_congr (h : s'.heap a = s.heap a) : s'.isSwapping a = s.isSwapping a := by
  unfold isSwapping
  rw [h]

theorem isLoading_congr (h : s'.heap a = s.heap a) : s'.isLoading a = s.isLoading a := by
  unfold isLoading
  rw [h]

theorem pagesOf_congr (h : s'.heap a = s.heap a) : s'.pagesOf a = s.pagesOf a := by
  unfold pagesOf
  rw [h]

theorem bytesOf_congr (h : s'.heap a = s.heap a) : s'.bytesOf a = s.bytesOf a := by
  unfold bytesOf
  rw [h]

theorem views_free (h : s.heap a = none) :
    s.isSwapping a = false ∧ s.isLoading a = false ∧ s.pagesOf a = none := by
  unfold isSwapping isLoading pagesOf
  rw [h]
  exact ⟨rfl, rfl, rfl⟩

/-- An object in memory is written over by an object with the same bytes, or freed, or appears where
nothing was. -/
theorem Inv.writeObject (h : s.Inv ok owed) (hc : (s.setCell a c).Counted owed')
    (hnew : c = none ∨ ∃ o', c = some (.robj o') ∧ o'.swapping = false)
    (hold : s.heap a = none ∨ ∃ o, s.heap a = some (.robj o) ∧ o.swapping = false)
    (hbytes : ∀ o o', s.heap a = some (.robj o) → c = some (.robj o') → o'.ptr = o.ptr) :
    (s.setCell a c).Inv ok owed' := by
  have hviews : s.isSwapping a = false ∧ s.isLoading a = false ∧ s.pagesOf a = none := by
    rcases hold with hold | ⟨o, ho, hs⟩
    · exact views_free hold
    · exact ⟨(isSwapping_robj ho).trans hs, isLoading_robj ho, pagesOf_robj ho⟩
  refine h.write hc (fun b => ?_) (fun b => ?_) (fun b => ?_) (SameBytes.setCell rfl hbytes)
  · rw [setCell_isSwapping]
    split
    · next hb =>
      subst hb
      rw [hviews.1]
      rcases hnew with rfl | ⟨o', rfl, hs⟩
      · rfl
      · exact hs
    · rfl
  · rw [setCell_isLoading]
    split
    · next hb =>
      subst hb
      rw [hviews.2.1]
      rcases hnew with rfl | ⟨o', rfl, -⟩
      · rfl
      · rfl
    · rfl
  · rw [setCell_pagesOf]
    split
    · next hb =>
      subst hb
      rw [hviews.2.2]
      rcases hnew with rfl | ⟨o', rfl, -⟩
      · rfl
      · rfl
    · rfl

/-- Taking a reference to an object in memory. -/
theorem Inv.incr (h : s.Inv ok owed) (ha : s.heap a = some (.robj o)) (hs : o.swapping = false) :
    (s.setCell a (some (.robj { o with refcount := o.refcount + 1 }))).Inv ok (a :: owed) := by
  refine h.writeObject (h.counted.incr ha) (.inr ⟨_, rfl, hs⟩) (.inr ⟨o, ha, hs⟩) ?_
  rintro o₁ o₂ ho₁ ho₂
  rw [ha] at ho₁
  cases ho₁
  cases ho₂
  rfl

theorem dropCell_cases (hs : o.swapping = false) :
    dropCell o = none ∨ ∃ o', dropCell o = some (.robj o') ∧ o'.swapping = false := by
  unfold dropCell
  split
  · exact .inl rfl
  · exact .inr ⟨_, rfl, hs⟩

theorem dropCell_ptr {o' : Object} (h : dropCell o = some (.robj o')) : o'.ptr = o.ptr := by
  unfold dropCell at h
  split at h
  · cases h
  · cases h
    rfl

/-- Dropping a reference to an object in memory. -/
theorem Inv.drop (h : s.Inv ok (a :: owed)) (ha : s.heap a = some (.robj o))
    (hs : o.swapping = false) : (s.setCell a (dropCell o)).Inv ok owed := by
  refine h.writeObject (h.counted.drop ha) (dropCell_cases hs) (.inr ⟨o, ha, hs⟩) ?_
  rintro o₁ o₂ ho₁ ho₂
  rw [ha] at ho₁
  cases ho₁
  exact dropCell_ptr ho₂

/-- A new object in memory. -/
theorem Inv.create (h : s.Inv ok owed) (ha : s.heap a = none) (bytes : CStr) :
    (s.setCell a (some (.robj ⟨1, false, bytes⟩))).Inv ok (a :: owed) := by
  refine h.writeObject (h.counted.create ha bytes) (.inr ⟨_, rfl, rfl⟩) (.inl ha) ?_
  intro o o' ho
  rw [ha] at ho
  cases ho

theorem create_eq (ha : s.heap a = none) (cell : Cell) :
    s.create a cell = .ok (s.setCell a (some cell)) := by
  unfold State.create
  rw [check_pos ha]
  rfl

/-- `decrRefCount` of an object that is not being swapped out. -/
theorem decrRefCountAux_memory (depth : Nat) (ha : s.heap a = some (.robj o))
    (hs : o.swapping = false) (hpos : 0 < o.refcount) :
    decrRefCountAux (depth + 1) s a = .ok (s.setCell a (dropCell o)) := by
  rw [decrRefCountAux, ha]
  dsimp only
  rw [check_pos (by omega), hs]
  exact dropReference_eq ha

theorem Counted.refcount_pos (h : s.Counted owed) (ha : s.heap a = some (.robj o)) :
    0 < o.refcount := by
  have hc := h.robj ha
  omega

/-! ## References that change hands -/

theorem otherRefs_held (s : State) (l : List Addr) (a : Addr) :
    ({ s with held := l } : State).otherRefs a + s.held.count a = s.otherRefs a + l.count a := by
  show s.jobRefs a + s.waitRefs a + l.count a + s.held.count a = _
  unfold otherRefs
  omega

/-- The rest of the server takes over an owed reference. -/
theorem Inv.keep (h : s.Inv ok (a :: owed)) (ha : s.heap a = some (.robj o))
    (hs : o.swapping = false) : ({ s with held := a :: s.held } : State).Inv ok owed := by
  have hrefs := otherRefs_held s (a :: s.held)
  constructor
  case counted =>
    refine h.counted.move rfl (fun b => ?_) fun b v hb => ?_
    · have hb := hrefs b
      rw [List.count_cons] at hb ⊢
      show s.dictRefs b + _ + _ = s.dictRefs b + _ + _
      omega
    · have hne : b ≠ a := by
        rintro rfl
        rw [ha] at hb
        cases hb
      have hother := (h.counted.pointer hb).2
      have hb' := hrefs b
      rw [List.count_cons_of_ne (Ne.symm hne)] at hb'
      omega
  case jobs =>
    refine h.jobs.congr rfl (fun _ => Iff.rfl) (fun _ => rfl) (fun _ => rfl) (fun b hb => ⟨rfl, ?_⟩)
      (fun _ _ _ _ _ hk => hk) fun _ _ _ _ => rfl
    have hne : b ≠ a := by
      rintro rfl
      rw [isSwapping_robj ha, hs] at hb
      cases hb
    have hb' := hrefs b
    rw [List.count_cons_of_ne (Ne.symm hne)] at hb'
    omega
  case waits => exact h.waits.congr rfl rfl fun _ _ => rfl
  case pages => exact h.pages.congr rfl rfl rfl rfl fun _ _ _ => rfl
  case placed => exact ⟨h.placed.handOff, h.placed.jobs⟩

/-- A reference of the rest of the server leads to an object in memory. -/
theorem Inv.held_object (h : s.Inv ok owed) (ha : a ∈ s.held) :
    ∃ o, s.heap a = some (.robj o) ∧ o.swapping = false := by
  have hcount := List.count_pos_iff.mpr ha
  have hpos : 0 < s.otherRefs a := by
    unfold otherRefs
    omega
  obtain ⟨o, ho⟩ := h.counted.object hpos
  refine ⟨o, ho, ?_⟩
  by_contra hne
  have hsw : s.isSwapping a = true := by
    rw [isSwapping_robj ho]
    exact Bool.eq_true_of_not_eq_false hne
  obtain ⟨-, hother, hswap⟩ := h.jobs.swapping a hsw
  obtain ⟨j, job, hj, hval⟩ : ∃ j job, s.jobs.lookup j = some job ∧
      0 < (if job.type ≠ .load ∧ job.val = some a then 1 else 0) := by
    apply exists_of_total_pos
    show 0 < s.swapJobs a
    omega
  have hv : job.val = some a := by
    by_contra hv
    rw [if_neg fun hv' => hv hv'.2] at hval
    exact Nat.lt_irrefl 0 hval
  have hle : job.refs a ≤ s.jobRefs a := le_total hj fun _ job => job.refs a
  have href := refs_val hv
  unfold otherRefs at hother
  omega

/-- The rest of the server hands a reference on. -/
theorem Inv.unkeep (h : s.Inv ok owed) (ha : a ∈ s.held) :
    ({ s with held := s.held.erase a } : State).Inv ok (a :: owed) := by
  obtain ⟨o, ho, hs⟩ := h.held_object ha
  have hrefs := otherRefs_held s (s.held.erase a)
  have herase : ∀ b, s.held.count b = (a :: s.held.erase a).count b := fun b =>
    (List.perm_cons_erase ha).count_eq b
  constructor
  case counted =>
    refine h.counted.move rfl (fun b => ?_) fun b v hb => ?_
    · have hb := hrefs b
      have he := herase b
      rw [List.count_cons] at he ⊢
      show s.dictRefs b + _ + _ = s.dictRefs b + _ + _
      omega
    · have hother := (h.counted.pointer hb).2
      have hb' := hrefs b
      have he := herase b
      rw [List.count_cons] at he
      omega
  case jobs =>
    refine h.jobs.congr rfl (fun _ => Iff.rfl) (fun _ => rfl) (fun _ => rfl) (fun b hb => ⟨rfl, ?_⟩)
      (fun _ _ _ _ _ hk => hk) fun _ _ _ _ => rfl
    have hne : b ≠ a := by
      rintro rfl
      rw [isSwapping_robj ho, hs] at hb
      cases hb
    have hb' := hrefs b
    rw [List.count_erase_of_ne hne] at hb'
    omega
  case waits => exact h.waits.congr rfl rfl fun _ _ => rfl
  case pages => exact h.pages.congr rfl rfl rfl rfl fun _ _ _ => rfl
  case placed => exact ⟨h.placed.handOff, h.placed.jobs⟩

end State

end Rtfsc.Redis.Vm
