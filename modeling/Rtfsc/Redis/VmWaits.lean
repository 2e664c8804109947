import Rtfsc.Redis.VmNewJob

/-!
# redis: clients that wait for keys

`waitForSwappedKey`, `dontWaitForSwappedKey` and `handleClientsBlockedOnSwappedKey`: a client lists the
keys it waits for and a key the clients that wait for it, each as often as the other. Beside the lists
they only move references to key objects, which no job swaps out, so what the jobs and the swap file
depend on stays.
-/

namespace Rtfsc.Redis.Vm

open Rtfsc.Machine

namespace State

variable {s s₀ s' : State} {ok : Prop} {owed owed' : List Addr} {a key x : Addr} {o : Object}
  {c : ClientId} {client : Client} {db : DbId} {k : CStr}

/-! ## Moving references to objects in memory -/

/-- The databases, the jobs and the pages are as they were, and so are the storages and the bytes of
what is in memory. -/
structure Steady (s s' : State) : Prop where
  dict : s'.dict = s.dict
  held : s'.held = s.held
  jobs : s'.jobs = s.jobs
  queues : s'.queues = s.queues
  swap : s'.swap = s.swap
  swappedObjects : s'.swappedObjects = s.swappedObjects
  swapping : ∀ a, s'.isSwapping a = s.isSwapping a
  loading : ∀ a, s'.isLoading a = s.isLoading a
  pagesOf : ∀ a, s'.pagesOf a = s.pagesOf a
  bytes : SameBytes s s'
  objects : ∀ a o', s'.heap a = some (.robj o') → ∃ o, s.heap a = some (.robj o)

theorem Steady.refl (s : State) : Steady s s where
  dict := rfl
  held := rfl
  jobs := rfl
  queues := rfl
  swap := rfl
  swappedObjects := rfl
  swapping _ := rfl
  loading _ := rfl
  pagesOf _ := rfl
  bytes := SameBytes.of_heap_eq rfl
  objects _ o' h := ⟨o', h⟩

theorem Steady.trans {s₁ s₂ s₃ : State} (h : Steady s₁ s₂) (h' : Steady s₂ s₃) : Steady s₁ s₃ where
  dict := h'.dict.trans h.dict
  held := h'.held.trans h.held
  jobs := h'.jobs.trans h.jobs
  queues := h'.queues.trans h.queues
  swap := h'.swap.trans h.swap
  swappedObjects := h'.swappedObjects.trans h.swappedObjects
  swapping a := (h'.swapping a).trans (h.swapping a)
  loading a := (h'.loading a).trans (h.loading a)
  pagesOf a := (h'.pagesOf a).trans (h.pagesOf a)
  bytes a o₁ o₃ ho₁ ho₃ := by
    obtain ⟨o₂, ho₂⟩ := h'.objects a o₃ ho₃
    exact (h'.bytes a o₂ o₃ ho₂ ho₃).trans (h.bytes a o₁ o₂ ho₁ ho₂)
  objects a o₃ ho₃ := by
    obtain ⟨o₂, ho₂⟩ := h'.objects a o₃ ho₃
    exact h.objects a o₂ ho₂

/-- Writing to an object in memory that stays there with its bytes, or goes away. -/
theorem Steady.setCell {c : Option Cell} (ha : s.heap a = some (.robj o)) (hs : o.swapping = false)
    (hc : c = none ∨ ∃ o', c = some (.robj o') ∧ o'.swapping = false ∧ o'.ptr = o.ptr) :
    Steady s (s.setCell a c) := by
  have hrw := Rewritten.setCell ha hc
  refine ⟨rfl, rfl, rfl, rfl, rfl, rfl, fun b => ?_, hrw.loading, hrw.pagesOf, hrw.bytes, hrw.objects⟩
  rw [hrw.swapping]
  split
  · next hb => rw [hb, isSwapping_robj ha, hs]
  · rfl

/-- Writing to the lists of clients and keys. -/
theorem Steady.lists (s : State) (clients : Table ClientId Client)
    (ioKeys : Table DbKey (Addr × List ClientId)) (ready : List ClientId) :
    Steady s { s with clients, ioKeys, ready } :=
  { Steady.refl s with }

/-- An object in memory that is not freed is one still. -/
theorem Steady.object (h : Steady s s') (ha : s.heap a = some (.robj o)) (hs : o.swapping = false)
    (hne : s'.heap a ≠ none) :
    ∃ o', s'.heap a = some (.robj o') ∧ o'.swapping = false ∧ o'.ptr = o.ptr := by
  obtain ⟨cell, hcell⟩ := Option.ne_none_iff_exists'.mp hne
  cases cell with
  | robj o' =>
    refine ⟨o', hcell, ?_, h.bytes a o o' ha hcell⟩
    rw [← isSwapping_robj hcell, h.swapping, isSwapping_robj ha, hs]
  | vmpointer v =>
    have hpages := h.pagesOf a
    rw [pagesOf_robj ha, pagesOf_pointer hcell] at hpages
    cases hpages

theorem Steady.pointer (h : Steady s s') {v : VmPointer} (ha : s.heap a = some (.vmpointer v)) :
    s'.heap a = some (.vmpointer v) := by
  have hpages := h.pagesOf a
  have hloading := h.loading a
  rw [pagesOf_pointer ha] at hpages
  rw [isLoading_pointer ha] at hloading
  unfold State.pagesOf at hpages
  split at hpages
  · next v' hv' =>
    obtain ⟨hpage, hused⟩ := Prod.mk.inj (Option.some.inj hpages)
    rw [isLoading_pointer hv'] at hloading
    rw [hv']
    cases v
    cases v'
    simp_all
  · cases hpages

/-- The lists of clients and keys are the same. -/
structure SameLists (s s' : State) : Prop where
  clients : s'.clients = s.clients
  ioKeys : s'.ioKeys = s.ioKeys
  ready : s'.ready = s.ready

/-- Taking a reference to an object that was in memory before. -/
theorem Steady.incr (h : Steady s₀ s) (hc : s.Counted owed) (ha : s₀.heap a = some (.robj o))
    (hs : o.swapping = false) (href : s.heap a ≠ none) :
    ∃ s', s.incrRefCount a = .ok s' ∧ s'.Counted (a :: owed) ∧ Steady s₀ s' ∧ SameLists s s' := by
  obtain ⟨o', ho', hs', -⟩ := h.object ha hs href
  refine ⟨_, incrRefCount_eq ho', hc.incr ho', h.trans (.setCell ho' hs' (.inr ⟨_, rfl, hs', rfl⟩)),
    rfl, rfl, rfl⟩

/-- Dropping an owed reference to one. -/
theorem Steady.decr (h : Steady s₀ s) (hc : s.Counted (a :: owed)) (ha : s₀.heap a = some (.robj o))
    (hs : o.swapping = false) :
    ∃ s', s.decrRefCount a = .ok s' ∧ s'.Counted owed ∧ Steady s₀ s' ∧ SameLists s s' := by
  obtain ⟨o', ho', hs', -⟩ := h.object ha hs hc.owed_ne_none
  refine ⟨_, decrRefCountAux_memory 1 ho' hs' (hc.refcount_pos ho'), hc.drop ho',
    h.trans (.setCell ho' hs' (dropCell_rewrites hs')), rfl, rfl, rfl⟩

/-! ## What the functions rely on -/

/-- The part of the invariant that is about the lists of clients and keys. -/
structure Keys (s : State) (owed : List Addr) : Prop where
  counted : s.Counted owed
  waits : s.Waits
  memory : ∀ a, 0 < s.waitRefs a → s.isSwapping a = false

/-- The only reference to an object being swapped out that is not its key's is the job's. -/
theorem JobShape.swapping_refs (h : s.JobShape ok) (ha : s.isSwapping a = true) :
    s.jobRefs a = 1 ∧ s.waitRefs a = 0 ∧ s.held.count a = 0 := by
  obtain ⟨-, hother, hswap⟩ := h.swapping a ha
  have hle := swapJobs_le s a
  unfold otherRefs at hother
  omega

theorem Inv.keys (h : s.Inv ok owed) : s.Keys owed where
  counted := h.counted
  waits := h.waits
  memory a ha := by
    by_contra hne
    have hzero := (h.jobs.swapping_refs (Bool.eq_true_of_not_eq_false hne)).2.1
    omega

/-- What the lists refer to is an object in memory. -/
theorem Keys.object (h : s.Keys owed) (ha : 0 < s.waitRefs a) :
    ∃ o, s.heap a = some (.robj o) ∧ o.swapping = false := by
  have hpos : 0 < s.otherRefs a := by
    unfold otherRefs
    omega
  obtain ⟨o, ho⟩ := h.counted.object hpos
  exact ⟨o, ho, (isSwapping_robj ho).symm.trans (h.memory a ha)⟩

/-- The other parts of the invariant stay when only the lists and the references move. -/
theorem Inv.steady (h : s.Inv ok owed) (hs : Steady s s') (hk : s'.Keys owed') : s'.Inv ok owed' where
  counted := hk.counted
  jobs := by
    refine h.jobs.congr hs.jobs (fun j => by rw [hs.queues]) hs.swapping hs.loading
      (fun a ha => ⟨by rw [dictRefs, hs.dict, dictRefs], ?_⟩) (fun j job _ _ k hk' => ?_) ?_
    · have hwait := (h.jobs.swapping_refs ha).2.1
      have hwait' : s'.waitRefs a = 0 := by
        by_contra hne
        have hfalse := hk.memory a (Nat.pos_of_ne_zero hne)
        rw [hs.swapping, ha] at hfalse
        cases hfalse
      unfold otherRefs jobRefs
      rw [hs.jobs, hs.held, hwait, hwait']
    · rw [hs.dict]
      exact hk'
    · intro j job hj _
      have hj' : s'.jobs.lookup j = some job := by rw [hs.jobs, hj]
      exact hs.bytes.bytesOf h.counted hk.counted (key_otherRefs hj) (key_otherRefs hj')
  waits := hk.waits
  pages := h.pages.congr hs.dict hs.jobs hs.swap hs.swappedObjects fun _ v _ => hs.pagesOf v
  placed := by
    refine ⟨?_, ?_⟩
    · rw [hs.queues]
      exact h.placed.handOff
    · rw [hs.queues, hs.jobs]
      exact h.placed.jobs

/-! ## The two maps -/

/-- How often the object of a list of keys has the bytes `k`. -/
def occurrences (s : State) (l : List Addr) (k : CStr) : Nat :=
  l.countP fun a => decide (s.bytesOf a = some k)

theorem awaited_eq {e : Client} (hc : s.clients.lookup c = some e) (db : DbId) (k : CStr) :
    s.awaited c db k = if e.db = db then s.occurrences e.ioKeys k else 0 := by
  unfold awaited
  rw [hc]
  rfl

theorem occurrences_congr {l : List Addr} (h : ∀ a ∈ l, s'.bytesOf a = s.bytesOf a) (k : CStr) :
    s'.occurrences l k = s.occurrences l k :=
  List.countP_congr fun a ha => by rw [h a ha]

theorem occurrences_append (s : State) (l : List Addr) (a : Addr) (k : CStr) :
    s.occurrences (l ++ [a]) k = s.occurrences l k + if s.bytesOf a = some k then 1 else 0 := by
  unfold occurrences
  rw [List.countP_append, List.countP_singleton]
  simp only [decide_eq_true_eq]

theorem waitRefs_client (hc : s.clients.lookup c = some client) (ha : a ∈ client.ioKeys) :
    0 < s.waitRefs a := by
  have hle := le_total hc fun _ client => client.ioKeys.count a
  have hpos := List.count_pos_iff.mpr ha
  unfold waitRefs
  omega

theorem waitRefs_key {k : DbKey} {e : Addr × List ClientId} (h : s.ioKeys.lookup k = some e) :
    0 < s.waitRefs e.1 := by
  have hle := le_total h fun _ e' => if e'.1 = e.1 then 1 else 0
  rw [if_pos rfl] at hle
  unfold waitRefs
  omega

/-- A key that a client waits for has the client in its list. -/
theorem Waits.entry (h : s.Waits) (hc : s.clients.lookup c = some client) (ha : a ∈ client.ioKeys)
    (hbytes : s.bytesOf a = some k) :
    ∃ ko l, s.ioKeys.lookup (client.db, k) = some (ko, l) ∧ c ∈ l := by
  have hcount := h.count c client.db k
  rw [awaited_eq hc, if_pos rfl] at hcount
  have hpos : 0 < s.occurrences client.ioKeys k :=
    List.countP_pos_iff.mpr ⟨a, ha, decide_eq_true hbytes⟩
  rw [← hcount, List.count_pos_iff] at hpos
  unfold waiting at hpos
  cases he : s.ioKeys.lookup (client.db, k) with
  | none =>
    rw [he] at hpos
    cases hpos
  | some e =>
    rw [he] at hpos
    exact ⟨e.1, e.2, rfl, hpos⟩

/-- One client's keys change, and one key's clients by the same. -/
theorem Waits.write (h : s.Waits) (hc : s.clients.lookup c = some client) {l : List Addr}
    {e : Option (Addr × List ClientId)}
    (hclients : s'.clients = s.clients.insert c { client with ioKeys := l })
    (hioKeys : s'.ioKeys = put s.ioKeys (client.db, k) e)
    (he : ∀ ko l', e = some (ko, l') → l' ≠ [] ∧ s'.bytesOf ko = some k)
    (hbytes : ∀ a, 0 < s.waitRefs a → 0 < s'.waitRefs a → s'.bytesOf a = s.bytesOf a)
    (hother : ∀ c', c' ≠ c →
      ((e.map Prod.snd).getD []).count c' = (s.waiting (client.db, k)).count c')
    (hthis : ((e.map Prod.snd).getD []).count c + s.occurrences client.ioKeys k =
      (s.waiting (client.db, k)).count c + s'.occurrences l k)
    (hkeys : ∀ k', k' ≠ k → s'.occurrences l k' = s.occurrences client.ioKeys k') : s'.Waits := by
  have hlookup : ∀ c', s'.clients.lookup c' =
      if c' = c then some { client with ioKeys := l } else s.clients.lookup c' := by
    intro c'
    rw [hclients, lookup_insert_eq]
  have hwaiting : ∀ k', s'.waiting k' =
      if k' = (client.db, k) then (e.map Prod.snd).getD [] else s.waiting k' := by
    intro k'
    unfold waiting
    rw [hioKeys, lookup_put]
    split <;> rfl
  constructor
  case count =>
    intro c' db' k'
    rw [hwaiting]
    by_cases hcc : c' = c
    · subst hcc
      have hold := h.count c' db' k'
      rw [awaited_eq hc] at hold
      rw [awaited_eq (e := { client with ioKeys := l }) (by rw [hlookup, if_pos rfl])]
      dsimp only
      by_cases hdb : client.db = db'
      · subst hdb
        rw [if_pos rfl] at hold ⊢
        by_cases hk : k' = k
        · subst hk
          rw [if_pos rfl]
          omega
        · rw [if_neg fun heq => hk (Prod.mk.inj heq).2, hold, hkeys k' hk]
      · rw [if_neg hdb] at hold ⊢
        rw [if_neg fun heq => hdb (Prod.mk.inj heq).1.symm, hold]
    · have hsame : s'.awaited c' db' k' = s.awaited c' db' k' := by
        have hc' : s'.clients.lookup c' = s.clients.lookup c' := by rw [hlookup, if_neg hcc]
        cases hclient : s.clients.lookup c' with
        | none =>
          unfold awaited
          rw [hc', hclient]
        | some client' =>
          rw [awaited_eq (hc'.trans hclient), awaited_eq hclient]
          rw [occurrences_congr fun a ha =>
            hbytes a (waitRefs_client hclient ha) (waitRefs_client (hc'.trans hclient) ha)]
      rw [hsame, ← h.count]
      split
      · next heq =>
        rw [hother c' hcc, ← heq]
      · rfl
  case nonempty =>
    intro k' e' he'
    rw [hioKeys, lookup_put] at he'
    split at he'
    · exact (he e'.1 e'.2 he').1
    · exact h.nonempty k' e' he'
  case keyObject =>
    intro k' e' he'
    have hpos' := waitRefs_key he'
    rw [hioKeys, lookup_put] at he'
    split at he'
    · next heq =>
      rw [heq]
      exact (he e'.1 e'.2 he').2
    · rw [hbytes e'.1 (waitRefs_key he') hpos']
      exact h.keyObject k' e' he'

/-! ## Waiting -/

/-- References from the list of one client, when it is written. -/
theorem waitRefs_clients (hc : s.clients.lookup c = some client) (l : List Addr) (a : Addr) :
    ({ s with clients := s.clients.insert c { client with ioKeys := l } } : State).waitRefs a +
      client.ioKeys.count a = s.waitRefs a + l.count a := by
  have htotal := total_replace hc { client with ioKeys := l } fun _ client => client.ioKeys.count a
  show total _ (s.clients.insert c _) + total _ s.ioKeys + client.ioKeys.count a = _
  unfold waitRefs
  dsimp only at htotal
  omega

/-- References from the entry of one key, when it is written. -/
theorem waitRefs_ioKeys (s : State) (k : DbKey) (e : Option (Addr × List ClientId)) (a : Addr) :
    ({ s with ioKeys := put s.ioKeys k e } : State).waitRefs a +
      ((s.ioKeys.lookup k).map Prod.fst).toList.count a =
      s.waitRefs a + (e.map Prod.fst).toList.count a := by
  have htotal := total_put s.ioKeys k e fun _ e => if e.1 = a then 1 else 0
  have hcount : ∀ e : Option (Addr × List ClientId),
      (e.elim 0 fun e => if e.1 = a then 1 else 0) = (e.map Prod.fst).toList.count a := by
    intro e
    cases e with
    | none => rfl
    | some e => simp [List.count_singleton]
  rw [hcount, hcount] at htotal
  show total _ s.clients + total _ (put s.ioKeys k e) + _ = _
  unfold waitRefs
  omega

theorem count_cons_split (a : Addr) (l : List Addr) (b : Addr) :
    (a :: l).count b = [a].count b + l.count b := by
  rw [← List.count_append, List.singleton_append]

/-- References move between the lists and those owed. -/
theorem Counted.lists (h : s.Counted owed) (clients : Table ClientId Client)
    (ioKeys : Table DbKey (Addr × List ClientId))
    (hrefs : ∀ a, ({ s with clients, ioKeys } : State).waitRefs a + owed'.count a =
      s.waitRefs a + owed.count a)
    (hobject : ∀ a v, s.heap a = some (.vmpointer v) →
      ({ s with clients, ioKeys } : State).waitRefs a = 0) :
    ({ s with clients, ioKeys } : State).Counted owed' := by
  refine h.move rfl (fun a => ?_) fun a v ha => ?_
  · have hr := hrefs a
    show s.dictRefs a + (s.jobRefs a + State.waitRefs _ a + s.held.count a) + _ =
      s.dictRefs a + (s.jobRefs a + s.waitRefs a + s.held.count a) + _
    omega
  · have hzero := (h.pointer ha).2
    have hw := hobject a v ha
    show s.jobRefs a + State.waitRefs _ a + s.held.count a = 0
    unfold otherRefs at hzero
    omega

/-- The lists get one more reference to an object in memory, and its count says so. -/
theorem Counted.list (h : s.Counted owed) (hkey : s.heap key = some (.robj o))
    (clients : Table ClientId Client) (ioKeys : Table DbKey (Addr × List ClientId))
    (hrefs : ∀ a, ({ s with clients, ioKeys } : State).waitRefs a = s.waitRefs a + [key].count a) :
    ({ s.setCell key (some (.robj { o with refcount := o.refcount + 1 })) with
      clients, ioKeys } : State).Counted owed := by
  refine (h.incr hkey).lists clients ioKeys (fun a => ?_) fun a v ha => ?_
  · show State.waitRefs { s with clients, ioKeys } a + owed.count a = s.waitRefs a + (key :: owed).count a
    rw [hrefs, count_cons_split key owed]
    omega
  · have hne : a ≠ key := by
      rintro rfl
      rw [heap_setCell_self] at ha
      cases ha
    rw [heap_setCell_ne hne] at ha
    have hzero := (h.pointer ha).2
    unfold otherRefs at hzero
    show State.waitRefs { s with clients, ioKeys } a = 0
    rw [hrefs, List.count_eq_zero.mpr (by rwa [List.mem_singleton])]
    omega

theorem listed_or_eq {m n : Nat} (h : m = n + [key].count a) (hm : 0 < m) : 0 < n ∨ a = key := by
  by_cases hne : a = key
  · exact .inr hne
  · rw [List.count_eq_zero.mpr (by rwa [List.mem_singleton])] at h
    exact .inl (by omega)

/-- One more key for a client, and the client at the end of the key's list. -/
theorem Keys.list (h : s.Keys owed) (hc : s.clients.lookup c = some client)
    (hkey : s.bytesOf key = some k) (hmemory : s.isSwapping key = false) {ko : Addr}
    (hko : s.bytesOf ko = some k)
    (hclients : s'.clients = s.clients.insert c { client with ioKeys := client.ioKeys ++ [key] })
    (hioKeys : s'.ioKeys = s.ioKeys.insert (client.db, k) (ko, s.waiting (client.db, k) ++ [c]))
    (hswapping : ∀ a, s'.isSwapping a = s.isSwapping a) (hbytes : ∀ a, s'.bytesOf a = s.bytesOf a)
    (hcounted : s'.Counted owed') (hrefs : ∀ a, 0 < s'.waitRefs a → 0 < s.waitRefs a ∨ a = key) :
    s'.Keys owed' := by
  have hoccur : ∀ k', s'.occurrences (client.ioKeys ++ [key]) k' =
      s.occurrences client.ioKeys k' + if k' = k then 1 else 0 := by
    intro k'
    rw [occurrences_congr (s := s) fun a _ => hbytes a, occurrences_append, hkey]
    simp only [Option.some.injEq, eq_comm]
  refine ⟨hcounted, ?_, fun a ha => ?_⟩
  · refine h.waits.write (e := some (ko, s.waiting (client.db, k) ++ [c])) hc hclients hioKeys ?_
      (fun a _ _ => hbytes a) ?_ ?_ ?_
    · rintro _ _ ⟨⟩
      exact ⟨List.append_ne_nil_of_right_ne_nil _ (List.cons_ne_nil _ _), by rw [hbytes, hko]⟩
    · intro c' hne
      show (s.waiting (client.db, k) ++ [c]).count c' = _
      rw [List.count_append, List.count_singleton, if_neg, Nat.add_zero]
      rw [beq_iff_eq]
      exact Ne.symm hne
    · show (s.waiting (client.db, k) ++ [c]).count c + _ = _
      rw [List.count_append, List.count_singleton_self, hoccur, if_pos rfl]
      omega
    · intro k' hne
      rw [hoccur, if_neg hne, Nat.add_zero]
  · rw [hswapping]
    rcases hrefs a ha with hw | rfl
    · exact h.memory a hw
    · exact hmemory

/-- The first half of `waitForSwappedKey`: both maps get an entry. -/
theorem waitLists_ends {β : Type} {Q : Stop → Prop} {R : β → Prop} {f : State → Except Stop β}
    {ko : Object} (h : s.Keys owed) (hc : s.clients.lookup c = some client)
    (hko : s.heap key = some (.robj ko)) (hks : ko.swapping = false)
    (hf : ∀ s', s'.Keys owed → Steady s s' → Ends Q R (f s')) :
    Ends Q R (do
      let s ← incrRefCount { s with
        clients := s.clients.insert c { client with ioKeys := client.ioKeys ++ [key] } } key
      match s.ioKeys.lookup (client.db, ko.ptr) with
      | none =>
        incrRefCount { s with ioKeys := s.ioKeys.insert (client.db, ko.ptr) (key, [c]) } key >>= f
      | some (ko', l) =>
        pure { s with ioKeys := s.ioKeys.insert (client.db, ko.ptr) (ko', l ++ [c]) } >>= f) := by
  obtain ⟨clients, hclients⟩ : ∃ clients, clients =
    s.clients.insert c { client with ioKeys := client.ioKeys ++ [key] } := ⟨_, rfl⟩
  have hincr := incrRefCount_eq (s := { s with clients }) (o := ko) hko
  rw [← hclients, hincr, value_bind]
  have hwait : ∀ a, ({ s with clients } : State).waitRefs a = s.waitRefs a + [key].count a := by
    intro a
    have ha := waitRefs_clients hc (client.ioKeys ++ [key]) a
    rw [← hclients, List.count_append] at ha
    omega
  obtain ⟨o₁, ho₁⟩ : ∃ o₁ : Object, o₁ = { ko with refcount := ko.refcount + 1 } := ⟨_, rfl⟩
  rw [← ho₁]
  have hptr₁ : o₁.ptr = ko.ptr := by rw [ho₁]
  have hs₁ : o₁.swapping = false := by
    rw [ho₁]
    exact hks
  have hheap₁ : (s.setCell key (some (.robj o₁))).heap key = some (.robj o₁) := heap_setCell_self ..
  -- the reference of the client's list
  have hcounted₁ : ({ s.setCell key (some (.robj o₁)) with clients } : State).Counted owed := by
    rw [ho₁]
    exact h.counted.list hko clients s.ioKeys hwait
  have hsteady₁ : Steady s (s.setCell key (some (.robj o₁))) :=
    .setCell hko hks (.inr ⟨o₁, rfl, hs₁, hptr₁⟩)
  have hkswap : s.isSwapping key = false := (isSwapping_robj hko).trans hks
  have hbytes₁ := bytesOf_setCell hko hptr₁
  have hkbytes : s.bytesOf key = some ko.ptr := bytesOf_robj hko
  have hrefs₁ : ∀ a, 0 < ({ s with clients } : State).waitRefs a → 0 < s.waitRefs a ∨ a = key :=
    fun a => listed_or_eq (hwait a)
  show Ends Q R (match s.ioKeys.lookup (client.db, ko.ptr) with | none => _ | some (_, _) => _)
  cases hentry : s.ioKeys.lookup (client.db, ko.ptr) with
  | none =>
    -- a new list, which takes a reference of its own
    obtain ⟨ioKeys, hioKeys⟩ : ∃ ioKeys, ioKeys =
      s.ioKeys.insert (client.db, ko.ptr) (key, [c]) := ⟨_, rfl⟩
    have hincr₂ := incrRefCount_eq
      (s := { s.setCell key (some (.robj o₁)) with clients, ioKeys }) (o := o₁) hheap₁
    obtain ⟨o₂, ho₂⟩ : ∃ o₂ : Object, o₂ = { o₁ with refcount := o₁.refcount + 1 } := ⟨_, rfl⟩
    rw [← ho₂] at hincr₂
    have hptr₂ : o₂.ptr = o₁.ptr := by rw [ho₂]
    have hs₂ : o₂.swapping = false := by
      rw [ho₂]
      exact hs₁
    have hrefs₂ : ∀ a, ({ s with clients, ioKeys } : State).waitRefs a =
        ({ s with clients } : State).waitRefs a + [key].count a := by
      intro a
      have ha := waitRefs_ioKeys { s with clients } (client.db, ko.ptr) (some (key, [c])) a
      rw [hioKeys]
      dsimp only at ha
      rw [hentry] at ha
      exact ha
    show Ends Q R (incrRefCount { s.setCell key (some (.robj o₁)) with
      clients
      ioKeys := s.ioKeys.insert (client.db, ko.ptr) (key, [c]) } key >>= f)
    rw [← hioKeys, hincr₂, value_bind]
    have hsteady₂ : Steady s ({ s.setCell key (some (.robj o₁)) with clients, ioKeys }.setCell key
        (some (.robj o₂))) :=
      (hsteady₁.trans (.setCell hheap₁ hs₁ (.inr ⟨o₂, rfl, hs₂, hptr₂⟩))).trans (Steady.lists ..)
    have hwaiting : s.waiting (client.db, ko.ptr) = [] := by
      unfold waiting
      rw [hentry]
      rfl
    refine hf _ (h.list hc hkbytes hkswap hkbytes hclients ?_ hsteady₂.swapping ?_ ?_ ?_) hsteady₂
    · rw [hwaiting]
      exact hioKeys
    · intro b
      exact (bytesOf_setCell hheap₁ hptr₂ b).trans (hbytes₁ b)
    · rw [ho₂]
      exact hcounted₁.list hheap₁ clients ioKeys hrefs₂
    · intro a ha
      rcases listed_or_eq (hrefs₂ a) ha with hw | heq
      · exact hrefs₁ a hw
      · exact .inr heq
  | some e =>
    obtain ⟨ko', l⟩ := e
    have hrefs₂ : ∀ a, State.waitRefs { s with
        clients
        ioKeys := s.ioKeys.insert (client.db, ko.ptr) (ko', l ++ [c]) } a =
        ({ s with clients } : State).waitRefs a := by
      intro a
      have ha := waitRefs_ioKeys { s with clients } (client.db, ko.ptr) (some (ko', l ++ [c])) a
      dsimp only at ha
      rw [hentry] at ha
      exact Nat.add_right_cancel ha
    have hwaiting : s.waiting (client.db, ko.ptr) = l := by
      unfold waiting
      rw [hentry]
      rfl
    have hsteady₂ := hsteady₁.trans (Steady.lists (s.setCell key (some (.robj o₁))) clients
      (s.ioKeys.insert (client.db, ko.ptr) (ko', l ++ [c])) s.ready)
    refine hf _ (h.list hc hkbytes hkswap (h.waits.keyObject _ _ hentry) hclients ?_
      hsteady₂.swapping hbytes₁ ?_ ?_) hsteady₂
    · rw [hwaiting]
      rfl
    · refine hcounted₁.lists _ _ (fun a => congrArg (· + owed.count a) (hrefs₂ a)) fun a v ha => ?_
      have hzero := (hcounted₁.pointer ha).2
      have hsame := hrefs₂ a
      have hzero' : s.jobRefs a + State.waitRefs { s with clients } a + s.held.count a = 0 := hzero
      show State.waitRefs { s with
        clients
        ioKeys := s.ioKeys.insert (client.db, ko.ptr) (ko', l ++ [c]) } a = 0
      omega
    · exact fun a ha => hrefs₁ a (lt_of_lt_of_eq ha (hrefs₂ a))

theorem waitForSwappedKey_ends (h : s.Inv ok []) (hmain : s.queues.main = .idle) (hkey : key ∈ s.held)
    (j : JobId) (t : ThreadId) :
    Ends (Allowed ok) (fun r => r.1.Inv ok []) (s.waitForSwappedKey c key j t) := by
  obtain ⟨ko, hko, hks⟩ := h.held_object hkey
  unfold waitForSwappedKey
  refine Ends.need_bind (fun client hc => ?_) fun _ => allowed_disabled
  rw [object_eq_ok.mpr hko, value_bind]
  split
  · exact Ends.pure h
  next v hv =>
  split
  · next hnone => exact absurd hnone (h.counted.ne_none (dictRefs_pos hv))
  · next r hr =>
    split
    · next hsw =>
      refine (vmCancelThreadedIOJob_ends 1 h hmain (x := v) ?_).bind ?_
      · exact .inr ((isSwapping_robj hr).trans hsw)
      · exact fun s' _ hs' => Ends.pure hs'.1
    · exact Ends.pure h
  next vp hvp =>
  refine waitLists_ends h.keys hc hko hks fun s₁ hk₁ hs₁ => ?_
  have h₁ := h.steady hs₁ hk₁
  -- the key and its value are still there
  have hv₁ : s₁.dict.lookup (client.db, ko.ptr) = some v := by rw [hs₁.dict, hv]
  obtain ⟨ko₁, hko₁, hks₁, hptr₁⟩ := hs₁.object hko hks (by
    obtain ⟨o, ho, -⟩ := h₁.held_object (a := key) (by rw [hs₁.held]; exact hkey)
    rw [ho]
    exact Option.some_ne_none _)
  have hvp₁ : s₁.heap v = some (.vmpointer vp) := hs₁.pointer hvp
  dsimp only
  split
  · exact Ends.pure h₁
  next hld =>
  have hload : Ends (Allowed ok) (fun r : State × Bool => r.1.Inv ok []) _ :=
    (queueLoad_ends h₁ hv₁ hvp₁ (Bool.eq_false_iff.mpr hld) hko₁ hks₁ hptr₁ j t).bind
      fun s₂ _ h₂ => Ends.pure (a := (s₂, true)) h₂
  simpa only [bind_assoc] using hload

/-! ## Waiting no longer -/

/-- The search finds a key with the bytes when there is one. -/
theorem searchKey_eq {l : List Addr} (hl : ∀ b ∈ l, ∃ o, s.heap b = some (.robj o))
    (hmem : ∃ b ∈ l, s.bytesOf b = some k) :
    ∃ a, s.searchKey k l = .ok (some a) ∧ a ∈ l ∧ s.bytesOf a = some k := by
  induction l with
  | nil =>
    obtain ⟨b, hb, -⟩ := hmem
    cases hb
  | cons b l ih =>
    obtain ⟨o, ho⟩ := hl b (List.mem_cons_self ..)
    rw [searchKey, object_eq_ok.mpr ho, value_bind]
    split
    · next hk =>
      exact ⟨b, rfl, List.mem_cons_self .., (bytesOf_robj ho).trans (congrArg some hk)⟩
    · next hk =>
      have hrest : ∃ b' ∈ l, s.bytesOf b' = some k := by
        obtain ⟨b', hb', hk'⟩ := hmem
        rcases List.mem_cons.mp hb' with rfl | hb'
        · rw [bytesOf_robj ho] at hk'
          exact absurd (Option.some.inj hk') hk
        · exact ⟨b', hb', hk'⟩
      obtain ⟨a, ha, hal, hka⟩ := ih (fun b' hb' => hl b' (List.mem_cons_of_mem _ hb')) hrest
      exact ⟨a, ha, List.mem_cons_of_mem _ hal, hka⟩

/-- What `dontWaitForSwappedKey` leaves: one entry less in both maps. -/
structure Released (s : State) (c : ClientId) (client : Client) (k : CStr) (a : Addr) (s' : State) :
    Prop where
  mem : a ∈ client.ioKeys
  clients : s'.clients = s.clients.insert c { client with ioKeys := client.ioKeys.erase a }
  waiting : s'.waiting (client.db, k) = (s.waiting (client.db, k)).erase c
  others : ∀ k', k' ≠ (client.db, k) → s'.waiting k' = s.waiting k'
  ready : s'.ready = s.ready

theorem occurrences_erase (s : State) {l : List Addr} (ha : a ∈ l) (k : CStr) :
    s.occurrences (l.erase a) k + (if s.bytesOf a = some k then 1 else 0) = s.occurrences l k := by
  unfold occurrences
  rw [(List.perm_cons_erase ha).countP_eq (fun a => decide (s.bytesOf a = some k)), List.countP_cons]
  simp only [decide_eq_true_eq]

theorem count_erase (l : List ClientId) {c : ClientId} (c' : ClientId) (hc : c ∈ l) :
    (l.erase c).count c' + (if c' = c then 1 else 0) = l.count c' := by
  have hperm := (List.perm_cons_erase hc).count_eq c'
  by_cases hcc : c' = c
  · subst hcc
    rw [List.count_cons_self] at hperm
    rw [if_pos rfl]
    omega
  · rw [List.count_cons_of_ne (Ne.symm hcc)] at hperm
    rw [if_neg hcc]
    omega

/-- The entry of a key when a client no longer waits for it: it goes with its last client. -/
def entryWithout (c : ClientId) (e : Addr × List ClientId) : Option (Addr × List ClientId) :=
  if e.2.erase c = [] then none else some (e.1, e.2.erase c)

theorem entryWithout_clients (c : ClientId) (e : Addr × List ClientId) :
    ((entryWithout c e).map Prod.snd).getD [] = e.2.erase c := by
  unfold entryWithout
  split
  · next hempty => exact hempty.symm
  · rfl

theorem entryWithout_refs (c : ClientId) (e : Addr × List ClientId) (a : Addr) :
    ((entryWithout c e).map Prod.fst).toList.count a +
      (if e.2.erase c = [] then [e.1] else []).count a = [e.1].count a := by
  unfold entryWithout
  split
  · exact Nat.zero_add _
  · exact Nat.add_zero _

/-- One key less for a client, and the client no longer in the key's list. -/
theorem Keys.unlist (h : s.Keys owed) (hc : s.clients.lookup c = some client)
    (ha : a ∈ client.ioKeys) (hka : s.bytesOf a = some k) {e : Addr × List ClientId}
    (hentry : s.ioKeys.lookup (client.db, k) = some e) (hcl : c ∈ e.2)
    (hclients : s'.clients = s.clients.insert c { client with ioKeys := client.ioKeys.erase a })
    (hioKeys : s'.ioKeys = put s.ioKeys (client.db, k) (entryWithout c e))
    (hswapping : ∀ a, s'.isSwapping a = s.isSwapping a) (hbytes : SameBytes s s')
    (hcounted : s'.Counted owed') : s'.Keys owed' := by
  have hclient : s'.clients.lookup c = some { client with ioKeys := client.ioKeys.erase a } := by
    rw [hclients, lookup_insert_eq, if_pos rfl]
  have hbytes' : ∀ b, 0 < s.waitRefs b → 0 < s'.waitRefs b → s'.bytesOf b = s.bytesOf b := by
    intro b hb hb'
    have hpos : 0 < s.otherRefs b ∧ 0 < s'.otherRefs b := by
      unfold otherRefs
      omega
    exact hbytes.bytesOf h.counted hcounted hpos.1 hpos.2
  have hoccur : ∀ k', s'.occurrences (client.ioKeys.erase a) k' +
      (if s.bytesOf a = some k' then 1 else 0) = s.occurrences client.ioKeys k' := by
    intro k'
    rw [occurrences_congr (s := s) fun b hb => hbytes' b
      (waitRefs_client hc (List.mem_of_mem_erase hb)) (waitRefs_client hclient hb)]
    exact occurrences_erase s ha k'
  have hwaiting : s.waiting (client.db, k) = e.2 := by
    unfold waiting
    rw [hentry]
    rfl
  refine ⟨hcounted, ?_, fun b hb => ?_⟩
  · refine h.waits.write hc hclients hioKeys ?_ hbytes' ?_ ?_ ?_
    · intro ko' l' he'
      have hentry' : s'.ioKeys.lookup (client.db, k) = some (ko', l') := by
        rw [hioKeys, lookup_put, if_pos rfl, he']
      unfold entryWithout at he'
      split at he'
      · cases he'
      · next hempty =>
        obtain ⟨rfl, rfl⟩ := Prod.mk.inj (Option.some.inj he')
        have hpos := waitRefs_key hentry'
        refine ⟨hempty, ?_⟩
        rw [hbytes' e.1 (waitRefs_key hentry) hpos]
        exact h.waits.keyObject _ _ hentry
    · intro c' hne
      have hcount := count_erase e.2 c' hcl
      rw [if_neg hne] at hcount
      rw [entryWithout_clients, hwaiting]
      exact hcount
    · have hcount := count_erase e.2 c hcl
      have ho := hoccur k
      rw [if_pos rfl] at hcount
      rw [if_pos hka] at ho
      rw [entryWithout_clients, hwaiting]
      omega
    · intro k' hne
      have ho := hoccur k'
      rw [hka, if_neg fun heq => hne (Option.some.inj heq).symm] at ho
      exact ho
  · -- only what was listed before is listed now
    have hle : s'.waitRefs b ≤ s.waitRefs b := by
      have hw := waitRefs_clients hc (client.ioKeys.erase a) b
      rw [← hclients] at hw
      have hw' := waitRefs_ioKeys { s with clients := s'.clients } (client.db, k) (entryWithout c e) b
      dsimp only at hw'
      rw [← hioKeys, hentry] at hw'
      have herase := (List.perm_cons_erase ha).count_eq b
      rw [count_cons_split a] at herase
      have hrefs := entryWithout_refs c e b
      have hsame : State.waitRefs { s with clients := s'.clients, ioKeys := s'.ioKeys } b =
          s'.waitRefs b := rfl
      have hold : ((some e).map Prod.fst).toList.count b = [e.1].count b := rfl
      omega
    rw [hswapping]
    exact h.memory b (by omega)

/-- The end of `dontWaitForSwappedKey` for the key's list: it is written, and its own reference goes with
it. -/
theorem writeEntry_eq {s₀ : State} (h : s.Counted owed) (hst : Steady s₀ s) {e : Addr × List ClientId}
    {k : DbKey} (hentry : s.ioKeys.lookup k = some e)
    (hobject : ∃ o, s₀.heap e.1 = some (.robj o) ∧ o.swapping = false) (c : ClientId) :
    ∃ s', (if e.2.erase c = [] then decrRefCount { s with ioKeys := s.ioKeys.erase k } e.1
      else pure { s with ioKeys := s.ioKeys.insert k (e.1, e.2.erase c) }) = .ok s' ∧
      s'.Counted owed ∧ Steady s₀ s' ∧
      SameLists { s with ioKeys := put s.ioKeys k (entryWithout c e) } s' := by
  have hrefs : ∀ b, ({ s with ioKeys := put s.ioKeys k (entryWithout c e) } : State).waitRefs b +
      (if e.2.erase c = [] then [e.1] else []).count b = s.waitRefs b := by
    intro b
    have hw := waitRefs_ioKeys s k (entryWithout c e) b
    have hcount := entryWithout_refs c e b
    rw [hentry] at hw
    have hold : ((some e).map Prod.fst).toList.count b = [e.1].count b := rfl
    omega
  have hc : ({ s with ioKeys := put s.ioKeys k (entryWithout c e) } : State).Counted
      ((if e.2.erase c = [] then [e.1] else []) ++ owed) := by
    refine h.lists s.clients _ (fun b => ?_) fun b v hb => ?_
    · rw [List.count_append, ← hrefs b]
      exact (Nat.add_assoc _ _ _).symm
    · have hzero := (h.pointer hb).2
      have hr := hrefs b
      unfold otherRefs at hzero
      show State.waitRefs { s with ioKeys := put s.ioKeys k (entryWithout c e) } b = 0
      omega
  have hst' := hst.trans (Steady.lists s s.clients (put s.ioKeys k (entryWithout c e)) s.ready)
  by_cases hempty : e.2.erase c = []
  · obtain ⟨o, ho, hs⟩ := hobject
    rw [if_pos hempty] at hc
    obtain ⟨s₁, hs₁, hc₁, hst₁, hl₁⟩ := hst'.decr hc ho hs
    refine ⟨s₁, ?_, hc₁, hst₁, hl₁⟩
    rw [if_pos hempty, ← hs₁, entryWithout, if_pos hempty]
    rfl
  · rw [if_neg hempty] at hc
    refine ⟨_, ?_, hc, hst', rfl, rfl, rfl⟩
    rw [if_neg hempty, entryWithout, if_neg hempty]
    rfl

theorem dontWaitForSwappedKey_eq {ko : Object} (h : s.Keys owed)
    (hc : s.clients.lookup c = some client) (hko : s.heap key = some (.robj ko))
    (hks : ko.swapping = false) (hmem : ∃ a ∈ client.ioKeys, s.bytesOf a = some ko.ptr) :
    ∃ s' a, s.dontWaitForSwappedKey c key = .ok (s', (client.ioKeys.erase a).isEmpty) ∧
      s'.Keys owed ∧ Steady s s' ∧ Released s c client ko.ptr a s' := by
  have hne : s.heap key ≠ none := by
    rw [hko]
    exact Option.some_ne_none _
  obtain ⟨s₁, hs₁, hc₁, hst₁, hl₁⟩ := (Steady.refl s).incr h.counted hko hks hne
  obtain ⟨k₁, hk₁, -, hptr₁⟩ := hst₁.object hko hks hc₁.owed_ne_none
  have hclient₁ : s₁.clients.lookup c = some client := by rw [hl₁.clients, hc]
  -- every key of the client is there still, with its bytes
  have hpos₁ : ∀ b ∈ client.ioKeys, 0 < s.otherRefs b ∧ 0 < s₁.otherRefs b := by
    intro b hb
    have hw := waitRefs_client hc hb
    have hw₁ := waitRefs_client hclient₁ hb
    unfold otherRefs
    omega
  obtain ⟨a, hsearch, ha, hka⟩ := searchKey_eq (s := s₁) (k := k₁.ptr) (l := client.ioKeys)
    (fun b hb => hc₁.object (hpos₁ b hb).2) (by
      obtain ⟨b, hb, hkb⟩ := hmem
      refine ⟨b, hb, ?_⟩
      rw [hst₁.bytes.bytesOf h.counted hc₁ (hpos₁ b hb).1 (hpos₁ b hb).2, hkb, hptr₁])
  have hka' : s.bytesOf a = some ko.ptr := by
    rw [← hst₁.bytes.bytesOf h.counted hc₁ (hpos₁ a ha).1 (hpos₁ a ha).2, hka, hptr₁]
  obtain ⟨ko', l, hentry, hcl⟩ := h.waits.entry hc ha hka'
  obtain ⟨ao, hao, has⟩ := h.object (waitRefs_client hc ha)
  -- the client's list
  obtain ⟨clients, hclients⟩ : ∃ clients, clients =
    s₁.clients.insert c { client with ioKeys := client.ioKeys.erase a } := ⟨_, rfl⟩
  have hrefs : ∀ b, ({ s₁ with clients } : State).waitRefs b + [a].count b = s₁.waitRefs b := by
    intro b
    have hw := waitRefs_clients hclient₁ (client.ioKeys.erase a) b
    rw [← hclients] at hw
    have herase := (List.perm_cons_erase ha).count_eq b
    rw [count_cons_split a] at herase
    omega
  have hc₂ : ({ s₁ with clients } : State).Counted (a :: key :: owed) := by
    refine hc₁.lists _ s₁.ioKeys (fun b => ?_) fun b v hb => ?_
    · rw [count_cons_split a, ← hrefs b]
      exact (Nat.add_assoc _ _ _).symm
    · have hzero := (hc₁.pointer hb).2
      have hr := hrefs b
      unfold otherRefs at hzero
      omega
  obtain ⟨s₃, hs₃, hc₃, hst₃, hl₃⟩ := (hst₁.trans (Steady.lists s₁ clients s₁.ioKeys s₁.ready)).decr
    hc₂ hao has
  have hentry₃ : s₃.ioKeys.lookup (client.db, ko.ptr) = some (ko', l) := by
    rw [hl₃.ioKeys]
    show s₁.ioKeys.lookup _ = _
    rw [hl₁.ioKeys, hentry]
  -- the key's list
  obtain ⟨s₅, hs₅, hc₅, hst₅, hl₅⟩ := writeEntry_eq hc₃ hst₃ hentry₃ (h.object (waitRefs_key hentry)) c
  obtain ⟨s₆, hs₆, hc₆, hst₆, hl₆⟩ := hst₅.decr hc₅ hko hks
  have hclients₆ : s₆.clients = s.clients.insert c { client with ioKeys := client.ioKeys.erase a } := by
    rw [hl₆.clients, hl₅.clients]
    show s₃.clients = _
    rw [hl₃.clients]
    show clients = _
    rw [hclients, hl₁.clients]
  have hioKeys₆ : s₆.ioKeys = put s.ioKeys (client.db, ko.ptr) (entryWithout c (ko', l)) := by
    rw [hl₆.ioKeys, hl₅.ioKeys]
    show put s₃.ioKeys _ _ = _
    rw [hl₃.ioKeys]
    show put s₁.ioKeys _ _ = _
    rw [hl₁.ioKeys]
  have hready₆ : s₆.ready = s.ready := by
    rw [hl₆.ready, hl₅.ready]
    show s₃.ready = _
    rw [hl₃.ready]
    exact hl₁.ready
  have hrun : s.dontWaitForSwappedKey c key = .ok (s₆, (client.ioKeys.erase a).isEmpty) := by
    unfold dontWaitForSwappedKey
    rw [hs₁, value_bind, hclient₁, need_some, value_bind, object_eq_ok.mpr hk₁, value_bind, hsearch,
      value_bind, need_some, value_bind]
    dsimp only
    rw [← hclients, hs₃, value_bind, hptr₁, hentry₃, need_some, value_bind]
    dsimp only at hs₅ ⊢
    rw [check_pos hcl, value_bind]
    split
    · next hempty =>
      rw [if_pos hempty] at hs₅
      rw [hs₅, value_bind, hs₆]
      rfl
    · next hempty =>
      rw [if_neg hempty] at hs₅
      rw [hs₅, value_bind, hs₆]
      rfl
  refine ⟨s₆, a, hrun, h.unlist hc ha hka' hentry hcl hclients₆ hioKeys₆ hst₆.swapping hst₆.bytes hc₆,
    hst₆, ha, hclients₆, ?_, fun k' hne => ?_, hready₆⟩
  · unfold waiting
    rw [hioKeys₆, lookup_put, if_pos rfl, entryWithout_clients, hentry]
    rfl
  · unfold waiting
    rw [hioKeys₆, lookup_put, if_neg hne]

/-! ## Handling a key -/

/-- The keys a client waits for. -/
def keysOf (s : State) (c : ClientId) : List Addr := ((s.clients.lookup c).map Client.ioKeys).getD []

/-- The clients that have stopped to wait are ready now, each once. -/
def Readied (s s' : State) : Prop :=
  ∃ l, s'.ready = s.ready ++ l ∧ ∀ c, l.count c = if s.keysOf c ≠ [] ∧ s'.keysOf c = [] then 1 else 0

theorem Readied.same (hclients : s'.clients = s.clients) (hready : s'.ready = s.ready) :
    Readied s s' := by
  refine ⟨[], hready.trans (List.append_nil _).symm, fun c => ?_⟩
  have hkeys : s'.keysOf c = s.keysOf c := by
    unfold keysOf
    rw [hclients]
  rw [hkeys, if_neg fun hc => hc.1 hc.2]
  rfl

theorem Readied.congr {s₁ s₂ : State} (h : Readied s₁ s₂) (hclients : s₁.clients = s.clients)
    (hready : s₁.ready = s.ready) (hclients' : s'.clients = s₂.clients)
    (hready' : s'.ready = s₂.ready) : Readied s s' := by
  unfold Readied keysOf at h ⊢
  rw [hclients', hready', ← hclients, ← hready]
  exact h

/-- What `handleClientsBlockedOnSwappedKey` leaves: nobody waits for the key, and who waited for it
alone is ready. -/
structure Handled (s : State) (k : DbKey) (s' : State) : Prop where
  gone : s'.ioKeys.lookup k = none
  others : ∀ k', k' ≠ k → s'.waiting k' = s.waiting k'
  shrinks : ∀ c, s.keysOf c = [] → s'.keysOf c = []
  ready : Readied s s'

theorem Keys.ready (h : s.Keys owed) (ready : List ClientId) : ({ s with ready } : State).Keys owed :=
  ⟨h.counted, h.waits.congr rfl rfl fun _ _ => rfl, h.memory⟩

theorem Handled.nil (h : s.Waits) {k : DbKey} (hk : s.waiting k = []) : Handled s k s where
  gone := by
    cases hentry : s.ioKeys.lookup k with
    | none => rfl
    | some e =>
      unfold waiting at hk
      rw [hentry] at hk
      exact absurd hk (h.nonempty k e hentry)
  others _ _ := rfl
  shrinks _ hc := hc
  ready := .same rfl rfl

/-- The first of the clients of a key waits for it. -/
theorem Waits.head (h : s.Waits) {l : List ClientId} (hl : s.waiting (db, k) = c :: l) :
    ∃ client, s.clients.lookup c = some client ∧ client.db = db ∧
      ∃ a ∈ client.ioKeys, s.bytesOf a = some k := by
  have hcount := h.count c db k
  rw [hl, List.count_cons_self] at hcount
  cases hclient : s.clients.lookup c with
  | none =>
    unfold awaited at hcount
    rw [hclient] at hcount
    exact absurd hcount (Nat.succ_ne_zero _)
  | some client =>
    rw [awaited_eq hclient] at hcount
    by_cases hdb : client.db = db
    · rw [if_pos hdb] at hcount
      have hpos : 0 < s.occurrences client.ioKeys k := by omega
      obtain ⟨a, ha, hk⟩ := List.countP_pos_iff.mp hpos
      exact ⟨client, rfl, hdb, a, ha, of_decide_eq_true hk⟩
    · rw [if_neg hdb] at hcount
      omega

theorem keysOf_eq (hc : s.clients.lookup c = some client) : s.keysOf c = client.ioKeys := by
  unfold keysOf
  rw [hc]
  rfl

theorem Released.keysOf (h : Released s c client k a s') (c' : ClientId) :
    s'.keysOf c' = if c' = c then client.ioKeys.erase a else s.keysOf c' := by
  unfold State.keysOf
  rw [h.clients, lookup_insert_eq]
  split <;> rfl

/-- The loop: as many iterations as there are entries in the list. -/
theorem handleLoop_eq {len : Nat} (h : s.Keys owed) (hkey : s.heap key = some (.robj o))
    (hs : o.swapping = false) (hk : o.ptr = k) (hpin : 0 < s.jobRefs key + s.held.count key)
    (hlen : (s.waiting (db, k)).length = len) :
    ∃ s', handleLoop db k key len s = .ok s' ∧ s'.Keys owed ∧ Steady s s' ∧ Handled s (db, k) s' := by
  induction len generalizing s o with
  | zero =>
    exact ⟨s, rfl, h, Steady.refl s, .nil h.waits (List.length_eq_zero_iff.mp hlen)⟩
  | succ len ih =>
    obtain ⟨c, l, hl⟩ := List.exists_cons_of_length_eq_add_one hlen
    obtain ⟨client, hc, hdb, hmem⟩ := h.waits.head hl
    rw [← hk] at hmem
    obtain ⟨s₁, a, hs₁, hk₁, hst₁, hrel⟩ := dontWaitForSwappedKey_eq h hc hkey hs hmem
    rw [hk] at hrel
    subst hdb
    -- the state in which the loop goes on
    obtain ⟨ready, hready⟩ : ∃ ready, ready =
      if (client.ioKeys.erase a).isEmpty = true then s₁.ready ++ [c] else s₁.ready := ⟨_, rfl⟩
    have hst₂ : Steady s { s₁ with ready } := hst₁.trans (Steady.lists s₁ s₁.clients s₁.ioKeys ready)
    have hpin₁ : 0 < s₁.jobRefs key + s₁.held.count key := by
      unfold jobRefs at hpin ⊢
      rw [hst₁.jobs, hst₁.held]
      exact hpin
    obtain ⟨o₁, ho₁, hs₁', hptr₁⟩ := hst₁.object hkey hs (by
      obtain ⟨o₁, ho₁⟩ := hk₁.counted.object (a := key) (by unfold otherRefs; omega)
      rw [ho₁]
      exact Option.some_ne_none _)
    have hwaiting : s₁.waiting (client.db, k) = l := by
      rw [hrel.waiting, hl, List.erase_cons_head]
    have hlen₁ : l.length = len := by
      rw [hl, List.length_cons] at hlen
      omega
    obtain ⟨s', hs', hkeys', hst', hhandled⟩ := ih (s := { s₁ with ready }) (hk₁.ready ready) ho₁ hs₁'
      (hptr₁.trans hk) hpin₁ ((congrArg List.length hwaiting).trans hlen₁)
    refine ⟨s', ?_, hkeys', hst₂.trans hst', hhandled.gone, fun k' hne => ?_, fun c' hnone => ?_, ?_⟩
    · obtain ⟨ko', hentry⟩ : ∃ ko', s.ioKeys.lookup (client.db, k) = some (ko', c :: l) := by
        unfold waiting at hl
        cases he : s.ioKeys.lookup (client.db, k) with
        | none =>
          rw [he] at hl
          cases hl
        | some e =>
          rw [he] at hl
          exact ⟨e.1, congrArg some (Prod.ext rfl hl)⟩
      rw [handleLoop, hentry, need_some, value_bind]
      dsimp only
      rw [List.head?_cons, need_some, value_bind, hs₁, value_bind, ← hs']
      dsimp only
      rw [hready]
      split <;> rfl
    · exact (hhandled.others k' hne).trans (hrel.others k' hne)
    · refine hhandled.shrinks c' ((hrel.keysOf c').trans ?_)
      rw [if_neg]
      · exact hnone
      · rintro rfl
        rw [keysOf_eq hc] at hnone
        have hmem := hrel.mem
        rw [hnone] at hmem
        cases hmem
    · obtain ⟨l', hl', hcount⟩ := hhandled.ready
      have hcount₁ : ∀ c', l'.count c' = if s₁.keysOf c' ≠ [] ∧ s'.keysOf c' = [] then 1 else 0 :=
        hcount
      have hwas : s.keysOf c ≠ [] := by
        rw [keysOf_eq hc]
        exact List.ne_nil_of_mem hrel.mem
      have hafter := hrel.keysOf c
      rw [if_pos rfl] at hafter
      have hrest : ∀ c', c' ≠ c → s₁.keysOf c' = s.keysOf c' := by
        intro c' hne
        rw [hrel.keysOf, if_neg hne]
      by_cases hlast : client.ioKeys.erase a = []
      · -- its last key: ready now, and not again
        refine ⟨c :: l', ?_, fun c' => ?_⟩
        · rw [hl']
          show ready ++ l' = _
          rw [hready, hlast, hrel.ready]
          exact List.append_assoc ..
        · by_cases hcc : c' = c
          · subst hcc
            have hdone := hhandled.shrinks c' (hafter.trans hlast)
            rw [List.count_cons_self, hcount₁, if_neg fun hn => hn.1 (hafter.trans hlast),
              if_pos ⟨hwas, hdone⟩]
          · rw [List.count_cons_of_ne (Ne.symm hcc), hcount₁, hrest c' hcc]
      · refine ⟨l', ?_, fun c' => ?_⟩
        · rw [hl']
          show ready ++ l' = _
          rw [hready, if_neg, hrel.ready]
          rw [List.isEmpty_iff]
          exact hlast
        · rw [hcount₁]
          by_cases hcc : c' = c
          · subst hcc
            simp only [hafter, hlast, hwas, ne_eq, not_false_eq_true, true_and]
          · rw [hrest c' hcc]

/-- `handleClientsBlockedOnSwappedKey`, for a key that stays in memory meanwhile. -/
theorem handleClientsBlockedOnSwappedKey_eq (h : s.Keys owed) (hkey : s.heap key = some (.robj o))
    (hs : o.swapping = false) (hpin : 0 < s.jobRefs key + s.held.count key) (db : DbId) :
    ∃ s', s.handleClientsBlockedOnSwappedKey db key = .ok s' ∧ s'.Keys owed ∧ Steady s s' ∧
      Handled s (db, o.ptr) s' := by
  unfold handleClientsBlockedOnSwappedKey
  rw [object_eq_ok.mpr hkey, value_bind]
  cases hentry : s.ioKeys.lookup (db, o.ptr) with
  | none =>
    refine ⟨s, rfl, h, Steady.refl s, .nil h.waits ?_⟩
    unfold waiting
    rw [hentry]
    rfl
  | some e =>
    refine handleLoop_eq h hkey hs rfl hpin ?_
    unfold waiting
    rw [hentry]
    rfl

end State

end Rtfsc.Redis.Vm
