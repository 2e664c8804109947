import Rtfsc.Redis.VmCancel

/-!
# redis: a value of a database is replaced

Storing and deleting, swapping a value out while everybody waits, and loading one: each ends with
another value, or none, under a key, and the old one gives back its pages. `Inv.replace` is what they
have in common.
-/

namespace Rtfsc.Redis.Vm

open Rtfsc.Machine

namespace State

variable {s s' : State} {ok : Prop} {owed owed' : List Addr} {a v x : Addr} {o : Object} {k : DbKey}
  {n : Option Addr}

/-- Whether there is a `vmpointer` at an address. -/
def pointerAt (s : State) (v : Addr) : Nat := if (s.pagesOf v).isSome then 1 else 0

theorem elim_eq_count (n : Option Addr) (a : Addr) :
    (n.elim 0 fun v => if v = a then 1 else 0) = n.toList.count a := by
  cases n with
  | none => rfl
  | some v => simp [List.count_singleton]

theorem dictRefs_put {t : State} (hdict : t.dict = put s.dict k n) (a : Addr) :
    t.dictRefs a + (s.dict.lookup k).toList.count a = s.dictRefs a + n.toList.count a := by
  have hmoved := total_put s.dict k n fun _ v => if v = a then 1 else 0
  rw [elim_eq_count, elim_eq_count] at hmoved
  unfold dictRefs
  rw [hdict]
  exact hmoved

/-- The references owed when an entry is written: the old value's instead of the new one's. -/
theorem Counted.put (h : s.Counted owed) (hheap : s'.heap = s.heap)
    (hdict : s'.dict = Machine.put s.dict k n)
    (hrefs : ∀ b, s'.otherRefs b + owed'.count b + n.toList.count b =
      s.otherRefs b + owed.count b + (s.dict.lookup k).toList.count b)
    (hother : ∀ b, s'.otherRefs b ≤ s.otherRefs b) : s'.Counted owed' := by
  refine h.move hheap (fun b => ?_) fun b v hb => ?_
  · have hd := dictRefs_put hdict b
    have hr := hrefs b
    omega
  · have hzero := (h.pointer hb).2
    have hle := hother b
    omega

/-- A weight of what is at an address, summed over the databases, when one entry is written. -/
theorem total_dict_put (hdict : s'.dict = put s.dict k n) {f g : Addr → Nat}
    (hsame : ∀ k' v, k' ≠ k → s.dict.lookup k' = some v → g v = f v) :
    total (fun _ v => g v) s'.dict + (s.dict.lookup k).elim 0 f =
      total (fun _ v => f v) s.dict + n.elim 0 g := by
  have hmoved : total (fun _ v => g v) (put s.dict k n) + (s.dict.lookup k).elim 0 g =
      total (fun _ v => g v) s.dict + n.elim 0 g := total_put s.dict k n fun _ v => g v
  have herase : total (fun _ v => g v) s.dict + (s.dict.lookup k).elim 0 f =
      total (fun _ v => f v) s.dict + (s.dict.lookup k).elim 0 g := by
    cases hk : s.dict.lookup k with
    | none =>
      refine congrArg (· + 0) (total_congr fun k' v hv => hsame k' v ?_ hv)
      rintro rfl
      rw [hk] at hv
      cases hv
    | some v =>
      rw [total_of_lookup hk, total_of_lookup hk]
      have hrest : total (fun _ v => g v) (s.dict.erase k) =
          total (fun _ v => f v) (s.dict.erase k) := by
        refine total_congr fun k' v' hv => ?_
        rw [lookup_erase_eq] at hv
        split at hv
        · cases hv
        · next hne => exact hsame k' v' hne hv
      rw [hrest]
      show g v + _ + f v = f v + _ + g v
      omega
  rw [hdict]
  omega

/-- The value under one key changes, and jobs may come and go: the counters and the owners are right where
they are for this value and these jobs. -/
theorem PageShape.put (h : s.PageShape ok) (hdict : s'.dict = Machine.put s.dict k n)
    (hpages : ∀ k' v, k' ≠ k → s.dict.lookup k' = some v → s'.pagesOf v = s.pagesOf v)
    (hswapped : s'.swappedObjects + ((s.dict.lookup k).elim 0 s.pointerAt : Nat) =
      s.swappedObjects + (n.elim 0 s'.pointerAt : Nat))
    (htallied : s'.swap.Tallied) (hnext : s'.swap.nextPage ≤ s'.swap.pages)
    (howned : ok → ∀ p, (if s'.swap.Used p then 1 else 0) + (s.dict.lookup k).elim 0 (s.ownsPage p) +
        total (fun _ job => job.ownsPage p) s.jobs =
      (if s.swap.Used p then 1 else 0) + n.elim 0 (s'.ownsPage p) +
        total (fun _ job => job.ownsPage p) s'.jobs) : s'.PageShape ok := by
  refine ⟨?_, htallied, hnext, fun hok p => ?_⟩
  · have hmoved := total_dict_put (f := s.pointerAt) (g := s'.pointerAt) hdict
      fun k' v hne hv => by
        unfold pointerAt
        rw [hpages k' v hne hv]
    have hpointers : s.swappedObjects = (total (fun _ v => s.pointerAt v) s.dict : Nat) := h.pointers
    show s'.swappedObjects = (total (fun _ v => s'.pointerAt v) s'.dict : Nat)
    omega
  · have hmoved := total_dict_put (f := s.ownsPage p) (g := s'.ownsPage p) hdict
      fun k' v hne hv => ownsPage_congr (hpages k' v hne hv) p
    have hp := h.owned hok p
    have hp' := howned hok p
    unfold owners at hp ⊢
    omega

/-- The entry of one key changes, its old value and its new one neither loading nor being swapped
out; the pages of the old one are given back, those of the new one taken. -/
theorem Inv.replace (h : s.Inv ok owed) (hdict : s'.dict = put s.dict k n) (hjobs : s'.jobs = s.jobs)
    (hqueues : s'.queues = s.queues) (hioKeys : s'.ioKeys = s.ioKeys)
    (hclients : s'.clients = s.clients) (hcounted : s'.Counted owed')
    (hsw : ∀ a, s'.isSwapping a = s.isSwapping a) (hld : ∀ a, s'.isLoading a = s.isLoading a)
    (hheld : ∀ a, s.isSwapping a = true → s'.held.count a = s.held.count a)
    (hold : ∀ v, s.dict.lookup k = some v → s.isSwapping v = false ∧ s.isLoading v = false)
    (hnew : ∀ v, n = some v → s.isSwapping v = false) (hbytes : SameBytes s s')
    (hpages : ∀ k' v, k' ≠ k → s.dict.lookup k' = some v → s'.pagesOf v = s.pagesOf v)
    (hswapped : s'.swappedObjects + ((s.dict.lookup k).elim 0 s.pointerAt : Nat) =
      s.swappedObjects + (n.elim 0 s'.pointerAt : Nat))
    (htallied : s'.swap.Tallied) (hnext : s'.swap.nextPage ≤ s'.swap.pages)
    (howned : ok → ∀ p, (if s'.swap.Used p then 1 else 0) + (s.dict.lookup k).elim 0 (s.ownsPage p) =
      (if s.swap.Used p then 1 else 0) + n.elim 0 (s'.ownsPage p)) : s'.Inv ok owed' where
  counted := hcounted
  jobs := by
    refine h.jobs.congr hjobs (fun j => by rw [hqueues]) hsw hld (fun a ha => ⟨?_, ?_⟩) ?_ ?_
    · have hrefs := dictRefs_put hdict a
      have hleft : (s.dict.lookup k).toList.count a = 0 := by
        refine List.count_eq_zero.mpr fun hmem => ?_
        rw [(hold a (Option.mem_toList.mp hmem)).1] at ha
        cases ha
      have hright : n.toList.count a = 0 := by
        refine List.count_eq_zero.mpr fun hmem => ?_
        rw [hnew a (Option.mem_toList.mp hmem)] at ha
        cases ha
      omega
    · unfold otherRefs jobRefs waitRefs
      rw [hjobs, hclients, hioKeys, hheld a ha]
    · intro j job hj hlive k' hk'
      rw [hdict, lookup_put, if_neg, hk']
      rintro rfl
      obtain ⟨hnot, hnot'⟩ := hold _ hk'
      rcases h.jobs.busy hj hlive with hb | hb
      · rw [hnot'] at hb
        cases hb
      · rw [hnot] at hb
        cases hb
    · intro j job hj _
      have hj' : s'.jobs.lookup j = some job := by rw [hjobs, hj]
      exact hbytes.bytesOf h.counted hcounted (key_otherRefs hj) (key_otherRefs hj')
  waits := h.waits.sameBytes h.counted hcounted hioKeys hclients hbytes
  pages := by
    refine h.pages.put hdict hpages hswapped htallied hnext fun hok p => ?_
    rw [hjobs, howned hok p]
  placed := by
    refine ⟨?_, ?_⟩
    · rw [hqueues]
      exact h.placed.handOff
    · rw [hqueues, hjobs]
      exact h.placed.jobs

/-- The pages of a value that is still stored are in use. -/
theorem PageShape.used_of_value (h : s.PageShape ok) (hok : ok) (hk : s.dict.lookup k = some v)
    {p : Nat} (hp : s.ownsPage p v = 1) : s.swap.Used p := by
  have howned := h.owned hok p
  have hle := le_total hk fun _ v => s.ownsPage p v
  unfold owners at howned
  by_contra hu
  rw [if_neg hu] at howned
  omega

theorem ownsPage_pointer {vp : VmPointer} (hv : s.heap v = some (.vmpointer vp)) (p : Nat) :
    s.ownsPage p v = if SwapFile.Covers vp.page vp.usedpages p then 1 else 0 := by
  unfold ownsPage
  rw [pagesOf_pointer hv]

theorem ownsPage_robj (hv : s.heap v = some (.robj o)) (p : Nat) : s.ownsPage p v = 0 := by
  unfold ownsPage
  rw [pagesOf_robj hv]

theorem pointerAt_pointer {vp : VmPointer} (hv : s.heap v = some (.vmpointer vp)) :
    s.pointerAt v = 1 := by
  unfold pointerAt
  rw [pagesOf_pointer hv]
  rfl

theorem pointerAt_robj (hv : s.heap v = some (.robj o)) : s.pointerAt v = 0 := by
  unfold pointerAt
  rw [pagesOf_robj hv]
  rfl

theorem freeValuePages_ends (h : s.PageShape ok) (hk : s.dict.lookup k = some v) {vp : VmPointer}
    (hv : s.heap v = some (.vmpointer vp)) {first n : Nat} (hfirst : vp.page = first)
    (hn : vp.usedpages = n) :
    Ends (Allowed ok) (GivenBack ok s.swap fun p => s.ownsPage p v)
      (s.swap.vmMarkPagesFree first n) := by
  subst hfirst hn
  exact h.free_ends (ownsPage_pointer hv) fun hok p => h.used_of_value hok hk

/-- A `vmpointer` is the value of one key. -/
theorem Counted.pointer_unique (h : s.Counted owed) {vp : VmPointer}
    (hv : s.heap v = some (.vmpointer vp)) (hk : s.dict.lookup k = some v) {k' : DbKey}
    (hne : k' ≠ k) : s.dict.lookup k' ≠ some v := by
  intro hk'
  have hone := (h.pointer hv).1
  have hall := total_of_lookup hk fun _ v' => if v' = v then 1 else 0
  have hlookup : (s.dict.erase k).lookup k' = some v := by
    rw [lookup_erase_eq, if_neg hne, hk']
  have hle := le_total hlookup fun _ v' => if v' = v then 1 else 0
  rw [if_pos rfl] at hall hle
  unfold dictRefs at hone
  omega

theorem dictRefs_pos (hk : s.dict.lookup k = some v) : 0 < s.dictRefs v := by
  have hle := le_total hk fun _ v' => if v' = v then 1 else 0
  rw [if_pos rfl] at hle
  exact hle

/-- Freeing a `vmpointer` that is not loading leaves the other addresses as they are. -/
theorem free_pointer_views {vp : VmPointer} (hv : s.heap v = some (.vmpointer vp))
    (hld : s.isLoading v = false) :
    (∀ b, (s.setCell v none).isSwapping b = s.isSwapping b) ∧
      (∀ b, (s.setCell v none).isLoading b = s.isLoading b) ∧
      (∀ b, b ≠ v → (s.setCell v none).pagesOf b = s.pagesOf b) ∧
      SameBytes s (s.setCell v none) := by
  refine ⟨fun b => ?_, fun b => ?_, fun b hb => ?_, ?_⟩
  · rw [setCell_isSwapping]
    split
    · next hb => rw [hb, isSwapping_pointer hv]
    · rfl
  · rw [setCell_isLoading]
    split
    · next hb => rw [hb, hld]
    · rfl
  · rw [setCell_pagesOf, if_neg hb]
  · exact SameBytes.setCell rfl fun o₁ o₂ _ ho₂ => nomatch ho₂

/-! ## Storing and deleting -/

/-- The rest of the server hands its reference to the database. -/
theorem otherRefs_handed (hn : ∀ a, n = some a → a ∈ s.held) (b : Addr) :
    ({ s with held := n.elim s.held s.held.erase } : State).otherRefs b + n.toList.count b =
      s.otherRefs b := by
  have hheld := otherRefs_held s (n.elim s.held s.held.erase) b
  cases n with
  | none => exact rfl
  | some a =>
    have herase := (List.perm_cons_erase (hn a rfl)).count_eq b
    rw [List.count_cons] at herase
    rw [Option.toList_some, List.count_singleton]
    show _ + _ = _
    simp only [Option.elim_some] at hheld ⊢
    omega

/-- What the rest of the server holds is an object in memory. -/
theorem Inv.held_views (h : s.Inv ok owed) (ha : a ∈ s.held) :
    s.isSwapping a = false ∧ s.pagesOf a = none := by
  obtain ⟨o, ho, hs⟩ := h.held_object ha
  exact ⟨(isSwapping_robj ho).trans hs, pagesOf_robj ho⟩

theorem Inv.held_count (h : s.Inv ok owed) (hn : ∀ a, n = some a → a ∈ s.held) (b : Addr)
    (hb : s.isSwapping b = true) : (n.elim s.held s.held.erase).count b = s.held.count b := by
  cases n with
  | none => rfl
  | some a =>
    refine List.count_erase_of_ne ?_
    rintro rfl
    rw [(h.held_views (hn b rfl)).1] at hb
    cases hb

theorem elim_zero {w : Addr → Nat} (hw : ∀ a, n = some a → w a = 0) : n.elim 0 w = 0 := by
  cases n with
  | none => rfl
  | some a => exact hw a rfl

theorem pointerAt_of_none (h : s.pagesOf a = none) : s.pointerAt a = 0 := by
  unfold pointerAt
  rw [h]
  rfl

theorem ownsPage_of_none (h : s.pagesOf a = none) (p : Nat) : s.ownsPage p a = 0 := by
  unfold ownsPage
  rw [h]

/-- An object in the rest of the server's hands goes under a key, or nothing does; the old value, no
longer busy, has been dropped: its cell `c` and the pages it owned are what is left of it. -/
theorem Inv.putHeld (h : s.Inv ok []) (swap : SwapFile) (swapped : Int)
    (hn : ∀ a, n = some a → a ∈ s.held) (hk : s.dict.lookup k = some v)
    (hidle : s.isSwapping v = false ∧ s.isLoading v = false) {c : Option Cell}
    (hdrop : ∀ s' : State, s'.heap = s.heap → s'.Counted [v] → (s'.setCell v c).Counted [])
    (hsw : ∀ b, (s.setCell v c).isSwapping b = s.isSwapping b)
    (hld : ∀ b, (s.setCell v c).isLoading b = s.isLoading b)
    (hpages : ∀ b, (s.pagesOf b = none ∨ b ≠ v) → (s.setCell v c).pagesOf b = s.pagesOf b)
    (hbytes : SameBytes s (s.setCell v c))
    (hswapped : swapped + (s.pointerAt v : Nat) = s.swappedObjects)
    (hback : GivenBack ok s.swap (fun p => s.ownsPage p v) swap) :
    ({ s.setCell v c with
      dict := put s.dict k n
      held := n.elim s.held s.held.erase
      swap := swap
      swappedObjects := swapped } : State).Inv ok [] := by
  have hput : ({ s with
      dict := put s.dict k n
      held := n.elim s.held s.held.erase } : State).Counted [v] := by
    refine h.counted.put (k := k) (n := n) rfl rfl (fun b => ?_) fun b => ?_
    · have hb := otherRefs_handed hn b
      rw [hk, Option.toList_some, List.count_nil]
      show State.otherRefs _ b + [v].count b + _ = _
      have hsame : State.otherRefs { s with
        dict := put s.dict k n
        held := n.elim s.held s.held.erase } b =
          State.otherRefs { s with held := n.elim s.held s.held.erase } b := rfl
      omega
    · exact (Nat.le_add_right _ _).trans_eq (otherRefs_handed hn b)
  have hnone : ∀ a, n = some a → (s.setCell v c).pagesOf a = none := by
    intro a ha
    have hnot := (h.held_views (hn a ha)).2
    rw [hpages a (.inl hnot), hnot]
  have hcounted := hdrop { s with
    dict := put s.dict k n
    held := n.elim s.held s.held.erase } rfl hput
  refine h.replace (k := k) (n := n) rfl rfl rfl rfl rfl hcounted hsw hld
    (h.held_count hn) ?_ (fun a ha => (h.held_views (hn a ha)).1) hbytes ?_ ?_ hback.tallied
    hback.nextPage ?_
  · intro v' hv'
    rw [hk] at hv'
    cases hv'
    exact hidle
  · intro k' v' hne hv'
    refine hpages v' ?_
    cases hcell : s.heap v with
    | none => exact absurd hcell (h.counted.ne_none (dictRefs_pos hk))
    | some cell =>
      cases cell with
      | robj o =>
        by_cases hv : v' = v
        · exact .inl (hv ▸ pagesOf_robj hcell)
        · exact .inr hv
      | vmpointer vp =>
        right
        rintro rfl
        exact h.counted.pointer_unique hcell hk hne hv'
  · show swapped + _ = s.swappedObjects + (n.elim 0 (s.setCell v c).pointerAt : Nat)
    rw [hk, elim_zero fun a ha => pointerAt_of_none (hnone a ha), ← hswapped]
    simp
  · intro hok p
    show _ = _ + n.elim 0 ((s.setCell v c).ownsPage p)
    rw [hk, elim_zero fun a ha => ownsPage_of_none (hnone a ha) p]
    exact hback.used hok p

/-- The value of a key is dropped and another one, or none, is stored instead. -/
theorem dropValue_ends (h : s.Inv ok []) (hmain : s.queues.main = .idle) (k : DbKey)
    (hn : ∀ a, n = some a → a ∈ s.held) :
    Ends (Allowed ok) (fun s' => ({ s' with
      dict := put s'.dict k n
      held := n.elim s'.held s'.held.erase } : State).Inv ok []) (s.dropValue k) := by
  unfold dropValue
  split
  · next hk =>
    refine Ends.pure ?_
    refine h.replace (k := k) (n := n) rfl rfl rfl rfl rfl ?_ (fun _ => rfl) (fun _ => rfl)
      (h.held_count hn) ?_ (fun a ha => (h.held_views (hn a ha)).1) (SameBytes.of_heap_eq rfl)
      (fun _ _ _ _ => rfl) ?_ h.pages.tallied h.pages.nextPage ?_
    · refine h.counted.put (k := k) (n := n) rfl rfl (fun b => ?_) fun b => ?_
      · have hb := otherRefs_handed hn b
        rw [hk]
        exact hb
      · exact (Nat.le_add_right _ _).trans_eq (otherRefs_handed hn b)
    · intro v hv
      rw [hk] at hv
      cases hv
    · show s.swappedObjects + _ = s.swappedObjects + (n.elim 0 s.pointerAt : Nat)
      rw [hk, elim_zero fun a ha => pointerAt_of_none (h.held_views (hn a ha)).2]
      rfl
    · intro _ p
      show _ = _ + n.elim 0 (s.ownsPage p)
      rw [hk, elim_zero fun a ha => ownsPage_of_none (h.held_views (hn a ha)).2 p]
      rfl
  · next old hk =>
    have hpos := dictRefs_pos hk
    unfold decrRefCount
    rw [decrRefCountAux]
    split
    · next hcell => exact absurd hcell (h.counted.ne_none hpos)
    · next vp hcell =>
      -- a `vmpointer`: its pages are free again
      refine settle_ends _ h hmain (x := old) ?_ fun s₁ h₁ hc => ?_
      · rw [isLoading_pointer hcell, isSwapping_pointer hcell]
        simp
      obtain ⟨vp₁, hcell₁, hpage, hused⟩ := hc.pointer hcell
      have hk₁ : s₁.dict.lookup k = some old := by rw [hc.dict, hk]
      have hld₁ : s₁.isLoading old = false := by rw [hc.undone.loading, if_pos rfl]
      refine (freeValuePages_ends h₁.pages hk₁ hcell₁ hpage hused).bind ?_
      rintro swap - hback
      obtain ⟨hsw', hld', hpages', hbytes'⟩ := free_pointer_views hcell₁ hld₁
      refine Ends.pure (h₁.putHeld _ _ (fun a ha => by rw [hc.held]; exact hn a ha) hk₁
        ⟨isSwapping_pointer hcell₁, hld₁⟩ ?_ hsw' hld' ?_ hbytes' ?_ hback)
      · exact fun s' hheap hs' => hs'.freePointer (by rw [hheap]; exact hcell₁)
      · rintro b (hb | hb)
        · refine hpages' b ?_
          rintro rfl
          rw [pagesOf_pointer hcell₁] at hb
          cases hb
        · exact hpages' b hb
      · rw [pointerAt_pointer hcell₁]
        exact Int.sub_add_cancel _ _
    · next o hcell =>
      rw [check_pos (by have := h.counted.refcount_pos hcell; omega), value_bind]
      refine settle_ends _ h hmain (x := old) ?_ fun s₁ h₁ hc => ?_
      · rw [isLoading_robj hcell, isSwapping_robj hcell]
        simp
      have hk₁ : s₁.dict.lookup k = some old := by rw [hc.dict, hk]
      obtain ⟨o₁, hcell₁, hs₁⟩ := hc.robj h₁.counted (dictRefs_pos hk₁) hcell
      dsimp only
      rw [dropReference_eq hcell₁]
      have hrw : Rewritten s₁ old (s₁.setCell old (dropCell o₁)) :=
        .setCell hcell₁ (dropCell_rewrites hs₁)
      have hsw₁ : s₁.isSwapping old = false := (isSwapping_robj hcell₁).trans hs₁
      refine Ends.pure (h₁.putHeld s₁.swap s₁.swappedObjects
        (fun a ha => by rw [hc.held]; exact hn a ha) hk₁ ⟨hsw₁, isLoading_robj hcell₁⟩ ?_ ?_
        hrw.loading (fun b _ => hrw.pagesOf b) hrw.bytes ?_ ?_)
      · exact fun s' hheap hs' => hs'.drop (by rw [hheap]; exact hcell₁)
      · intro b
        rw [hrw.swapping]
        split
        · next hb => rw [hb, hsw₁]
        · rfl
      · rw [pointerAt_robj hcell₁]
        exact Int.add_zero _
      · refine ⟨h₁.pages.tallied, h₁.pages.nextPage, fun _ p => ?_⟩
        rw [ownsPage_robj hcell₁, Nat.add_zero]

/-! ## Taking pages -/

/-- The swap file after free pages have been given to a new owner. -/
structure Taken (f : SwapFile) (w : Nat → Nat) (f' : SwapFile) : Prop where
  tallied : f'.Tallied
  nextPage : f'.nextPage ≤ f'.pages
  used : ∀ p, (if f'.Used p then 1 else 0) = (if f.Used p then 1 else 0) + w p

/-- A search changes nothing but the place where the next one starts. -/
theorem PageShape.search (h : s.PageShape ok) {pages : Nat} {random : Nat → Nat} {r : Option Nat}
    {f : SwapFile} (hfind : s.swap.vmFindContiguousPages pages random = (r, f)) :
    Taken s.swap (fun _ => 0) f := by
  obtain ⟨-, hbitmap, hused, hnext, -⟩ := SwapFile.vmFindContiguousPages_spec h.nextPage hfind
  have hiff : ∀ p, f.Used p ↔ s.swap.Used p := by
    intro p
    unfold SwapFile.Used SwapFile.vmFreePage
    rw [hbitmap]
  obtain ⟨l, hl, hcard⟩ := h.tallied
  refine ⟨⟨l, fun p => (hl p).trans (hiff p).symm, hused.trans hcard⟩, hnext, fun p => ?_⟩
  simp only [hiff, Nat.add_zero]

/-- The pages a search has found can be marked. -/
theorem PageShape.take_ends (h : s.PageShape ok) {pages page : Nat} {random : Nat → Nat}
    {f : SwapFile} (hfind : s.swap.vmFindContiguousPages pages random = (some page, f)) :
    Ends (fun _ => False) (Taken s.swap fun p => if SwapFile.Covers page pages p then 1 else 0)
      (f.vmMarkPagesUsed page pages) := by
  have hsearch := h.search hfind
  obtain ⟨-, hbitmap, -, -, hfree⟩ := SwapFile.vmFindContiguousPages_spec h.nextPage hfind
  have hiff : ∀ p, f.Used p ↔ s.swap.Used p := by
    intro p
    unfold SwapFile.Used SwapFile.vmFreePage
    rw [hbitmap]
  refine (SwapFile.vmMarkPagesUsed_ends f page pages).mono ?_ ?_
  · rintro f' ⟨hclear, hused, hcount, hlayout⟩
    refine ⟨hsearch.tallied.used hclear hused hcount, ?_, fun p => ?_⟩
    · rw [hlayout.nextPage, hlayout.pages]
      exact hsearch.nextPage
    · by_cases hp : SwapFile.Covers page pages p
      · rw [if_pos ((hused p).mpr (.inl hp)), if_neg (hfree page rfl p hp), if_pos hp]
      · have hiff' : f'.Used p ↔ s.swap.Used p := by
          rw [hused, hiff]
          exact or_iff_right hp
        simp only [hp, hiff', if_false, Nat.add_zero]
  · rintro e ⟨-, p, hp, hu⟩
    exact hfree page rfl p hp ((hiff p).mp hu)

/-- The search position moves. -/
theorem Inv.search (h : s.Inv ok owed) {f : SwapFile} (hf : Taken s.swap (fun _ => 0) f) :
    ({ s with swap := f } : State).Inv ok owed where
  counted := h.counted
  jobs := h.jobs.congr rfl (fun _ => Iff.rfl) (fun _ => rfl) (fun _ => rfl) (fun _ _ => ⟨rfl, rfl⟩)
    (fun _ _ _ _ _ hk => hk) fun _ _ _ _ => rfl
  waits := h.waits.congr rfl rfl fun _ _ => rfl
  pages := ⟨h.pages.pointers, hf.tallied, hf.nextPage, fun hok p =>
    (h.pages.owned hok p).trans (hf.used p).symm⟩
  placed := ⟨h.placed.handOff, h.placed.jobs⟩

/-! ## Swapping out and loading in the main thread -/

theorem create_ends {β : Type} {R : β → Prop} {f : State → Except Stop β} {cell : Cell}
    (hf : s.heap a = none → Ends (Allowed ok) R (f (s.setCell a (some cell)))) :
    Ends (Allowed ok) R (s.create a cell >>= f) := by
  by_cases ha : s.heap a = none
  · rw [create_eq ha, value_bind]
    exact hf ha
  · have herror : s.create a cell = .error .disabled := by
      unfold State.create check
      rw [if_neg ha]
      rfl
    rw [herror]
    exact allowed_disabled

/-- A candidate is the value of its key, in memory, and only the key refers to it. -/
theorem candidate_ends (h : s.Inv ok owed) (k : DbKey) :
    Ends (Allowed ok) (fun val => s.dict.lookup k = some val ∧
      ∃ o, s.heap val = some (.robj o) ∧ o.swapping = false ∧ o.refcount = 1) (s.candidate k) := by
  unfold candidate
  refine Ends.need_bind (fun val hk => ?_) fun _ => allowed_disabled
  split
  · next o ho =>
    refine Ends.check_bind (fun hcheck => ?_) fun _ => allowed_disabled
    exact Ends.pure ⟨hk, o, ho, hcheck⟩
  · exact allowed_disabled
  · next hnone => exact absurd hnone (h.counted.ne_none (dictRefs_pos hk))

/-- Something appears at one address that was not in use, and what is at another goes away, both
neither loading nor being swapped out. -/
theorem exchange_views {c : Cell} (hx : s.heap x = none) (hcell : c.busy = false)
    (hv : s.isSwapping v = false ∧ s.isLoading v = false) :
    (∀ b, ((s.setCell x (some c)).setCell v none).isSwapping b = s.isSwapping b) ∧
      (∀ b, ((s.setCell x (some c)).setCell v none).isLoading b = s.isLoading b) ∧
      SameBytes s ((s.setCell x (some c)).setCell v none) := by
  obtain ⟨hsw, hld, -⟩ := views_free hx
  refine ⟨fun b => ?_, fun b => ?_, fun b o₁ o₂ hb hb' => ?_⟩
  · rw [setCell_isSwapping, setCell_isSwapping]
    split
    · next hb => rw [hb, hv.1]
    · split
      · next hb =>
        rw [hb, hsw]
        cases c with
        | robj o => exact hcell
        | vmpointer _ => rfl
      · rfl
  · rw [setCell_isLoading, setCell_isLoading]
    split
    · next hb => rw [hb, hv.2]
    · split
      · next hb =>
        rw [hb, hld]
        cases c with
        | robj _ => rfl
        | vmpointer vp => exact hcell
      · rfl
  · by_cases hbv : b = v
    · subst hbv
      rw [heap_setCell_self] at hb'
      cases hb'
    · have hbx : b ≠ x := by
        rintro rfl
        rw [hx] at hb
        cases hb
      rw [heap_setCell_ne hbv, heap_setCell_ne hbx, hb] at hb'
      cases hb'
      rfl

/-- `vmSwapObjectBlocking` with the store of the `vmpointer` it returns. -/
theorem vmSwapObjectBlocking_ends (h : s.Inv ok []) {val vp : Addr} (hk : s.dict.lookup k = some val)
    (ho : s.heap val = some (.robj o)) (hs : o.swapping = false) (hone : o.refcount = 1) (pages : Nat)
    (random : Nat → Nat) (written : Bool) :
    Ends (Allowed ok) (fun r => ({ r.1 with
      dict := if r.2 then r.1.dict.insert k vp else r.1.dict } : State).Inv ok [])
      (s.vmSwapObjectBlocking val pages random written vp) := by
  unfold vmSwapObjectBlocking
  rw [object_eq_ok.mpr ho, value_bind, check_pos hs, value_bind, check_pos hone, value_bind]
  split
  · next swap hfind => exact Ends.pure (h.search (h.pages.search hfind))
  next page swap hfind =>
  dsimp only
  split
  · exact Ends.pure (h.search (h.pages.search hfind))
  refine create_ends fun hvp => ?_
  have hvp' : s.heap vp = none := hvp
  have hne : val ≠ vp := by
    rintro rfl
    rw [ho] at hvp'
    cases hvp'
  -- the object was referenced by its key alone, so it is freed
  have ho₁ : (({ s with swap } : State).setCell vp (some (.vmpointer ⟨false, page, pages⟩))).heap val =
      some (.robj o) := (heap_setCell_ne hne _).trans ho
  have hlast : dropCell o = none := if_pos (by omega)
  unfold decrRefCount
  rw [decrRefCountAux_memory 1 ho₁ hs (by omega), value_bind, hlast]
  refine ((h.pages.take_ends hfind).mono (fun _ => id) fun _ => False.elim).bind ?_
  intro f _ htaken
  have hcreated := h.counted.createPointer hvp' ⟨false, page, pages⟩
  have hput : ({ s.setCell vp (some (.vmpointer ⟨false, page, pages⟩)) with
      dict := s.dict.insert k vp } : State).Counted [val] := by
    refine hcreated.put (k := k) (n := some vp) rfl rfl (fun b => ?_) fun b => le_refl _
    show s.otherRefs b + [val].count b + [vp].count b =
      s.otherRefs b + [vp].count b + (s.dict.lookup k).toList.count b
    rw [hk, Option.toList_some]
    omega
  have hdropped := hput.drop (o := o) ho₁
  rw [hlast] at hdropped
  have hvp₁ : ((s.setCell vp (some (.vmpointer ⟨false, page, pages⟩))).setCell val none).heap vp =
      some (.vmpointer ⟨false, page, pages⟩) :=
    (heap_setCell_ne (Ne.symm hne) _).trans (heap_setCell_self ..)
  have hidle : s.isSwapping val = false ∧ s.isLoading val = false :=
    ⟨(isSwapping_robj ho).trans hs, isLoading_robj ho⟩
  obtain ⟨hsw, hld, hbytes⟩ := exchange_views (c := .vmpointer ⟨false, page, pages⟩) hvp' rfl hidle
  refine Ends.pure (h.replace (k := k) (n := some vp) rfl rfl rfl rfl rfl hdropped hsw hld
    (fun _ _ => rfl) ?_ ?_ hbytes ?_ ?_ htaken.tallied htaken.nextPage ?_)
  · intro v hv
    rw [hk] at hv
    cases hv
    exact hidle
  · rintro v ⟨⟩
    exact (views_free hvp').1
  · intro k' v _ hv
    show ((s.setCell vp _).setCell val none).pagesOf v = _
    rw [setCell_pagesOf, setCell_pagesOf]
    split
    · next hb => rw [hb, pagesOf_robj ho]
    · rw [if_neg]
      rintro rfl
      exact h.counted.ne_none (dictRefs_pos hv) hvp'
  · have hold := pointerAt_robj ho
    have hnew := pointerAt_pointer hvp₁
    show s.swappedObjects + 1 + _ = s.swappedObjects +
      (State.pointerAt ((s.setCell vp _).setCell val none) vp : Nat)
    rw [hk, hnew]
    show s.swappedObjects + 1 + (s.pointerAt val : Nat) = _
    rw [hold]
    omega
  · intro _ p
    have hnew := ownsPage_pointer hvp₁ p
    show (if f.Used p then 1 else 0) + (s.dict.lookup k).elim 0 (s.ownsPage p) =
      (if s.swap.Used p then 1 else 0) + State.ownsPage ((s.setCell vp _).setCell val none) p vp
    rw [hk, hnew, htaken.used p]
    show _ + s.ownsPage p val = _
    rw [ownsPage_robj ho, Nat.add_zero]

/-- `vmLoadObject` with the store of the object it returns. -/
theorem vmLoadObject_ends (h : s.Inv ok []) (hmain : s.queues.main = .idle) {vp : VmPointer}
    (hk : s.dict.lookup k = some v) (hv : s.heap v = some (.vmpointer vp)) (val : Addr) (bytes : CStr) :
    Ends (Allowed ok) (fun s' => ({ s' with dict := s'.dict.insert k val } : State).Inv ok [])
      (s.vmLoadObject v val bytes) := by
  unfold vmLoadObject
  rw [hv]
  refine settle_ends 1 h hmain (x := v) ?_ fun s₁ h₁ hc => ?_
  · rw [isLoading_pointer hv, isSwapping_pointer hv]
    simp
  obtain ⟨vp₁, hv₁, hpage, hused⟩ := hc.pointer hv
  have hk₁ : s₁.dict.lookup k = some v := by rw [hc.dict, hk]
  have hld₁ : s₁.isLoading v = false := by rw [hc.undone.loading, if_pos rfl]
  refine create_ends fun hval => ?_
  have hne : v ≠ val := by
    rintro rfl
    rw [hv₁] at hval
    cases hval
  refine (freeValuePages_ends h₁.pages hk₁ hv₁ hpage hused).bind ?_
  rintro swap - hback
  have hcreated := h₁.counted.create hval bytes
  have hput : ({ s₁.setCell val (some (.robj ⟨1, false, bytes⟩)) with
      dict := s₁.dict.insert k val } : State).Counted [v] := by
    refine hcreated.put (k := k) (n := some val) rfl rfl (fun b => ?_) fun b => le_refl _
    show s₁.otherRefs b + [v].count b + [val].count b =
      s₁.otherRefs b + [val].count b + (s₁.dict.lookup k).toList.count b
    rw [hk₁, Option.toList_some]
    omega
  have hv₂ : (s₁.setCell val (some (.robj ⟨1, false, bytes⟩))).heap v = some (.vmpointer vp₁) :=
    (heap_setCell_ne hne _).trans hv₁
  have hfreed := hput.freePointer (v := vp₁) hv₂
  have hval₁ : ((s₁.setCell val (some (.robj ⟨1, false, bytes⟩))).setCell v none).heap val =
      some (.robj ⟨1, false, bytes⟩) := (heap_setCell_ne (Ne.symm hne) _).trans (heap_setCell_self ..)
  obtain ⟨hsw, hld, hbytes⟩ :=
    exchange_views (c := .robj ⟨1, false, bytes⟩) hval rfl ⟨isSwapping_pointer hv₁, hld₁⟩
  refine Ends.pure (h₁.replace (k := k) (n := some val) rfl rfl rfl rfl rfl hfreed hsw hld
    (fun _ _ => rfl) ?_ ?_ hbytes ?_ ?_ hback.tallied hback.nextPage ?_)
  · intro v' hv'
    rw [hk₁] at hv'
    cases hv'
    exact ⟨isSwapping_pointer hv₁, hld₁⟩
  · rintro v' ⟨⟩
    exact (views_free hval).1
  · intro k' v' hne' hv'
    show ((s₁.setCell val _).setCell v none).pagesOf v' = _
    rw [setCell_pagesOf, setCell_pagesOf, if_neg, if_neg]
    · rintro rfl
      exact h₁.counted.ne_none (dictRefs_pos hv') hval
    · rintro rfl
      exact h₁.counted.pointer_unique hv₁ hk₁ hne' hv'
  · have hold := pointerAt_pointer hv₁
    have hnew := pointerAt_robj hval₁
    show s₁.swappedObjects - 1 + _ = s₁.swappedObjects +
      (State.pointerAt ((s₁.setCell val _).setCell v none) val : Nat)
    rw [hk₁, hnew]
    show s₁.swappedObjects - 1 + (s₁.pointerAt v : Nat) = _
    rw [hold]
    omega
  · intro hok p
    have hnew := ownsPage_robj hval₁ p
    show (if swap.Used p then 1 else 0) + (s₁.dict.lookup k).elim 0 (s₁.ownsPage p) =
      (if s₁.swap.Used p then 1 else 0) + State.ownsPage ((s₁.setCell val _).setCell v none) p val
    rw [hk₁, hnew]
    exact hback.used hok p

end State

end Rtfsc.Redis.Vm
