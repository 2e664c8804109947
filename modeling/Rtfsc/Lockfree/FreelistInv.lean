import Rtfsc.Lockfree.Freelist

/-!
# fixed_size_freelist: every index is at one place

The indices on the list, those that threads own, and those that they push are all the indices, and none
is at two places. A thread that allocates may read the `next` of a node that is long another's, but then
the tag of `pool_` has changed.
-/

namespace Rtfsc.Lockfree

open Rtfsc.Machine

variable {Θ : Type}

/-- Where an index may be. -/
inductive FreelistHolder (Θ : Type)
  | list
  | owner (θ : Θ)
  | pusher (θ : Θ)
deriving DecidableEq

namespace Freelist

/-- An index as a link. -/
def node (s : Freelist Θ) (i : UInt16) : Option UInt16 := if i = s.nullHandle then none else some i

/-- The links of the nodes. -/
def nextNode (s : Freelist Θ) (i : UInt16) : Option UInt16 := s.node (s.next i)

/-- The indices at a place, when `chain` is the list. -/
def held (s : Freelist Θ) (chain : List UInt16) : FreelistHolder Θ → List UInt16
  | .list => chain
  | .owner θ => s.owned θ
  | .pusher θ => (s.pc θ).pushes

/-- The chain from `pool_` ends in the null handle, and each index below `node_count` is either in it, or
owned by one thread, or being pushed by one. -/
structure Partition (s : Freelist Θ) (chain : List UInt16) : Prop where
  links : Links s.nextNode (s.node s.pool.index) chain
  split : Split (s.held chain) fun i => i.toNat < s.nodeCount

/-- What a thread has read. -/
def Reading (s : Freelist Θ) (chain : List UInt16) : FreelistPc → Prop
  | .allocNext oldPool seen =>
    oldPool.tag = UInt16.ofNat seen ∧ seen ≤ s.allocations ∧
      (seen = s.allocations → oldPool.index = s.nullHandle ∨ oldPool.index ∈ chain)
  | .allocCas oldPool newPool seen =>
    oldPool.index ≠ s.nullHandle ∧ oldPool.tag = UInt16.ofNat seen ∧
      newPool.tag = oldPool.nextTag ∧
      Noted chain s.next s.allocations seen oldPool.index newPool.index
  | .deallocCas i oldPool => s.next i = oldPool.index
  | _ => True

/-- The invariant: the tag of `pool_` counts the allocations. -/
structure Inv (s : Freelist Θ) (chain : List UInt16) : Prop where
  small : s.nodeCount ≤ 65535
  part : s.Partition chain
  tag : s.pool.tag = UInt16.ofNat s.allocations
  reading : ∀ θ, s.Reading chain (s.pc θ)

variable {s t : Freelist Θ} {chain chain' l : List UInt16} {pc : FreelistPc} {i v : UInt16} {θ : Θ}

/-! ## The list -/

theorem toNat_nullHandle (h : s.nodeCount ≤ 65535) : s.nullHandle.toNat = s.nodeCount := by
  unfold nullHandle
  rw [UInt16.toNat_ofNat']
  exact Nat.mod_eq_of_lt (Nat.lt_succ_of_le h)

theorem node_of_lt (h : s.nodeCount ≤ 65535) (hi : i.toNat < s.nodeCount) : s.node i = some i := by
  refine if_neg ?_
  rintro rfl
  rw [toNat_nullHandle h] at hi
  exact lt_irrefl _ hi

theorem nextNode_setNext : (s.setNext i v).nextNode = Function.update s.nextNode i (s.node v) :=
  Function.comp_update s.node s.next i v

/-- The first index is that of `pool_`. -/
theorem Partition.pool_mem (h : s.Partition chain) :
    s.pool.index = s.nullHandle ∨ s.pool.index ∈ chain := by
  rcases eq_or_ne s.pool.index s.nullHandle with hnull | hne
  · exact .inl hnull
  have hlinks := h.links
  unfold node at hlinks
  rw [if_neg hne] at hlinks
  cases chain with
  | nil => cases hlinks
  | cons a l =>
    cases hlinks.1
    exact .inr List.mem_cons_self

theorem Partition.lt_of_held (h : s.Partition chain) {p : FreelistHolder Θ}
    (hi : i ∈ s.held chain p) : i.toNat < s.nodeCount :=
  (h.split.cover i).mpr ⟨p, hi⟩

theorem Partition.ne_of_held (h : s.Partition chain) {p q : FreelistHolder Θ} (hpq : p ≠ q)
    (hi : i ∈ s.held chain p) (hv : v ∈ s.held chain q) : i ≠ v := by
  rintro rfl
  exact hpq (h.split.apart p q i hi hv)

theorem pushes_of_outside (h : pc.outside = true) : pc.pushes = [] := by
  cases pc <;> first | rfl | cases h

/-! ## One step -/

/-- What a thread has read stays right while nothing is allocated and no one writes to its node. -/
theorem Reading.keep (h : s.Reading chain pc) (hcount : t.nodeCount = s.nodeCount)
    (hle : s.allocations ≤ t.allocations)
    (hkeep : s.allocations = t.allocations → ∀ c ∈ chain, c ∈ chain' ∧ t.next c = s.next c)
    (hpush : ∀ i ∈ pc.pushes, t.next i = s.next i) : t.Reading chain' pc := by
  cases pc with
  | allocNext oldPool seen =>
    obtain ⟨htag, hseen, hmem⟩ := h
    refine ⟨htag, hseen.trans hle, fun heq => ?_⟩
    have hst : s.allocations = t.allocations := hle.antisymm (heq ▸ hseen)
    rw [nullHandle, hcount]
    exact (hmem (heq.trans hst.symm)).imp_right fun hc => (hkeep hst _ hc).1
  | allocCas oldPool newPool seen =>
    obtain ⟨hne, htag, hnew, hnoted⟩ := h
    refine ⟨?_, htag, hnew, hnoted.keep hle hkeep⟩
    rw [nullHandle, hcount]
    exact hne
  | deallocCas i oldPool => exact (hpush i List.mem_cons_self).trans h
  | _ => trivial

/-- A step of one thread, from what it does to the others. -/
theorem Inv.next (h : s.Inv chain) (θ : Θ) (hpc : ∀ θ', θ' ≠ θ → t.pc θ' = s.pc θ')
    (hcount : t.nodeCount = s.nodeCount) (hpart : t.Partition chain')
    (htag : t.pool.tag = UInt16.ofNat t.allocations) (hle : s.allocations ≤ t.allocations)
    (hkeep : s.allocations = t.allocations → ∀ c ∈ chain, c ∈ chain' ∧ t.next c = s.next c)
    (hpush : ∀ θ', θ' ≠ θ → ∀ i ∈ (s.pc θ').pushes, t.next i = s.next i)
    (hself : t.Reading chain' (t.pc θ)) : t.Inv chain' where
  small := hcount ▸ h.small
  part := hpart
  tag := htag
  reading θ' := by
    rcases eq_or_ne θ' θ with rfl | hne
    · exact hself
    · rw [hpc θ' hne]
      exact (h.reading θ').keep hcount hle hkeep (hpush θ' hne)

/-- A node that is not on the list is written. What it is for a thread that does not push it stays. -/
theorem Inv.setNext (h : s.Inv chain) {p : FreelistHolder Θ} (hp : p ≠ .list)
    (hi : i ∈ s.held chain p) (v : UInt16) :
    (s.setNext i v).Partition chain ∧
      ∀ θ, p ≠ .pusher θ → (s.setNext i v).Reading chain (s.pc θ) := by
  have hne : ∀ c ∈ chain, c ≠ i := fun c hc =>
    h.part.ne_of_held (p := .list) hp.symm hc hi
  refine ⟨⟨?_, h.part.split⟩, fun θ hθ => ?_⟩
  · rw [nextNode_setNext]
    exact h.part.links.update (fun hc => hne i hc rfl) _
  · refine (h.reading θ).keep rfl le_rfl
      (fun _ c hc => ⟨hc, Function.update_of_ne (hne c hc) ..⟩) fun c hc => ?_
    exact Function.update_of_ne (h.part.ne_of_held (p := .pusher θ) hθ.symm hc hi) ..

/-- Readings do not depend on the places, nor on where other threads are. -/
theorem Reading.congr (h : s.Reading chain pc) (hcount : t.nodeCount = s.nodeCount)
    (hallocations : t.allocations = s.allocations) (hnext : t.next = s.next) :
    t.Reading chain pc :=
  h.keep hcount hallocations.ge (fun _ c hc => ⟨hc, congrFun hnext c⟩) fun i _ => congrFun hnext i

theorem step_write (h : s.Inv chain) (hi : i ∈ s.owned θ) (v : UInt16) :
    (s.setNext i v).Inv chain := by
  obtain ⟨hpart, hreading⟩ := h.setNext (p := .owner θ) nofun hi v
  exact ⟨h.small, hpart, h.tag, fun θ' => hreading θ' nofun⟩

variable [DecidableEq Θ]

theorem setPc_self : (s.setPc θ pc).pc θ = pc := Function.update_self ..

theorem setPc_of_ne {θ' : Θ} (h : θ' ≠ θ) : (s.setPc θ pc).pc θ' = s.pc θ' :=
  Function.update_of_ne h ..

theorem setOwned_self : (s.setOwned θ l).owned θ = l := Function.update_self ..

theorem setOwned_of_ne {θ' : Θ} (h : θ' ≠ θ) : (s.setOwned θ l).owned θ' = s.owned θ' :=
  Function.update_of_ne h ..

theorem held_setPc (hpushes : pc.pushes = (s.pc θ).pushes) (p : FreelistHolder Θ) :
    (s.setPc θ pc).held chain p = s.held chain p := by
  rcases p with _ | θ' | θ'
  · rfl
  · rfl
  · rcases eq_or_ne θ' θ with rfl | hne
    · exact (congrArg FreelistPc.pushes setPc_self).trans hpushes
    · exact congrArg FreelistPc.pushes (setPc_of_ne hne)

/-- The steps of a thread that touch nothing of the others'. -/
theorem Inv.setPc (h : s.Inv chain) (hpushes : pc.pushes = (s.pc θ).pushes)
    (hself : s.Reading chain pc) : (s.setPc θ pc).Inv chain := by
  refine h.next θ (fun θ' => setPc_of_ne) rfl
    ⟨h.part.links, h.part.split.congr fun p => .of_eq (held_setPc hpushes p)⟩ h.tag le_rfl
    (fun _ c hc => ⟨hc, rfl⟩) (fun _ _ _ _ => rfl) ?_
  rw [setPc_self]
  exact hself.congr rfl rfl rfl

theorem step_allocate (h : s.Inv chain) (hout : (s.pc θ).outside = true) :
    (s.setPc θ .allocLoad).Inv chain :=
  h.setPc (pushes_of_outside hout).symm trivial

theorem step_deallocate (h : s.Inv chain) (hout : (s.pc θ).outside = true) (hi : i ∈ s.owned θ) :
    ((s.setOwned θ ((s.owned θ).erase i)).setPc θ (.deallocLoad i)).Inv chain := by
  refine h.next θ (fun θ' => setPc_of_ne) rfl ⟨h.part.links, ?_⟩ h.tag le_rfl
    (fun _ c hc => ⟨hc, rfl⟩) (fun _ _ _ _ => rfl) ?_
  · refine h.part.split.move (i := .owner θ) (j := .pusher θ) (l := [i]) nofun ?_ ?_ ?_
    · exact (List.perm_cons_erase hi).trans (.of_eq (congrArg (i :: ·) setOwned_self.symm))
    · rw [held, held, setPc_self, pushes_of_outside hout]
      exact .refl _
    · rintro (_ | θ' | θ') hown hpush
      · rfl
      · exact setOwned_of_ne fun heq => hown (congrArg _ heq)
      · exact congrArg FreelistPc.pushes (setPc_of_ne fun heq => hpush (congrArg _ heq))
  · rw [setPc_self]
    trivial

theorem step_give {θ' : Θ} (h : s.Inv chain) (hi : i ∈ s.owned θ) (hne : θ ≠ θ') :
    ((s.setOwned θ ((s.owned θ).erase i)).setOwned θ' (i :: s.owned θ')).Inv chain := by
  refine ⟨h.small, ⟨h.part.links, ?_⟩, h.tag, fun θ'' => (h.reading θ'').congr rfl rfl rfl⟩
  refine h.part.split.move (i := .owner θ) (j := .owner θ') (l := [i])
    (fun heq => hne (FreelistHolder.owner.inj heq)) ?_ (.of_eq setOwned_self) ?_
  · rw [held, held, setOwned_of_ne hne, setOwned_self]
    exact List.perm_cons_erase hi
  · rintro (_ | θ'' | θ'') hown hown'
    · rfl
    · rw [held, held, setOwned_of_ne fun heq => hown' (congrArg _ heq),
        setOwned_of_ne fun heq => hown (congrArg _ heq)]
    · rfl

/-- A successful `compare_exchange_weak` of `allocate_impl` takes the first node off the list: the tag
tells that nothing was allocated since `next` was read. -/
theorem step_allocCas {newPool : TaggedIndex} {seen : Nat} (h : s.Inv chain)
    (hpc : s.pc θ = .allocCas s.pool newPool seen) (htime : s.allocations < seen + 65536) :
    ∃ l, ({ s with pool := newPool, allocations := s.allocations + 1 }.setOwned θ
      (s.pool.index :: s.owned θ) |>.setPc θ (.allocated s.pool.index)).Inv l := by
  have hreading := h.reading θ
  rw [hpc] at hreading
  obtain ⟨-, hseen, hnewTag, hnoted⟩ := hreading
  have hmod : seen % 65536 = s.allocations % 65536 := by
    have := congrArg UInt16.toNat (hseen.symm.trans h.tag)
    rwa [UInt16.toNat_ofNat', UInt16.toNat_ofNat'] at this
  -- the same tag, and not all tags since: there were no allocations at all
  obtain ⟨hmem, hnext⟩ := hnoted.of_mod_eq hmod htime
  have hlinks := h.part.links
  rw [node_of_lt h.small (h.part.lt_of_held (p := .list) hmem)] at hlinks
  cases chain with
  | nil => cases hmem
  | cons a l =>
    obtain ⟨ha, htail⟩ := hlinks
    cases ha
    refine ⟨l, h.next θ (fun θ' => setPc_of_ne) rfl ⟨?_, ?_⟩ ?_ (Nat.le_succ _)
      (fun heq => absurd heq (Nat.ne_of_lt (Nat.lt_succ_self _))) (fun _ _ _ _ => rfl) ?_⟩
    · rw [nextNode, hnext] at htail
      exact htail
    · refine h.part.split.move (i := .list) (j := .owner θ) (l := [s.pool.index]) nofun (.refl _)
        (.of_eq setOwned_self) ?_
      rintro (_ | θ' | θ') hlist hown
      · exact absurd rfl hlist
      · exact setOwned_of_ne fun heq => hown (congrArg _ heq)
      · rcases eq_or_ne θ' θ with rfl | hne
        · rw [held, held, setPc_self, hpc]
          rfl
        · exact congrArg FreelistPc.pushes (setPc_of_ne hne)
    · refine hnewTag.trans ?_
      rw [TaggedIndex.nextTag, h.tag]
      exact (UInt16.ofNat_add ..).symm
    · rw [setPc_self]
      trivial

/-- A successful `compare_exchange_weak` of `deallocate_impl` puts the node in front of the list. -/
theorem step_deallocCas (h : s.Inv chain) (hpc : s.pc θ = .deallocCas i s.pool) :
    ({ s with pool := ⟨i, s.pool.tag⟩ }.setPc θ .idle).Inv (i :: chain) := by
  have hnext := h.reading θ
  rw [hpc] at hnext
  change s.next i = s.pool.index at hnext
  have hi : i ∈ s.held chain (.pusher θ) := by
    rw [held, hpc]
    exact List.mem_cons_self
  refine h.next θ (fun θ' => setPc_of_ne) rfl ⟨⟨?_, ?_⟩, ?_⟩ h.tag le_rfl
    (fun _ c hc => ⟨List.mem_cons_of_mem i hc, rfl⟩) (fun _ _ _ _ => rfl) ?_
  · exact node_of_lt h.small (h.part.lt_of_held hi)
  · have hlinks := h.part.links
    rw [← hnext] at hlinks
    exact hlinks
  · refine h.part.split.move (i := .pusher θ) (j := .list) (l := [i]) nofun ?_ (.refl _) ?_
    · rw [held, held, hpc, setPc_self]
      exact .refl _
    · rintro (_ | θ' | θ') hpush hlist
      · exact absurd rfl hlist
      · rfl
      · exact congrArg FreelistPc.pushes (setPc_of_ne fun heq => hpush (congrArg _ heq))
  · rw [setPc_self]
    trivial

theorem step_deallocNext {oldPool : TaggedIndex} (h : s.Inv chain)
    (hpc : s.pc θ = .deallocNext i oldPool) :
    ((s.setNext i oldPool.index).setPc θ (.deallocCas i oldPool)).Inv chain := by
  have hi : i ∈ s.held chain (.pusher θ) := by
    rw [held, hpc]
    exact List.mem_cons_self
  -- the other threads do not push this node, and the list does not have it
  obtain ⟨hpart, hreading⟩ := h.setNext (p := .pusher θ) nofun hi oldPool.index
  have hpushes : (FreelistPc.deallocCas i oldPool).pushes = ((s.setNext i oldPool.index).pc θ).pushes :=
    (congrArg FreelistPc.pushes hpc).symm
  refine ⟨h.small, ⟨hpart.links, hpart.split.congr fun p => .of_eq (held_setPc hpushes p)⟩, h.tag,
    fun θ' => ?_⟩
  rcases eq_or_ne θ' θ with rfl | hne
  · rw [setPc_self]
    exact Function.update_self ..
  · rw [setPc_of_ne hne]
    exact (hreading θ' fun heq => hne (FreelistHolder.pusher.inj heq).symm).congr rfl rfl rfl

/-- The next access of a thread. -/
theorem step_access {fails : Bool} (h : s.Inv chain) (ht : s.access θ fails = some t)
    (htime : s.Timely (.access θ fails)) : ∃ chain', t.Inv chain' := by
  have hreading := h.reading θ
  unfold access at ht
  unfold Timely at htime
  have hload (oldPool : TaggedIndex) (hold : oldPool = s.pool) :
      s.Reading chain (.allocNext oldPool s.allocations) :=
    ⟨hold ▸ h.tag, le_rfl, fun _ => hold ▸ h.part.pool_mem⟩
  cases hpc : s.pc θ with
  | idle =>
    rw [hpc] at ht
    cases ht
  | allocated _ =>
    rw [hpc] at ht
    cases ht
  | allocLoad =>
    rw [hpc] at ht
    cases ht
    exact ⟨chain, h.setPc (congrArg FreelistPc.pushes hpc).symm (hload _ rfl)⟩
  | allocNext oldPool seen =>
    rw [hpc] at ht hreading
    obtain ⟨htag, hseen, hmem⟩ := hreading
    dsimp only at ht
    split at ht
    · cases ht
      exact ⟨chain, h.setPc (congrArg FreelistPc.pushes hpc).symm trivial⟩
    · next hne =>
      cases ht
      exact ⟨chain, h.setPc (congrArg FreelistPc.pushes hpc).symm
        ⟨hne, htag, rfl, hseen, fun heq => ⟨(hmem heq).resolve_left hne, rfl⟩⟩⟩
  | allocCas oldPool newPool seen =>
    simp only [hpc] at ht htime
    split at ht
    · next hcas =>
      obtain ⟨rfl, -⟩ := hcas
      cases ht
      exact step_allocCas h hpc htime
    · cases ht
      exact ⟨chain, h.setPc (congrArg FreelistPc.pushes hpc).symm (hload _ rfl)⟩
  | deallocLoad i =>
    rw [hpc] at ht
    cases ht
    exact ⟨chain, h.setPc (congrArg FreelistPc.pushes hpc).symm trivial⟩
  | deallocNext i oldPool =>
    rw [hpc] at ht
    cases ht
    exact ⟨chain, step_deallocNext h hpc⟩
  | deallocCas i oldPool =>
    rw [hpc] at ht
    dsimp only at ht
    split at ht
    · next hcas =>
      obtain ⟨rfl, -⟩ := hcas
      cases ht
      exact ⟨_, step_deallocCas h hpc⟩
    · cases ht
      exact ⟨chain, h.setPc (congrArg FreelistPc.pushes hpc).symm trivial⟩

theorem step_inv {e : FreelistEvent Θ} (h : ∃ chain, s.Inv chain) (hs : s.Step e t) :
    ∃ chain, t.Inv chain := by
  obtain ⟨chain, h⟩ := h
  obtain ⟨hstep, htime⟩ := hs
  unfold step at hstep
  cases e with
  | allocate θ =>
    obtain ⟨hout, heq⟩ := Option.ite_none_right_eq_some.mp hstep
    cases heq
    exact ⟨chain, step_allocate h hout⟩
  | deallocate θ i =>
    obtain ⟨⟨hout, hi⟩, heq⟩ := Option.ite_none_right_eq_some.mp hstep
    cases heq
    exact ⟨chain, step_deallocate h hout hi⟩
  | access θ fails => exact step_access h hstep htime
  | write θ i v =>
    obtain ⟨hi, heq⟩ := Option.ite_none_right_eq_some.mp hstep
    cases heq
    exact ⟨chain, step_write h hi v⟩
  | give θ θ' i =>
    obtain ⟨⟨hi, hne⟩, heq⟩ := Option.ite_none_right_eq_some.mp hstep
    cases heq
    exact ⟨chain, step_give h hi hne⟩

/-! ## Runs -/

omit [DecidableEq Θ] in
/-- After `n` rounds of the loop in `initialize` the first `n` indices are on the list, the last one in
front. -/
theorem initializeNodes {s : Freelist Θ} {n : Nat} (hsmall : s.nodeCount ≤ 65535)
    (hn : n ≤ s.nodeCount) (hpool : s.node s.pool.index = none) :
    ∃ t next, (List.range n).foldl initializeNode s = t ∧
      t = { s with next := next, pool := ⟨t.pool.index, s.pool.tag⟩ } ∧
      Links t.nextNode (t.node t.pool.index) ((List.range n).reverse.map UInt16.ofNat) := by
  induction n with
  | zero => exact ⟨s, s.next, rfl, rfl, hpool⟩
  | succ n ih =>
    obtain ⟨t, next, hfold, ht, hlinks⟩ := ih (Nat.le_of_succ_le hn)
    rw [List.range_succ, List.foldl_append, hfold, List.reverse_append, List.map_append]
    have hcount : t.nodeCount = s.nodeCount := by
      rw [ht]
    have hlt : (UInt16.ofNat n).toNat = n := by
      rw [UInt16.toNat_ofNat']
      omega
    have hnew : UInt16.ofNat n ∉ (List.range n).reverse.map UInt16.ofNat := by
      simp only [List.mem_map, List.mem_reverse, List.mem_range, not_exists, not_and]
      intro k hk heq
      have := congrArg UInt16.toNat heq
      rw [hlt, UInt16.toNat_ofNat'] at this
      omega
    refine ⟨t.initializeNode n, (t.initializeNode n).next, rfl, ?_, ?_, ?_⟩
    · rw [ht]
      rfl
    · refine node_of_lt (s := t) (i := UInt16.ofNat n) (hcount ▸ hsmall) ?_
      rw [hlt, hcount]
      exact hn
    · have hnext : (t.initializeNode n).nextNode =
          Function.update t.nextNode (UInt16.ofNat n) (t.node t.pool.index) := by
        change (Freelist.setNext _ _ _).nextNode = _
        rw [nextNode_setNext, nextNode_setNext, Function.update_idem]
        rfl
      rw [hnext, Function.update_self]
      exact hlinks.update hnew _

omit [DecidableEq Θ] in
/-- The list is set up with all indices on it. -/
theorem new_inv {count : Nat} (hcount : count ≤ 65535) (next : UInt16 → UInt16) :
    ∃ chain, (new count next : Freelist Θ).Inv chain := by
  obtain ⟨t, next', hfold, ht, hlinks⟩ := initializeNodes (n := count)
    (s := (uninitialized count next : Freelist Θ)) hcount le_rfl (if_pos rfl)
  have hnew : new count next = t := hfold
  have hchain : ∀ i : UInt16, i ∈ (List.range count).reverse.map UInt16.ofNat ↔ i.toNat < count := by
    intro i
    simp only [List.mem_map, List.mem_reverse, List.mem_range]
    constructor
    · rintro ⟨k, hk, rfl⟩
      exact (UInt16.toNat_ofNat' ▸ Nat.mod_le ..).trans_lt hk
    · exact fun hi => ⟨i.toNat, hi, UInt16.ofNat_toNat⟩
  have hnodup : ((List.range count).reverse.map UInt16.ofNat).Nodup := by
    refine (List.nodup_reverse.mpr List.nodup_range).map_on fun a ha b hb heq => ?_
    rw [List.mem_reverse, List.mem_range] at ha hb
    have := congrArg UInt16.toNat heq
    rw [UInt16.toNat_ofNat', UInt16.toNat_ofNat'] at this
    omega
  rw [hnew]
  refine ⟨_, ?_, ⟨hlinks, ⟨?_, ?_, ?_⟩⟩, ?_, ?_⟩
  · rw [ht]
    exact hcount
  · intro i
    rw [ht]
    refine (hchain i).symm.trans ⟨fun hi => ⟨.list, hi⟩, ?_⟩
    rintro ⟨_ | θ | θ, hi⟩
    · exact hi
    · cases hi
    · cases hi
  · rw [ht]
    rintro (_ | θ | θ)
    · exact hnodup
    · exact List.nodup_nil
    · exact List.nodup_nil
  · rw [ht]
    rintro (_ | θ | θ) (_ | θ' | θ') a hi hj <;> first | rfl | cases hi | cases hj
  · rw [ht]
    rfl
  · rw [ht]
    exact fun _ => trivial

theorem run_inv {count : Nat} {next : UInt16 → UInt16} {es : List (FreelistEvent Θ)}
    (hcount : count ≤ 65535) (h : Run Step (new count next) es s) : ∃ chain, s.Inv chain :=
  h.stateInvariant (I := fun s => ∃ chain, s.Inv chain) (new_inv hcount next)
    fun _ _ _ => step_inv

omit [DecidableEq Θ] in
theorem pc_new {count : Nat} {next : UInt16 → UInt16} : (new count next : Freelist Θ).pc θ = .idle := by
  have hfold (l : List Nat) (s : Freelist Θ) : (l.foldl initializeNode s).pc = s.pc := by
    induction l generalizing s with
    | nil => rfl
    | cons n l ih => exact ih _
  exact congrFun (hfold _ _) θ

/-- A thread in `allocate_impl` that has loaded a null handle. -/
def LoadedNull (s : Freelist Θ) (θ : Θ) : Prop :=
  ∃ oldPool seen, s.pc θ = .allocNext oldPool seen ∧ oldPool.index = s.nullHandle

theorem access_of_ne {θ' : Θ} {fails : Bool} (hs : s.access θ' fails = some t) (hne : θ ≠ θ') :
    t.pc θ = s.pc θ ∧ t.nodeCount = s.nodeCount := by
  unfold access at hs
  split at hs
  case h_1 => cases hs
  case h_5 => cases hs
  case h_3 | h_4 | h_8 => split at hs <;> cases hs <;> exact ⟨setPc_of_ne hne, rfl⟩
  all_goals cases hs; exact ⟨setPc_of_ne hne, rfl⟩

/-- The null handle is loaded when the list is empty. -/
theorem access_loadedNull {fails : Bool} (hs : s.access θ fails = some t) (h : t.LoadedNull θ) :
    t.pool.index = t.nullHandle := by
  obtain ⟨oldPool, seen, hpc, hnull⟩ := h
  unfold access at hs
  split at hs
  case h_1 => cases hs
  case h_5 => cases hs
  case h_3 | h_8 => split at hs <;> cases hs <;> rw [setPc_self] at hpc <;> cases hpc
  case h_4 =>
    split at hs <;> cases hs <;> rw [setPc_self] at hpc <;> cases hpc
    exact hnull
  case h_2 =>
    cases hs
    rw [setPc_self] at hpc
    cases hpc
    exact hnull
  all_goals cases hs; rw [setPc_self] at hpc; cases hpc

theorem step_loadedNull {e : FreelistEvent Θ} (hs : s.step e = some t) (h : t.LoadedNull θ) :
    t.pool.index = t.nullHandle ∨ s.LoadedNull θ ∧ ¬e = .allocate θ := by
  have hback (hpc : t.pc θ = s.pc θ) (hcount : t.nodeCount = s.nodeCount) : s.LoadedNull θ := by
    obtain ⟨oldPool, seen, hold, hnull⟩ := h
    exact ⟨oldPool, seen, hpc.symm.trans hold, hnull.trans (congrArg UInt16.ofNat hcount)⟩
  have hnot {θ' : Θ} {u : Freelist Θ} {pc : FreelistPc} (ht : t = u.setPc θ' pc)
      (hpc : ∀ oldPool seen, pc ≠ .allocNext oldPool seen) : θ ≠ θ' := by
    rintro rfl
    obtain ⟨oldPool, seen, hold, -⟩ := h
    rw [ht, setPc_self] at hold
    exact hpc _ _ hold
  unfold step at hs
  cases e with
  | allocate θ' =>
    obtain ⟨-, heq⟩ := Option.ite_none_right_eq_some.mp hs
    cases heq
    have hne : θ ≠ θ' := hnot rfl nofun
    exact .inr ⟨hback (setPc_of_ne hne) rfl, fun heq => hne (FreelistEvent.allocate.inj heq).symm⟩
  | deallocate θ' i =>
    obtain ⟨-, heq⟩ := Option.ite_none_right_eq_some.mp hs
    cases heq
    exact .inr ⟨hback (setPc_of_ne (hnot rfl nofun)) rfl, nofun⟩
  | access θ' fails =>
    rcases eq_or_ne θ θ' with rfl | hne
    · exact .inl (access_loadedNull hs h)
    · obtain ⟨hpc, hcount⟩ := access_of_ne hs hne
      exact .inr ⟨hback hpc hcount, nofun⟩
  | write θ' i v =>
    obtain ⟨-, heq⟩ := Option.ite_none_right_eq_some.mp hs
    cases heq
    exact .inr ⟨hback rfl rfl, nofun⟩
  | give θ' θ'' i =>
    obtain ⟨-, heq⟩ := Option.ite_none_right_eq_some.mp hs
    cases heq
    exact .inr ⟨hback rfl rfl, nofun⟩

/-- The return of a null handle follows its load. -/
theorem access_null {fails : Bool} (h : s.Inv chain) (hs : s.access θ fails = some t)
    (ht : t.pc θ = .allocated t.nullHandle) : s.LoadedNull θ := by
  have hreading := h.reading θ
  unfold access at hs
  cases hpc : s.pc θ with
  | allocNext oldPool seen =>
    simp only [hpc] at hs
    split at hs
    · next hnull => exact ⟨oldPool, seen, hpc, hnull⟩
    · cases hs
      rw [setPc_self] at ht
      cases ht
  | allocCas oldPool newPool seen =>
    rw [hpc] at hreading
    simp only [hpc] at hs
    split at hs
    · cases hs
      rw [setPc_self] at ht
      exact absurd (FreelistPc.allocated.inj ht) hreading.1
    · cases hs
      rw [setPc_self] at ht
      cases ht
  | deallocCas i oldPool =>
    simp only [hpc] at hs
    split at hs <;> cases hs <;> rw [setPc_self] at ht <;> cases ht
  | _ =>
    simp only [hpc] at hs
    cases hs
    try rw [setPc_self] at ht; cases ht

/-- Whatever the threads do and however their accesses interleave: every index is on the list, with one
owner or with one thread that pushes it. And when `allocate_impl` returns the null handle, the list
was empty at some moment of the call. -/
theorem run_partition {count : Nat} {next : UInt16 → UInt16} {es : List (FreelistEvent Θ)}
    (hcount : count ≤ 65535) (h : Run Step (new count next) es s) :
    (∃ chain, s.Partition chain) ∧
      ∀ θ fails t, s.Step (.access θ fails) t → t.pc θ = .allocated t.nullHandle →
        ∃ es₁ es₂ u, es = es₁ ++ es₂ ∧ Run Step (new count next) es₁ u ∧ Run Step u es₂ s ∧
          u.pool.index = u.nullHandle ∧ ∀ e ∈ es₂, ¬e = .allocate θ := by
  obtain ⟨chain, hinv⟩ := run_inv hcount h
  refine ⟨⟨chain, hinv.part⟩, fun θ fails t hs ht => ?_⟩
  have hnull : s.LoadedNull θ := access_null hinv hs.1 ht
  refine h.exists_since (Q := fun s => s.LoadedNull θ) ?_
    (fun _ _ _ hstep hq => step_loadedNull hstep.1 hq) hnull
  rintro ⟨oldPool, seen, hpc, -⟩
  rw [pc_new] at hpc
  cases hpc

/-- A thread loads `pool_` and `next`; another one allocates both nodes, writes into one and gives it back;
and the first one fails for the tag, and then finds the list as it is. -/
def contended : List (FreelistEvent Bool) :=
  [.allocate false, .access false false, .access false false,
    .allocate true, .access true false, .access true false, .access true false,
    .allocate true, .access true false, .access true false, .access true false,
    .write true 1 9, .deallocate true 1, .access true false, .access true false, .access true false,
    .access false false, .access false false, .access false false]

theorem run_partition_contended :
    ∃ s : Freelist Bool, Run Step (new 2 fun _ => 7) contended s ∧
      (s.pool, s.owned false, s.owned true) = (⟨2, 3⟩, [1], [0]) ∧ ∃ chain, s.Partition chain := by
  obtain ⟨s, hrun, hs⟩ := Run.exists_of_foldlM_option
    (fun (s : Freelist Bool) e => if s.Timely e then s.step e else none) (new 2 fun _ => 7)
    contended (fun s => (s.pool, s.owned false, s.owned true)) (b := (⟨2, 3⟩, [1], [0])) (by decide)
  have hrun' : Run Step (new 2 fun _ => 7) contended s := by
    refine hrun.mono fun t e u he => ?_
    obtain ⟨htime, hstep⟩ := Option.ite_none_right_eq_some.mp he
    exact ⟨hstep, htime⟩
  exact ⟨s, hrun', hs, (run_partition (by decide) hrun').1⟩

end Freelist

end Rtfsc.Lockfree
