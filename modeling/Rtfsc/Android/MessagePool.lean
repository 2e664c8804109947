import Rtfsc.Android.MessageHeap
import Rtfsc.Machine.Run
import Mathlib.Data.List.Range

/-!
# Message: the pool and the queues never share a message

Whatever calls are made in whatever order, also through references to messages that have long been
recycled: the pool and the queues are chains over the one field `next` without a common message, and what
is in one of them or delivered is marked in use. So a call that finds its message in use leaves all
alone, and a message that `Message.obtain` returns is nobody else's.
-/

namespace Rtfsc.Android

open Rtfsc.Machine

/-! ## Flags -/

theorem and_flagInUse_of_mark (f : UInt32) : (f ||| flagInUse) &&& flagInUse = flagInUse := by
  unfold flagInUse
  apply UInt32.toBitVec_inj.mp
  simp only [UInt32.toBitVec_and, UInt32.toBitVec_or]
  ext i
  simp
  exact .inr

theorem and_flagInUse_of_asynchronous (f : UInt32) :
    (f ||| flagAsynchronous) &&& flagInUse = f &&& flagInUse := by
  have hbits : flagAsynchronous.toBitVec &&& flagInUse.toBitVec = 0 := by decide
  apply UInt32.toBitVec_inj.mp
  simp only [UInt32.toBitVec_and, UInt32.toBitVec_or, BitVec.and_or_distrib_right]
  rw [hbits]
  exact BitVec.or_zero

theorem and_flagInUse_of_synchronous (f : UInt32) :
    (f &&& ~~~flagAsynchronous) &&& flagInUse = f &&& flagInUse := by
  rw [UInt32.and_assoc]
  congr 1

namespace MessageHeap

variable {σ σ' : MessageHeap} {chain chain' : Option Nat → List Nat} {delivered l l₁ l₂ : List Nat}
  {m q : Nat} {i : Option Nat}

theorem isInUse_markInUse : (σ.markInUse m).isInUse m = true := by
  unfold markInUse isInUse
  simp only [Function.update_self, and_flagInUse_of_mark, beq_self_eq_true]

/-! ## Messages in use -/

theorem enqueueMessage_inUse (q : Nat) (huse : σ.isInUse m = true) (when : Int64) :
    ∃ e, σ.enqueueMessage q m when = some (.threw e, σ) := by
  unfold enqueueMessage
  split
  · exact ⟨_, rfl⟩
  · exact ⟨_, rfl⟩

theorem recycle_inUse (huse : σ.isInUse m = true) (hcheck : σ.gCheckRecycle = true) :
    σ.recycle m = (.threw .stillInUse, σ) := by
  rw [recycle, if_pos huse, if_pos hcheck]

/-! ## The invariant -/

/-- The first message of the pool, or of a queue. -/
def head (σ : MessageHeap) : Option Nat → Option Nat
  | none => σ.sPool
  | some q => σ.mMessages q

/-- The chains of the pool and of the queues, and the delivered messages: none is at two places, and all
of them exist and are in use. The pool has at most `MAX_POOL_SIZE` of them, with nothing left in them. -/
structure Sound (σ : MessageHeap) (chain : Option Nat → List Nat) (delivered : List Nat) : Prop where
  chains : Chains σ.next σ.head chain
  size : σ.sPoolSize = (chain none).length
  bound : σ.sPoolSize ≤ maxPoolSize
  chained : ∀ i, ∀ m ∈ chain i, σ.isInUse m = true ∧ m < σ.created
  pooled : ∀ m ∈ chain none, σ.content m = recycledContent
  held : ∀ m ∈ delivered, σ.isInUse m = true ∧ m < σ.created ∧ ∀ i, m ∉ chain i
  once : delivered.Nodup

theorem chains_of_pool (hq : σ'.mMessages = σ.mMessages)
    (h : Chains σ'.next (Function.update σ.head none σ'.sPool) chain) :
    Chains σ'.next σ'.head chain := by
  have hhead : σ'.head = Function.update σ.head none σ'.sPool := by
    funext i
    cases i with
    | none =>
      rw [Function.update_self]
      rfl
    | some q =>
      rw [Function.update_of_ne (Option.some_ne_none q)]
      exact congrFun hq q
  rw [hhead]
  exact h

theorem chains_of_queue {v : Option Nat} (hpool : σ'.sPool = σ.sPool)
    (hq : σ'.mMessages = Function.update σ.mMessages q v)
    (h : Chains σ'.next (Function.update σ.head (some q) v) chain) :
    Chains σ'.next σ'.head chain := by
  have hhead : σ'.head = Function.update σ.head (some q) v := by
    funext i
    cases i with
    | none =>
      rw [Function.update_of_ne (Option.some_ne_none q).symm]
      exact hpool
    | some p =>
      rcases eq_or_ne p q with rfl | hne
      · rw [Function.update_self]
        exact (congrFun hq p).trans (Function.update_self ..)
      · rw [Function.update_of_ne (fun h => hne (Option.some.inj h))]
        exact (congrFun hq p).trans (Function.update_of_ne hne ..)
  rw [hhead]
  exact h

theorem new_sound (gCheckRecycle : Bool) : (new gCheckRecycle).Sound (fun _ => []) [] where
  chains := ⟨fun i => by cases i <;> rfl, fun _ => List.nodup_nil, fun _ _ _ h => nomatch h⟩
  size := rfl
  bound := Int.zero_le_ofNat 50
  chained _ _ h := nomatch h
  pooled _ h := nomatch h
  held _ h := nomatch h
  once := List.nodup_nil

theorem mem_update (hsub : ∀ a ∈ l, a ∈ chain i ∨ a = m) :
    ∀ j, ∀ a ∈ Function.update chain i l j, a ∈ chain j ∨ a = m := by
  intro j a ha
  rcases eq_or_ne j i with rfl | hne
  · rw [Function.update_self] at ha
    exact hsub a ha
  · rw [Function.update_of_ne hne] at ha
    exact .inl ha

namespace Sound

/-- One message is changed, put in or taken out. -/
theorem change (h : σ.Sound chain delivered) (m : Nat) (hchains : Chains σ'.next σ'.head chain')
    (hsize : σ'.sPoolSize = (chain' none).length) (hbound : σ'.sPoolSize ≤ maxPoolSize)
    (hcreated : σ.created ≤ σ'.created) (hflags : ∀ a, a ≠ m → σ'.flags a = σ.flags a)
    (hcontent : ∀ a, a ≠ m → σ'.content a = σ.content a)
    (hsub : ∀ i, ∀ a ∈ chain' i, a ∈ chain i ∨ a = m)
    (huse : (∃ i, m ∈ chain' i) ∨ m ∈ delivered → σ'.isInUse m = true ∧ m < σ'.created)
    (hpooled : m ∈ chain' none → σ'.content m = recycledContent)
    (hapart : m ∈ delivered → ∀ i, m ∉ chain' i) : σ'.Sound chain' delivered where
  chains := hchains
  size := hsize
  bound := hbound
  chained i a ha := by
    rcases eq_or_ne a m with rfl | hne
    · exact huse (.inl ⟨i, ha⟩)
    · obtain ⟨hin, hlt⟩ := h.chained i a ((hsub i a ha).resolve_right hne)
      refine ⟨?_, hlt.trans_le hcreated⟩
      rw [isInUse, hflags a hne]
      exact hin
  pooled a ha := by
    rcases eq_or_ne a m with rfl | hne
    · exact hpooled ha
    · rw [hcontent a hne]
      exact h.pooled a ((hsub none a ha).resolve_right hne)
  held a ha := by
    rcases eq_or_ne a m with rfl | hne
    · obtain ⟨hin, hlt⟩ := huse (.inr ha)
      exact ⟨hin, hlt, hapart ha⟩
    · obtain ⟨hin, hlt, hout⟩ := h.held a ha
      refine ⟨?_, hlt.trans_le hcreated, fun i hi => hout i ((hsub i a hi).resolve_right hne)⟩
      rw [isInUse, hflags a hne]
      exact hin
  once := h.once

/-- What is not in use is in no chain and not delivered. -/
theorem free (h : σ.Sound chain delivered) (hm : σ.isInUse m = false) :
    (∀ i, m ∉ chain i) ∧ m ∉ delivered := by
  constructor
  · intro i hi
    exact Bool.false_ne_true (hm.symm.trans (h.chained i m hi).1)
  · intro hd
    exact Bool.false_ne_true (hm.symm.trans (h.held m hd).1)

/-- What does not exist is not anywhere. -/
theorem absent (h : σ.Sound chain delivered) (hm : ¬m < σ.created) :
    (∀ i, m ∉ chain i) ∧ m ∉ delivered :=
  ⟨fun i hi => hm (h.chained i m hi).2, fun hd => hm (h.held m hd).2.1⟩

theorem length_le (h : σ.Sound chain delivered) (i : Option Nat) :
    (chain i).length ≤ σ.created := by
  have hsub : (chain i).Subperm (List.range σ.created) :=
    (h.chains.nodup i).subperm fun m hm => List.mem_range.mpr (h.chained i m hm).2
  exact hsub.length_le.trans_eq List.length_range

/-! ## What one message is changed to -/

theorem setContent (h : σ.Sound chain delivered) (hm : m ∉ chain none) (c : MessageContent) :
    (σ.setContent m c).Sound chain delivered := by
  refine h.change m h.chains h.size h.bound le_rfl (fun _ _ => rfl)
    (fun a hne => Function.update_of_ne hne ..) (fun _ _ ha => .inl ha) ?_
    (fun hp => absurd hp hm) fun hd => (h.held m hd).2.2
  rintro (⟨i, hi⟩ | hd)
  · exact h.chained i m hi
  · exact ⟨(h.held m hd).1, (h.held m hd).2.1⟩

theorem setFlags (h : σ.Sound chain delivered) {v : UInt32}
    (hv : σ.isInUse m = true → (v &&& flagInUse == flagInUse) = true) :
    { σ with flags := Function.update σ.flags m v }.Sound chain delivered := by
  have hin : σ.isInUse m = true →
      { σ with flags := Function.update σ.flags m v }.isInUse m = true := by
    intro hm
    rw [isInUse]
    simp only [Function.update_self]
    exact hv hm
  refine h.change m h.chains h.size h.bound le_rfl (fun a hne => Function.update_of_ne hne ..)
    (fun _ _ => rfl) (fun _ _ ha => .inl ha) ?_ (h.pooled m) fun hd => (h.held m hd).2.2
  rintro (⟨i, hi⟩ | hd)
  · exact ⟨hin (h.chained i m hi).1, (h.chained i m hi).2⟩
  · exact ⟨hin (h.held m hd).1, (h.held m hd).2.1⟩

theorem markInUse (h : σ.Sound chain delivered) (m : Nat) :
    (σ.markInUse m).Sound chain delivered :=
  h.setFlags fun _ => by rw [and_flagInUse_of_mark, beq_self_eq_true]

theorem setAsynchronous (h : σ.Sound chain delivered) (m : Nat) (async : Bool) :
    (σ.setAsynchronous m async).Sound chain delivered := by
  refine h.setFlags fun hm => ?_
  cases async with
  | true => exact (congrArg (· == flagInUse) (and_flagInUse_of_asynchronous _)).trans hm
  | false => exact (congrArg (· == flagInUse) (and_flagInUse_of_synchronous _)).trans hm

theorem setNext (h : σ.Sound chain delivered) (hm : ∀ i, m ∉ chain i) (v : Option Nat) :
    (σ.setNext m v).Sound chain delivered where
  chains := h.chains.write hm v
  size := h.size
  bound := h.bound
  chained := h.chained
  pooled := h.pooled
  held := h.held
  once := h.once

/-! ## The pool -/

theorem construct (h : σ.Sound chain delivered) :
    σ.construct.2.Sound chain delivered ∧ (∀ i, σ.created ∉ chain i) ∧ σ.created ∉ delivered := by
  obtain ⟨hout, hd⟩ := h.absent (lt_irrefl σ.created)
  refine ⟨h.change σ.created (h.chains.write hout none) h.size h.bound (Nat.le_succ _)
    (fun a hne => Function.update_of_ne hne ..) (fun a hne => Function.update_of_ne hne ..)
    (fun _ _ ha => .inl ha) ?_ (fun hp => absurd hp (hout none)) fun hm => absurd hm hd, hout, hd⟩
  rintro (⟨i, hi⟩ | hm)
  · exact absurd hi (hout i)
  · exact absurd hm hd

/-- A message that is nowhere goes to the pool, or is dropped when the pool is full. -/
theorem recycleUnchecked (h : σ.Sound chain delivered) (hm : m < σ.created)
    (hout : ∀ i, m ∉ chain i) (hd : m ∉ delivered) :
    ∃ pool, (σ.recycleUnchecked m).Sound (Function.update chain none pool) delivered := by
  have huse : ∀ f : MessageHeap → MessageHeap, (f σ).flags = Function.update σ.flags m flagInUse →
      (f σ).isInUse m = true := by
    intro f hf
    rw [isInUse, hf, Function.update_self]
    decide
  unfold MessageHeap.recycleUnchecked
  dsimp only
  split
  · next hroom =>
    refine ⟨m :: chain none, h.change m ?_ ?_ ?_ le_rfl (fun a hne => Function.update_of_ne hne ..)
      (fun a hne => Function.update_of_ne hne ..) (mem_update fun a ha => ?_) (fun _ => ⟨?_, hm⟩)
      (fun _ => Function.update_self ..) fun hm => absurd hm hd⟩
    · exact chains_of_pool (σ := σ) rfl (h.chains.push (i := none) hout)
    · rw [Function.update_self, List.length_cons]
      exact (congrArg (· + 1) h.size).trans (Int.natCast_succ _).symm
    · exact Int.add_one_le_of_lt hroom
    · exact (List.mem_cons.mp ha).symm
    · exact huse (fun _ => _) rfl
  · refine ⟨chain none, ?_⟩
    rw [Function.update_eq_self]
    refine h.change m h.chains h.size h.bound le_rfl (fun a hne => Function.update_of_ne hne ..)
      (fun a hne => Function.update_of_ne hne ..) (fun _ _ ha => .inl ha) (fun _ => ⟨?_, hm⟩)
      (fun hp => absurd hp (hout none)) fun hm => absurd hm hd
    exact huse (fun _ => _) rfl

/-- `Message.obtain` returns a message that is nowhere, not in use, and as a new one. The queues stay
as they are. -/
theorem obtain (h : σ.Sound chain delivered) :
    ∃ pool, σ.obtain.2.Sound (Function.update chain none pool) delivered ∧
      (∀ i, σ.obtain.1 ∉ Function.update chain none pool i) ∧ σ.obtain.1 ∉ delivered ∧
      (∀ q, σ.obtain.1 ∉ chain (some q)) ∧
      σ.obtain.2.isInUse σ.obtain.1 = false ∧ σ.obtain.2.content σ.obtain.1 = {} ∧
      σ.obtain.2.next σ.obtain.1 = none ∧ σ.obtain.1 < σ.obtain.2.created := by
  cases hpool : σ.sPool with
  | none =>
    have heq : σ.obtain = σ.construct := by
      unfold MessageHeap.obtain
      rw [hpool]
    obtain ⟨hsound, hout, hd⟩ := h.construct
    rw [heq]
    refine ⟨chain none, ?_, ?_, hd, fun q => hout _, ?_, Function.update_self ..,
      Function.update_self .., Nat.lt_succ_self _⟩
    · rw [Function.update_eq_self]
      exact hsound
    · rw [Function.update_eq_self]
      exact hout
    · rw [isInUse, show σ.construct.2.flags σ.construct.1 = 0 from Function.update_self ..]
      decide
  | some m =>
    have heq : σ.obtain = (m, { σ with
        sPool := σ.next m
        next := Function.update σ.next m none
        flags := Function.update σ.flags m 0
        sPoolSize := σ.sPoolSize - 1 }) := by
      unfold MessageHeap.obtain
      rw [hpool]
    obtain ⟨pool, hchain⟩ : ∃ pool, chain none = m :: pool := by
      have hlinks := h.chains.links none
      cases hc : chain none with
      | nil =>
        rw [hc] at hlinks
        cases hpool.symm.trans hlinks
      | cons a pool =>
        rw [hc] at hlinks
        cases hpool.symm.trans hlinks.1
        exact ⟨pool, rfl⟩
    have hm : m ∈ chain none := hchain ▸ List.mem_cons_self
    have hnodup := h.chains.nodup none
    rw [hchain, List.nodup_cons] at hnodup
    have hq : ∀ q, m ∉ chain (some q) := fun q hq =>
      Option.some_ne_none q (h.chains.apart _ _ m hq hm)
    have hd : m ∉ delivered := fun hd => (h.held m hd).2.2 none hm
    have hout : ∀ i, m ∉ Function.update chain none pool i := by
      intro i
      cases i with
      | none =>
        rw [Function.update_self]
        exact hnodup.1
      | some q =>
        rw [Function.update_of_ne (Option.some_ne_none q)]
        exact hq q
    rw [heq]
    refine ⟨pool, h.change m ?_ ?_ ?_ le_rfl (fun a hne => Function.update_of_ne hne ..)
      (fun _ _ => rfl) (mem_update fun a ha => .inl (hchain ▸ List.mem_cons_of_mem m ha)) ?_
      (fun hp => absurd hp (hout none)) (fun hm => absurd hm hd), hout, hd, hq, ?_, ?_,
      Function.update_self .., (h.chained none m hm).2⟩
    · exact chains_of_pool (σ := σ) rfl ((h.chains.pop hchain).write hout none)
    · rw [Function.update_self]
      have hsize := h.size
      rw [hchain, List.length_cons, Int.natCast_succ] at hsize
      exact Int.sub_eq_iff_eq_add.mpr hsize
    · exact (Int.sub_le_self _ (by decide)).trans h.bound
    · rintro (⟨i, hi⟩ | hm)
      · exact absurd hi (hout i)
      · exact absurd hm hd
    · rw [isInUse]
      simp only [Function.update_self]
      decide
    · exact (h.pooled m hm).trans recycledContent_eq

/-! ## The queues -/

/-- A message that is nowhere is put into a queue. -/
theorem link (h : σ.Sound chain delivered) (hq : chain (some q) = l₁ ++ l₂)
    (huse : σ.isInUse m = true) (hm : m < σ.created) (hout : ∀ i, m ∉ chain i)
    (hd : m ∉ delivered) :
    (σ.link q l₁.getLast? l₂.head? m).Sound (Function.update chain (some q) (l₁ ++ m :: l₂))
      delivered := by
  have hlinks := h.chains.links (some q)
  rw [hq] at hlinks
  have hpool : Function.update chain (some q) (l₁ ++ m :: l₂) none = chain none :=
    Function.update_of_ne (Option.some_ne_none q).symm ..
  have hsub : ∀ a ∈ l₁ ++ m :: l₂, a ∈ chain (some q) ∨ a = m := by
    intro a ha
    rw [hq]
    rcases List.mem_cons.mp (List.perm_middle.subset ha) with rfl | ha
    · exact .inr rfl
    · exact .inl ha
  -- with no message in front it becomes the head, else only `next` fields are written
  rcases List.eq_nil_or_concat' l₁ with rfl | ⟨l, b, rfl⟩
  · refine h.change m ?_ ?_ h.bound le_rfl (fun _ _ => rfl) (fun _ _ => rfl) (mem_update hsub)
      (fun _ => ⟨huse, hm⟩) (fun hp => absurd (hpool ▸ hp) (hout none)) fun hm => absurd hm hd
    · refine chains_of_queue (σ := σ) rfl rfl ?_
      have hpush := h.chains.push (i := some q) hout
      rw [hq, hlinks.head_eq] at hpush
      exact hpush
    · rw [hpool]
      exact h.size
  · rw [List.append_assoc] at hlinks hq
    have hinsert := h.chains.insertBehind hq hout
    rw [hlinks.next_eq] at hinsert
    rw [List.getLast?_concat]
    refine h.change m ?_ ?_ h.bound le_rfl (fun _ _ => rfl) (fun _ _ => rfl) (mem_update hsub)
      (fun _ => ⟨huse, hm⟩) (fun hp => absurd (hpool ▸ hp) (hout none)) fun hm => absurd hm hd
    · rw [List.append_assoc]
      exact hinsert
    · rw [hpool]
      exact h.size

/-- A message is taken out of a queue, and is nowhere then. -/
theorem unlink (h : σ.Sound chain delivered) (hq : chain (some q) = l₁ ++ m :: l₂) :
    (σ.unlink q l₁.getLast? m).Sound (Function.update chain (some q) (l₁ ++ l₂)) delivered ∧
      (∀ i, m ∉ Function.update chain (some q) (l₁ ++ l₂) i) ∧ m ∉ delivered := by
  have hm : m ∈ chain (some q) := hq ▸ List.mem_append_right _ List.mem_cons_self
  have hd : m ∉ delivered := fun hd => (h.held m hd).2.2 _ hm
  have hnodup := h.chains.nodup (some q)
  rw [hq, List.nodup_middle, List.nodup_cons] at hnodup
  have hout : ∀ i, m ∉ Function.update chain (some q) (l₁ ++ l₂) i := by
    intro i hi
    rcases eq_or_ne i (some q) with rfl | hne
    · rw [Function.update_self] at hi
      exact hnodup.1 hi
    · rw [Function.update_of_ne hne] at hi
      exact hne (h.chains.apart _ _ m hi hm)
  refine ⟨?_, hout, hd⟩
  have hpool : Function.update chain (some q) (l₁ ++ l₂) none = chain none :=
    Function.update_of_ne (Option.some_ne_none q).symm ..
  have hsub : ∀ a ∈ l₁ ++ l₂, a ∈ chain (some q) ∨ a = m := by
    intro a ha
    rw [hq]
    exact .inl (List.perm_middle.symm.subset (List.mem_cons_of_mem m ha))
  rcases List.eq_nil_or_concat' l₁ with rfl | ⟨l, b, rfl⟩
  · refine h.change m (chains_of_queue (σ := σ) rfl rfl (h.chains.pop hq)) ?_ h.bound le_rfl
      (fun _ _ => rfl) (fun _ _ => rfl) (mem_update hsub) ?_
      (fun hp => absurd hp (hout none)) fun hm => absurd hm hd
    · rw [hpool]
      exact h.size
    · rintro (⟨i, hi⟩ | hm)
      · exact absurd hi (hout i)
      · exact absurd hm hd
  · rw [List.append_assoc] at hq
    have hremove := h.chains.removeBehind hq
    rw [List.getLast?_concat]
    refine h.change m ?_ ?_ h.bound le_rfl (fun _ _ => rfl) (fun _ _ => rfl) (mem_update hsub) ?_
      (fun hp => absurd hp (hout none)) fun hm => absurd hm hd
    · rw [List.append_assoc]
      exact hremove
    · rw [hpool]
      exact h.size
    · rintro (⟨i, hi⟩ | hm)
      · exact absurd hi (hout i)
      · exact absurd hm hd

/-- A walk that has come to `l₂` stops somewhere in it. -/
theorem walkQueue (h : σ.Sound chain delivered) (l₁ : List Nat) (hq : chain (some q) = l₁ ++ l₂)
    (goesOn : Nat → Bool) :
    ∃ l₁' l₂', chain (some q) = l₁' ++ l₂' ∧
      σ.walkQueue goesOn l₁.getLast? l₂.head? = some (l₁'.getLast?, l₂'.head?) := by
  have hlinks := h.chains.links (some q)
  rw [hq] at hlinks
  have hlength := h.length_le (some q)
  rw [hq, List.length_append] at hlength
  refine ⟨l₁ ++ l₂.takeWhile goesOn, l₂.dropWhile goesOn, ?_, ?_⟩
  · rw [List.append_assoc, List.takeWhile_append_dropWhile]
    exact hq
  · rw [MessageHeap.walkQueue, walk_eq hlinks.suffix (Nat.le_of_add_left_le hlength),
      List.getLast?_append]

/-! ## Calls -/

/-- A message goes to some place of the queue. -/
theorem insertEnqueued (h : σ.Sound chain delivered) (huse : σ.isInUse m = true)
    (hm : m < σ.created) (hout : ∀ i, m ∉ chain i) (hd : m ∉ delivered) (when : Int64) :
    ∃ σ' chain', σ.insertEnqueued q m when = some σ' ∧ σ'.Sound chain' delivered := by
  have hlink : ∀ l₁ l₂, chain (some q) = l₁ ++ l₂ →
      ∃ chain', (σ.link q l₁.getLast? l₂.head? m).Sound chain' delivered :=
    fun l₁ l₂ hq => ⟨_, h.link hq huse hm hout hd⟩
  have hlinks := h.chains.links (some q)
  have hfront := hlink [] _ rfl
  rw [← hlinks.head_eq] at hfront
  unfold MessageHeap.insertEnqueued
  change ∃ σ' chain', (match σ.head (some q) with
    | none => _
    | some p => _) = some σ' ∧ _
  cases hq : chain (some q) with
  | nil =>
    rw [hq] at hlinks
    rw [hlinks.head_eq] at hfront ⊢
    exact ⟨_, hfront.choose, rfl, hfront.choose_spec⟩
  | cons p l =>
    rw [hq] at hlinks
    rw [hlinks.head_eq] at hfront ⊢
    dsimp only [List.head?_cons] at hfront ⊢
    split
    · exact ⟨_, hfront.choose, rfl, hfront.choose_spec⟩
    · obtain ⟨l₁, l₂, hcut, hwalk⟩ := h.walkQueue [p] hq
        fun p => ¬when < (σ.content p).when
      have hnext : σ.next p = l.head? := hlinks.2.head_eq
      rw [List.getLast?_singleton] at hwalk
      rw [hnext, hwalk]
      obtain ⟨chain', hsound⟩ := hlink l₁ l₂ hcut
      exact ⟨_, chain', rfl, hsound⟩

theorem insertPosted (h : σ.Sound chain delivered) (huse : σ.isInUse m = true)
    (hm : m < σ.created) (hout : ∀ i, m ∉ chain i) (hd : m ∉ delivered) (when : Int64) :
    ∃ σ' chain', σ.insertPosted q m when = some σ' ∧ σ'.Sound chain' delivered := by
  have hhead : σ.mMessages q = (chain (some q)).head? := (h.chains.links (some q)).head_eq
  unfold MessageHeap.insertPosted
  rw [hhead]
  split
  · obtain ⟨l₁, l₂, hcut, hwalk⟩ := h.walkQueue [] (q := q) rfl
      fun p => (σ.content p).when ≤ when
    rw [List.getLast?_nil] at hwalk
    rw [hwalk]
    exact ⟨_, _, rfl, h.link hcut huse hm hout hd⟩
  · exact ⟨_, _, rfl, h.link (List.nil_append _).symm huse hm hout hd⟩

theorem recycle (h : σ.Sound chain delivered) (hm : m < σ.created) :
    ∃ chain', (σ.recycle m).2.Sound chain' delivered := by
  unfold MessageHeap.recycle
  split
  · split
    · exact ⟨chain, h⟩
    · exact ⟨chain, h⟩
  · next huse =>
    obtain ⟨hout, hd⟩ := h.free (Bool.not_eq_true _ ▸ huse)
    obtain ⟨pool, hsound⟩ := h.recycleUnchecked hm hout hd
    exact ⟨_, hsound⟩

theorem enqueueMessage (h : σ.Sound chain delivered) (hm : m < σ.created) (when : Int64) :
    ∃ r σ' chain', σ.enqueueMessage q m when = some (r, σ') ∧ σ'.Sound chain' delivered := by
  unfold MessageHeap.enqueueMessage
  split
  · exact ⟨_, σ, chain, rfl, h⟩
  split
  · exact ⟨_, σ, chain, rfl, h⟩
  next huse =>
  split
  · obtain ⟨chain', hsound⟩ := h.recycle hm
    split
    · next heq =>
      rw [heq] at hsound
      exact ⟨_, _, chain', rfl, hsound⟩
    · next heq =>
      rw [heq] at hsound
      exact ⟨_, _, chain', rfl, hsound⟩
  · obtain ⟨hout, hd⟩ := h.free (Bool.not_eq_true _ ▸ huse)
    obtain ⟨σ', chain', hinsert, hsound⟩ := ((h.markInUse m).setContent (hout none)
      { σ.content m with when := when }).insertEnqueued (q := q) isInUse_markInUse hm hout hd when
    refine ⟨.accepted true, σ', chain', ?_, hsound⟩
    dsimp only
    rw [hinsert]
    rfl

theorem postSyncBarrier (h : σ.Sound chain delivered) (q : Nat) (when : Int64) :
    ∃ r σ' chain', σ.postSyncBarrier q when = some (r, σ') ∧ σ'.Sound chain' delivered := by
  have htoken (t : Nat → Int32) : { σ with mNextBarrierToken := t }.Sound chain delivered :=
    ⟨h.chains, h.size, h.bound, h.chained, h.pooled, h.held, h.once⟩
  obtain ⟨pool, hobtain, hout, hd, -, -, -, -, hm⟩ :=
    (htoken (Function.update σ.mNextBarrierToken q (σ.mNextBarrierToken q + 1))).obtain
  obtain ⟨σ', chain', hinsert, hsound⟩ := ((hobtain.markInUse _).setContent (hout none)
    _).insertPosted (q := q) isInUse_markInUse hm hout hd when
  refine ⟨.token (σ.mNextBarrierToken q), σ', chain', ?_, hsound⟩
  unfold MessageHeap.postSyncBarrier
  dsimp only
  rw [hinsert]
  rfl

theorem removeSyncBarrier (h : σ.Sound chain delivered) (q : Nat) (token : Int32) :
    ∃ r σ' chain', σ.removeSyncBarrier q token = some (r, σ') ∧ σ'.Sound chain' delivered := by
  have hhead : σ.mMessages q = (chain (some q)).head? := (h.chains.links (some q)).head_eq
  unfold MessageHeap.removeSyncBarrier
  obtain ⟨l₁, l₂, hcut, hwalk⟩ := h.walkQueue [] (q := q) rfl
    fun p => (σ.content p).target ≠ none ∨ (σ.content p).arg1 ≠ token
  rw [List.getLast?_nil, ← hhead] at hwalk
  rw [hwalk]
  cases l₂ with
  | nil => exact ⟨_, σ, chain, rfl, h⟩
  | cons p l =>
    obtain ⟨hunlink, hout, hd⟩ := h.unlink hcut
    have hp : p < σ.created :=
      (h.chained (some q) p (hcut ▸ List.mem_append_right _ List.mem_cons_self)).2
    have hp' : p < (σ.unlink q l₁.getLast? p).created := by
      cases l₁.getLast? <;> exact hp
    obtain ⟨pool, hsound⟩ := hunlink.recycleUnchecked hp' hout hd
    exact ⟨_, _, _, rfl, hsound⟩

theorem settle (h : σ.Sound chain delivered) (q : Nat) : (σ.settle q).2.Sound chain delivered := by
  unfold MessageHeap.settle
  split
  · exact ⟨h.chains, h.size, h.bound, h.chained, h.pooled, h.held, h.once⟩
  · exact h

/-- What `next` looks at is in the queue, behind what is named as the one in front. -/
theorem findNext (h : σ.Sound chain delivered) (q : Nat) :
    ∃ l₁ l₂, chain (some q) = l₁ ++ l₂ ∧ σ.findNext q = some (l₁.getLast?, l₂.head?) := by
  have hlinks := h.chains.links (some q)
  have hhead : σ.mMessages q = (chain (some q)).head? := hlinks.head_eq
  unfold MessageHeap.findNext
  rw [hhead]
  cases hq : chain (some q) with
  | nil => exact ⟨[], [], rfl, rfl⟩
  | cons p l =>
    dsimp only [List.head?_cons]
    split
    · rw [hq] at hlinks
      have hnext : σ.next p = l.head? := hlinks.2.head_eq
      obtain ⟨l₁, l₂, hcut, hwalk⟩ := h.walkQueue [p] hq fun p => !σ.isAsynchronous p
      rw [List.getLast?_singleton, ← hnext] at hwalk
      exact ⟨l₁, l₂, hq ▸ hcut, hwalk⟩
    · exact ⟨[], p :: l, rfl, rfl⟩

/-- A pass of `next` delivers a message of the queue, or leaves them all in it. -/
theorem nextPass (h : σ.Sound chain delivered) (q : Nat) (now : Int64) :
    ∃ r σ' chain', σ.nextPass q now = some (r, σ') ∧
      σ'.Sound chain' (match r with
        | .message m => m :: delivered
        | _ => delivered) := by
  unfold MessageHeap.nextPass
  split
  · exact ⟨_, σ, chain, rfl, h⟩
  obtain ⟨l₁, l₂, hcut, hfind⟩ := h.findNext q
  have hsettle : ∃ r σ' chain', some (σ.settle q) = some (r, σ') ∧
      σ'.Sound chain' (match r with
        | .message m => m :: delivered
        | _ => delivered) := by
    have hsound := h.settle q
    revert hsound
    unfold MessageHeap.settle
    split
    · exact fun hsound => ⟨_, _, chain, rfl, hsound⟩
    · exact fun hsound => ⟨_, _, chain, rfl, hsound⟩
  rw [hfind]
  cases l₂ with
  | nil => exact hsettle
  | cons m l =>
    dsimp only [List.head?_cons, Option.bind_eq_bind, Option.bind_some]
    split
    · exact hsettle
    obtain ⟨hunlink, hout, hd⟩ := h.unlink hcut
    have hsound := (hunlink.setNext hout none).markInUse m
    have hm : m < σ.created :=
      (h.chained (some q) m (hcut ▸ List.mem_append_right _ List.mem_cons_self)).2
    refine ⟨_, _, _, rfl, { hsound with held := ?_, once := List.nodup_cons.mpr ⟨hd, h.once⟩ }⟩
    intro a ha
    rcases List.mem_cons.mp ha with rfl | ha
    · refine ⟨isInUse_markInUse, ?_, hout⟩
      cases l₁.getLast? <;> exact hm
    · exact hsound.held a ha

end Sound

/-- The pool and the queues are chains that end, none of the messages is in two of them or twice in one,
and all are marked in use. -/
structure Separate (σ : MessageHeap) (pool : List Nat) (queue : Nat → List Nat) : Prop where
  poolChain : Links σ.next σ.sPool pool
  poolNodup : pool.Nodup
  size : σ.sPoolSize = pool.length
  bound : σ.sPoolSize ≤ maxPoolSize
  queueChain : ∀ q, Links σ.next (σ.mMessages q) (queue q)
  queueNodup : ∀ q, (queue q).Nodup
  poolApart : ∀ q, ∀ m ∈ queue q, m ∉ pool
  queueApart : ∀ q q' m, m ∈ queue q → m ∈ queue q' → q = q'
  inUse : ∀ m, m ∈ pool ∨ (∃ q, m ∈ queue q) → σ.isInUse m = true

theorem Sound.separate (h : σ.Sound chain delivered) :
    σ.Separate (chain none) fun q => chain (some q) where
  poolChain := h.chains.links none
  poolNodup := h.chains.nodup none
  size := h.size
  bound := h.bound
  queueChain q := h.chains.links (some q)
  queueNodup q := h.chains.nodup (some q)
  poolApart q m hq hp := Option.some_ne_none q (h.chains.apart _ _ m hq hp)
  queueApart q q' m hq hq' := Option.some.inj (h.chains.apart _ _ m hq hq')
  inUse := by
    rintro m (hp | ⟨q, hq⟩)
    · exact (h.chained none m hp).1
    · exact (h.chained (some q) m hq).1

end MessageHeap

namespace MessageWorld

variable {w w' : MessageWorld} {c : MessageCall} {r : MessageResult} {σ : MessageHeap}

theorem call_of_allowed (hc : w.Allowed c) (h : callHeap w.heap c = some (r, σ)) :
    w.call c = some (r, ⟨σ, deliveredAfter w.delivered c r⟩) := by
  rw [call, if_pos hc, h]
  rfl

/-- The invariant of a world, and of the heap beside what `next` has delivered. -/
def Sound (w : MessageWorld) : Prop := ∃ chain, w.heap.Sound chain w.delivered

/-- An allowed call returns, and keeps the invariant. -/
theorem call_sound (h : w.Sound) (hc : w.Allowed c) :
    ∃ r w', w.call c = some (r, w') ∧ w'.Sound := by
  obtain ⟨chain, h⟩ := h
  suffices ∃ r σ' chain', callHeap w.heap c = some (r, σ') ∧
      σ'.Sound chain' (deliveredAfter w.delivered c r) by
    obtain ⟨r, σ', chain', hcall, hsound⟩ := this
    exact ⟨r, _, call_of_allowed hc hcall, chain', hsound⟩
  cases c with
  | obtain =>
    obtain ⟨pool, hsound, -⟩ := h.obtain
    exact ⟨_, _, _, rfl, hsound⟩
  | construct => exact ⟨_, _, chain, rfl, h.construct.1⟩
  | write m c => exact ⟨_, _, chain, rfl, h.setContent ((h.free hc.2).1 none) c⟩
  | setAsynchronous m async => exact ⟨_, _, chain, rfl, h.setAsynchronous m async⟩
  | recycle m =>
    obtain ⟨chain', hsound⟩ := h.recycle hc
    exact ⟨_, _, chain', rfl, hsound⟩
  | recycleUnchecked m =>
    obtain ⟨-, hm, hout⟩ := h.held m hc
    -- once it is recycled the message is no longer among the delivered ones
    have herase : w.heap.Sound chain (w.delivered.erase m) :=
      { h with
        held := fun a ha => h.held a (List.mem_of_mem_erase ha)
        once := h.once.erase m }
    obtain ⟨pool, hsound⟩ := herase.recycleUnchecked hm hout h.once.not_mem_erase
    exact ⟨_, _, _, rfl, hsound⟩
  | enqueueMessage q m when => exact h.enqueueMessage hc when
  | postSyncBarrier q when => exact h.postSyncBarrier q when
  | removeSyncBarrier q token => exact h.removeSyncBarrier q token
  | next q now =>
    obtain ⟨r, σ', chain', hnext, hsound⟩ := h.nextPass q now
    refine ⟨r, σ', chain', hnext, ?_⟩
    cases r <;> exact hsound
  | quits q =>
    exact ⟨_, _, chain, rfl, h.chains, h.size, h.bound, h.chained, h.pooled, h.held, h.once⟩

theorem step_sound (h : w.Sound) (hs : w.step c = some w') : w'.Sound := by
  unfold step at hs
  obtain ⟨⟨r, u⟩, hcall, rfl⟩ := Option.map_eq_some_iff.mp hs
  have hc : w.Allowed c := by
    by_contra hc
    rw [call, if_neg hc] at hcall
    cases hcall
  obtain ⟨r', w', hcall', hsound⟩ := call_sound h hc
  cases hcall.symm.trans hcall'
  exact hsound

theorem run_sound {gCheckRecycle : Bool} {cs : List MessageCall}
    (h : Run (fun w c w' => w.step c = some w') (new gCheckRecycle) cs w) : w.Sound :=
  h.stateInvariant ⟨_, MessageHeap.new_sound gCheckRecycle⟩ fun _ _ _ => step_sound

/-- After any calls the pool and the queues are separate, and whatever is called returns; a message in
use can be neither enqueued nor recycled; and `Message.obtain` gives a message that is in no queue, is
not in use, and is as a new one. -/
theorem run_separate {gCheckRecycle : Bool} {cs : List MessageCall}
    (h : Run (fun w c w' => w.step c = some w') (new gCheckRecycle) cs w) :
    ∃ pool queue, w.heap.Separate pool queue ∧
      (∀ c, w.Allowed c → ∃ r w', w.call c = some (r, w')) ∧
      (∀ m, m < w.heap.created → w.heap.isInUse m = true →
        (∀ q when, ∃ e, w.call (.enqueueMessage q m when) = some (.threw e, w)) ∧
        (w.heap.gCheckRecycle = true → w.call (.recycle m) = some (.threw .stillInUse, w))) ∧
      ∃ m w' pool', w.call .obtain = some (.message m, w') ∧ w'.heap.Separate pool' queue ∧
        m ∉ pool' ∧ (∀ q, m ∉ queue q) ∧ w'.heap.isInUse m = false ∧
        w'.heap.content m = {} ∧ w'.heap.next m = none := by
  have hw := run_sound h
  obtain ⟨chain, hsound⟩ := id hw
  refine ⟨chain none, fun q => chain (some q), hsound.separate, fun c hc => ?_, fun m hm huse => ?_, ?_⟩
  · obtain ⟨r, w', hcall, -⟩ := call_sound hw hc
    exact ⟨r, w', hcall⟩
  · refine ⟨fun q when => ?_, fun hcheck => call_of_allowed (c := .recycle m) hm ?_⟩
    · obtain ⟨e, he⟩ := MessageHeap.enqueueMessage_inUse q huse when
      exact ⟨e, call_of_allowed (c := .enqueueMessage q m when) hm he⟩
    · exact congrArg some (MessageHeap.recycle_inUse huse hcheck)
  · obtain ⟨pool, hobtain, hout, hd, hq, huse, hcontent, hnext, -⟩ := hsound.obtain
    have hqueue : ∀ q, Function.update chain none pool (some q) = chain (some q) := fun q =>
      Function.update_of_ne (Option.some_ne_none q) ..
    have hsep := hobtain.separate
    have hpool := hout none
    simp only [Function.update_self, hqueue] at hsep hpool
    refine ⟨w.heap.obtain.1, ⟨w.heap.obtain.2, w.delivered⟩, pool, ?_, hsep, hpool, hq, huse, hcontent,
      hnext⟩
    exact call_of_allowed (c := .obtain) trivial rfl

/-- A message that is enqueued, delivered and recycled, and then enqueued through the old reference. -/
theorem run_separate_delivered :
    ∃ w, Run (fun w c w' => w.step c = some w') (new true)
        [.obtain, .write 0 { target := some 7 }, .enqueueMessage 3 0 5, .postSyncBarrier 3 6,
          .next 3 9, .recycleUnchecked 0, .enqueueMessage 3 0 5] w ∧
      (w.heap.sPool, w.heap.mMessages 3, w.heap.created) = (some 0, some 1, 2) ∧
      ∃ pool queue, w.heap.Separate pool queue := by
  obtain ⟨w, hrun, hw⟩ := Run.exists_of_foldlM_option step (new true)
    [.obtain, .write 0 { target := some 7 }, .enqueueMessage 3 0 5, .postSyncBarrier 3 6,
      .next 3 9, .recycleUnchecked 0, .enqueueMessage 3 0 5]
    (fun w => (w.heap.sPool, w.heap.mMessages 3, w.heap.created))
    (b := (some 0, some 1, 2)) (by decide)
  obtain ⟨pool, queue, hsep, -⟩ := run_separate hrun
  exact ⟨w, hrun, hw, pool, queue, hsep⟩

end MessageWorld

end Rtfsc.Android
