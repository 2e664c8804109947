import Rtfsc.Linux.Epoll

/-!
# What the steps of epoll keep

An item is in one place of `rdllist`, `txlist` and the hand of the scan, whether it is on the chain or
not. The items on the chain are those whose `next` is not `EP_UNACTIVE_PTR`.
-/

namespace Rtfsc.Linux

open Rtfsc.Machine

variable {α : Type}

/-- Where the chain begins: at `ovflist`, and in the walk over it at the item that comes next. -/
def EpPc.chainHead (ovflist : Option (Option α)) : EpPc α → Option α
  | .drain nepi => nepi
  | _ => ovflist.join

theorem EpPc.inHand_of_not_scanning {pc : EpPc α} (h : ¬pc.Scanning) : pc.inHand = [] := by
  cases pc with
  | polling epi => exact absurd trivial h
  | putUser epi revents => exact absurd trivial h
  | _ => rfl

namespace EpState

/-- The items of `chain` are linked by `next` from `head` on, and no others have a `next`. -/
structure Chained (head : Option α) (next : α → Option (Option α)) (chain : List α) : Prop where
  links : Links (fun i => (next i).join) head chain
  nodup : chain.Nodup
  mem : ∀ i, next i ≠ none ↔ i ∈ chain

/-- What the scan has done with the items that it has taken over. -/
structure ScanLog (s : EpState α) : Prop where
  taken : s.taken.Nodup
  perm : s.Scanning → (s.reported ++ s.notReady ++ (s.pc.inHand ++ s.txlist)).Perm s.taken
  reported : s.reported.Nodup
  bound : (s.reported.length : Int) ≤ s.esed.maxevents
  res : s.pc = .send ∨ s.pc.inHand ≠ [] → s.esed.res = s.reported.length
  room : s.pc.inHand ≠ [] → s.esed.res < s.esed.maxevents

/-- The invariant of the lists. -/
structure Inv (s : EpState α) : Prop where
  nodup : (s.rdllist ++ (s.pc.inHand ++ s.txlist)).Nodup
  active : s.ovflist ≠ none ↔ s.Scanning
  txlist : ¬s.Scanning → s.txlist = []
  chain : ∃ chain, Chained (s.pc.chainHead s.ovflist) s.next chain
  pending : ∀ i, s.pending i = true → i ∈ s.rdllist ∨ i ∈ s.txlist ∨ s.next i ≠ none
  known : ∀ i, i ∈ s.rdllist ++ (s.pc.inHand ++ s.txlist) ∨ s.next i ≠ none →
    s.registered i = true ∨ s.pc = .insertUndo i
  inserting : ∀ i, s.pc = .insertPoll i ∨ (∃ revents, s.pc = .insertLink i revents) →
    s.registered i = true
  log : s.ScanLog

theorem Inv.next_eq_none {s : EpState α} (h : s.Inv) (hs : ¬s.Scanning) (i : α) : s.next i = none := by
  obtain ⟨chain, hlinks, _, hmem⟩ := h.chain
  have hov : s.ovflist = none := not_not.1 fun hne => hs (h.active.1 hne)
  have hhead : s.pc.chainHead s.ovflist = none := by
    rw [hov]
    unfold Scanning at hs
    cases hpc : s.pc with
    | drain nepi => exact absurd (hpc ▸ trivial) hs
    | _ => rfl
  have hnil := hlinks.head_eq_none.1 hhead
  refine not_not.1 fun hne => ?_
  have hm := (hmem i).1 hne
  rw [hnil] at hm
  cases hm

/-- The log of a scan that is over does not change. -/
theorem ScanLog.outside {s t : EpState α} (h : s.ScanLog) (ht : ¬t.Scanning)
    (htaken : t.taken = s.taken) (hreported : t.reported = s.reported) (hesed : t.esed = s.esed) :
    t.ScanLog := by
  have hhand : t.pc.inHand = [] := EpPc.inHand_of_not_scanning ht
  refine ⟨htaken ▸ h.taken, fun hs => absurd hs ht, hreported ▸ h.reported, ?_, ?_, ?_⟩
  · rw [hreported, hesed]
    exact h.bound
  · rintro (hpc | hne)
    · exact absurd (by rw [Scanning, hpc]; trivial) ht
    · exact absurd hhand hne
  · exact fun hne => absurd hhand hne

/-- Outside of scans only `rdllist` has items. -/
theorem Inv.of_outside {t : EpState α} (ht : ¬t.Scanning) (hov : t.ovflist = none)
    (htx : t.txlist = []) (hnext : ∀ i, t.next i = none) (hnodup : t.rdllist.Nodup)
    (hpending : ∀ i, t.pending i = true → i ∈ t.rdllist)
    (hknown : ∀ i ∈ t.rdllist, t.registered i = true ∨ t.pc = .insertUndo i)
    (hins : ∀ i, t.pc = .insertPoll i ∨ (∃ revents, t.pc = .insertLink i revents) →
      t.registered i = true) (hlog : t.ScanLog) : t.Inv where
  nodup := by
    rw [EpPc.inHand_of_not_scanning ht, htx, List.nil_append, List.append_nil]
    exact hnodup
  active := iff_of_false (fun h => h hov) ht
  txlist _ := htx
  chain := by
    refine ⟨[], ?_, List.nodup_nil, fun i => iff_of_false (fun h => h (hnext i)) List.not_mem_nil⟩
    rw [hov]
    cases hpc : t.pc with
    | drain nepi => exact absurd (by rw [Scanning, hpc]; trivial) ht
    | _ => exact rfl
  pending i hi := .inl (hpending i hi)
  known i hi := by
    rw [EpPc.inHand_of_not_scanning ht, htx, List.nil_append, List.append_nil] at hi
    exact hknown i (hi.resolve_right fun h => h (hnext i))
  inserting := hins
  log := hlog

/-- The converse. -/
theorem Inv.outside {s : EpState α} (h : s.Inv) (hs : ¬s.Scanning) :
    s.ovflist = none ∧ s.txlist = [] ∧ (∀ i, s.next i = none) ∧ s.rdllist.Nodup ∧
      (∀ i, s.pending i = true → i ∈ s.rdllist) ∧
        ∀ i ∈ s.rdllist, s.registered i = true ∨ s.pc = .insertUndo i := by
  have hnext := h.next_eq_none hs
  have htx := h.txlist hs
  have hnodup := h.nodup
  refine ⟨not_not.1 fun hne => hs (h.active.1 hne), htx, hnext, hnodup.of_append_left, fun i hi => ?_,
    fun i hi => h.known i (.inl (List.mem_append_left _ hi))⟩
  rcases h.pending i hi with hm | hm | hm
  · exact hm
  · rw [htx] at hm
    cases hm
  · exact absurd (hnext i) hm

theorem not_scanning {s : EpState α} {pc : EpPc α} (hpc : s.pc = pc) (h : ¬pc.Scanning) :
    ¬s.Scanning := by
  rw [Scanning, hpc]
  exact h

/-- Outside of a scan, and of an insertion that fails, only registered items are listed. -/
theorem Inv.registered_of {s : EpState α} {pc : EpPc α} (h : s.Inv) (hs : ¬s.Scanning)
    (hpc : s.pc = pc) (hundo : ∀ i, pc ≠ .insertUndo i) :
    ∀ i ∈ s.rdllist, s.registered i = true := by
  obtain ⟨-, -, -, -, -, hknown⟩ := h.outside hs
  exact fun i hi => (hknown i hi).resolve_right fun hu => hundo i (hpc.symm.trans hu)

variable [DecidableEq α]

namespace Chained

variable {head : Option α} {next : α → Option (Option α)} {chain : List α} {epi : α}

theorem join_update (next : α → Option (Option α)) (epi : α) (v : Option (Option α)) :
    (fun i => (Function.update next epi v i).join) =
      Function.update (fun i => (next i).join) epi v.join := by
  funext i
  rcases eq_or_ne i epi with rfl | hi
  · rw [Function.update_self, Function.update_self]
  · rw [Function.update_of_ne hi, Function.update_of_ne hi]

/-- An item that is not on the chain is put in front of it. -/
theorem push {ovflist : Option (Option α)} (h : Chained ovflist.join next chain)
    (hepi : next epi = none) (hov : ovflist ≠ none) :
    Chained (some epi) (Function.update next epi ovflist) (epi :: chain) := by
  have hnot : epi ∉ chain := fun hm => (h.mem epi).2 hm hepi
  refine ⟨?_, List.nodup_cons.2 ⟨hnot, h.nodup⟩, fun i => ?_⟩
  · rw [join_update]
    exact h.links.push hnot
  · rw [List.mem_cons]
    rcases eq_or_ne i epi with rfl | hi
    · rw [Function.update_self]
      exact iff_of_true hov (.inl rfl)
    · rw [Function.update_of_ne hi, h.mem]
      exact ⟨.inr, fun hm => hm.resolve_left hi⟩

/-- The first item is taken off the chain. -/
theorem pop (h : Chained (some epi) next chain) :
    ∃ rest, Chained (next epi).join (Function.update next epi none) rest := by
  obtain ⟨hlinks, hnodup, hmem⟩ := h
  cases chain with
  | nil => cases hlinks
  | cons a rest =>
    obtain ⟨ha, hrest⟩ := hlinks
    cases ha
    obtain ⟨hnot, hnodup⟩ := List.nodup_cons.1 hnodup
    refine ⟨rest, ?_, hnodup, fun i => ?_⟩
    · rw [join_update]
      exact hrest.update hnot _
    · rcases eq_or_ne i epi with rfl | hi
      · rw [Function.update_self]
        exact iff_of_false (fun h => h rfl) hnot
      · rw [Function.update_of_ne hi, hmem, List.mem_cons]
        exact ⟨fun hm => hm.resolve_left hi, .inr⟩

end Chained

variable {b : EpollBits} {s t : EpState α} {epi : α}

theorem isLinked_iff : s.isLinked epi = true ↔ epi ∈ s.rdllist ++ s.txlist := by
  simp [isLinked]

theorem nodup_addTail (h : (s.rdllist ++ s.txlist).Nodup) : (s.addTail epi ++ s.txlist).Nodup := by
  unfold addTail
  split
  · exact h
  · next hl =>
    rw [isLinked_iff] at hl
    rw [List.append_assoc, List.singleton_append]
    exact List.nodup_middle.2 (List.nodup_cons.2 ⟨hl, h⟩)

/-- Afterwards the item is linked, and so are those that were. -/
theorem mem_addTail {i : α} :
    i ∈ s.addTail epi ++ s.txlist ↔ i = epi ∨ i ∈ s.rdllist ++ s.txlist := by
  unfold addTail
  split
  · next hl =>
    rw [isLinked_iff] at hl
    exact ⟨.inr, fun h => h.elim (fun he => he ▸ hl) id⟩
  · simp only [List.mem_append, List.mem_singleton]
    grind

/-- `ep_poll_callback` puts the item on `rdllist` or on the chain. -/
theorem Inv.epPollCallback {pollflags : BitVec 32} (h : s.Inv) (hpc : s.LockFree)
    (hreg : s.registered epi = true) : (s.epPollCallback b epi pollflags).2.Inv := by
  have hhead : ∀ ovflist, s.pc.chainHead ovflist = ovflist.join := by
    intro ovflist
    unfold LockFree at hpc
    cases hp : s.pc with
    | drain nepi => exact absurd hp (hpc nepi)
    | _ => rfl
  unfold EpState.epPollCallback
  split
  · exact h
  split
  · exact h
  dsimp only
  split
  · next hov =>
    split
    · next hnext =>
      obtain ⟨chain, hchain⟩ := h.chain
      refine ⟨h.nodup, iff_of_true (Option.some_ne_none _) (h.active.1 hov), h.txlist,
        ⟨epi :: chain, ?_⟩, fun i hi => ?_, fun i hi => ?_, h.inserting, ?_⟩
      · dsimp only
        rw [hhead] at hchain ⊢
        exact hchain.push hnext hov
      · dsimp only at hi ⊢
        rcases eq_or_ne i epi with rfl | hne
        · rw [Function.update_self]
          exact .inr (.inr hov)
        · rw [Function.update_of_ne hne] at hi ⊢
          exact h.pending i hi
      · dsimp only at hi ⊢
        rcases eq_or_ne i epi with rfl | hne
        · exact .inl hreg
        · rw [Function.update_of_ne hne] at hi
          exact h.known i hi
      · exact ⟨h.log.taken, h.log.perm, h.log.reported, h.log.bound, h.log.res, h.log.room⟩
    · next hnext =>
      refine ⟨h.nodup, h.active, h.txlist, h.chain, fun i hi => ?_, h.known, h.inserting, ?_⟩
      · dsimp only at hi ⊢
        rcases eq_or_ne i epi with rfl | hne
        · exact .inr (.inr hnext)
        · rw [Function.update_of_ne hne] at hi
          exact h.pending i hi
      · exact ⟨h.log.taken, h.log.perm, h.log.reported, h.log.bound, h.log.res, h.log.room⟩
  · next hov =>
    have hscan : ¬s.Scanning := fun hs => hov (h.active.2 hs)
    have hhand : s.pc.inHand = [] := EpPc.inHand_of_not_scanning hscan
    have hnodup := h.nodup
    have hknown := h.known
    rw [hhand, List.nil_append] at hnodup hknown
    refine ⟨?_, h.active, h.txlist, h.chain, fun i hi => ?_, fun i hi => ?_, h.inserting, ?_⟩
    · dsimp only
      rw [hhand]
      exact nodup_addTail hnodup
    · dsimp only at hi ⊢
      rw [← or_assoc, ← List.mem_append, mem_addTail]
      rcases eq_or_ne i epi with rfl | hne
      · exact .inl (.inl rfl)
      · rw [Function.update_of_ne hne] at hi
        rw [List.mem_append, or_assoc, or_assoc]
        exact .inr (h.pending i hi)
    · dsimp only at hi ⊢
      rw [hhand, List.nil_append, mem_addTail, or_assoc] at hi
      rcases hi with rfl | hi
      · exact .inl hreg
      · exact hknown i hi
    · exact ⟨h.log.taken, h.log.perm, h.log.reported, h.log.bound, h.log.res, h.log.room⟩

/-! ## `ep_scan_ready_list` -/

omit [DecidableEq α] in
theorem Inv.scanReadyList {maxevents : Int} (h : s.Inv) (hpc : s.pc = .free) (hmax : 1 ≤ maxevents) :
    (s.scanReadyList maxevents).Inv := by
  have hs := not_scanning hpc id
  obtain ⟨_, _, hnext, hnodup, hpending, -⟩ := h.outside hs
  refine ⟨hnodup, iff_of_true (Option.some_ne_none _) trivial, fun hn => absurd trivial hn, ⟨[], ?_⟩,
    fun i hi => .inr (.inl (hpending i hi)), fun i hi => ?_, fun i hi => ?_, ?_⟩
  · exact ⟨rfl, List.nodup_nil, fun i => iff_of_false (fun h => h (hnext i)) List.not_mem_nil⟩
  · rcases hi with hi | hi
    · exact .inl (h.registered_of hs hpc nofun i hi)
    · exact absurd (hnext i) hi
  · rcases hi with hi | ⟨_, hi⟩ <;> cases hi
  · exact ⟨hnodup, fun _ => .refl _, List.nodup_nil, by simp [EpState.scanReadyList]; omega, fun _ => rfl,
      fun hne => absurd rfl hne⟩

omit [DecidableEq α] in
/-- A scan goes on to another place while the chain stays as it is. -/
theorem Inv.scan_step (h : s.Inv) (hs : s.Scanning) (ht : t.Scanning) (hov : t.ovflist = s.ovflist)
    (hhead : t.pc.chainHead s.ovflist = s.pc.chainHead s.ovflist) (hnext : t.next = s.next)
    (hreg : t.registered = s.registered)
    (hsub : ∀ i ∈ t.rdllist ++ (t.pc.inHand ++ t.txlist),
      i ∈ s.rdllist ++ (s.pc.inHand ++ s.txlist))
    (hnodup : (t.rdllist ++ (t.pc.inHand ++ t.txlist)).Nodup)
    (hpending : ∀ i, t.pending i = true → i ∈ t.rdllist ∨ i ∈ t.txlist ∨ s.next i ≠ none)
    (hlog : t.ScanLog) : t.Inv where
  nodup := hnodup
  active := iff_of_true (hov ▸ h.active.2 hs) ht
  txlist hn := absurd ht hn
  chain := by
    rw [hov, hhead, hnext]
    exact h.chain
  pending i hi := by
    rw [hnext]
    exact hpending i hi
  known i hi := by
    rw [hnext] at hi
    rw [hreg]
    rcases h.known i (hi.imp_left (hsub i)) with hr | hu
    · exact .inl hr
    · rw [Scanning, hu] at hs
      exact hs.elim
  inserting i hi := by
    rcases hi with hi | ⟨_, hi⟩
    · rw [Scanning, hi] at ht
      exact ht.elim
    · rw [Scanning, hi] at ht
      exact ht.elim
  log := hlog

theorem Inv.sendNext (h : s.Inv) (hpc : s.pc = .send) : s.sendNext.Inv := by
  have hs : s.Scanning := by
    rw [Scanning, hpc]
    trivial
  have hnodup := h.nodup
  have hperm := h.log.perm hs
  have hres := h.log.res (.inl hpc)
  rw [hpc] at hnodup hperm
  have hstop : ({ s with pc := .relock } : EpState α).Inv := by
    refine h.scan_step hs trivial rfl (by rw [hpc]; rfl) rfl rfl (by rw [hpc]; exact fun _ => id)
      hnodup h.pending ⟨h.log.taken, fun _ => hperm, h.log.reported, h.log.bound, ?_, ?_⟩
    · rintro (hpc | hne)
      · cases hpc
      · exact absurd rfl hne
    · exact fun hne => absurd rfl hne
  unfold EpState.sendNext
  split
  · next epi rest htx =>
    rw [htx] at hnodup hperm
    split
    · next hroom =>
      refine h.scan_step hs trivial rfl (by rw [hpc]; rfl) rfl rfl ?_ hnodup (fun i hi => ?_)
        ⟨h.log.taken, fun _ => hperm, h.log.reported, h.log.bound, fun _ => hres, fun _ => hroom⟩
      · rw [hpc, htx]
        exact fun _ => id
      · dsimp only at hi ⊢
        rcases eq_or_ne i epi with rfl | hne
        · rw [Function.update_self] at hi
          cases hi
        · rw [Function.update_of_ne hne] at hi
          have hp := h.pending i hi
          rw [htx, List.mem_cons] at hp
          exact hp.imp_right (Or.imp_left fun hm => hm.resolve_left hne)
    · exact hstop
  · exact hstop

omit [DecidableEq α] in
theorem Inv.sendPolled {res : BitVec 32} (h : s.Inv) (hpc : s.pc = .polling epi) :
    (s.sendPolled epi res).Inv := by
  have hs : s.Scanning := by
    rw [Scanning, hpc]
    trivial
  have hnodup := h.nodup
  have hperm := h.log.perm hs
  have hhand : s.pc.inHand ≠ [] := by
    rw [hpc]
    exact List.cons_ne_nil _ _
  have hres := h.log.res (.inr hhand)
  rw [hpc] at hnodup hperm
  unfold EpState.sendPolled
  dsimp only
  split
  · refine h.scan_step hs trivial rfl (by rw [hpc]; rfl) rfl rfl (by rw [hpc]; exact fun _ => id)
      hnodup h.pending ⟨h.log.taken, fun _ => hperm, h.log.reported, h.log.bound, fun _ => hres,
        fun _ => h.log.room hhand⟩
  · refine h.scan_step hs trivial rfl (by rw [hpc]; rfl) rfl rfl (fun i hi => ?_) ?_ h.pending
      ⟨h.log.taken, fun _ => ?_, h.log.reported, h.log.bound, fun _ => hres,
        fun hne => absurd rfl hne⟩
    · rw [hpc]
      exact (List.mem_append.1 hi).elim (List.mem_append_left _)
        fun hm => List.mem_append_right _ (List.mem_cons_of_mem _ hm)
    · exact hnodup.sublist ((List.sublist_cons_self _ _).append_left _)
    · refine (List.Perm.of_eq ?_).trans hperm
      simp only [EpPc.inHand, List.append_assoc, List.nil_append]

theorem Inv.sendPutUser {failed : Bool} {revents : BitVec 32} (h : s.Inv)
    (hpc : s.pc = .putUser epi revents) : (s.sendPutUser b epi failed).Inv := by
  have hs : s.Scanning := by
    rw [Scanning, hpc]
    trivial
  have hnodup := h.nodup
  have hperm := h.log.perm hs
  have hhand : s.pc.inHand ≠ [] := by
    rw [hpc]
    exact List.cons_ne_nil _ _
  have hres := h.log.res (.inr hhand)
  have hroom := h.log.room hhand
  rw [hpc] at hnodup hperm
  unfold EpState.sendPutUser
  split
  · refine h.scan_step hs trivial rfl (by rw [hpc]; rfl) rfl rfl (by rw [hpc]; exact fun _ => id)
      hnodup (fun i hi => ?_) ⟨h.log.taken, fun _ => hperm, h.log.reported, h.log.bound, ?_, ?_⟩
    · exact (h.pending i hi).imp_right (Or.imp_left (List.mem_cons_of_mem _))
    · rintro (hpc | hne)
      · cases hpc
      · exact absurd rfl hne
    · exact fun hne => absurd rfl hne
  · have hperm' : (s.reported ++ [epi] ++ s.notReady ++ ([] ++ s.txlist)).Perm s.taken := by
      refine List.Perm.trans ?_ hperm
      rw [List.append_assoc, List.append_assoc, List.append_assoc]
      change (s.reported ++ epi :: (s.notReady ++ s.txlist)).Perm
        (s.reported ++ (s.notReady ++ epi :: s.txlist))
      exact List.perm_middle.symm.append_left s.reported
    have hreported : (s.reported ++ [epi]).Nodup :=
      (hperm'.nodup_iff.2 h.log.taken).of_append_left.of_append_left
    -- whether the item goes back to `rdllist` depends on the mode
    have hgo : ∀ (events : α → BitVec 32) (rdllist : List α),
        rdllist = s.rdllist ∨ rdllist = s.rdllist ++ [epi] →
        ({ s with
          esed := ⟨s.esed.maxevents, s.esed.res + 1⟩
          pc := .send
          reported := s.reported ++ [epi]
          events := events
          rdllist := rdllist } : EpState α).Inv := by
      intro events rdllist hrd
      refine h.scan_step hs trivial rfl (by rw [hpc]; rfl) rfl rfl (fun i hi => ?_) ?_
        (fun i hi => ?_) ⟨h.log.taken, fun _ => hperm', hreported, ?_, fun _ => ?_,
          fun hne => absurd rfl hne⟩
      · rw [hpc]
        rcases hrd with rfl | rfl
        · exact (List.mem_append.1 hi).elim (List.mem_append_left _)
            fun hm => List.mem_append_right _ (List.mem_cons_of_mem _ hm)
        · dsimp only at hi
          rwa [List.append_assoc] at hi
      · rcases hrd with rfl | rfl
        · exact hnodup.sublist ((List.sublist_cons_self _ _).append_left _)
        · dsimp only
          rwa [List.append_assoc]
      · rcases hrd with rfl | rfl
        · exact h.pending i hi
        · exact (h.pending i hi).imp_left (List.mem_append_left _)
      · rw [List.length_append, List.length_singleton]
        push_cast
        rw [← hres]
        exact hroom
      · rw [List.length_append, List.length_singleton]
        push_cast
        rw [← hres]
    dsimp only
    split
    · exact hgo _ _ (.inl rfl)
    split
    · exact hgo _ _ (.inr rfl)
    · exact hgo _ _ (.inl rfl)

omit [DecidableEq α] in
theorem Inv.relock (h : s.Inv) (hpc : s.pc = .relock) :
    ({ s with pc := .drain s.ovflist.join } : EpState α).Inv := by
  have hs : s.Scanning := by
    rw [Scanning, hpc]
    trivial
  have hnodup := h.nodup
  have hperm := h.log.perm hs
  rw [hpc] at hnodup hperm
  refine h.scan_step hs trivial rfl (by rw [hpc]; rfl) rfl rfl (by rw [hpc]; exact fun _ => id)
    hnodup h.pending ⟨h.log.taken, fun _ => hperm, h.log.reported, h.log.bound, ?_, ?_⟩
  · rintro (hpc | hne)
    · cases hpc
    · exact absurd rfl hne
  · exact fun hne => absurd rfl hne

/-- The walk takes an item off the chain and sees to it that it is linked. -/
theorem Inv.drainNext (h : s.Inv) (hpc : s.pc = .drain (some epi)) : (s.drainNext epi).Inv := by
  have hs : s.Scanning := by
    rw [Scanning, hpc]
    trivial
  have hnodup := h.nodup
  have hperm := h.log.perm hs
  have hknown := h.known
  obtain ⟨chain, hchain⟩ := h.chain
  rw [hpc] at hnodup hperm hchain hknown
  have hchain' : Chained (some epi) s.next chain := hchain
  have hepi : s.next epi ≠ none := by
    rw [hchain'.mem]
    obtain ⟨hlinks, _, _⟩ := hchain'
    cases chain with
    | nil => cases hlinks
    | cons a rest =>
      cases hlinks.1
      exact List.mem_cons_self
  refine ⟨nodup_addTail hnodup, h.active.trans (iff_of_true hs trivial), fun hn => absurd trivial hn,
    hchain'.pop, fun i hi => ?_, fun i hi => ?_, fun i hi => ?_,
    ⟨h.log.taken, fun _ => hperm, h.log.reported, h.log.bound, ?_, fun hne => absurd rfl hne⟩⟩
  · have hm : i ∈ s.addTail epi ++ s.txlist ∨ s.next i ≠ none ∧ i ≠ epi := by
      rw [mem_addTail, List.mem_append]
      rcases eq_or_ne i epi with rfl | hne
      · exact .inl (.inl rfl)
      · rcases h.pending i hi with hm | hm | hm
        · exact .inl (.inr (.inl hm))
        · exact .inl (.inr (.inr hm))
        · exact .inr ⟨hm, hne⟩
    rcases hm with hm | ⟨hm, hne⟩
    · exact (List.mem_append.1 hm).imp_right .inl
    · refine .inr (.inr ?_)
      dsimp only [EpState.drainNext]
      rwa [Function.update_of_ne hne]
  · have hi' : i ∈ s.addTail epi ++ s.txlist ∨ s.next i ≠ none := by
      refine hi.imp_right fun hn => ?_
      dsimp only [EpState.drainNext] at hn
      rcases eq_or_ne i epi with rfl | hne
      · exact hepi
      · rwa [Function.update_of_ne hne] at hn
    rw [mem_addTail] at hi'
    refine .inl ?_
    have hk : s.registered i = true ∨ EpPc.drain (some epi) = .insertUndo i := by
      rcases hi' with (rfl | hi') | hi'
      · exact hknown _ (.inr hepi)
      · exact hknown _ (.inl hi')
      · exact hknown _ (.inr hi')
    exact hk.resolve_right fun hu => by cases hu
  · rcases hi with hi | ⟨_, hi⟩ <;> cases hi
  · rintro (hpc | hne)
    · cases hpc
    · exact absurd rfl hne

omit [DecidableEq α] in
/-- The scan gives back what it has not reported. -/
theorem Inv.scanEnd (h : s.Inv) (hpc : s.pc = .drain none) : s.scanEnd.2.Inv := by
  have hnodup := h.nodup
  have hknown := h.known
  obtain ⟨chain, hchain⟩ := h.chain
  rw [hpc] at hnodup hchain hknown
  have hchain' : Chained none s.next chain := hchain
  have hnext : ∀ i, s.next i = none := by
    intro i
    refine not_not.1 fun hne => ?_
    have hm := (hchain'.mem i).1 hne
    rw [hchain'.links.head_eq_none.1 rfl] at hm
    cases hm
  have hmem : ∀ i, i ∈ s.txlist ++ s.rdllist ↔ i ∈ s.rdllist ++ s.txlist := fun i =>
    List.perm_append_comm.mem_iff
  refine Inv.of_outside id rfl rfl hnext (List.perm_append_comm.nodup_iff.1 hnodup) (fun i hi => ?_)
    (fun i hi => ?_) (fun i hi => ?_) (h.log.outside id rfl rfl rfl)
  · rcases h.pending i hi with hm | hm | hm
    · exact List.mem_append_right _ hm
    · exact List.mem_append_left _ hm
    · exact absurd (hnext i) hm
  · refine .inl ((hknown i (.inl ((hmem i).1 hi))).resolve_right fun hu => ?_)
    cases hu
  · rcases hi with hi | ⟨_, hi⟩ <;> cases hi

/-! ## `ep_insert` -/

theorem Inv.epInsert {events : BitVec 32} (h : s.Inv) (hpc : s.pc = .free) :
    (s.epInsert epi events).Inv := by
  have hs := not_scanning hpc id
  obtain ⟨hov, htx, hnext, hnodup, hpending, -⟩ := h.outside hs
  refine Inv.of_outside id hov htx (fun i => ?_) hnodup (fun i hi => ?_) (fun i hi => .inl ?_)
    (fun i hi => ?_) (h.log.outside id rfl rfl rfl)
  · dsimp only [EpState.epInsert]
    rcases eq_or_ne i epi with rfl | hne
    · rw [Function.update_self]
    · rw [Function.update_of_ne hne, hnext]
  · dsimp only [EpState.epInsert] at hi
    rcases eq_or_ne i epi with rfl | hne
    · rw [Function.update_self] at hi
      cases hi
    · rw [Function.update_of_ne hne] at hi
      exact hpending i hi
  · dsimp only [EpState.epInsert]
    rcases eq_or_ne i epi with rfl | hne
    · rw [Function.update_self]
    · rw [Function.update_of_ne hne]
      exact h.registered_of hs hpc nofun i hi
  · dsimp only [EpState.epInsert] at hi ⊢
    rcases hi with hi | ⟨_, hi⟩
    · cases hi
      rw [Function.update_self]
    · cases hi

theorem Inv.insertPolled {res : BitVec 32} {failed : Bool} (h : s.Inv)
    (hpc : s.pc = .insertPoll epi) : (s.insertPolled epi res failed).Inv := by
  have hs := not_scanning hpc id
  obtain ⟨hov, htx, hnext, hnodup, hpending, -⟩ := h.outside hs
  have hreg := h.registered_of hs hpc nofun
  unfold EpState.insertPolled
  split
  · refine Inv.of_outside id hov htx hnext hnodup hpending (fun i hi => ?_) (fun i hi => ?_)
      (h.log.outside id rfl rfl rfl)
    · dsimp only
      rcases eq_or_ne i epi with rfl | hne
      · exact .inr rfl
      · rw [Function.update_of_ne hne]
        exact .inl (hreg i hi)
    · rcases hi with hi | ⟨_, hi⟩ <;> cases hi
  · refine Inv.of_outside id hov htx hnext hnodup hpending (fun i hi => .inl (hreg i hi))
      (fun i hi => ?_) (h.log.outside id rfl rfl rfl)
    rcases hi with hi | ⟨_, hi⟩
    · cases hi
    · cases hi
      exact h.inserting epi (.inl hpc)

theorem Inv.insertLink {revents : BitVec 32} (h : s.Inv) (hpc : s.pc = .insertLink epi revents) :
    (s.insertLink epi revents).2.Inv := by
  have hs := not_scanning hpc id
  obtain ⟨hov, htx, hnext, hnodup, hpending, -⟩ := h.outside hs
  have hreg := h.registered_of hs hpc nofun
  have hins : ∀ i, EpPc.free = .insertPoll i ∨ (∃ revents, EpPc.free = .insertLink i revents) →
      s.registered i = true := by
    rintro i (hi | ⟨_, hi⟩) <;> cases hi
  unfold EpState.insertLink
  split
  · next hadd =>
    have hnot : epi ∉ s.rdllist := fun hm => by
      have hl := hadd.2
      rw [← Bool.not_eq_true, isLinked_iff] at hl
      exact hl (List.mem_append_left _ hm)
    refine Inv.of_outside id hov htx hnext ?_ (fun i hi => List.mem_append_left _ (hpending i hi))
      (fun i hi => .inl ?_) hins (h.log.outside id rfl rfl rfl)
    · exact List.nodup_append_comm.1 (List.nodup_cons.2 ⟨hnot, hnodup⟩)
    · rcases List.mem_append.1 hi with hi | hi
      · exact hreg i hi
      · rw [List.mem_singleton.1 hi]
        exact h.inserting epi (.inr ⟨revents, hpc⟩)
  · exact Inv.of_outside id hov htx hnext hnodup hpending (fun i hi => .inl (hreg i hi)) hins
      (h.log.outside id rfl rfl rfl)

theorem Inv.insertUndo (h : s.Inv) (hpc : s.pc = .insertUndo epi) : (s.insertUndo epi).Inv := by
  have hs := not_scanning hpc id
  obtain ⟨hov, htx, hnext, hnodup, hpending, hknown⟩ := h.outside hs
  refine Inv.of_outside id hov ?_ hnext (hnodup.erase epi) (fun i hi => ?_) (fun i hi => ?_)
    (fun i hi => ?_) (h.log.outside id rfl rfl rfl)
  · dsimp only [EpState.insertUndo]
    rw [htx]
    rfl
  · dsimp only [EpState.insertUndo] at hi ⊢
    rcases eq_or_ne i epi with rfl | hne
    · rw [Function.update_self] at hi
      cases hi
    · rw [Function.update_of_ne hne] at hi
      exact (List.mem_erase_of_ne hne).2 (hpending i hi)
  · obtain ⟨hne, hm⟩ := hnodup.mem_erase_iff.1 hi
    refine .inl ((hknown i hm).resolve_right fun hu => ?_)
    rw [hpc] at hu
    cases hu
    exact hne rfl
  · rcases hi with hi | ⟨_, hi⟩ <;> cases hi

/-! ## Runs -/

/-- Every step keeps the invariant. -/
theorem Inv.step {e : EpStep α} {wake : Bool} (h : s.Inv) (hs : s.step b e = some (wake, t)) :
    t.Inv := by
  unfold EpState.step at hs
  split at hs
  case h_1 epi pollflags =>
    split at hs
    · cases hs
    · next hpc =>
      obtain ⟨hreg, heq⟩ := Option.ite_none_right_eq_some.1 hs
      cases (Prod.ext_iff.1 (Option.some.inj heq)).2
      exact h.epPollCallback hpc hreg
  case h_2 maxevents =>
    obtain ⟨⟨hpc, hmax⟩, heq⟩ := Option.ite_none_right_eq_some.1 hs
    cases heq
    exact h.scanReadyList hpc hmax
  case h_3 =>
    obtain ⟨hpc, heq⟩ := Option.ite_none_right_eq_some.1 hs
    cases heq
    exact h.sendNext hpc
  case h_4 res =>
    split at hs
    · next hpc =>
      cases hs
      exact h.sendPolled hpc
    · cases hs
  case h_5 failed =>
    split at hs
    · next hpc =>
      cases hs
      exact h.sendPutUser hpc
    · cases hs
  case h_6 =>
    obtain ⟨hpc, heq⟩ := Option.ite_none_right_eq_some.1 hs
    cases heq
    exact h.relock hpc
  case h_7 =>
    split at hs
    · next hpc =>
      cases hs
      exact h.drainNext hpc
    · next hpc =>
      cases (Prod.ext_iff.1 (Option.some.inj hs)).2
      exact h.scanEnd hpc
    · cases hs
  case h_8 epi events =>
    obtain ⟨⟨hpc, _⟩, heq⟩ := Option.ite_none_right_eq_some.1 hs
    cases heq
    exact h.epInsert hpc
  case h_9 res failed =>
    split at hs
    · next hpc =>
      cases hs
      exact h.insertPolled hpc
    · cases hs
  case h_10 =>
    split at hs
    · next hpc =>
      cases (Prod.ext_iff.1 (Option.some.inj hs)).2
      exact h.insertLink hpc
    · next hpc =>
      cases hs
      exact h.insertUndo hpc
    · cases hs

omit [DecidableEq α] in
theorem new_inv : (new : EpState α).Inv :=
  .of_outside id rfl rfl (fun _ => rfl) List.nodup_nil (fun _ hi => by cases hi)
    (fun _ hi => by cases hi) (fun _ hi => by rcases hi with hi | ⟨_, hi⟩ <;> cases hi)
    ⟨List.nodup_nil, fun h => h.elim, List.nodup_nil, Int.le_refl _,
      fun h => h.elim (fun h => by cases h) (fun h => absurd rfl h), fun h => absurd rfl h⟩

theorem run_inv {es : List (EpStep α)} (h : Run (Steps b) new es s) : s.Inv :=
  h.stateInvariant new_inv fun _ _ _ ht hs => hs.elim fun _ hs => ht.step hs

/-- In every run of callbacks, scans and insertions: while the lock is free, an item is linked at most
once, on `rdllist` or on `txlist`, those on the chain are the ones whose `next` is not `EP_UNACTIVE_PTR`,
`ovflist` is `EP_UNACTIVE_PTR` outside of scans, and an item for which a callback has passed both mask
tests since it was last polled is on one of the three. A scan reports no item twice and no more than
`maxevents`, and at its end all that it has taken over and neither reported nor found without an event is
at the head of `rdllist`. -/
theorem epoll_run {es : List (EpStep α)} (h : Run (Steps b) new es s) :
    (s.LockFree →
      (s.rdllist ++ s.txlist).Nodup ∧
      (∃ chain : List α, chain.Nodup ∧ Links (fun i => (s.next i).join) s.ovflist.join chain ∧
        (∀ i, s.next i ≠ none ↔ i ∈ chain) ∧
        ∀ i, s.pending i = true → i ∈ s.rdllist ∨ i ∈ s.txlist ∨ i ∈ chain) ∧
      (¬s.Scanning → s.ovflist = none)) ∧
    (s.reported.Nodup ∧ (s.reported.length : Int) ≤ s.esed.maxevents) ∧
    (∀ t, s.pc = .drain none → s.Steps b .drain t →
      ∃ rest, (s.reported ++ s.notReady ++ rest).Perm s.taken ∧ rest <+: t.rdllist) := by
  have hinv := run_inv h
  refine ⟨fun hlock => ⟨?_, ?_, fun hs => (hinv.outside hs).1⟩, ⟨hinv.log.reported, hinv.log.bound⟩, ?_⟩
  · exact hinv.nodup.sublist ((List.sublist_append_right _ _).append_left _)
  · obtain ⟨chain, hchain⟩ := hinv.chain
    have hhead : s.pc.chainHead s.ovflist = s.ovflist.join := by
      unfold LockFree at hlock
      cases hp : s.pc with
      | drain nepi => exact absurd hp (hlock nepi)
      | _ => rfl
    refine ⟨chain, hchain.nodup, hhead ▸ hchain.links, hchain.mem, fun i hi => ?_⟩
    rw [← hchain.mem]
    exact hinv.pending i hi
  · rintro t hpc ⟨wake, ht⟩
    have hscan : s.Scanning := by
      rw [Scanning, hpc]
      trivial
    have hperm := hinv.log.perm hscan
    rw [EpState.step, hpc] at ht
    cases ht
    rw [hpc] at hperm
    exact ⟨s.txlist, hperm, List.prefix_append _ _⟩

/-- An item in level-triggered mode is reported and back on `rdllist`, and also on the chain for a
callback that ran during its poll. -/
theorem epoll_run_polledAgain :
    ∃ s : EpState (Fin 1), s.rdllist = [0] ∧ s.next 0 = some none ∧ s.reported = [0] ∧
      (s.rdllist ++ s.txlist).Nodup ∧ (s.reported.length : Int) ≤ s.esed.maxevents := by
  obtain ⟨s, hrun, hs⟩ := Run.exists_of_foldlM_option
    (fun (s : EpState (Fin 1)) e =>
      (s.step ⟨0xf0000000, 0x40000000, 0x80000000⟩ e).map Prod.snd) new
    [.insert 0 1, .insertPolled 1 false, .insertLock, .scan 1, .send, .callback 0 1, .polled 1,
      .putUser false]
    (fun s => ((s.rdllist, s.next 0, s.reported), s.pc)) (b := (([0], some none, [0]), .send))
    (by decide +kernel)
  have hrun' : Run (Steps ⟨0xf0000000, 0x40000000, 0x80000000⟩) new _ s := hrun.mono fun t e u h => by
    obtain ⟨r, hr, rfl⟩ := Option.map_eq_some_iff.1 h
    exact ⟨r.1, hr⟩
  obtain ⟨hlists, hscan, _⟩ := epoll_run hrun'
  have hpc : s.pc = .send := congrArg Prod.snd hs
  have hlock : s.LockFree := by
    rw [LockFree, hpc]
    exact fun _ h => by cases h
  have hs1 := congrArg Prod.fst hs
  exact ⟨s, congrArg Prod.fst hs1, congrArg (fun r => r.2.1) hs1, congrArg (fun r => r.2.2) hs1,
    (hlists hlock).1, hscan.2⟩

end EpState

end Rtfsc.Linux
