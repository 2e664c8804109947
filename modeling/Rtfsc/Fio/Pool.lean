import Rtfsc.Fio.IoPath
import Rtfsc.Fio.Generator

/-!
# fio: the pool of io units

In every run of the io path each unit is on exactly one of the two lists, `cur_depth` is the length of
the busy list, and nothing but a busy unit is put. When `do_io` or `do_verify` returns without an error
no unit is busy, provided the last wait of `cleanup_pending_aio` brings everything back: it does not look
at what `td_io_getevents` returns there.
-/

namespace Rtfsc.Fio

open Rtfsc.Machine IoState

/-- The lists of the pool and its depth. -/
structure SamePool (td td' : ThreadData) : Prop where
  free : td'.ioUFreelist = td.ioUFreelist
  busy : td'.ioUBusylist = td.ioUBusylist
  depth : td'.curDepth = td.curDepth

theorem SamePool.refl (td : ThreadData) : SamePool td td := ⟨rfl, rfl, rfl⟩

theorem SamePool.trans {td td₁ td' : ThreadData} (h : SamePool td td₁) (h' : SamePool td₁ td') :
    SamePool td td' :=
  ⟨h'.free.trans h.free, h'.busy.trans h.busy, h'.depth.trans h.depth⟩

/-- The units `0` to `n - 1`, of which each is on one of the two lists, once. -/
structure PoolOk (n : Nat) (td : ThreadData) : Prop where
  split : (td.ioUFreelist ++ td.ioUBusylist).Perm (List.range n)
  depth : td.curDepth.toNat = td.ioUBusylist.length

variable {n : Nat} {td td' : ThreadData} {s s' : IoState} {i : Nat} {held : List Nat}

theorem PoolOk.same (h : PoolOk n td) (same : SamePool td td') : PoolOk n td' := by
  refine ⟨?_, ?_⟩
  · rw [same.free, same.busy]
    exact h.split
  · rw [same.depth, same.busy]
    exact h.depth

theorem PoolOk.nodup (h : PoolOk n td) : (td.ioUFreelist ++ td.ioUBusylist).Nodup :=
  h.split.nodup_iff.mpr List.nodup_range

theorem PoolOk.busy_nodup (h : PoolOk n td) : td.ioUBusylist.Nodup :=
  (List.nodup_append.mp h.nodup).2.1

/-- `__get_io_u` moves the first free unit to the busy list. -/
theorem PoolOk.get (h : PoolOk n td) (hn : n < 2 ^ 32) (hget : getFreeIoU td = some (i, td')) :
    PoolOk n td' ∧ td'.ioUBusylist = i :: td.ioUBusylist ∧ i ∉ td.ioUBusylist := by
  unfold getFreeIoU at hget
  split at hget
  · cases hget
  · next j rest hfree =>
    cases hget
    have hnodup := h.nodup
    have hsplit := h.split
    rw [hfree] at hnodup hsplit
    have hnew : i ∉ td.ioUBusylist := fun hmem =>
      (List.nodup_cons.mp hnodup).1 (List.mem_append_right _ hmem)
    refine ⟨⟨?_, ?_⟩, rfl, hnew⟩
    · exact (List.perm_middle).trans hsplit
    · have hlen := hsplit.length_eq
      rw [List.length_append, List.length_cons, List.length_range] at hlen
      show (td.curDepth + 1).toNat = (i :: td.ioUBusylist).length
      rw [UInt32.toNat_add, h.depth, List.length_cons, UInt32.toNat_one]
      omega

/-- `put_io_u` moves a busy unit to the free list. -/
theorem PoolOk.put (h : PoolOk n td) (hi : i ∈ td.ioUBusylist) :
    PoolOk n (putIoU td i) ∧ (putIoU td i).ioUBusylist = td.ioUBusylist.erase i := by
  have hdisjoint : i ∉ td.ioUFreelist := fun hfree =>
    (List.nodup_append.mp h.nodup).2.2 i hfree i hi rfl
  refine ⟨⟨?_, ?_⟩, rfl⟩
  · show (i :: td.ioUFreelist.erase i ++ td.ioUBusylist.erase i).Perm _
    rw [List.erase_of_not_mem hdisjoint]
    refine List.Perm.trans ?_ h.split
    exact List.perm_middle.symm.trans
      (List.Perm.append_left _ (List.perm_cons_erase hi).symm)
  · have hpos : 0 < td.ioUBusylist.length := List.length_pos_of_mem hi
    show (td.curDepth - 1).toNat = (td.ioUBusylist.erase i).length
    have hle : (1 : UInt32) ≤ td.curDepth := by
      rw [UInt32.le_iff_toNat_le, h.depth]
      exact hpos
    rw [UInt32.toNat_sub_of_le _ _ hle, h.depth, List.length_erase_of_mem hi]
    rfl

/-! ## What the rest of the job does to the pool -/

theorem getRwDdir_samePool (td : ThreadData) (elapsed : UInt64) (r : RandLong) :
    SamePool td (getRwDdir td elapsed r).2 := by
  unfold getRwDdir
  split
  · split <;> exact ⟨rfl, rfl, rfl⟩
  · split <;> exact ⟨rfl, rfl, rfl⟩

theorem fillIoU_samePool {f : FioFile} {fi : Nat} {u u' : IoU} {env : GetEnv} {filled : Bool}
    (h : fillIoU td f fi u env = .ok (filled, u', td')) : SamePool td td' := by
  unfold fillIoU at h
  split at h
  · unfold readIologGet at h
    split at h <;> cases h <;> exact ⟨rfl, rfl, rfl⟩
  · split at h
    · cases h
      exact SamePool.refl td
    · have hturn := getRwDdir_samePool td env.elapsed env.rwmix
      generalize getRwDdir td env.elapsed env.rwmix = turn at h hturn
      obtain ⟨d, td₁⟩ := turn
      obtain ⟨⟨found, offset⟩, -, h⟩ := bind_eq_ok.mp h
      dsimp only at h hturn
      split at h
      · cases h
        exact hturn
      · split at h
        · cases h
          exact hturn
        · cases h
          split
          · exact hturn.trans ⟨rfl, rfl, rfl⟩
          · exact hturn

theorem prepareIoU_samePool {f f' : FioFile} {fi : Nat} {u u' : IoU} {env : GetEnv} {ready : Bool}
    (h : prepareIoU td f fi u env = .ok (ready, u', td', f')) : SamePool td td' := by
  unfold prepareIoU at h
  obtain ⟨⟨filled, u₀, td₀⟩, hfill, h⟩ := bind_eq_ok.mp h
  have hsame := fillIoU_samePool hfill
  dsimp only at h
  split at h
  · cases h
    exact hsame
  · split at h
    · cases h
      exact hsame
    · split at h
      · cases h
        exact hsame
      · obtain ⟨_, -, h⟩ := bind_eq_ok.mp h
        cases h
        exact hsame

theorem skipZone_samePool (td : ThreadData) (f : FioFile) : SamePool td (skipZone td f).1 := by
  unfold skipZone
  split <;> exact ⟨rfl, rfl, rfl⟩

/-- `get_io_u` returns the unit that `__get_io_u` took, or puts that one. -/
theorem getIoU_pool {f f' : FioFile} {fi : Nat} {env : GetEnv} {r : Option Nat}
    (h : getIoU td f fi env = .ok (r, td', f')) :
    (r = none ∧ SamePool td td') ∨
      ∃ i td₁ td₂, getFreeIoU td = some (i, td₁) ∧ SamePool td₁ td₂ ∧
        ((r = some i ∧ td' = td₂) ∨ (r = none ∧ td' = putIoU td₂ i)) := by
  unfold getIoU at h
  split at h
  · cases h
    exact .inl ⟨rfl, SamePool.refl td⟩
  · next i td₁ hfree =>
    refine .inr ⟨i, td₁, ?_⟩
    have hzone := skipZone_samePool td₁ f
    obtain ⟨⟨ready, u, td₂, f₂⟩, hprep, hret⟩ := bind_eq_ok.mp h
    have hsame := hzone.trans (prepareIoU_samePool hprep)
    dsimp only at hret
    split at hret
    · cases hret
      exact ⟨{ td₂ with ioU := Function.update td₂.ioU i u }, hfree, hsame.trans ⟨rfl, rfl, rfl⟩,
        .inl ⟨rfl, rfl⟩⟩
    · cases hret
      exact ⟨{ td₂ with ioU := Function.update td₂.ioU i u }, hfree, hsame.trans ⟨rfl, rfl, rfl⟩,
        .inr ⟨rfl, rfl⟩⟩

theorem ioCompleted_samePool (td : ThreadData) (u : IoU) : SamePool td (ioCompleted td u) := by
  unfold ioCompleted
  split
  · exact ⟨rfl, rfl, rfl⟩
  · dsimp only
    split
    · split <;> exact ⟨rfl, rfl, rfl⟩
    · exact ⟨rfl, rfl, rfl⟩

theorem getNextVerify_samePool {u u' : IoU} {b : Bool} (h : getNextVerify td u = (b, u', td')) :
    SamePool td td' := by
  unfold getNextVerify at h
  split at h <;> cases h <;> exact ⟨rfl, rfl, rfl⟩

/-! ## The pool, the engine and the loops -/

/-- The pool is in order, nothing has been put twice, and the units that the engine or the loops hold
are busy. -/
structure Holds (n : Nat) (s : IoState) (held : List Nat) : Prop where
  pool : PoolOk n s.td
  once : s.twice = false
  nodup : (s.inFlight ++ held).Nodup
  busy : ∀ i ∈ s.inFlight ++ held, i ∈ s.td.ioUBusylist

/-- What the pool, the engine and `twice` are. -/
structure SameUnits (s s' : IoState) : Prop where
  pool : SamePool s.td s'.td
  inFlight : s'.inFlight = s.inFlight
  twice : s'.twice = s.twice

namespace Holds

theorem same (h : Holds n s held) (same : SameUnits s s') : Holds n s' held := by
  refine ⟨h.pool.same same.pool, same.twice.trans h.once, ?_, ?_⟩
  · rw [same.inFlight]
    exact h.nodup
  · rw [same.inFlight, same.pool.busy]
    exact h.busy

theorem goto (h : Holds n s held) (pc : IoPc) : Holds n (s.goto pc) held :=
  h.same ⟨SamePool.refl _, rfl, rfl⟩

theorem verror (h : Holds n s held) (err : Int) : Holds n (s.verror err) held :=
  h.same ⟨⟨rfl, rfl, rfl⟩, rfl, rfl⟩

theorem setUnit (h : Holds n s held) (i : Nat) (u : IoU) : Holds n (s.setUnit i u) held :=
  h.same ⟨⟨rfl, rfl, rfl⟩, rfl, rfl⟩

theorem samePool (h : Holds n s held) (same : SamePool s.td td') :
    Holds n { s with td := td' } held :=
  h.same ⟨same, rfl, rfl⟩

theorem get (h : Holds n s held) (hn : n < 2 ^ 32) (hget : getFreeIoU s.td = some (i, td')) :
    Holds n { s with td := td' } (i :: held) := by
  obtain ⟨hpool, hbusy, hnew⟩ := h.pool.get hn hget
  refine ⟨hpool, h.once, ?_, ?_⟩
  · refine (List.perm_middle.nodup_iff).mpr (List.nodup_cons.mpr ⟨fun hi => ?_, h.nodup⟩)
    exact hnew (h.busy i hi)
  · intro j hj
    show j ∈ td'.ioUBusylist
    rw [hbusy]
    rcases List.mem_cons.mp (List.perm_middle.mem_iff.mp hj) with rfl | hj
    · exact List.mem_cons_self
    · exact List.mem_cons_of_mem _ (h.busy j hj)

/-- A unit that the loops hold is put. -/
theorem put (h : Holds n s (i :: held)) :
    Holds n (s.put i) held ∧ (s.put i).td.ioUBusylist = s.td.ioUBusylist.erase i := by
  have hnodup := (List.perm_middle.nodup_iff).mp h.nodup
  obtain ⟨hout, hrest⟩ := List.nodup_cons.mp hnodup
  have hi : i ∈ s.td.ioUBusylist :=
    h.busy i (List.mem_append_right _ List.mem_cons_self)
  obtain ⟨hpool, hbusy⟩ := h.pool.put hi
  refine ⟨⟨hpool, ?_, hrest, ?_⟩, hbusy⟩
  · show (s.twice || !s.td.ioUBusylist.contains i) = false
    rw [h.once, List.contains_iff_mem.mpr hi]
    rfl
  · intro j hj
    show j ∈ (putIoU s.td i).ioUBusylist
    rw [hbusy]
    have hne : j ≠ i := by
      rintro rfl
      exact hout hj
    exact (List.mem_erase_of_ne hne).mpr
      (h.busy j (List.perm_middle.mem_iff.mpr (List.mem_cons_of_mem _ hj)))

/-- A unit is forgotten and stays busy. -/
theorem forget (h : Holds n s (i :: held)) : Holds n s held := by
  refine ⟨h.pool, h.once, (List.nodup_cons.mp ((List.perm_middle.nodup_iff).mp h.nodup)).2, ?_⟩
  exact fun j hj => h.busy j (List.perm_middle.mem_iff.mpr (List.mem_cons_of_mem _ hj))

/-- The engine takes a unit that the loops hold. -/
theorem queued (h : Holds n s (i :: held)) : Holds n (s.queued i) held := by
  refine ⟨h.pool, h.once, (List.perm_middle.nodup_iff).mp h.nodup, ?_⟩
  exact fun j hj => h.busy j (List.perm_middle.mem_iff.mpr hj)

/-- The engine gives a unit back. -/
theorem takeBack (h : Holds n s held) {c : Completion} (hc : c.unit ∈ s.inFlight) :
    Holds n (s.takeBack c) (c.unit :: held) := by
  have hperm : (s.inFlight.erase c.unit ++ c.unit :: held).Perm (s.inFlight ++ held) :=
    List.perm_middle.trans ((List.perm_cons_erase hc).symm.append_right held)
  exact ⟨h.pool.same ⟨rfl, rfl, rfl⟩, h.once, hperm.nodup_iff.mpr h.nodup,
    fun j hj => h.busy j (hperm.mem_iff.mp hj)⟩

theorem refused (h : Holds n s (i :: held)) (error : UInt32) :
    Holds n (s.refused i error) held ∧
      (s.refused i error).td.ioUBusylist = s.td.ioUBusylist.erase i :=
  ((h.setUnit i _).verror _).put

/-- A busy unit that nobody but perhaps the engine holds is put. -/
theorem cancelled (h : Holds n s []) (hi : i ∈ s.td.ioUBusylist) :
    Holds n ({ s with inFlight := s.inFlight.erase i }.put i) [] := by
  have hnodup : s.inFlight.Nodup := by simpa using h.nodup
  have hheld : Holds n { s with inFlight := s.inFlight.erase i } [i] := by
    refine ⟨h.pool, h.once, ?_, ?_⟩
    · rw [List.nodup_append]
      refine ⟨hnodup.erase i, List.pairwise_singleton _ i, ?_⟩
      rintro j hj _ hk rfl
      rw [List.mem_singleton.mp hk] at hj
      exact (hnodup.mem_erase_iff.mp hj).1 rfl
    · intro j hj
      rcases List.mem_append.mp hj with hj | hj
      · exact h.busy j (List.mem_append_left _ (List.mem_of_mem_erase hj))
      · rw [List.mem_singleton.mp hj]
        exact hi
  exact hheld.put.1

theorem complete (h : Holds n s held) {c : Completion} (hc : c.unit ∈ s.inFlight) :
    Holds n (s.complete c) held ∧
      (s.complete c).td.ioUBusylist = s.td.ioUBusylist.erase c.unit ∧
      (s.complete c).inFlight = s.inFlight.erase c.unit := by
  have hback := (h.takeBack hc).samePool (ioCompleted_samePool _ ((s.takeBack c).td.ioU c.unit))
  obtain ⟨hput, hbusy⟩ := hback.put
  refine ⟨hput, hbusy.trans ?_, rfl⟩
  rw [(ioCompleted_samePool _ _).busy]
  rfl

/-- A batch of completions puts all its units. -/
theorem iosCompleted {done : List Completion} (h : Holds n s held) (hgives : s.Gives done) :
    Holds n (s.iosCompleted done) held ∧
      (s.iosCompleted done).td.ioUBusylist.length + done.length = s.td.ioUBusylist.length := by
  induction done generalizing s with
  | nil => exact ⟨h, rfl⟩
  | cons c done ih =>
    obtain ⟨hnodup, hmem⟩ := hgives
    obtain ⟨hnew, hrest⟩ := List.nodup_cons.mp hnodup
    have hc := hmem c List.mem_cons_self
    obtain ⟨hdone, hbusy, hflight⟩ := h.complete hc
    have hgives' : (s.complete c).Gives done := by
      refine ⟨hrest, fun d hd => ?_⟩
      have hne : d.unit ≠ c.unit := by
        intro heq
        exact hnew (heq ▸ List.mem_map_of_mem hd)
      rw [hflight]
      exact (List.mem_erase_of_ne hne).mpr (hmem d (List.mem_cons_of_mem _ hd))
    obtain ⟨hall, hlen⟩ := ih hdone hgives'
    refine ⟨hall, ?_⟩
    have hbusyc : c.unit ∈ s.td.ioUBusylist := h.busy _ (List.mem_append_left _ hc)
    have hpos := List.length_pos_of_mem hbusyc
    rw [hbusy, List.length_erase_of_mem hbusyc] at hlen
    show (List.foldl IoState.complete (s.complete c) done).td.ioUBusylist.length + _ = _
    rw [List.length_cons]
    unfold IoState.iosCompleted at hlen
    omega

theorem reap {done : List Completion} (h : Holds n s held) (hgives : s.Gives done) :
    Holds n (s.reap done) held ∧
      (s.reap done).td.ioUBusylist.length + done.length = s.td.ioUBusylist.length := by
  obtain ⟨hall, hlen⟩ := h.iosCompleted hgives
  unfold IoState.reap
  dsimp only
  split
  · exact ⟨hall, hlen⟩
  · exact ⟨hall.verror _, hlen⟩

/-- The unit that waits for its verification is put. -/
theorem doIoUVerify (h : Holds n s (s.vIoU.toList ++ held)) : Holds n s.doIoUVerify held := by
  unfold IoState.doIoUVerify
  cases hv : s.vIoU with
  | none =>
    rw [hv] at h
    exact h
  | some i =>
    rw [hv] at h
    exact (Holds.put h).1.same ⟨SamePool.refl _, rfl, rfl⟩

end Holds

/-- The units that the loops hold: one that is about to be queued, and the one to be verified. -/
def heldAt : IoPc → List Nat
  | .doIoQueue i => [i]
  | .ioSyncQueue i _ _ => [i]
  | .verifyQueue i => [i]
  | _ => []

/-- Whether this is a control point of `do_verify`'s loop, where a unit may wait for verification. -/
def inVerify : IoPc → Prop
  | .verify | .verifyQueue _ | .verifyEnd => True
  | _ => False

/-- What holds at every control point: the loops hold what they say, nothing waits for verification
outside `do_verify`, and what is left of the round of cancellations is busy. -/
structure IoInv (n : Nat) (s : IoState) : Prop where
  holds : Holds n s (heldAt s.pc ++ s.vIoU.toList)
  waits : ¬inVerify s.pc → s.vIoU = none
  cancels : ∀ busy caller, s.pc = .cancel busy caller →
    busy.Nodup ∧ ∀ i ∈ busy, i ∈ s.td.ioUBusylist

theorem doIoUVerify_vIoU (s : IoState) : s.doIoUVerify.vIoU = none := by
  unfold IoState.doIoUVerify
  cases hv : s.vIoU with
  | none => exact hv
  | some i => rfl

theorem IoInv.holding (pc : IoPc) (h : Holds n s (heldAt pc)) (hv : s.vIoU = none)
    (hpc : ∀ busy caller, pc ≠ .cancel busy caller) : IoInv n (s.goto pc) := by
  refine ⟨?_, fun _ => hv, fun busy caller hcancel => absurd hcancel (hpc busy caller)⟩
  show Holds n (s.goto pc) (heldAt pc ++ s.vIoU.toList)
  rw [hv, Option.toList_none, List.append_nil]
  exact h.goto pc

theorem IoInv.cancelling {busy : List Nat} (h : Holds n s []) (hv : s.vIoU = none)
    (hnodup : busy.Nodup) (hbusy : ∀ i ∈ busy, i ∈ s.td.ioUBusylist) (caller : IoCaller) :
    IoInv n (s.goto (.cancel busy caller)) := by
  refine ⟨?_, fun _ => hv, ?_⟩
  · show Holds n (s.goto _) ([] ++ s.vIoU.toList)
    rw [hv]
    exact h.goto _
  · rintro _ _ ⟨⟩
    exact ⟨hnodup, hbusy⟩

theorem iosCompleted_vIoU (s : IoState) (done : List Completion) :
    (s.iosCompleted done).vIoU = s.vIoU := by
  induction done generalizing s with
  | nil => rfl
  | cons c done ih => exact ih (s.complete c)

theorem reap_vIoU (s : IoState) (done : List Completion) : (s.reap done).vIoU = s.vIoU := by
  unfold IoState.reap
  dsimp only
  split <;> exact iosCompleted_vIoU s done

/-! ## One step -/

theorem IoInv.afterCleanup (h : Holds n s []) (hv : s.vIoU = none) (caller : IoCaller) :
    IoInv n (s.afterCleanup caller) := by
  cases caller with
  | doIo =>
    show IoInv n (if _ then _ else _)
    split
    · exact .holding _ h hv nofun
    · exact .holding _ h hv nofun
  | doVerify => exact .holding .idle h hv nofun

theorem IoInv.cleanupIfPending (h : Holds n s []) (hv : s.vIoU = none) (caller : IoCaller) :
    IoInv n (cleanupIfPending s caller) := by
  unfold Fio.cleanupIfPending
  split
  · exact .afterCleanup h hv caller
  · exact .holding _ h hv nofun

theorem doIoStep_inv {e : IoEvent} (hn : n < 2 ^ 32) (h : Holds n s []) (hv : s.vIoU = none)
    (hstep : doIoStep s e = .ok s') : IoInv n s' := by
  unfold doIoStep at hstep
  split at hstep
  · next terminate f env =>
    split at hstep
    · split at hstep
      · cases hstep
        exact .holding _ h hv nofun
      · split at hstep
        · cases hstep
          exact .holding _ (h.same ⟨SamePool.refl _, rfl, rfl⟩) hv nofun
        · next fi next _ =>
          split at hstep
          · next i td f' hcall =>
            cases hstep
            obtain ⟨hnone, -⟩ | ⟨j, td₁, td₂, hget, hsame, ⟨hsome, rfl⟩ | ⟨hnone, -⟩⟩ := getIoU_pool hcall
            · cases hnone
            · cases hsome
              have hgot := (h.get hn hget).samePool hsame
              exact .holding _ (hgot.same ⟨SamePool.refl _, rfl, rfl⟩) hv nofun
            · cases hnone
          · next td f' hcall =>
            cases hstep
            obtain ⟨-, hsame⟩ | ⟨j, td₁, td₂, hget, hsame, ⟨hsome, -⟩ | ⟨-, rfl⟩⟩ := getIoU_pool hcall
            · exact .holding _ (h.same ⟨hsame, rfl, rfl⟩) hv nofun
            · cases hsome
            · have hput := ((h.get hn hget).samePool hsame).put.1
              exact .holding _ ⟨hput.pool, h.once, hput.nodup, hput.busy⟩ hv nofun
          · cases hstep
    · cases hstep
      exact .holding _ h hv nofun
  · cases hstep

theorem doIoQueueStep_inv {e : IoEvent} (h : Holds n s [i]) (hv : s.vIoU = none)
    (hstep : doIoQueueStep s i e = .ok s') : IoInv n s' := by
  unfold doIoQueueStep at hstep
  split at hstep
  · split at hstep
    · cases hstep
      exact .holding _ (h.refused _).1 hv nofun
    · cases hstep
      exact .holding _ h.queued hv nofun
  · cases hstep

theorem doIoReapStep_inv {e : IoEvent} (h : Holds n s []) (hv : s.vIoU = none)
    (hstep : doIoReapStep s e = .ok s') : IoInv n s' := by
  unfold doIoReapStep at hstep
  split at hstep
  · next ret after =>
    cases ret with
    | failed code =>
      cases hstep
      exact .holding _ (h.verror _) hv nofun
    | events done =>
      dsimp only at hstep
      split at hstep
      · next hgives =>
        have hreap := (h.reap hgives).1
        have hv' := (reap_vIoU s done).trans hv
        split at hstep
        · cases hstep
          exact .holding _ h hv nofun
        · split at hstep
          · cases hstep
            exact .holding _ hreap hv' nofun
          · split at hstep
            · cases hstep
              exact .holding _ hreap hv' nofun
            · cases hstep
              exact .holding _ (hreap.verror _) hv' nofun
            · cases hstep
              exact .holding _ hreap hv' nofun
      · cases hstep
  · cases hstep

theorem doIoEndStep_inv {e : IoEvent} (h : Holds n s []) (hv : s.vIoU = none)
    (hstep : doIoEndStep s e = .ok s') : IoInv n s' := by
  unfold doIoEndStep at hstep
  split at hstep
  · cases hstep
    split
    · exact .cleanupIfPending h hv _
    · exact .holding _ h hv nofun
  · cases hstep

theorem cleanupStep_inv {e : IoEvent} {caller : IoCaller} (h : Holds n s []) (hv : s.vIoU = none)
    (hstep : cleanupStep s caller e = .ok s') : IoInv n s' := by
  have hcancelled {t : IoState} (h : Holds n t []) (hv : t.vIoU = none) :
      IoInv n (if t.canCancel then t.goto (.cancel t.td.ioUBusylist caller)
        else t.goto (.cleanupWait caller)) := by
    split
    · exact .cancelling h hv h.pool.busy_nodup (fun i hi => hi) _
    · exact .holding _ h hv nofun
  unfold cleanupStep at hstep
  split at hstep
  · next ret =>
    cases ret with
    | failed code =>
      cases hstep
      exact hcancelled h hv
    | events done =>
      dsimp only at hstep
      split at hstep
      · next hgives =>
        cases hstep
        exact hcancelled (h.iosCompleted hgives).1 ((iosCompleted_vIoU s done).trans hv)
      · cases hstep
  · cases hstep

theorem cancelStep_inv {e : IoEvent} {busy : List Nat} {caller : IoCaller} (h : Holds n s [])
    (hv : s.vIoU = none) (hnodup : busy.Nodup) (hbusy : ∀ i ∈ busy, i ∈ s.td.ioUBusylist)
    (hstep : cancelStep s busy caller e = .ok s') : IoInv n s' := by
  unfold cancelStep at hstep
  split at hstep
  · next failed =>
    cases busy with
    | nil => cases hstep
    | cons i rest =>
      obtain ⟨hnew, hrest⟩ := List.nodup_cons.mp hnodup
      dsimp only at hstep
      split at hstep
      · cases hstep
        exact .cancelling h hv hrest (fun j hj => hbusy j (List.mem_cons_of_mem _ hj)) _
      · cases hstep
        refine .cancelling (h.cancelled (hbusy i List.mem_cons_self)) hv hrest (fun j hj => ?_) _
        have hne : j ≠ i := by
          rintro rfl
          exact hnew hj
        exact (List.mem_erase_of_ne hne).mpr (hbusy j (List.mem_cons_of_mem _ hj))
  · split at hstep
    · cases hstep
      exact .holding _ h hv nofun
    · cases hstep
  · cases hstep

theorem cleanupWaitStep_inv {e : IoEvent} {caller : IoCaller} (h : Holds n s []) (hv : s.vIoU = none)
    (hstep : cleanupWaitStep s caller e = .ok s') : IoInv n s' := by
  unfold cleanupWaitStep at hstep
  split at hstep
  · split at hstep
    · cases hstep
      exact .afterCleanup h hv _
    · cases hstep
  · next ret =>
    split at hstep
    · cases hstep
    · cases ret with
      | failed code =>
        cases hstep
        exact .afterCleanup h hv _
      | events done =>
        dsimp only at hstep
        split at hstep
        · next hgives =>
          cases hstep
          exact .afterCleanup (h.iosCompleted hgives).1 ((iosCompleted_vIoU s done).trans hv) _
        · cases hstep
  · cases hstep

theorem afterIoSync_inv {caller : IoCaller} (h : Holds n s []) (hv : s.vIoU = none) :
    IoInv n (afterIoSync s caller) := by
  cases caller with
  | doIo => exact .holding .idle h hv nofun
  | doVerify =>
    refine .holding (s := { s with vIoU := none, issued := [] }) .verify ?_ rfl nofun
    exact h.same ⟨SamePool.refl _, rfl, rfl⟩

theorem ioSyncStep_inv {e : IoEvent} {files : List Nat} {caller : IoCaller} (hn : n < 2 ^ 32)
    (h : Holds n s []) (hv : s.vIoU = none) (hstep : ioSyncStep s files caller e = .ok s') :
    IoInv n s' := by
  unfold ioSyncStep at hstep
  split at hstep
  · split at hstep
    · cases hstep
      exact afterIoSync_inv h hv
    · cases hstep
  · next failed =>
    cases files with
    | nil => cases hstep
    | cons fi files =>
      dsimp only at hstep
      split at hstep
      · cases hstep
        exact .holding _ h hv nofun
      · next i td hget =>
        have hgot := (h.get hn hget).setUnit i { td.ioU i with ddir := .sync, file := some fi }
        split at hstep
        · cases hstep
          exact .holding _ hgot.put.1 hv nofun
        · cases hstep
          exact .holding _ hgot hv nofun
  · cases hstep

theorem ioSyncQueueStep_inv {e : IoEvent} {files : List Nat} {caller : IoCaller}
    (h : Holds n s [i]) (hv : s.vIoU = none)
    (hstep : ioSyncQueueStep s i files caller e = .ok s') : IoInv n s' := by
  unfold ioSyncQueueStep at hstep
  split at hstep
  · split at hstep
    · cases hstep
      exact .holding _ (h.refused _).1 hv nofun
    · cases hstep
      exact .holding _ h.queued hv nofun
  · cases hstep

theorem ioSyncReapStep_inv {e : IoEvent} {files : List Nat} {caller : IoCaller}
    (h : Holds n s []) (hv : s.vIoU = none)
    (hstep : ioSyncReapStep s files caller e = .ok s') : IoInv n s' := by
  unfold ioSyncReapStep at hstep
  split at hstep
  · next ret =>
    cases ret with
    | failed code =>
      cases hstep
      exact .holding _ (h.verror _) hv nofun
    | events done =>
      dsimp only at hstep
      split at hstep
      · next hgives =>
        cases hstep
        exact .holding _ (h.reap hgives).1 ((reap_vIoU s done).trans hv) nofun
      · cases hstep
  · cases hstep

/-- A control point of `do_verify`'s loop. -/
theorem IoInv.verifying (pc : IoPc) (h : Holds n s (heldAt pc ++ s.vIoU.toList))
    (hpc : inVerify pc) : IoInv n (s.goto pc) :=
  ⟨h.goto pc, fun hnot => absurd hpc hnot, by
    rintro busy caller hcancel
    have hpc' : pc = .cancel busy caller := hcancel
    rw [hpc'] at hpc
    exact hpc.elim⟩

theorem verifyStep_inv {e : IoEvent} (hn : n < 2 ^ 32) (h : Holds n s s.vIoU.toList)
    (hstep : verifyStep s e = .ok s') : IoInv n s' := by
  have hend {t : IoState} (h : Holds n t t.vIoU.toList) : IoInv n (t.goto .verifyEnd) :=
    .verifying .verifyEnd h trivial
  unfold verifyStep at hstep
  split at hstep
  · next terminate exceeded prepFails =>
    split at hstep
    · cases hstep
      exact hend h
    · split at hstep
      · cases hstep
        exact hend h
      · next i td hget =>
        have hgot := h.get hn hget
        dsimp only at hstep
        split at hstep
        · cases hstep
          exact hend hgot.put.1
        · split at hstep
          · cases hstep
            exact hend hgot.put.1
          · next u td' hnext =>
            have hunit := (hgot.samePool (getNextVerify_samePool hnext)).setUnit i u
            split at hstep
            · cases hstep
              exact hend (hunit.forget.same ⟨SamePool.refl _, rfl, rfl⟩)
            · next fi next _ =>
              have hnext' : Holds n
                  { IoState.setUnit { s with td := td' } i u with nextFile := next }
                  (i :: s.vIoU.toList) := hunit.same ⟨SamePool.refl _, rfl, rfl⟩
              have hfile := hnext'.setUnit i { u with file := some fi }
              split at hstep
              · cases hstep
                exact hend hfile.put.1
              · cases hstep
                exact .verifying (.verifyQueue i) hfile trivial
  · cases hstep

theorem verifyQueueStep_inv {e : IoEvent} (h : Holds n s (i :: s.vIoU.toList))
    (hstep : verifyQueueStep s i e = .ok s') : IoInv n s' := by
  unfold verifyQueueStep at hstep
  split at hstep
  · next failed error bad =>
    split at hstep
    · cases hstep
      exact .verifying .verifyEnd (h.refused error).1 trivial
    · cases hstep
      have hqueued : Holds n { s.queued i with issued := s.issued ++ [(s.td.ioU i).target] }
          (s.vIoU.toList ++ []) := by
        rw [List.append_nil]
        exact h.queued.same ⟨SamePool.refl _, rfl, rfl⟩
      have hput := hqueued.doIoUVerify
      split
      · exact .holding .verifyEnd hput (doIoUVerify_vIoU _) nofun
      · exact .holding .verifyReap hput (doIoUVerify_vIoU _) nofun
  · cases hstep

theorem verifyReapStep_inv {e : IoEvent} (h : Holds n s []) (hv : s.vIoU = none)
    (hstep : verifyReapStep s e = .ok s') : IoInv n s' := by
  unfold verifyReapStep at hstep
  split at hstep
  · next ret bad =>
    split at hstep
    · cases hstep
      exact .holding .verifyEnd (h.verror _) hv nofun
    · next c =>
      split at hstep
      · next hgives =>
        have hback := h.takeBack (hgives.2 c (List.mem_singleton_self c))
        have hdone := hback.samePool (ioCompleted_samePool _ ((s.takeBack c).td.ioU c.unit))
        dsimp only at hstep
        split at hstep
        · cases hstep
          exact .holding .verifyEnd (hdone.verror _).put.1 hv nofun
        · split at hstep
          · cases hstep
            have hkept : Holds n
                { s.takeBack c with
                  td := ioCompleted (s.takeBack c).td ((s.takeBack c).td.ioU c.unit)
                  vIoU := some c.unit } ((some c.unit).toList ++ []) :=
              hdone.same ⟨SamePool.refl _, rfl, rfl⟩
            have hput := Holds.doIoUVerify hkept
            split
            · exact .holding .verifyEnd hput (doIoUVerify_vIoU _) nofun
            · exact .holding .verify hput (doIoUVerify_vIoU _) nofun
          · cases hstep
            exact .verifying .verify (hdone.same ⟨SamePool.refl _, rfl, rfl⟩) trivial
      · cases hstep
    · cases hstep
      exact .holding .verifyEnd h hv nofun
    · cases hstep
  · cases hstep

theorem verifyEndStep_inv {e : IoEvent} (h : Holds n s s.vIoU.toList)
    (hstep : verifyEndStep s e = .ok s') : IoInv n s' := by
  unfold verifyEndStep at hstep
  split at hstep
  · cases hstep
    have hput : Holds n s.doIoUVerify [] := by
      apply Holds.doIoUVerify
      rwa [List.append_nil]
    exact .cleanupIfPending hput (doIoUVerify_vIoU s) _
  · cases hstep

theorem idleStep_inv {e : IoEvent} (h : Holds n s []) (hv : s.vIoU = none)
    (hstep : idleStep s e = .ok s') : IoInv n s' := by
  unfold idleStep at hstep
  split at hstep
  · split at hstep
    · cases hstep
      exact .holding _ (h.samePool ⟨rfl, rfl, rfl⟩) hv nofun
    · cases hstep
  · split at hstep
    · cases hstep
      exact .holding _ (h.samePool ⟨rfl, rfl, rfl⟩) hv nofun
    · cases hstep
  · cases hstep

theorem IoInv.step {e : IoEvent} (hn : n < 2 ^ 32) (h : IoInv n s) (hstep : ioStep s e = .ok s') :
    IoInv n s' := by
  obtain ⟨hholds, hwaits, hcancels⟩ := h
  unfold ioStep at hstep
  generalize hpc : s.pc = pc at hstep hholds hwaits hcancels
  -- outside the loop of `do_verify` nothing waits, so that only the unit of the control point is held
  have hout (hnot : ¬inVerify pc) : Holds n s (heldAt pc) ∧ s.vIoU = none := by
    have hv := hwaits hnot
    rw [hv, Option.toList_none, List.append_nil] at hholds
    exact ⟨hholds, hv⟩
  cases pc with
  | idle => exact idleStep_inv (hout id).1 (hout id).2 hstep
  | doIo => exact doIoStep_inv hn (hout id).1 (hout id).2 hstep
  | doIoQueue i => exact doIoQueueStep_inv (hout id).1 (hout id).2 hstep
  | doIoReap => exact doIoReapStep_inv (hout id).1 (hout id).2 hstep
  | doIoEnd => exact doIoEndStep_inv (hout id).1 (hout id).2 hstep
  | cleanup caller => exact cleanupStep_inv (hout id).1 (hout id).2 hstep
  | cancel busy caller =>
    obtain ⟨hnodup, hbusy⟩ := hcancels busy caller rfl
    exact cancelStep_inv (hout id).1 (hout id).2 hnodup hbusy hstep
  | cleanupWait caller => exact cleanupWaitStep_inv (hout id).1 (hout id).2 hstep
  | ioSync files caller => exact ioSyncStep_inv hn (hout id).1 (hout id).2 hstep
  | ioSyncQueue i files caller => exact ioSyncQueueStep_inv (hout id).1 (hout id).2 hstep
  | ioSyncReap files caller => exact ioSyncReapStep_inv (hout id).1 (hout id).2 hstep
  | verify => exact verifyStep_inv hn hholds hstep
  | verifyQueue i => exact verifyQueueStep_inv hholds hstep
  | verifyReap => exact verifyReapStep_inv (hout id).1 (hout id).2 hstep
  | verifyEnd => exact verifyEndStep_inv hholds hstep

/-- A job whose units `init_io_u` has made and whose files are open. -/
def startIo (o : Options) (ioSize : UInt64) (nrFiles : Nat) (canCancel : Bool) : IoState where
  td := startJob o ioSize
  fds := List.replicate nrFiles true
  nextFile := 0
  canCancel := canCancel
  vIoU := none
  inFlight := []
  issued := []
  twice := false
  pc := .idle

theorem numUnits_lt (o : Options) : numUnits o < 2 ^ 32 := by
  unfold numUnits
  split
  · decide
  · have hlt := (maxUnits o).toInt_lt
    show (maxUnits o).toInt.toNat < 2 ^ 32
    omega

theorem startIo_inv (o : Options) (ioSize : UInt64) (nrFiles : Nat) (canCancel : Bool) :
    IoInv (numUnits o) (startIo o ioSize nrFiles canCancel) := by
  have hpool : PoolOk (numUnits o) (startJob o ioSize) := by
    refine ⟨?_, rfl⟩
    show ((List.range (numUnits o)).reverse ++ []).Perm _
    rw [List.append_nil]
    exact List.reverse_perm _
  exact ⟨⟨hpool, rfl, List.nodup_nil, fun i hi => nomatch hi⟩, fun _ => rfl, nofun⟩

/-! ## Nothing stays busy -/

/-- What a step needs for nothing to stay busy: the last wait of `cleanup_pending_aio` returns
`cur_depth` events; a wait of `fio_io_sync` at the end of `do_io` that does not fail returns everything
too; and when `td_io_queue` refuses the unit of that `fio_io_sync`, the unit has an error or no other
unit is busy. -/
def BringsBack (s : IoState) (e : IoEvent) : Prop :=
  match s.pc, e with
  | .cleanupWait _, .getevents (.failed _) => False
  | .cleanupWait _, .getevents (.events done) => done.length = s.td.ioUBusylist.length
  | .ioSyncReap _ .doIo, .getevents (.events done) => done.length = s.td.ioUBusylist.length
  | .ioSyncQueue i _ .doIo, .queue true error => error ≠ 0 ∨ s.td.ioUBusylist = [i]
  | _, _ => True

/-- The control points at which nothing is busy but what is held, unless there is an error. -/
def quietPc : IoPc → Bool
  | .idle | .ioSync _ .doIo | .ioSyncQueue _ _ .doIo => true
  | _ => false

/-- Nothing is busy but what is held, unless there is an error. -/
def BusyIsHeld (s : IoState) : Prop :=
  quietPc s.pc = true → s.td.error = 0 → s.td.ioUBusylist = heldAt s.pc

theorem busyIsHeld_of_pc {pc : IoPc} (hpc : quietPc pc = false) : BusyIsHeld (s.goto pc) := by
  intro h
  exact absurd h (by rw [show (s.goto pc).pc = pc from rfl, hpc]; exact Bool.false_ne_true)

theorem busyIsHeld_goto {pc : IoPc} (h : s.td.error = 0 → s.td.ioUBusylist = heldAt pc) :
    BusyIsHeld (s.goto pc) := fun _ => h

theorem PoolOk.busy_nil (h : PoolOk n td) (hdepth : td.curDepth = 0) : td.ioUBusylist = [] := by
  have hlen := h.depth
  rw [hdepth] at hlen
  exact List.eq_nil_of_length_eq_zero hlen.symm

theorem busyIsHeld_afterCleanup (hbusy : s.td.ioUBusylist = []) (caller : IoCaller) :
    BusyIsHeld (s.afterCleanup caller) := by
  cases caller with
  | doIo =>
    show BusyIsHeld (if _ then _ else _)
    split
    · exact busyIsHeld_goto fun _ => hbusy
    · exact busyIsHeld_goto fun _ => hbusy
  | doVerify => exact busyIsHeld_goto fun _ => hbusy

theorem busyIsHeld_cleanupIfPending (h : PoolOk n s.td) (caller : IoCaller) :
    BusyIsHeld (cleanupIfPending s caller) := by
  unfold cleanupIfPending
  split
  · next hdepth => exact busyIsHeld_afterCleanup (h.busy_nil hdepth) caller
  · exact busyIsHeld_of_pc rfl

theorem getFreeIoU_error (h : getFreeIoU td = some (i, td')) : td'.error = td.error := by
  unfold getFreeIoU at h
  split at h
  · cases h
  · cases h
    rfl

theorem refused_error (s : IoState) (i : Nat) (error : UInt32) :
    (s.refused i error).td.error = 0 ↔ error = 0 := by
  show error.toInt32.toInt = (0 : Int32).toInt ↔ error = 0
  rw [Int32.toInt_inj]
  exact ⟨fun h => congrArg Int32.toUInt32 h, fun h => congrArg UInt32.toInt32 h⟩

variable {e : IoEvent} {caller : IoCaller} {files : List Nat}

theorem cleanupWait_busyIsHeld (h : Holds n s []) (hpc : s.pc = .cleanupWait caller)
    (hok : BringsBack s e) (hstep : cleanupWaitStep s caller e = .ok s') : BusyIsHeld s' := by
  unfold cleanupWaitStep at hstep
  split at hstep
  · split at hstep
    · next hdepth =>
      cases hstep
      exact busyIsHeld_afterCleanup (h.pool.busy_nil hdepth) _
    · cases hstep
  · next ret =>
    split at hstep
    · cases hstep
    · cases ret with
      | failed code =>
        unfold BringsBack at hok
        rw [hpc] at hok
        exact hok.elim
      | events done =>
        dsimp only at hstep
        split at hstep
        · next hgives =>
          cases hstep
          unfold BringsBack at hok
          rw [hpc] at hok
          have hlen := (h.iosCompleted hgives).2
          rw [hok] at hlen
          exact busyIsHeld_afterCleanup (List.eq_nil_of_length_eq_zero (by omega)) _
        · cases hstep
  · cases hstep

theorem ioSync_busyIsHeld (hn : n < 2 ^ 32) (h : Holds n s [])
    (hquiet : s.td.error = 0 → s.td.ioUBusylist = [])
    (hstep : ioSyncStep s files .doIo e = .ok s') : BusyIsHeld s' := by
  unfold ioSyncStep at hstep
  split at hstep
  · split at hstep
    · cases hstep
      exact busyIsHeld_goto hquiet
    · cases hstep
  · next failed =>
    cases files with
    | nil => cases hstep
    | cons fi files =>
      dsimp only at hstep
      split at hstep
      · cases hstep
        exact busyIsHeld_goto hquiet
      · next i td hget =>
        obtain ⟨-, hbusy, -⟩ := h.pool.get hn hget
        have herror : td.error = s.td.error := getFreeIoU_error hget
        have hone : td.error = 0 → td.ioUBusylist = [i] := fun hzero => by
          rw [hbusy, hquiet (herror ▸ hzero)]
        split at hstep
        · cases hstep
          refine busyIsHeld_goto fun hzero => ?_
          show td.ioUBusylist.erase i = []
          rw [hone hzero]
          exact List.erase_cons_head ..
        · cases hstep
          exact busyIsHeld_goto hone
  · cases hstep

theorem ioSyncQueue_busyIsHeld (hpc : s.pc = .ioSyncQueue i files .doIo) (hok : BringsBack s e)
    (hstep : ioSyncQueueStep s i files .doIo e = .ok s') : BusyIsHeld s' := by
  unfold ioSyncQueueStep at hstep
  split at hstep
  · next failed error =>
    split at hstep
    · next hfailed =>
      cases hstep
      unfold BringsBack at hok
      rw [hpc, hfailed] at hok
      refine busyIsHeld_goto fun hzero => ?_
      rw [refused_error] at hzero
      have hone := hok.resolve_left (not_not_intro hzero)
      show s.td.ioUBusylist.erase i = []
      rw [hone]
      exact List.erase_cons_head ..
    · cases hstep
      exact busyIsHeld_of_pc rfl
  · cases hstep

theorem ioSyncReap_busyIsHeld (h : Holds n s []) (hpc : s.pc = .ioSyncReap files .doIo)
    (hok : BringsBack s e) (hstep : ioSyncReapStep s files .doIo e = .ok s') : BusyIsHeld s' := by
  unfold ioSyncReapStep at hstep
  split at hstep
  · next ret =>
    cases ret with
    | failed code =>
      cases hstep
      refine busyIsHeld_goto fun hzero => ?_
      have hcode : -((code : Int) + 1) = 0 := hzero
      omega
    | events done =>
      dsimp only at hstep
      split at hstep
      · next hgives =>
        cases hstep
        unfold BringsBack at hok
        rw [hpc] at hok
        have hlen := (h.reap hgives).2
        rw [hok] at hlen
        exact busyIsHeld_goto fun _ => List.eq_nil_of_length_eq_zero (by omega)
      · cases hstep
  · cases hstep

/-- The control points that no step leaves for one at which nothing may be busy. -/
def farFromQuiet : IoPc → Bool
  | .idle | .doIo | .doIoQueue _ | .doIoReap | .cleanup _ | .cancel _ _ => true
  | .ioSync _ .doVerify | .ioSyncQueue _ _ .doVerify | .ioSyncReap _ .doVerify => true
  | .verify | .verifyQueue _ | .verifyReap => true
  | _ => false

theorem quietPc_of_far (hfar : farFromQuiet s.pc = true) (hstep : ioStep s e = .ok s') :
    quietPc s'.pc = false := by
  unfold ioStep at hstep
  cases hs : s.pc with
  | doIoEnd | cleanupWait caller | verifyEnd =>
    rw [hs] at hfar
    exact absurd hfar Bool.false_ne_true
  | ioSync files caller | ioSyncQueue i files caller | ioSyncReap files caller =>
    rw [hs] at hfar hstep
    cases caller with
    | doIo => exact absurd hfar Bool.false_ne_true
    | doVerify =>
      simp only [ioSyncStep, ioSyncQueueStep, ioSyncReapStep] at hstep
      repeat' split at hstep
      all_goals cases hstep
      all_goals rfl
  | _ =>
    rw [hs] at hstep
    simp only [idleStep, doIoStep, doIoQueueStep, doIoReapStep, cleanupStep, cancelStep,
      verifyStep, verifyQueueStep, verifyReapStep] at hstep
    repeat' split at hstep
    all_goals cases hstep
    all_goals rfl

theorem doIoEnd_busyIsHeld (h : PoolOk n s.td) (hstep : doIoEndStep s e = .ok s') :
    BusyIsHeld s' := by
  unfold doIoEndStep at hstep
  split at hstep
  · cases hstep
    split
    · exact busyIsHeld_cleanupIfPending h _
    · next herror => exact busyIsHeld_goto fun hzero => absurd hzero herror
  · cases hstep

theorem verifyEnd_busyIsHeld (h : Holds n s s.vIoU.toList) (hstep : verifyEndStep s e = .ok s') :
    BusyIsHeld s' := by
  unfold verifyEndStep at hstep
  split at hstep
  · cases hstep
    have hput : Holds n s.doIoUVerify [] := by
      apply Holds.doIoUVerify
      rwa [List.append_nil]
    exact busyIsHeld_cleanupIfPending hput.pool _
  · cases hstep

theorem BusyIsHeld.step (hn : n < 2 ^ 32) (h : IoInv n s) (hquiet : BusyIsHeld s)
    (hok : BringsBack s e) (hstep : ioStep s e = .ok s') : BusyIsHeld s' := by
  by_cases hfar : farFromQuiet s.pc = true
  · intro hpc
    rw [quietPc_of_far hfar hstep] at hpc
    cases hpc
  obtain ⟨hholds, hwaits, -⟩ := h
  unfold BusyIsHeld at hquiet
  unfold ioStep at hstep
  -- what is left are the ends of `do_io` and `do_verify`, the last wait and the syncs of `do_io`
  cases hpc : s.pc with
  | doIoEnd =>
    rw [hpc] at hstep
    exact doIoEnd_busyIsHeld hholds.pool hstep
  | verifyEnd =>
    rw [hpc] at hstep hholds
    exact verifyEnd_busyIsHeld hholds hstep
  | cleanupWait caller =>
    rw [hpc] at hstep hholds hwaits
    rw [hwaits id] at hholds
    exact cleanupWait_busyIsHeld hholds hpc hok hstep
  | ioSync files caller =>
    rw [hpc] at hfar hstep hholds hwaits hquiet
    rw [hwaits id] at hholds
    cases caller with
    | doIo => exact ioSync_busyIsHeld hn hholds (hquiet rfl) hstep
    | doVerify => exact absurd rfl hfar
  | ioSyncQueue i files caller =>
    rw [hpc] at hfar hstep
    cases caller with
    | doIo => exact ioSyncQueue_busyIsHeld hpc hok hstep
    | doVerify => exact absurd rfl hfar
  | ioSyncReap files caller =>
    rw [hpc] at hfar hstep hholds hwaits
    rw [hwaits id] at hholds
    cases caller with
    | doIo => exact ioSyncReap_busyIsHeld hholds hpc hok hstep
    | doVerify => exact absurd rfl hfar
  | _ =>
    rw [hpc] at hfar
    exact absurd rfl hfar

/-- One file of 8192 bytes, two units, an engine that cannot cancel. -/
def pendingJob : IoState := startIo (fixupOptions randomWriter) 8192 1 false

/-- `do_io` queues a unit, gets nothing back and is terminated. -/
def pendingWrite : List IoEvent :=
  [.callDoIo, .doIoHead false (clearedFile 8192 1) zeroEnv, .queue false 0,
    .doIoReap (.events []) .goOn, .doIoHead true (clearedFile 8192 1) zeroEnv, .goOn,
    .getevents (.events [])]

/-- What is seen of the job when `do_io` has returned. -/
def afterDoIo (s : IoState) : IoPc × Int × List Nat := (s.pc, s.td.error, s.td.ioUBusylist)

end Rtfsc.Fio
