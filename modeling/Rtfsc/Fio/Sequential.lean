import Rtfsc.Fio.Generator

/-!
# fio: sequential jobs

A sequential job goes on at `last_pos`, which counts the bytes handed out, but it counts them in blocks
of the direction that comes next. While `last_pos` is a whole number of them, each transfer starts where
the last one ended.
-/

namespace Rtfsc.Fio

open Rtfsc.Machine

/-- Each transfer starts where the one before it ended, the first one at `start`. -/
def Contiguous (start : Nat) : List IoU → Prop
  | [] => True
  | u :: us => u.offset.toNat = start ∧ Contiguous (start + u.buflen.toNat) us

/-- The bytes of some transfers. -/
def totalLen (us : List IoU) : Nat := (us.map fun u => u.buflen.toNat).sum

/-- What `clear_io_state` does to a file. -/
def clearFileState (f : FioFile) : FioFile :=
  { f with lastPos := 0, map := FileMap.cleared f.map.numMaps }

/-- What a call needs for its transfer to go on where the last one ended: `last_pos` is a whole number
of blocks of its direction, the position and the end do not overflow, and `prep` does not fail, since
the transfer is counted before. -/
def ContinuesAt (td : ThreadData) (f : FioFile) (env : GetEnv) : Prop :=
  let d := (getRwDdir td env.elapsed env.rwmix).1
  f.lastPos.toNat % (td.opts.minBs.get d).toNat = 0 ∧
    f.lastPos.toNat + f.fileOffset.toNat + (getNextBuflen td env.bsrange d).toNat < 2 ^ 64 ∧
    env.prepFails = false

instance (td : ThreadData) (f : FioFile) (env : GetEnv) : Decidable (ContinuesAt td f env) :=
  inferInstanceAs (Decidable (_ ∧ _ ∧ _))

/-! ## Contiguous transfers -/

theorem totalLen_append (us vs : List IoU) : totalLen (us ++ vs) = totalLen us + totalLen vs := by
  unfold totalLen
  rw [List.map_append, List.sum_append]

theorem totalLen_singleton (u : IoU) : totalLen [u] = u.buflen.toNat := by
  simp [totalLen]

/-- One more transfer behind contiguous ones. -/
theorem Contiguous.snoc {start : Nat} {us : List IoU} {u : IoU} (h : Contiguous start us)
    (hu : u.offset.toNat = start + totalLen us) : Contiguous start (us ++ [u]) := by
  induction us generalizing start with
  | nil => exact ⟨hu, trivial⟩
  | cons v us ih =>
    refine ⟨h.1, ih h.2 ?_⟩
    rw [hu, Nat.add_assoc]
    rfl

/-! ## One call -/

/-- A call that hands out nothing has not moved the file, when `prep` does not fail. -/
theorem prepareIoU_refused {td td' : ThreadData} {f f' : FioFile} {fi : Nat} {u u' : IoU}
    {env : GetEnv} (hprep : env.prepFails = false)
    (h : prepareIoU td f fi u env = .ok (false, u', td', f')) : f' = f := by
  unfold prepareIoU at h
  rw [hprep] at h
  obtain ⟨⟨filled, u₀, td₀⟩, -, h⟩ := bind_eq_ok.mp h
  cases filled with
  | false =>
    cases h
    rfl
  | true =>
    dsimp only at h
    generalize clipToFile td₀.opts f u₀ = clip at h
    obtain ⟨fits, u₁⟩ := clip
    cases fits with
    | false =>
      cases h
      rfl
    | true =>
      simp only [Bool.not_true, Bool.false_eq_true, if_false] at h
      cases hddir : u₁.ddir with
      | sync =>
        rw [hddir] at h
        dsimp only at h
        cases h
      | data d =>
        rw [hddir] at h
        dsimp only at h
        obtain ⟨⟨issued, f₁, u₂⟩, hissue, h⟩ := bind_eq_ok.mp h
        simp only [pure_eq_ok, Except.ok.injEq, Prod.mk.injEq] at h
        obtain ⟨hready, -, -, hf⟩ := h
        rcases issueIoU_ok hissue with ⟨-, hkept⟩ | ⟨rfl, -⟩
        · exact hf.symm.trans hkept
        · cases hready

theorem getIoU_refused {td td' : ThreadData} {f f' : FioFile} {fi : Nat} {env : GetEnv}
    (hprep : env.prepFails = false) (h : getIoU td f fi env = .ok (none, td', f')) :
    f' = f ∨ f' = zonedFile td f := by
  unfold getIoU at h
  split at h
  · cases h
    exact .inl rfl
  · next i td₀ hfree =>
    obtain ⟨-, hzone⟩ := getFreeIoU_sameJob hfree f
    rw [← hzone, zonedFile]
    generalize skipZone td₀ f = z at h
    obtain ⟨td₁, f₁⟩ := z
    obtain ⟨⟨ready, u, td₂, f₂⟩, hready, h⟩ := bind_eq_ok.mp h
    dsimp only at h
    split at h
    · cases h
    · next hnot =>
      cases h
      cases ready with
      | true => exact absurd rfl hnot
      | false => exact .inr (prepareIoU_refused hprep hready)

/-- Without a zone to skip the file is where it was. -/
theorem zonedFile_of_noSkip {td : ThreadData} (h : td.opts.zoneSkip = 0) (f : FioFile) :
    zonedFile td f = f := by
  unfold zonedFile skipZone
  split
  · rw [h]
    show { f with lastPos := f.lastPos + 0 } = f
    rw [UInt64.add_zero]
  · rfl

/-- A transfer of a sequential job starts at the block of `last_pos`, and `last_pos` moves by it. -/
theorem Issued.sequential {td : ThreadData} {f f' : FioFile} {env : GetEnv} {d : DataDdir} {u : IoU}
    (hseq : td.opts.sequential = true) (h : Issued td f env d u f') :
    u.ddir = .data d ∧
    u.offset = f.lastPos / (td.opts.minBs.get d).toUInt64 * (td.opts.minBs.get d).toUInt64 +
        f.fileOffset ∧
      u.buflen.toNat ≤ (getNextBuflen td env.bsrange d).toNat ∧
      f' = { f with lastPos := f.lastPos + u.buflen.toUInt64 } := by
  obtain ⟨u₀, f₁, hu₀, hfits, -, hmark, hf⟩ := h
  have hmap : usesMap td = false := by
    unfold usesMap
    rw [hseq, Bool.not_true, Bool.and_false, Bool.false_and]
  rw [markIoU, hmap] at hmark
  cases hmark
  obtain ⟨hddir, hoffset⟩ := clipToFile_ddir td.opts f u₀
  obtain ⟨b, hb, hb'⟩ := hu₀.block
  unfold nextBlock at hb
  rw [hseq, if_pos rfl] at hb
  obtain ⟨c, hc, hb⟩ := bind_eq_ok.mp hb
  cases hb
  rw [(udiv_eq_ok.mp hc).2] at hb'
  refine ⟨hddir.trans hu₀.ddir, hoffset.trans hb', ?_, hf⟩
  rw [← hu₀.drawn]
  exact clipToFile_le hu₀.inside hfits

/-- The block of a position that is a whole number of blocks is the position. -/
theorem toNat_position {lastPos fileOffset : UInt64} {m : UInt32}
    (hwhole : lastPos.toNat % m.toNat = 0) (hsum : lastPos.toNat + fileOffset.toNat < 2 ^ 64) :
    (lastPos / m.toUInt64 * m.toUInt64 + fileOffset).toNat = lastPos.toNat + fileOffset.toNat := by
  have hback : (lastPos / m.toUInt64).toNat * m.toNat = lastPos.toNat := by
    rw [UInt64.toNat_div, UInt32.toNat_toUInt64]
    exact Nat.div_mul_cancel (Nat.dvd_of_mod_eq_zero hwhole)
  rw [offset_toNat (by rw [hback]; exact hsum), hback]

/-- What a call that goes on does: nothing to the position, or it hands out the transfer at it. -/
theorem GetCall.sequential {o : Options} {f f' : FioFile} {e : Option IoU}
    (hseq : o.sequential = true) (hskip : o.zoneSkip = 0) (h : GetCall o ContinuesAt f e f') :
    (f' = f ∧ transfers [e] = []) ∨ ∃ u, transfers [e] = [u] ∧
      u.offset.toNat = f.fileOffset.toNat + f.lastPos.toNat ∧
      f'.lastPos.toNat = f.lastPos.toNat + u.buflen.toNat := by
  cases h with
  | refused opts log ok call =>
    subst opts
    refine .inl ⟨?_, rfl⟩
    obtain rfl | rfl := getIoU_refused ok.2.2 call
    · rfl
    · exact zonedFile_of_noSkip hskip f
  | issued opts log ok call =>
    subst opts
    obtain ⟨hf, hsync⟩ | ⟨d, u, hu, hret⟩ := getIoU_ok log call
    · refine .inl ⟨?_, by simp [transfers, hsync _ rfl]⟩
      obtain rfl | rfl := hf
      · rfl
      · exact zonedFile_of_noSkip hskip f
    · rw [zonedFile_of_noSkip hskip f] at hu
      have hturn := hu
      obtain ⟨hddir, hoffset, hlen, rfl⟩ := hu.sequential hseq
      obtain ⟨_, _, hchosen, -⟩ := hturn
      obtain ⟨hwhole, hsum, -⟩ := ok
      rw [hchosen.turn] at hwhole hsum
      rw [hret _ rfl]
      refine .inr ⟨u, by simp [transfers, Option.filter, hddir], ?_, ?_⟩
      · rw [hoffset, toNat_position hwhole (by omega), Nat.add_comm]
      · rw [UInt64.toNat_add, UInt32.toNat_toUInt64]
        exact Nat.mod_eq_of_lt (by omega)

/-! ## A run of calls -/

/-- In a run of a sequential job without zones to skip whose calls all go on, the first transfer starts
at the offset of the file and each one where the last one ended. -/
theorem transfers_contiguous {o : Options} {f f' : FioFile} {es : List (Option IoU)}
    (hseq : o.sequential = true) (hskip : o.zoneSkip = 0)
    (h : Run (GetCall o ContinuesAt) (clearFileState f) es f') :
    Contiguous f.fileOffset.toNat (transfers es) := by
  have hinv : SameFile (clearFileState f) f' ∧ f'.lastPos.toNat = totalLen (transfers es) ∧
      Contiguous f.fileOffset.toNat (transfers es) := by
    refine h.invariant (I := fun es g => SameFile (clearFileState f) g ∧
      g.lastPos.toNat = totalLen (transfers es) ∧ Contiguous f.fileOffset.toNat (transfers es))
      ⟨SameFile.refl _, rfl, trivial⟩ ?_
    rintro es g e g' ⟨hsame, hpos, hcont⟩ hcall
    refine ⟨hsame.trans hcall.sameFile, ?_⟩
    rw [transfers_append]
    obtain ⟨rfl, hnone⟩ | ⟨u, hone, hoffset, hlast⟩ := hcall.sequential hseq hskip
    · rw [hnone, List.append_nil]
      exact ⟨hpos, hcont⟩
    · rw [hone]
      rw [hsame.fileOffset, hpos] at hoffset
      refine ⟨?_, hcont.snoc hoffset⟩
      rw [hlast, hpos, totalLen_append, totalLen_singleton]
  exact hinv.2.2

/-- A sequential job on one file. -/
def sequentialReader : Options := { fillDefThread ⟨false, false, false, false⟩ with iodepth := 2 }

theorem transfers_contiguous_twoBlocks :
    Contiguous 0 [⟨4096, 0, 0, 0, .data .read, some 0⟩, ⟨4096, 4096, 0, 0, .data .read, some 0⟩] := by
  obtain ⟨f', hrun⟩ := replay_run (show replay (fixupOptions sequentialReader) ContinuesAt
      [zeroEnv, zeroEnv] (startJob (fixupOptions sequentialReader) 8192)
      (clearFileState (clearedFile 8192 1)) =
        some [some ⟨4096, 0, 0, 0, .data .read, some 0⟩, some ⟨4096, 4096, 0, 0, .data .read, some 0⟩]
      by decide +kernel)
  exact transfers_contiguous rfl rfl hrun

/-- A mixed job that reads blocks of 4096 bytes and writes blocks of 8192. -/
def sequentialMixed : Options := { sequentialReader with iomix := true, bs := ⟨4096, 8192⟩ }

/-- A call that reads, and one that writes. -/
def readThenWrite : List GetEnv :=
  [⟨fun _ => 0, 0, 0, 500, false⟩, ⟨fun _ => 0, 0, 2147483647, 500, false⟩]

/-- The read of 4096 bytes is followed by a write of the same bytes: `last_pos` is not a whole block of
8192. -/
theorem transfers_contiguous_mixed :
    ¬∀ (o : Options) (f f' : FioFile) (es : List (Option IoU)),
      (fixupOptions o).sequential = true → (fixupOptions o).zoneSkip = 0 →
      Run (GetCall (fixupOptions o) anyCall) (clearFileState f) es f' →
      Contiguous f.fileOffset.toNat (transfers es) := by
  intro hall
  obtain ⟨f', hrun⟩ := replay_run (show replay (fixupOptions sequentialMixed) anyCall readThenWrite
      (startJob (fixupOptions sequentialMixed) 65536) (clearFileState (clearedFile 65536 1)) =
        some [some ⟨4096, 0, 0, 0, .data .read, some 0⟩, some ⟨8192, 0, 0, 0, .data .write, some 0⟩]
      by decide +kernel)
  have hcont := hall sequentialMixed (clearedFile 65536 1) f' _ rfl rfl hrun
  exact absurd hcont.2.1 (by decide)

end Rtfsc.Fio
