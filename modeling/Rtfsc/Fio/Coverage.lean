import Rtfsc.Fio.Generator
import Rtfsc.Machine.Cells
import Mathlib.Data.ZMod.Defs

/-!
# fio: no byte is handed out twice

The map is counted in units of one block size. While every transfer is for that size, the blocks of
a transfer are runs of cells of the file, the map remembers all of them, and a new transfer takes
free ones. A mixed job with two block sizes counts the same bits in two units.
-/

namespace Rtfsc.Fio

open Rtfsc.Machine

/-- The bytes of a transfer. -/
def IoU.bytes (u : IoU) : Set Nat := Set.Ico u.offset.toNat (u.offset.toNat + u.buflen.toNat)

/-- The remainder of the offset of every transfer in blocks of `m` bytes: that of the file offset,
except for a file smaller than a block, where the one block that can be drawn with a nonzero random
number is far behind the file. -/
def phase (f : FioFile) (m : Nat) : Nat :=
  if f.fileSize.toNat < m then ((2 ^ 33 - 1) * m + f.fileOffset.toNat) % 2 ^ 64 % m
  else f.fileOffset.toNat % m

/-- A transfer of `k` blocks of `m` bytes that are all marked in the map. -/
structure Marked (o : Options) (m : UInt32) (f : FioFile) (u : IoU) : Prop where
  blocks : u.buflen.toNat = u.buflen.toNat / m.toNat * m.toNat
  aligned : u.buflen.toNat ≠ 0 → u.offset.toNat % m.toNat = phase f m.toNat
  marked : ∀ j < u.buflen.toNat / m.toNat,
    testBit f.map.words (mapPos o f (u.offset / m.toUInt64 + UInt64.ofNat j)) = true

/-- A transfer whose blocks are all free shares no byte with one whose blocks are all marked. -/
theorem Marked.disjoint {o : Options} {m : UInt32} {f : FioFile} {u v : IoU}
    (hv : Marked o m f v) (hblocks : u.buflen.toNat = u.buflen.toNat / m.toNat * m.toNat)
    (haligned : u.buflen.toNat ≠ 0 → u.offset.toNat % m.toNat = phase f m.toNat)
    (hfree : BlocksFree o f (u.offset / m.toUInt64) (u.buflen.toNat / m.toNat)) :
    Disjoint u.bytes v.bytes := by
  by_cases hu0 : u.buflen.toNat = 0
  · simp [IoU.bytes, hu0]
  by_cases hv0 : v.buflen.toNat = 0
  · simp [IoU.bytes, hv0]
  have hcell : ∀ w : IoU, w.offset.toNat % m.toNat = phase f m.toNat →
      w.buflen.toNat = w.buflen.toNat / m.toNat * m.toNat →
      w.bytes = Set.Ico ((w.offset / m.toUInt64).toNat * m.toNat + phase f m.toNat)
        ((w.offset / m.toUInt64).toNat * m.toNat + phase f m.toNat +
          w.buflen.toNat / m.toNat * m.toNat) := by
    intro w hw hlen
    have hoff : (w.offset / m.toUInt64).toNat * m.toNat + phase f m.toNat = w.offset.toNat := by
      rw [UInt64.toNat_div, UInt32.toNat_toUInt64, ← hw, Nat.div_add_mod']
    rw [IoU.bytes, hoff, ← hlen]
  rw [hcell u (haligned hu0) hblocks, hcell v (hv.aligned hv0) hv.blocks]
  refine disjoint_cells fun i hi j hj heq => ?_
  have hsame : u.offset / m.toUInt64 + UInt64.ofNat i = v.offset / m.toUInt64 + UInt64.ofNat j := by
    rw [← UInt64.toNat_inj, UInt64.toNat_add, UInt64.toNat_add, UInt64.toNat_ofNat',
      UInt64.toNat_ofNat']
    omega
  have hclear := (hfree i hi).2
  rw [hsame, hv.marked j hj] at hclear
  cases hclear

/-- The block of a random job with a map: one drawn among the blocks of the file, or a clear bit of
the map. -/
theorem nextBlock_random {o : Options} {f : FioFile} {random : Nat → RandLong} {d : DataDdir}
    {b : UInt64} (hseq : o.sequential = false) (hmap : o.norandommap = false)
    (h : nextBlock o f random d = .ok (some b)) :
    (∃ r, b = randomBlock (f.fileSize / (o.minBs.get d).toUInt64) r ∧
      randomMapFree o f (b + f.fileOffset / (o.minBs.get d).toUInt64) = .ok true) ∨
    (b.toNat < 64 * f.map.numMaps.toNat ∧ testBit f.map.words b.toNat = false) := by
  unfold nextBlock at h
  rw [hseq] at h
  simp only [Bool.false_eq_true, if_false] at h
  obtain ⟨maxBlocks, hmax, h⟩ := bind_eq_ok.mp h
  obtain ⟨_, rfl⟩ := udiv_eq_ok.mp hmax
  obtain ⟨⟨c, left⟩, hprobe, h⟩ := bind_eq_ok.mp h
  obtain ⟨i, hi, hfree⟩ := probeLoop_ok hmap hprobe (by decide)
  dsimp only at h
  split at h
  · exact .inr (getNextFreeBlock_ok h)
  · next hleft =>
    cases h
    exact .inl ⟨random i, hi, hfree fun h0 => hleft (by rw [h0]; rfl)⟩

/-- A probe of a file smaller than a block. -/
theorem randomBlock_zero (r : RandLong) :
    (randomBlock 0 r).toNat = 0 ∨ (randomBlock 0 r).toNat = 2 ^ 33 - 1 := by
  have hr := r.isLt
  rw [randomBlock_toNat]
  have h0 : ((0 : UInt64) - 1).toNat = 2 ^ 64 - 1 := rfl
  rw [h0]
  rcases Nat.eq_zero_or_pos (r : Nat) with hz | hpos
  · left
    rw [hz]
    rfl
  · right
    have hmul : (2 ^ 64 - 1) * (r : Nat) = (2 ^ 64 - r) + ((r : Nat) - 1) * 2 ^ 64 := by omega
    rw [hmul, Nat.add_mul_mod_self_right, Nat.mod_eq_of_lt (by omega)]
    omega

/-- The position of a chosen block overflows only in a file smaller than a block. -/
theorem nextBlock_position {o : Options} {f : FioFile} {random : Nat → RandLong} {d : DataDdir}
    {b : UInt64} (hseq : o.sequential = false) (hmap : o.norandommap = false)
    (hmaps : f.map.numMaps.toNat ≤ 2 ^ 25)
    (hwhole : f.realFileSize.toNat = f.fileOffset.toNat + f.fileSize.toNat)
    (hoff : f.fileOffset.toNat ≤ 2 ^ 63) (h : nextBlock o f random d = .ok (some b)) :
    b.toNat * (o.minBs.get d).toNat + f.fileOffset.toNat < 2 ^ 64 ∨
      (f.fileSize.toNat < (o.minBs.get d).toNat ∧ b.toNat = 2 ^ 33 - 1) := by
  have hm : 0 < (o.minBs.get d).toNat :=
    Nat.pos_of_ne_zero fun h0 => nextBlock_minBs h (UInt32.toNat_inj.mp h0)
  have hreal := UInt64.toNat_lt f.realFileSize
  obtain ⟨r, rfl, -⟩ | ⟨hb, -⟩ := nextBlock_random hseq hmap h
  · by_cases hsmall : f.fileSize.toNat < (o.minBs.get d).toNat
    · have hzero : f.fileSize / (o.minBs.get d).toUInt64 = 0 := by
        rw [← UInt64.toNat_inj, UInt64.toNat_div, UInt32.toNat_toUInt64]
        exact Nat.div_eq_of_lt hsmall
      rw [hzero]
      obtain h0 | h0 := randomBlock_zero r
      · left
        rw [h0]
        omega
      · exact .inr ⟨hsmall, h0⟩
    · left
      have hpos : f.fileSize / (o.minBs.get d).toUInt64 ≠ 0 := by
        intro h0
        have hdiv := congrArg UInt64.toNat h0
        rw [UInt64.toNat_div, UInt32.toNat_toUInt64, UInt64.toNat_zero,
          Nat.div_eq_zero_iff_lt hm] at hdiv
        exact hsmall hdiv
      have hlt := randomBlock_lt hpos r
      rw [UInt64.toNat_div, UInt32.toNat_toUInt64] at hlt
      have hle := Nat.mul_le_mul_right (o.minBs.get d).toNat (le_of_lt hlt)
      have hdiv := Nat.div_mul_le_self f.fileSize.toNat (o.minBs.get d).toNat
      omega
  · left
    have hm32 := UInt32.toNat_lt (o.minBs.get d)
    have hmul : b.toNat * (o.minBs.get d).toNat ≤ (2 ^ 31 - 1) * (2 ^ 32 - 1) :=
      Nat.mul_le_mul (by omega) (by omega)
    omega

/-- What the map remembers of a transfer just issued, and what it knew before. -/
theorem Issued.marked {td : ThreadData} {f f' : FioFile} {env : GetEnv} {d : DataDdir} {u : IoU}
    (huse : usesMap td = true) (h : Issued td f env d u f') :
    let m := td.opts.minBs.get d
    u.buflen.toNat = u.buflen.toNat / m.toNat * m.toNat ∧
      BlocksFree td.opts f (u.offset / m.toUInt64) (u.buflen.toNat / m.toNat) ∧
      ∀ i, testBit f'.map.words i = true ↔ testBit f.map.words i = true ∨
        ∃ j < u.buflen.toNat / m.toNat, mapPos td.opts f (u.offset / m.toUInt64 + UInt64.ofNat j) = i := by
  dsimp only
  obtain ⟨u₀, f₁, -, -, -, hmark, rfl⟩ := h
  rw [markIoU, if_pos huse] at hmark
  generalize (clipToFile td.opts f u₀).2 = u₁ at hmark
  obtain ⟨hm, k, -, hu, hlen, rfl, hfree, -⟩ := markRandomMap_ok hmark
  have hm' : 0 < (td.opts.minBs.get d).toNat :=
    Nat.pos_of_ne_zero fun h0 => hm (UInt32.toNat_inj.mp h0)
  have hk : u.buflen.toNat / (td.opts.minBs.get d).toNat = k := by
    rw [hlen, Nat.mul_div_cancel _ hm']
  have hoffset : u.offset = u₁.offset := by rw [hu]
  rw [hk, hoffset]
  exact ⟨hlen, hfree, testBit_markBlocks fun j hj => (hfree j hj).1⟩

/-- Every transfer that is not empty starts at the same remainder. -/
theorem Issued.aligned {td : ThreadData} {f f' : FioFile} {env : GetEnv} {d : DataDdir} {u : IoU}
    (huse : usesMap td = true) (hmaps : f.map.numMaps.toNat ≤ 2 ^ 25)
    (hwhole : f.realFileSize.toNat = f.fileOffset.toNat + f.fileSize.toNat)
    (hoff : f.fileOffset.toNat ≤ 2 ^ 63) (h : Issued td f env d u f') (hne : u.buflen.toNat ≠ 0) :
    u.offset.toNat % (td.opts.minBs.get d).toNat = phase f (td.opts.minBs.get d).toNat := by
  have hmode : td.opts.sequential = false ∧ td.opts.norandommap = false := by
    simp only [usesMap, Bool.and_eq_true, Bool.not_eq_true'] at huse
    exact ⟨huse.1.2, huse.2⟩
  obtain ⟨hblocks, -, -⟩ := h.marked huse
  obtain ⟨u₀, f₁, hu₀, hfits, -, hmark, -⟩ := h
  rw [markIoU, if_pos huse] at hmark
  obtain ⟨-, hclip⟩ := clipToFile_ddir td.opts f u₀
  obtain ⟨b, hb, hoffset⟩ := hu₀.block
  have hin := UInt64.le_iff_toNat_le.mp hu₀.inside
  have hend := fun hsum => (clipToFile_ok hsum hu₀.inside hfits).2.1
  generalize (clipToFile td.opts f u₀).2 = u₁ at hmark hclip hend
  obtain ⟨hm, k, hk, hu, hlen, -⟩ := markRandomMap_ok hmark
  have hkeep : u.offset = u₀.offset := by rw [hu, hclip]
  have hlen₀ := UInt32.toNat_lt u₀.buflen
  rw [hkeep]
  obtain hpos | ⟨hsmall, hfar⟩ := nextBlock_position hmode.1 hmode.2 hmaps hwhole hoff hb
  · have ho := offset_toNat hpos
    rw [← hoffset] at ho
    by_cases hsmall : f.fileSize.toNat < (td.opts.minBs.get d).toNat
    · -- nothing of a block fits between the offset and the end of the file
      have hm32 := UInt32.toNat_lt (td.opts.minBs.get d)
      have hend' := hend (by omega)
      have hcover : (td.opts.minBs.get d).toNat ≤ u.buflen.toNat := by
        rw [hlen] at hne ⊢
        exact Nat.le_mul_of_pos_left _ (Nat.pos_of_ne_zero fun h0 => hne (by rw [h0, Nat.zero_mul]))
      have hle : u.buflen.toNat ≤ u₁.buflen.toNat := by
        rw [hlen]
        exact le_trans (Nat.mul_le_mul_right _ hk) (Nat.div_mul_le_self _ _)
      omega
    · rw [phase, if_neg hsmall, ho, Nat.mul_add_mod_self_right]
  · rw [phase, if_pos hsmall, hoffset, UInt64.toNat_add, UInt64.toNat_mul, UInt32.toNat_toUInt64,
      hfar, Nat.mod_add_mod]

theorem Issued.turn {td : ThreadData} {f f' : FioFile} {env : GetEnv} {d : DataDdir} {u : IoU}
    (h : Issued td f env d u f') : (getRwDdir td env.elapsed env.rwmix).1 = d := by
  obtain ⟨_, _, hu₀, -⟩ := h
  exact hu₀.turn

theorem BlocksFree.congr {o : Options} {f g : FioFile} {b : UInt64} {k : Nat}
    (h : BlocksFree o g b k) (hsame : SameFile f g) (hmap : g.map = f.map) : BlocksFree o f b k := by
  intro j hj
  have hj := h j hj
  rw [hsame.mapPos, hmap] at hj
  exact hj

/-- Calls for directions whose minimum block size is `m`. -/
def BlockSize (m : UInt32) (td : ThreadData) (_ : FioFile) (env : GetEnv) : Prop :=
  td.opts.minBs.get (getRwDdir td env.elapsed env.rwmix).1 = m

instance (m : UInt32) (td : ThreadData) (f : FioFile) (env : GetEnv) :
    Decidable (BlockSize m td f env) :=
  inferInstanceAs (Decidable (_ = m))

theorem SameFile.phase {f g : FioFile} (h : SameFile f g) (m : Nat) : phase g m = phase f m := by
  simp only [Fio.phase, h.fileSize, h.fileOffset]

/-- The map never forgets a block. -/
theorem Marked.mono {o : Options} {m : UInt32} {f g : FioFile} {u : IoU} (hu : Marked o m f u)
    (hsame : SameFile f g)
    (hle : ∀ i, testBit f.map.words i = true → testBit g.map.words i = true) : Marked o m g u :=
  ⟨hu.blocks, fun h => (hu.aligned h).trans (hsame.phase _).symm,
    fun j hj => by rw [hsame.mapPos]; exact hle _ (hu.marked j hj)⟩

/-- No byte of the file is handed out twice while all transfers are for one minimum block size. -/
theorem transfers_disjoint {o : Options} {f f' : FioFile} {es : List (Option IoU)} {m : UInt32}
    (hseq : o.sequential = false) (hmap : o.norandommap = false)
    (hinit : initFileMap o f = .ok f.map)
    (hwhole : f.realFileSize.toNat = f.fileOffset.toNat + f.fileSize.toNat)
    (hoff : f.fileOffset.toNat ≤ 2 ^ 63) (h : Run (GetCall o (BlockSize m)) f es f') :
    (transfers es).Pairwise fun u v => Disjoint u.bytes v.bytes := by
  have hmaps : f.map.numMaps.toNat ≤ 2 ^ 25 := by
    obtain ⟨-, n, hn, hmap⟩ := initFileMap_ok hinit
    rw [hmap]
    exact hn
  have hinv : SameFile f f' ∧ (∀ u ∈ transfers es, Marked o m f' u) ∧
      (transfers es).Pairwise fun u v => Disjoint u.bytes v.bytes := by
    refine h.invariant (I := fun es g => SameFile f g ∧ (∀ u ∈ transfers es, Marked o m g u) ∧
      (transfers es).Pairwise fun u v => Disjoint u.bytes v.bytes) ⟨SameFile.refl f, nofun, .nil⟩ ?_
    rintro es g e g' ⟨hsame, hmarked, hpair⟩ hcall
    have hsame' := hcall.sameFile
    refine ⟨hsame.trans hsame', ?_⟩
    obtain ⟨td, env, rfl, hlog, hsize, ⟨hg, hnone⟩ | ⟨d, v, hv, hone⟩⟩ := hcall.cases_issued
    · have hmono : ∀ i, testBit g.map.words i = true → testBit g'.map.words i = true := by
        obtain rfl | rfl := hg
        · exact fun _ h => h
        · rw [(sameFile_zonedFile td g).2]
          exact fun _ h => h
      rw [transfers_append, hnone, List.append_nil]
      exact ⟨fun u hu => (hmarked u hu).mono hsame' hmono, hpair⟩
    · obtain ⟨hzone, hzmap⟩ := sameFile_zonedFile td g
      have huse : usesMap td = true := by simp [usesMap, hlog, hseq, hmap]
      have hsize : td.opts.minBs.get d = m := hv.turn ▸ hsize
      have hfile := hsame.trans hzone
      obtain ⟨hblocks, hfree, hbits⟩ := hv.marked huse
      have haligned := hv.aligned huse (hfile.numMaps ▸ hmaps)
        (by rw [hfile.realFileSize, hfile.fileOffset, hfile.fileSize, hwhole])
        (by rw [hfile.fileOffset]; exact hoff)
      rw [hsize, hzone.phase] at haligned
      rw [hsize] at hblocks hfree hbits
      rw [hzmap] at hbits
      have hv' : Marked td.opts m g' v :=
        ⟨hblocks, fun hne => (haligned hne).trans (hsame'.phase _).symm, fun j hj =>
          (hbits _).mpr (.inr ⟨j, hj, by rw [hzone.mapPos, hsame'.mapPos]⟩)⟩
      have hold : ∀ u ∈ transfers es, Marked td.opts m g' u := fun u hu =>
        (hmarked u hu).mono hsame' fun i hi => (hbits i).mpr (.inl hi)
      have hnew : ∀ u ∈ transfers es, Disjoint u.bytes v.bytes := fun u hu =>
        ((hmarked u hu).disjoint hblocks haligned (hfree.congr hzone hzmap)).symm
      rw [transfers_append]
      obtain hnone | hone := hone
      · rw [hnone, List.append_nil]
        exact ⟨hold, hpair⟩
      · rw [hone]
        refine ⟨fun u hu => ?_, ?_⟩
        · rw [List.mem_append, List.mem_singleton] at hu
          obtain hu | rfl := hu
          · exact hold u hu
          · exact hv'
        · rw [List.pairwise_append]
          refine ⟨hpair, List.pairwise_singleton _ _, fun u hu w hw => ?_⟩
          rw [List.mem_singleton.mp hw]
          exact hnew u hu
  exact hinv.2.2

/-- A mixed job that reads blocks of 4096 bytes and writes blocks of 8192. -/
def mixedJob : Options :=
  { fillDefThread ⟨false, false, false, false⟩ with
    iomix := true, sequential := false, iodepth := 2, bs := ⟨4096, 8192⟩ }

/-- A call that writes, and one that reads and draws the second of sixteen blocks. -/
def writeThenRead : List GetEnv :=
  [⟨fun _ => 0, 0, 2 ^ 31 - 1, 500, false⟩, ⟨fun _ => 143165577, 0, 0, 500, false⟩]

theorem transfers_disjoint_twoBlocks :
    Disjoint (IoU.bytes ⟨4096, 0, 0, 0, .data .write, some 0⟩)
      (IoU.bytes ⟨4096, 4096, 0, 0, .data .write, some 0⟩) := by
  obtain ⟨f', hrun⟩ := replay_run (show replay (fixupOptions randomWriter) (BlockSize 4096) [zeroEnv, zeroEnv]
      (startJob (fixupOptions randomWriter) 8192) (clearedFile 8192 1) =
        some [some ⟨4096, 0, 0, 0, .data .write, some 0⟩, some ⟨4096, 4096, 0, 0, .data .write, some 0⟩]
      by decide +kernel)
  have hpair := transfers_disjoint rfl rfl (by decide +kernel) rfl (by decide) hrun
  exact List.rel_of_pairwise_cons hpair (by decide)

/-- The write marks bit 0, for bytes 0 to 8191. The read of block 1, at byte 4096, asks for bit 1. -/
theorem transfers_mixed_overlap :
    ¬ ∀ (o : Options) (f f' : FioFile) (es : List (Option IoU)),
      (fixupOptions o).sequential = false → (fixupOptions o).norandommap = false →
      initFileMap (fixupOptions o) f = .ok f.map →
      f.realFileSize.toNat = f.fileOffset.toNat + f.fileSize.toNat →
      Run (GetCall (fixupOptions o) anyCall) f es f' →
      (transfers es).Pairwise fun u v => Disjoint u.bytes v.bytes := by
  intro h
  obtain ⟨f', hrun⟩ := replay_run (show replay (fixupOptions mixedJob) anyCall writeThenRead
      (startJob (fixupOptions mixedJob) 65536) (clearedFile 65536 1) =
        some [some ⟨8192, 0, 0, 0, .data .write, some 0⟩, some ⟨4096, 4096, 0, 0, .data .read, some 0⟩]
      by decide +kernel)
  have hpair := h mixedJob (clearedFile 65536 1) f' _ rfl rfl (by decide +kernel) rfl hrun
  have hdisj := List.rel_of_pairwise_cons hpair
    (show ⟨4096, 4096, 0, 0, .data .read, some 0⟩ ∈ transfers [some _] from List.mem_singleton_self _)
  have hwrite : 4096 ∈ IoU.bytes ⟨8192, 0, 0, 0, .data .write, some 0⟩ := ⟨by decide, by decide⟩
  have hread : 4096 ∈ IoU.bytes ⟨4096, 4096, 0, 0, .data .read, some 0⟩ := ⟨by decide, by decide⟩
  exact Set.disjoint_left.mp hdisj hwrite hread

end Rtfsc.Fio
