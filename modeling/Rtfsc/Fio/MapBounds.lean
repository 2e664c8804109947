import Rtfsc.Fio.Coverage

/-!
# fio: accesses to the random map

`init_random_state` sizes the map from `file_size` in units of the smaller block size. The probes
draw from `file_size` in units of the block size of the direction, the search goes up to
`real_file_size`, and marking follows a transfer as far as it goes. `MapOk` is what a call needs for
these to stay in the map.
-/

namespace Rtfsc.Fio

open Rtfsc.Machine

/-- The blocks of a file, counted in units of the map. -/
def numBlocks (o : Options) (f : FioFile) : Nat :=
  (f.fileSize.toNat + o.rwMinBs.toNat - 1) / o.rwMinBs.toNat

/-- A map has a bit for every block, as long as an `int` can count the blocks. -/
theorem numBlocks_le_initFileMap {o : Options} {f : FioFile} {map : FileMap}
    (hblocks : numBlocks o f < 2 ^ 31) (h : initFileMap o f = .ok map) :
    numBlocks o f ≤ 64 * map.numMaps.toNat := by
  have hrw := (initFileMap_ok h).1
  have hpos : 0 < o.rwMinBs.toNat := Nat.pos_of_ne_zero fun h0 => hrw (UInt32.toNat_inj.mp h0)
  unfold initFileMap at h
  obtain ⟨blocks, hb, h⟩ := bind_eq_ok.mp h
  unfold mapBlocks at hb
  obtain ⟨q, hq, hb⟩ := bind_eq_ok.mp hb
  obtain ⟨_, rfl⟩ := udiv_eq_ok.mp hq
  dsimp only at h
  split at h
  · cases h
    cases hb
    have hsum : f.fileSize.toNat + o.rwMinBs.toNat - 1 < 2 ^ 31 * o.rwMinBs.toNat :=
      (Nat.div_lt_iff_lt_mul hpos).mp hblocks
    have hrw32 := UInt32.toNat_lt o.rwMinBs
    have h1 : (1 : UInt64).toNat = 1 := rfl
    have hnum : ((f.fileSize + o.rwMinBs.toUInt64 - 1) / o.rwMinBs.toUInt64).toNat = numBlocks o f := by
      rw [UInt64.toNat_div, UInt64.toNat_sub, UInt64.toNat_add, UInt32.toNat_toUInt64, h1, numBlocks]
      congr 1
      omega
    have hint : (((f.fileSize + o.rwMinBs.toUInt64 - 1) / o.rwMinBs.toUInt64).toUInt32.toInt32).toInt =
        numBlocks o f := by
      have hlow : ((f.fileSize + o.rwMinBs.toUInt64 - 1) / o.rwMinBs.toUInt64).toUInt32.toNat =
          numBlocks o f := by
        rw [UInt64.toNat_toUInt32, hnum]
        omega
      rw [toInt_toInt32 (by rw [hlow]; exact hblocks), hlow]
    have hw := toNat_mapWords ((f.fileSize + o.rwMinBs.toUInt64 - 1) / o.rwMinBs.toUInt64).toUInt32.toInt32
    rw [hint] at hw
    rw [FileMap.cleared]
    dsimp only
    omega
  · cases h

/-! ## Accesses to the map -/

/-- The map bit of a block counted from the file offset, when both units agree on the block the file
offset lies in. -/
theorem mapPos_add {o : Options} {f : FioFile} {b : UInt64} {d : DataDdir}
    (horigin : f.fileOffset / (o.minBs.get d).toUInt64 = f.fileOffset / o.rwMinBs.toUInt64)
    (hb : b.toNat < 2 ^ 38) : mapPos o f (b + f.fileOffset / (o.minBs.get d).toUInt64) = b.toNat := by
  have hsub : b + f.fileOffset / (o.minBs.get d).toUInt64 - f.fileOffset / o.rwMinBs.toUInt64 = b := by
    rw [horigin, UInt64.add_sub_cancel]
  have h64 : (64 : UInt64).toNat = 64 := rfl
  rw [mapPos, hsub, UInt64.toNat_toUInt32, UInt64.toNat_div, h64]
  omega

/-- Every probe has a value when the blocks it can draw have a bit in the map. -/
theorem probeLoop_total {o : Options} {f : FioFile} {d : DataDdir} {maxBlocks : UInt64}
    (hm : o.minBs.get d ≠ 0) (hrw : o.rwMinBs ≠ 0)
    (h : ∀ r, mapPos o f (randomBlock maxBlocks r + f.fileOffset / (o.minBs.get d).toUInt64) / 64 <
      f.map.numMaps.toNat) (loops : Nat) (random : Nat → RandLong) :
    ∃ r, probeLoop o f d maxBlocks loops random = .ok r := by
  have hdiv : udiv f.fileOffset (o.minBs.get d).toUInt64 =
      .ok (f.fileOffset / (o.minBs.get d).toUInt64) := udiv_eq_ok.mpr ⟨toUInt64_ne_zero hm, rfl⟩
  induction loops generalizing random with
  | zero => exact ⟨_, rfl⟩
  | succ loops ih =>
    unfold probeLoop
    dsimp only
    split
    · exact ⟨_, rfl⟩
    · rw [hdiv, ok_bind, randomMapFree_eq hrw, if_pos (h _), ok_bind]
      split
      · exact ⟨_, rfl⟩
      · exact ih _

/-- What direction `d` needs from the file for its blocks to have a bit in the map: the blocks can
be counted in an `int`, the file holds one of them, the two units agree on the block the file offset
lies in, and a transfer of more than one block does not reach past the last bit. -/
structure MapFits (o : Options) (f : FioFile) (d : DataDdir) : Prop where
  blocks : numBlocks o f < 2 ^ 31
  holds : (o.minBs.get d).toNat ≤ f.fileSize.toNat
  offset : f.fileOffset.toNat ≤ 2 ^ 63
  origin : f.fileOffset / (o.minBs.get d).toUInt64 = f.fileOffset / o.rwMinBs.toUInt64
  reach : o.minBs.get d = o.maxBs.get d ∨
    (f.realFileSize.toNat ≤ f.fileOffset.toNat + 64 * f.map.numMaps.toNat * (o.minBs.get d).toNat ∧
      f.realFileSize.toNat + 2 ^ 32 ≤ 2 ^ 64)

theorem MapFits.sameFile {o : Options} {f g : FioFile} {d : DataDdir} (h : MapFits o f d)
    (hsame : SameFile f g) : MapFits o g d := by
  have hnum : numBlocks o g = numBlocks o f := by simp only [numBlocks, hsame.fileSize]
  refine ⟨?_, ?_, ?_, ?_, ?_⟩
  · rw [hnum]
    exact h.blocks
  · rw [hsame.fileSize]
    exact h.holds
  · rw [hsame.fileOffset]
    exact h.offset
  · rw [hsame.fileOffset]
    exact h.origin
  · rw [hsame.realFileSize, hsame.fileOffset, hsame.numMaps]
    exact h.reach

/-- What a call needs for every access to lie in the map: the direction it takes fits, and the
search for a free block has one to find, or ends with the file. -/
def MapOk (td : ThreadData) (f : FioFile) (env : GetEnv) : Prop :=
  MapFits td.opts f (getRwDdir td env.elapsed env.rwmix).1 ∧
    ((∃ w ∈ f.map.words, w ≠ -1) ∨
      f.realFileSize.toNat ≤ 64 * f.map.numMaps.toNat * td.opts.rwMinBs.toNat)

instance (o : Options) (f : FioFile) (d : DataDdir) : Decidable (MapFits o f d) :=
  decidable_of_iff (numBlocks o f < 2 ^ 31 ∧ (o.minBs.get d).toNat ≤ f.fileSize.toNat ∧
    f.fileOffset.toNat ≤ 2 ^ 63 ∧
    f.fileOffset / (o.minBs.get d).toUInt64 = f.fileOffset / o.rwMinBs.toUInt64 ∧
    (o.minBs.get d = o.maxBs.get d ∨
      (f.realFileSize.toNat ≤ f.fileOffset.toNat + 64 * f.map.numMaps.toNat * (o.minBs.get d).toNat ∧
        f.realFileSize.toNat + 2 ^ 32 ≤ 2 ^ 64)))
    ⟨fun ⟨h1, h2, h3, h4, h5⟩ => ⟨h1, h2, h3, h4, h5⟩, fun ⟨h1, h2, h3, h4, h5⟩ => ⟨h1, h2, h3, h4, h5⟩⟩

instance (td : ThreadData) (f : FioFile) (env : GetEnv) : Decidable (MapOk td f env) :=
  inferInstanceAs (Decidable (_ ∧ _))

/-- A file whose map `init_random_state` has sized. -/
structure Sized (o : Options) (f : FioFile) : Prop where
  unit : o.rwMinBs ≠ 0
  small : f.map.numMaps.toNat ≤ 2 ^ 25
  enough : numBlocks o f < 2 ^ 31 → numBlocks o f ≤ 64 * f.map.numMaps.toNat

theorem sized_initFileMap {o : Options} {f : FioFile} (h : initFileMap o f = .ok f.map) :
    Sized o f := by
  obtain ⟨hrw, n, hn, hmap⟩ := initFileMap_ok h
  exact ⟨hrw, by rw [hmap]; exact hn, fun hb => numBlocks_le_initFileMap hb h⟩

theorem Sized.sameFile {o : Options} {f g : FioFile} (h : Sized o f) (hsame : SameFile f g) :
    Sized o g := by
  have hnum : numBlocks o g = numBlocks o f := by simp only [numBlocks, hsame.fileSize]
  refine ⟨h.unit, by rw [hsame.numMaps]; exact h.small, fun hb => ?_⟩
  rw [hnum, hsame.numMaps] at *
  exact h.enough hb

/-- The smaller minimum block size is the unit of the map. -/
theorem rwMinBs_le (o : Options) (d : DataDdir) :
    (fixupOptions o).rwMinBs.toNat ≤ ((fixupOptions o).minBs.get d).toNat := by
  have hmin : ∀ a b : UInt32, (min a b).toNat = min a.toNat b.toNat := by
    intro a b
    show (if a ≤ b then a else b).toNat = _
    split <;> rw [UInt32.le_iff_toNat_le] at * <;> omega
  rw [fixupOptions_rwMinBs, hmin]
  cases d with
  | read => exact Nat.min_le_left _ _
  | write => exact Nat.min_le_right _ _

/-- A block of a file that fits has a bit in the map. -/
theorem MapFits.block_lt {o : Options} {f : FioFile} {d : DataDdir} (h : MapFits o f d)
    (hsized : Sized o f) (hle : o.rwMinBs.toNat ≤ (o.minBs.get d).toNat) :
    f.fileSize.toNat / (o.minBs.get d).toNat ≤ 64 * f.map.numMaps.toNat := by
  have hpos : 0 < o.rwMinBs.toNat :=
    Nat.pos_of_ne_zero fun h0 => hsized.unit (UInt32.toNat_inj.mp h0)
  calc f.fileSize.toNat / (o.minBs.get d).toNat
      ≤ f.fileSize.toNat / o.rwMinBs.toNat := Nat.div_le_div_left hle hpos
    _ ≤ numBlocks o f := Nat.div_le_div_right (by omega)
    _ ≤ 64 * f.map.numMaps.toNat := hsized.enough h.blocks

/-- The choice of a block has a value. -/
theorem nextBlock_total {o : Options} {f : FioFile} {d : DataDdir} (hseq : o.sequential = false)
    (hfits : MapFits o f d) (hsized : Sized o f) (hle : o.rwMinBs.toNat ≤ (o.minBs.get d).toNat)
    (hspace : (∃ w ∈ f.map.words, w ≠ -1) ∨
      f.realFileSize.toNat ≤ 64 * f.map.numMaps.toNat * o.rwMinBs.toNat) (random : Nat → RandLong) :
    ∃ r, nextBlock o f random d = .ok r := by
  have hpos : 0 < o.rwMinBs.toNat :=
    Nat.pos_of_ne_zero fun h0 => hsized.unit (UInt32.toNat_inj.mp h0)
  have hm : o.minBs.get d ≠ 0 := by
    intro h0
    have hzero : (0 : UInt32).toNat = 0 := rfl
    rw [h0] at hle
    omega
  have hblocks := hfits.block_lt hsized hle
  have hsmall := hsized.small
  have hmax : f.fileSize / (o.minBs.get d).toUInt64 ≠ 0 := by
    intro h0
    have hdiv := congrArg UInt64.toNat h0
    rw [UInt64.toNat_div, UInt32.toNat_toUInt64, UInt64.toNat_zero,
      Nat.div_eq_zero_iff_lt (by omega)] at hdiv
    exact absurd hfits.holds (by omega)
  have hprobe : ∀ r, mapPos o f (randomBlock (f.fileSize / (o.minBs.get d).toUInt64) r +
      f.fileOffset / (o.minBs.get d).toUInt64) / 64 < f.map.numMaps.toNat := by
    intro r
    have hlt := randomBlock_lt hmax r
    rw [UInt64.toNat_div, UInt32.toNat_toUInt64] at hlt
    rw [mapPos_add hfits.origin (by omega)]
    omega
  have hdiv : udiv f.fileSize (o.minBs.get d).toUInt64 =
      .ok (f.fileSize / (o.minBs.get d).toUInt64) := udiv_eq_ok.mpr ⟨toUInt64_ne_zero hm, rfl⟩
  obtain ⟨⟨b, left⟩, hloop⟩ := probeLoop_total hm hsized.unit hprobe 50 random
  unfold nextBlock
  simp only [hseq, Bool.false_eq_true, if_false]
  rw [hdiv, ok_bind, hloop, ok_bind]
  dsimp only
  split
  · cases hsearch : getNextFreeBlock o f with
    | ok r => exact ⟨r, rfl⟩
    | error e =>
      obtain ⟨hfull, hlt⟩ := getNextFreeBlock_error hsearch
      exfalso
      obtain ⟨w, hw, hne⟩ | hend := hspace
      · exact hne (hfull w hw)
      · have hrw32 := UInt32.toNat_lt o.rwMinBs
        have hmul : 64 * f.map.numMaps.toNat * o.rwMinBs.toNat ≤ 2 ^ 31 * (2 ^ 32 - 1) :=
          Nat.mul_le_mul (by omega) (by omega)
        rw [UInt64.lt_iff_toNat_lt, UInt64.toNat_mul, UInt64.toNat_ofNat', UInt32.toNat_toUInt64,
          Nat.mod_eq_of_lt (a := 64 * f.map.numMaps.toNat) (by omega),
          Nat.mod_eq_of_lt (by omega)] at hlt
        omega
  · exact ⟨_, rfl⟩

/-- The length drawn by a job with one block size is at most that size. -/
theorem getNextBuflen_le {td : ThreadData} {r : RandLong} {d : DataDdir}
    (h : td.opts.minBs.get d = td.opts.maxBs.get d) :
    (getNextBuflen td r d).toNat ≤ (td.opts.minBs.get d).toNat := by
  have hle := UInt32.le_iff_toNat_le.mp (getNextBuflen_le_draw td r d)
  rw [drawBuflen, if_pos h] at hle
  exact hle

/-- Marking a chosen transfer has a value. -/
theorem markIoU_total {td : ThreadData} {f : FioFile} {env : GetEnv} {d : DataDdir} {u : IoU}
    (hseq : td.opts.sequential = false) (hmap : td.opts.norandommap = false)
    (hfits : MapFits td.opts f d) (hsized : Sized td.opts f)
    (hle : td.opts.rwMinBs.toNat ≤ (td.opts.minBs.get d).toNat) (hu : Chosen td f env d u)
    (hclip : (clipToFile td.opts f u).1 = true) :
    ∃ r, markIoU td f (clipToFile td.opts f u).2 d = .ok r := by
  obtain ⟨b, hb, hoffset⟩ := hu.block
  have hm := nextBlock_minBs hb
  have hpos : 0 < (td.opts.minBs.get d).toNat :=
    Nat.pos_of_ne_zero fun h0 => hm (UInt32.toNat_inj.mp h0)
  have hblocks := hfits.block_lt hsized hle
  have hsmall := hsized.small
  -- the block has a bit in the map
  have hbit : b.toNat < 64 * f.map.numMaps.toNat := by
    obtain ⟨r, rfl, -⟩ | ⟨hlt, -⟩ := nextBlock_random hseq hmap hb
    · have hmax : f.fileSize / (td.opts.minBs.get d).toUInt64 ≠ 0 := by
        intro h0
        have hdiv := congrArg UInt64.toNat h0
        rw [UInt64.toNat_div, UInt32.toNat_toUInt64, UInt64.toNat_zero,
          Nat.div_eq_zero_iff_lt hpos] at hdiv
        exact absurd hfits.holds (by omega)
      have hlt := randomBlock_lt hmax r
      rw [UInt64.toNat_div, UInt32.toNat_toUInt64] at hlt
      omega
    · exact hlt
  have hm32 := UInt32.toNat_lt (td.opts.minBs.get d)
  have hmul : b.toNat * (td.opts.minBs.get d).toNat ≤ (2 ^ 31 - 1) * (2 ^ 32 - 1) :=
    Nat.mul_le_mul (by omega) (by omega)
  have hfo := hfits.offset
  have hnowrap : b.toNat * (td.opts.minBs.get d).toNat + f.fileOffset.toNat < 2 ^ 64 := by omega
  have ho := offset_toNat hnowrap
  rw [← hoffset] at ho
  have hblock := offset_div hm hnowrap
  rw [← hoffset] at hblock
  have hshort := clipToFile_le hu.inside hclip
  obtain ⟨-, hkeep⟩ := clipToFile_ddir td.opts f u
  have hin := UInt64.le_iff_toNat_le.mp hu.inside
  have hend := fun hsum => (clipToFile_ok hsum hu.inside hclip).2.1
  generalize (clipToFile td.opts f u).2 = v at hshort hkeep hend ⊢
  unfold markIoU
  split
  · refine markRandomMap_total hsized.unit hm fun j hj => ?_
    have hj' : (j + 1) * (td.opts.minBs.get d).toNat ≤ v.buflen.toNat :=
      (Nat.le_div_iff_mul_le hpos).mp hj
    have hreach : b.toNat + j < 64 * f.map.numMaps.toNat := by
      obtain hone | ⟨hcover, hfar⟩ := hfits.reach
      · have hlen := getNextBuflen_le (r := env.bsrange) hone
        rw [← hu.drawn] at hlen
        have hj0 : j + 1 ≤ 1 := by
          refine Nat.le_of_mul_le_mul_right (c := (td.opts.minBs.get d).toNat) ?_ hpos
          omega
        omega
      · have hlen := UInt32.toNat_lt u.buflen
        have hend' := hend (by omega)
        have hcells : (b.toNat + j + 1) * (td.opts.minBs.get d).toNat ≤
            64 * f.map.numMaps.toNat * (td.opts.minBs.get d).toNat := by
          rw [Nat.add_assoc, Nat.add_mul]
          omega
        exact Nat.le_of_mul_le_mul_right hcells hpos
    have hadd : b + f.fileOffset / (td.opts.minBs.get d).toUInt64 + UInt64.ofNat j =
        (b + UInt64.ofNat j) + f.fileOffset / (td.opts.minBs.get d).toUInt64 := by
      rw [UInt64.add_assoc, UInt64.add_assoc, UInt64.add_comm (UInt64.ofNat j)]
    have hbj : (b + UInt64.ofNat j).toNat = b.toNat + j := by
      rw [UInt64.toNat_add, UInt64.toNat_ofNat']
      omega
    rw [hkeep, hblock, hadd, mapPos_add hfits.origin (by omega), hbj]
    omega
  · exact ⟨_, rfl⟩

/-- Every call of a run has a value when it and the calls before it meet `MapOk`: no access lies
outside the map, and the `assert` of `mark_random_map` holds. -/
theorem getIoU_total {o : Options} {f f' : FioFile} {es : List (Option IoU)} {td : ThreadData}
    {fi : Nat} {env : GetEnv} (hseq : (fixupOptions o).sequential = false)
    (hmap : (fixupOptions o).norandommap = false)
    (hinit : initFileMap (fixupOptions o) f = .ok f.map)
    (h : Run (GetCall (fixupOptions o) MapOk) f es f') (hopts : td.opts = fixupOptions o)
    (hlog : td.readIolog = false) (hok : MapOk td f' env) :
    ∃ r, getIoU td f' fi env = .ok r := by
  have hsame : SameFile f f' :=
    h.stateInvariant (I := SameFile f) (SameFile.refl f) fun _ _ _ hs hc => hs.trans hc.sameFile
  obtain ⟨hzone, hzmap⟩ := sameFile_zonedFile td f'
  have hsized : Sized td.opts (zonedFile td f') := by
    rw [hopts]
    exact (sized_initFileMap hinit).sameFile (hsame.trans hzone)
  obtain ⟨hfits, hspace⟩ := hok
  have hfits := hfits.sameFile hzone
  rw [← hzmap, ← hzone.realFileSize] at hspace
  rw [← hopts] at hseq hmap
  have hle : ∀ d, td.opts.rwMinBs.toNat ≤ (td.opts.minBs.get d).toNat := by
    rw [hopts]
    exact rwMinBs_le o
  cases hcall : getIoU td f' fi env with
  | ok r => exact ⟨r, rfl⟩
  | error e =>
    exfalso
    obtain hblock | ⟨d, u, hu, hclip, hmark⟩ := getIoU_error hlog hcall
    · obtain ⟨r, hr⟩ := nextBlock_total hseq hfits hsized (hle _) hspace env.random
      rw [hr] at hblock
      cases hblock
    · rw [hu.turn] at hfits
      obtain ⟨r, hr⟩ := markIoU_total hseq hmap hfits hsized (hle d) hu hclip
      rw [hr] at hmark
      cases hmark

theorem getIoU_total_second : ∃ f' r,
    Run (GetCall (fixupOptions randomWriter) MapOk) (clearedFile 8192 1)
      [some ⟨4096, 0, 0, 0, .data .write, some 0⟩] f' ∧
    getIoU (startJob (fixupOptions randomWriter) 8192) f' 0 zeroEnv = .ok r := by
  obtain ⟨f', hrun⟩ := replay_run (show replay (fixupOptions randomWriter) MapOk [zeroEnv]
      (startJob (fixupOptions randomWriter) 8192) (clearedFile 8192 1) =
        some [some ⟨4096, 0, 0, 0, .data .write, some 0⟩]
      by decide +kernel)
  have hsame : SameFile (clearedFile 8192 1) f' :=
    hrun.stateInvariant (I := SameFile (clearedFile 8192 1)) (SameFile.refl _)
      fun _ _ _ hs hc => hs.trans hc.sameFile
  have hfits : MapFits (fixupOptions randomWriter) (clearedFile 8192 1) .write := by decide +kernel
  have hok : MapOk (startJob (fixupOptions randomWriter) 8192) f' zeroEnv := by
    refine ⟨hfits.sameFile hsame, .inr ?_⟩
    rw [hsame.realFileSize, hsame.numMaps]
    decide +kernel
  obtain ⟨r, hr⟩ : ∃ r, getIoU (startJob (fixupOptions randomWriter) 8192) f' 0 zeroEnv = .ok r :=
    getIoU_total rfl rfl (by decide +kernel) hrun rfl rfl hok
  exact ⟨f', r, hrun, hr⟩

/-- In a file of 1000 bytes there is no block of 4096, the number of blocks less one wraps, and the
probe looks at bit `2 ^ 33 - 1` of a map of one word. -/
theorem getIoU_smallFile_outOfBounds :
    ¬ ∀ (o : Options) (f f' : FioFile) (es : List (Option IoU)) (td : ThreadData) (fi : Nat)
      (env : GetEnv), (fixupOptions o).sequential = false → (fixupOptions o).norandommap = false →
      initFileMap (fixupOptions o) f = .ok f.map →
      Run (GetCall (fixupOptions o) anyCall) f es f' → td.opts = fixupOptions o →
      td.readIolog = false → ∀ i, getIoU td f' fi env ≠ .error (.outOfBounds i) := by
  intro h
  have hcall := h randomWriter (clearedFile 1000 1) _ [] (startJob (fixupOptions randomWriter) 1000) 0
    ⟨fun _ => 1, 0, 0, 0, false⟩ rfl rfl (by decide +kernel) .nil rfl rfl (2 ^ 27 - 1)
  exact hcall (fault_eq_some.mp (by decide +kernel))

end Rtfsc.Fio
