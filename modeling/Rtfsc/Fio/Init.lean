import Rtfsc.Fio.Types

/-!
# fio: job initialization

The parts of `init.c` that prepare a job for the io path: `fixup_options` and the sizing of the
random map in `init_random_state`.
-/

namespace Rtfsc.Fio

open Rtfsc.Machine

/-- `fill_def_thread`: the settings of a job that gives none, for an engine with these flags. -/
def fillDefThread (flags : IoengineFlags) : Options where
  ddir := .read
  iomix := false
  sequential := true
  norandommap := false
  bsUnaligned := false
  odirect := true
  overwrite := false
  endFsync := false
  overrideSync := false
  bs := ⟨4096, 4096⟩
  minBs := ⟨0, 0⟩
  maxBs := ⟨0, 0⟩
  rwMinBs := 0
  iodepth := 0
  nrFiles := 1
  hugepageSize := 4096 * 1024
  memType := .malloc
  filetype := .file
  verify := .none
  fsyncBlocks := 0
  rwmixcycle := 500
  rwmixread := 50
  rwmixwrite := 0
  zoneSize := 0
  zoneSkip := 0
  flags := flags
  readIologFile := none
  writeIologFile := none

/-- `fixup_options`, the mix, the iologs, the depth and the zones. -/
def fixupMode (o : Options) : Options :=
  { o with
    rwmixread := if o.rwmixread = 0 ∧ o.rwmixwrite ≠ 0 then 100 - o.rwmixwrite else o.rwmixread
    writeIologFile :=
      if o.writeIologFile.isSome ∧ o.readIologFile.isSome then none else o.writeIologFile
    iodepth := if o.flags.syncio then 1 else if o.iodepth = 0 then o.nrFiles else o.iodepth
    zoneSize := if o.zoneSize ≠ 0 ∧ !o.sequential ∧ o.nrFiles = 1 then 0 else o.zoneSize
    overwrite := tdRead o || tdRw o || o.overwrite }

/-- A block size that was not given is `bs`. -/
def orBs (given bs : PerDdir UInt32) : PerDdir UInt32 :=
  ⟨if given.read = 0 then bs.read else given.read, if given.write = 0 then bs.write else given.write⟩

/-- `fixup_options`, the block sizes. -/
def fixupBs (o : Options) : Options :=
  { o with
    minBs := orBs o.minBs o.bs
    maxBs := orBs o.maxBs o.bs
    rwMinBs := min (orBs o.minBs o.bs).read (orBs o.minBs o.bs).write }

/-- `fixup_options`, verification: there is nothing to verify in a pure read job, and no way to
verify without the random map. -/
def fixupVerify (o : Options) : Options :=
  if (tdRead o && !tdRw o) || o.norandommap then { o with verify := .none } else o

/-- `fixup_options`: `O_DIRECT` and character devices do not mix. -/
def fixupOdirect (o : Options) : Options :=
  if o.filetype = .char then { o with odirect := false } else o

/-- `fixup_options`: the options that depend on each other. -/
def fixupOptions (o : Options) : Options :=
  fixupOdirect (fixupVerify (fixupBs (fixupMode o)))

theorem orBs_orBs (given bs : PerDdir UInt32) : orBs (orBs given bs) bs = orBs given bs := by
  simp only [orBs]
  congr 1 <;> split <;> simp_all

theorem fixupVerify_eq (o : Options) : fixupVerify o = { o with
    verify := if (tdRead o && !tdRw o) || o.norandommap then .none else o.verify } := by
  unfold fixupVerify
  split <;> rfl

theorem fixupOdirect_eq (o : Options) : fixupOdirect o = { o with
    odirect := if o.filetype = .char then false else o.odirect } := by
  unfold fixupOdirect
  split <;> rfl

/-- `fixup_options` as one update. -/
theorem fixupOptions_eq (o : Options) :
    fixupOptions o = { fixupBs (fixupMode o) with
      verify := if (tdRead o && !tdRw o) || o.norandommap then .none else o.verify
      odirect := if o.filetype = .char then false else o.odirect } := by
  rw [fixupOptions, fixupOdirect_eq, fixupVerify_eq]
  rfl

/-- Options that `fixup_options` has nothing to do for. -/
structure Settled (o : Options) : Prop where
  rwmixread : o.rwmixread = 0 → o.rwmixwrite ≠ 0 → 100 - o.rwmixwrite = 0
  writeIologFile : o.writeIologFile.isSome → o.readIologFile = none
  iodepth : if o.flags.syncio then o.iodepth = 1 else o.iodepth = 0 → o.nrFiles = 0
  zoneSize : o.sequential = false → o.nrFiles = 1 → o.zoneSize = 0
  overwrite : tdRead o || tdRw o → o.overwrite = true
  minBs : orBs o.minBs o.bs = o.minBs
  maxBs : orBs o.maxBs o.bs = o.maxBs
  rwMinBs : o.rwMinBs = min o.minBs.read o.minBs.write
  verify : (tdRead o && !tdRw o) || o.norandommap → o.verify = .none
  odirect : o.filetype = .char → o.odirect = false

theorem settled_fixupOptions (o : Options) : Settled (fixupOptions o) := by
  rw [fixupOptions_eq]
  constructor <;> simp only [fixupBs, fixupMode, tdRead, tdRw, orBs_orBs]
  · by_cases h : o.rwmixread = 0 ∧ o.rwmixwrite ≠ 0
    · rw [if_pos h]
      exact fun h0 _ => h0
    · rw [if_neg h]
      exact fun h0 h1 => absurd ⟨h0, h1⟩ h
  · cases o.readIologFile <;> cases o.writeIologFile <;> simp
  · by_cases hs : o.flags.syncio = true
    · simp [hs]
    · by_cases h : o.iodepth = 0 <;> simp [hs, h]
  · intro hs hn
    by_cases h : o.zoneSize = 0 <;> simp [h, hs, hn]
  · intro h
    rw [h]
    rfl
  · exact fun h => if_pos h
  · exact fun h => if_pos h

theorem Settled.fixupOptions {o : Options} (h : Settled o) : Fio.fixupOptions o = o := by
  have hmix : (if o.rwmixread = 0 ∧ o.rwmixwrite ≠ 0 then 100 - o.rwmixwrite else o.rwmixread) =
      o.rwmixread := by
    split
    · next hc => rw [h.rwmixread hc.1 hc.2, hc.1]
    · rfl
  have hlog : (if o.writeIologFile.isSome ∧ o.readIologFile.isSome then none else o.writeIologFile) =
      o.writeIologFile := by
    split
    · next hc =>
      rw [h.writeIologFile hc.1] at hc
      exact nomatch hc.2
    · rfl
  have hdepth : (if o.flags.syncio then 1 else if o.iodepth = 0 then o.nrFiles else o.iodepth) =
      o.iodepth := by
    have hd := h.iodepth
    split
    · next hs => rw [if_pos hs] at hd; exact hd.symm
    · next hs =>
      rw [if_neg hs] at hd
      split
      · next h0 => rw [hd h0, h0]
      · rfl
  have hzone : (if o.zoneSize ≠ 0 ∧ !o.sequential ∧ o.nrFiles = 1 then 0 else o.zoneSize) =
      o.zoneSize := by
    split
    · next hc => exact (h.zoneSize (by simpa using hc.2.1) hc.2.2).symm
    · rfl
  have hover : (tdRead o || tdRw o || o.overwrite) = o.overwrite := by
    by_cases hc : (tdRead o || tdRw o) = true
    · rw [hc, h.overwrite hc]
      rfl
    · rw [Bool.not_eq_true] at hc
      rw [hc, Bool.false_or]
  have hmode : fixupMode o = o := by
    simp only [fixupMode, hmix, hlog, hdepth, hzone, hover]
  have hbs : fixupBs o = o := by
    simp only [fixupBs, h.minBs, h.maxBs, ← h.rwMinBs]
  have hverify : (if (tdRead o && !tdRw o) || o.norandommap then Verify.none else o.verify) =
      o.verify := by
    split
    · next hc => exact (h.verify hc).symm
    · rfl
  have hodirect : (if o.filetype = .char then false else o.odirect) = o.odirect := by
    split
    · next hc => exact (h.odirect hc).symm
    · rfl
  rw [fixupOptions_eq, hmode, hbs, hverify, hodirect]
/-- The lower of the two minimum block sizes is the unit of the random map. -/
theorem fixupOptions_rwMinBs (o : Options) :
    (fixupOptions o).rwMinBs = min (fixupOptions o).minBs.read (fixupOptions o).minBs.write :=
  (settled_fixupOptions o).rwMinBs

/-- `blocks` of `init_random_state`, an `int`. -/
def mapBlocks (o : Options) (f : FioFile) : Outcome Int32 := do
  let n ← udiv (f.fileSize + o.rwMinBs.toUInt64 - 1) o.rwMinBs.toUInt64
  return n.toUInt32.toInt32

/-- `num_maps` of `init_random_state`: `blocks` is widened to `unsigned long` before the division
by `BLOCKS_PER_MAP`. -/
def mapWords (blocks : Int32) : UInt32 :=
  ((blocks.toInt64.toUInt64 + 64 - 1) / 64).toUInt32

/-- The map `init_random_state` gives to a file. A negative `num_maps` asks `malloc` for more memory
than there is, and the null pointer is then cleared. -/
def initFileMap (o : Options) (f : FioFile) : Outcome FileMap := do
  let blocks ← mapBlocks o f
  let numMaps := mapWords blocks
  if numMaps < 2147483648 then return FileMap.cleared numMaps else .error .nullPointer

/-- An `int` widened to `unsigned long`. -/
theorem toNat_widen (b : Int32) : (b.toInt64.toUInt64.toNat : Int) = b.toInt % 2 ^ 64 := by
  have h1 : b.toInt64.toUInt64.toBitVec.toInt = b.toInt := Int32.toInt_toInt64 b
  have h2 := BitVec.toInt_eq_toNat_cond b.toInt64.toUInt64.toBitVec
  have h3 : b.toInt64.toUInt64.toNat = b.toInt64.toUInt64.toBitVec.toNat := rfl
  have h4 := UInt64.toNat_lt b.toInt64.toUInt64
  rw [h1, ← h3] at h2
  split at h2 <;> omega

theorem toNat_mapWords (b : Int32) :
    ((mapWords b).toNat : Int) = ((b.toInt % 2 ^ 64 + 63) % 2 ^ 64 / 64) % 2 ^ 32 := by
  have h := toNat_widen b
  have h64 : (64 : UInt64).toNat = 64 := rfl
  have h1 : (1 : UInt64).toNat = 1 := rfl
  rw [mapWords, UInt64.toNat_toUInt32, UInt64.toNat_div, UInt64.toNat_sub, UInt64.toNat_add, h64, h1]
  omega

/-- A map that can be allocated has at most `2 ^ 25` words. -/
theorem mapWords_le {blocks : Int32} (h : mapWords blocks < 2147483648) :
    (mapWords blocks).toNat ≤ 2 ^ 25 := by
  have hw := toNat_mapWords blocks
  have hlo := Int32.le_toInt blocks
  have hhi := Int32.toInt_lt blocks
  have h31 : (2147483648 : UInt32).toNat = 2147483648 := rfl
  rw [UInt32.lt_iff_toNat_lt, h31] at h
  omega

theorem initFileMap_ok {o : Options} {f : FioFile} {map : FileMap} (h : initFileMap o f = .ok map) :
    o.rwMinBs ≠ 0 ∧ ∃ n : UInt32, n.toNat ≤ 2 ^ 25 ∧ map = FileMap.cleared n := by
  unfold initFileMap at h
  obtain ⟨blocks, hblocks, h⟩ := bind_eq_ok.mp h
  unfold mapBlocks at hblocks
  obtain ⟨q, hq, -⟩ := bind_eq_ok.mp hblocks
  refine ⟨fun h0 => (udiv_eq_ok.mp hq).1 (by rw [h0]; rfl), ?_⟩
  dsimp only at h
  split at h
  · next hlt =>
    cases h
    exact ⟨mapWords blocks, mapWords_le hlt, rfl⟩
  · cases h

/-- `init_random_state` on the files of a job, once the seeds have been read. -/
def initRandomState (o : Options) (files : List FioFile) : Outcome (List FioFile) :=
  if o.flags.cpuio || o.sequential || o.norandommap then return files
  else files.mapM fun f => do
    let map ← initFileMap o f
    return { f with map := map }

/-- `max_units` of `init_io_u`, an `int`. -/
def maxUnits (o : Options) : Int32 :=
  if o.flags.syncio then 1 else o.iodepth.toInt32

/-- The number of units `init_io_u` creates. -/
def numUnits (o : Options) : Nat :=
  if o.flags.cpuio then 0 else (maxUnits o).toNatClampNeg

/-- The free list `init_io_u` builds: every unit is added in front. -/
def initFreelist (o : Options) : List Nat := (List.range (numUnits o)).reverse

/-- A job as `thread_main` starts it, with `ioSize` bytes to transfer. -/
def startJob (o : Options) (ioSize : UInt64) : ThreadData where
  opts := o
  readIolog := false
  ioSize := ioSize
  thisIoBytes := ⟨0, 0⟩
  ioBlocks := ⟨0, 0⟩
  ioBytes := ⟨0, 0⟩
  zoneBytes := 0
  lastWasSync := false
  rwmixDdir := .read
  ioLogList := []
  ioHistList := []
  iologF := []
  ioU := fun _ => { buflen := 0, offset := 0, resid := 0, error := 0, ddir := .data .read, file := none }
  ioUFreelist := initFreelist o
  ioUBusylist := []
  curDepth := 0
  error := 0

end Rtfsc.Fio
