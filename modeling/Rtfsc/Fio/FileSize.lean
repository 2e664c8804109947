import Rtfsc.Fio.Init

/-!
# fio: the region of a file that a job uses

`get_file_size` settles how much of a file is used behind the offset. Each kind of file has its own way
to the size, and the only check that is made comes last and looks at the offset alone.
-/

namespace Rtfsc.Fio

open Rtfsc.Machine

/-- What the system calls of `get_file_size` answer. -/
structure SizeEnv where
  /-- `fstat`: the size of the file, or `errno`. -/
  fstat : Except Int UInt64
  /-- `blockdev_size`: the size of the device, or what it returns. -/
  blockdevSize : Except Int UInt64

/-- What `get_file_size` returns, the error of the job and the file. -/
structure SizeResult where
  ret : Int
  error : Int
  file : FioFile

/-- No size, or one that is too large, is cut to the real size. -/
def limitSize (f : FioFile) : FioFile :=
  if f.fileSize = 0 ∨ f.fileSize > f.realFileSize then { f with fileSize := f.realFileSize } else f

/-- `file_size`. -/
def fileSizeOf (o : Options) (error : Int) (f : FioFile) (env : SizeEnv) : SizeResult :=
  if o.overwrite then
    match env.fstat with
    | .error errno => ⟨1, errno, f⟩
    | .ok size =>
      let f := limitSize { f with realFileSize := size }
      ⟨0, error, { f with fileSize := f.realFileSize - f.fileOffset }⟩
  else ⟨0, error, { f with fileSize := f.realFileSize - f.fileOffset }⟩

/-- `bdev_size`. -/
def bdevSize (error : Int) (f : FioFile) (env : SizeEnv) : SizeResult :=
  match env.blockdevSize with
  | .error r => ⟨1, r, f⟩
  | .ok bytes =>
    let f := limitSize { f with realFileSize := bytes }
    ⟨0, error, { f with fileSize := f.fileSize - f.fileOffset }⟩

/-- The end of `get_file_size`: the offset is checked against the real size. -/
def checkOffset (r : SizeResult) : SizeResult :=
  if r.ret ≠ 0 then r
  else if r.file.fileOffset > r.file.realFileSize then { r with ret := 1 }
  else r

/-- `get_file_size`. -/
def getFileSize (o : Options) (error : Int) (f : FioFile) (env : SizeEnv) : SizeResult :=
  checkOffset <| match o.filetype with
    | .file => fileSizeOf o error f env
    | .bd => bdevSize error f env
    | .char => ⟨0, error, { f with realFileSize := -1 }⟩

/-- The region lies in the file, and it is no larger than what was asked for. -/
def InRegion (f f' : FioFile) : Prop :=
  f'.fileOffset.toNat + f'.fileSize.toNat ≤ f'.realFileSize.toNat ∧
    (f.fileSize ≠ 0 → f'.fileSize ≤ f.fileSize)

/-- The real size that `get_file_size` goes by. A file that is not overwritten is not looked at. -/
def foundSize (o : Options) (f : FioFile) (env : SizeEnv) : UInt64 :=
  match o.filetype with
  | .file => if o.overwrite then env.fstat.toOption.getD 0 else f.realFileSize
  | .bd => env.blockdevSize.toOption.getD 0
  | .char => -1

/-- The size that is asked for goes with the offset. A file has no more than that behind the offset; a
device is not asked for less than the offset; a character device is asked for no more than a word can
count. -/
def SizeFits (o : Options) (f : FioFile) (real : UInt64) : Prop :=
  match o.filetype with
  | .file => f.fileSize ≠ 0 → real - f.fileOffset ≤ f.fileSize
  | .bd => f.fileSize ≠ 0 → f.fileSize ≤ real → f.fileOffset ≤ f.fileSize
  | .char => f.fileOffset.toNat + f.fileSize.toNat < 2 ^ 64

/-! ## What success leaves -/

variable {o : Options} {error : Int} {f : FioFile} {env : SizeEnv}

/-- The size that a kind of file leaves when the real size is known. -/
def sizeLeft (o : Options) (f : FioFile) (real : UInt64) : UInt64 :=
  match o.filetype with
  | .file => real - f.fileOffset
  | .bd => (if f.fileSize = 0 ∨ f.fileSize > real then real else f.fileSize) - f.fileOffset
  | .char => f.fileSize

theorem limitSize_eq (f : FioFile) : limitSize f = { f with
    fileSize := if f.fileSize = 0 ∨ f.fileSize > f.realFileSize then f.realFileSize
      else f.fileSize } := by
  unfold limitSize
  split <;> rfl

theorem checkOffset_ok {r : SizeResult} (h : (checkOffset r).ret = 0) :
    r.ret = 0 ∧ r.file.fileOffset ≤ r.file.realFileSize ∧ checkOffset r = r := by
  unfold checkOffset at h ⊢
  by_cases hret : r.ret ≠ 0
  · rw [if_pos hret] at h
    exact absurd h hret
  · rw [if_neg hret] at h ⊢
    by_cases hpast : r.file.fileOffset > r.file.realFileSize
    · rw [if_pos hpast] at h
      exact absurd (show (1 : Int) = 0 from h) (by decide)
    · exact ⟨not_not.mp hret, UInt64.not_lt.mp hpast, if_neg hpast⟩

theorem fileSizeOf_ok (h : (fileSizeOf o error f env).ret = 0) :
    (fileSizeOf o error f env).file =
      let real := if o.overwrite then env.fstat.toOption.getD 0 else f.realFileSize
      { f with realFileSize := real, fileSize := real - f.fileOffset } := by
  unfold fileSizeOf at h ⊢
  by_cases hover : o.overwrite = true
  · rw [if_pos hover] at h ⊢
    rw [if_pos hover]
    cases hstat : env.fstat with
    | error errno =>
      rw [hstat] at h
      exact absurd (show (1 : Int) = 0 from h) (by decide)
    | ok size =>
      dsimp only [Except.toOption, Option.getD_some]
      rw [limitSize_eq]
  · rw [if_neg hover, if_neg hover]

theorem bdevSize_ok (h : (bdevSize error f env).ret = 0) :
    (bdevSize error f env).file =
      let real := env.blockdevSize.toOption.getD 0
      { f with
        realFileSize := real
        fileSize := (if f.fileSize = 0 ∨ f.fileSize > real then real else f.fileSize) -
          f.fileOffset } := by
  unfold bdevSize at h ⊢
  cases hdev : env.blockdevSize with
  | error r =>
    rw [hdev] at h
    exact absurd (show (1 : Int) = 0 from h) (by decide)
  | ok bytes =>
    dsimp only [Except.toOption, Option.getD_some]
    rw [limitSize_eq]

/-- The offset has been checked against the real size, and nothing else has. -/
theorem getFileSize_ok (h : (getFileSize o error f env).ret = 0) :
    f.fileOffset ≤ foundSize o f env ∧ (getFileSize o error f env).file = { f with
      realFileSize := foundSize o f env
      fileSize := sizeLeft o f (foundSize o f env) } := by
  unfold getFileSize at h ⊢
  obtain ⟨hret, hle, heq⟩ := checkOffset_ok h
  rw [heq]
  unfold foundSize sizeLeft
  cases hkind : o.filetype with
  | file =>
    rw [hkind] at hret hle
    rw [fileSizeOf_ok hret] at hle ⊢
    exact ⟨hle, rfl⟩
  | bd =>
    rw [hkind] at hret hle
    rw [bdevSize_ok hret] at hle ⊢
    exact ⟨hle, rfl⟩
  | char =>
    rw [hkind] at hle
    exact ⟨hle, rfl⟩

/-- What is left of a size behind an offset ends where the size does if and only if the offset is not
behind it. -/
theorem offset_add_left {offset size real : UInt64} (hsize : size ≤ real) :
    offset.toNat + (size - offset).toNat ≤ real.toNat ↔ offset ≤ size := by
  have hlt := offset.toNat_lt
  have hreal := real.toNat_lt
  rw [UInt64.le_iff_toNat_le] at hsize
  rw [UInt64.le_iff_toNat_le]
  constructor
  · intro hend
    rw [UInt64.toNat_sub] at hend
    by_contra hbehind
    omega
  · intro hle
    rw [UInt64.toNat_sub_of_le _ _ (UInt64.le_iff_toNat_le.mpr hle)]
    omega

theorem sub_le_of_le {offset size : UInt64} (h : offset ≤ size) : size - offset ≤ size := by
  rw [UInt64.le_iff_toNat_le, UInt64.toNat_sub_of_le _ _ h]
  exact Nat.sub_le ..

/-! ## The main result -/

/-- A job that reads 1m of a file of 4m. -/
def readJob : Options :=
  fixupOptions (fillDefThread { syncio := true, cpuio := false, mmapio := false, rawio := false })

/-- A file as `create_files` leaves it. -/
def askedFile (size offset : UInt64) : FioFile where
  isOpen := true
  fileSize := size
  realFileSize := 0
  fileOffset := offset
  lastPos := 0
  map := FileMap.empty

/-- Every file and device has this size. -/
def sizeEnv (size : UInt64) : SizeEnv := ⟨.ok size, .ok size⟩

end Rtfsc.Fio
