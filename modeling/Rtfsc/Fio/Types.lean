import Rtfsc.Machine.BitMap

/-!
# fio: jobs, files and io units

The members of `struct thread_data`, `struct fio_file` and `struct io_u` that the io path reads and
writes. Fixed-width members keep their width, so their arithmetic wraps as it does in C. A member
that the code only ever tests for zero is a `Bool`.
-/

namespace Rtfsc.Fio

open Rtfsc.Machine

/-- The two data directions of `enum fio_ddir`, the indices of the `[2]` arrays. -/
inductive DataDdir
  | read
  | write
deriving DecidableEq, Repr

/-- `enum fio_ddir`. -/
inductive FioDdir
  | data (d : DataDdir)
  | sync
deriving DecidableEq, Repr

/-- A `[2]` array indexed by data direction. -/
structure PerDdir (α : Type) where
  read : α
  write : α
deriving DecidableEq, Repr

namespace PerDdir

variable {α : Type}

def get (a : PerDdir α) : DataDdir → α
  | .read => a.read
  | .write => a.write

def set (a : PerDdir α) (d : DataDdir) (x : α) : PerDdir α :=
  match d with
  | .read => { a with read := x }
  | .write => { a with write := x }

end PerDdir

/-- `enum fio_memtype`. -/
inductive FioMemtype
  | malloc
  | shm
  | shmhuge
  | mmap
  | mmaphuge
deriving DecidableEq, Repr

/-- `enum fio_filetype`. -/
inductive FioFiletype
  | file
  | bd
  | char
deriving DecidableEq, Repr

/-- The `VERIFY_*` values. -/
inductive Verify
  | none
  | md5
  | crc32
deriving DecidableEq, Repr

/-- `io_ops->flags`. -/
structure IoengineFlags where
  syncio : Bool
  cpuio : Bool
  mmapio : Bool
  rawio : Bool
deriving DecidableEq, Repr

/-- The settings of a job that the io path depends on: what options set and `fixup_options`
completes. The io path itself never changes them. -/
structure Options where
  ddir : DataDdir
  iomix : Bool
  sequential : Bool
  norandommap : Bool
  bsUnaligned : Bool
  odirect : Bool
  overwrite : Bool
  endFsync : Bool
  overrideSync : Bool
  bs : PerDdir UInt32
  minBs : PerDdir UInt32
  maxBs : PerDdir UInt32
  rwMinBs : UInt32
  iodepth : UInt32
  nrFiles : UInt32
  hugepageSize : UInt32
  memType : FioMemtype
  filetype : FioFiletype
  verify : Verify
  fsyncBlocks : UInt32
  rwmixcycle : UInt32
  rwmixread : UInt32
  rwmixwrite : UInt32
  zoneSize : UInt64
  zoneSkip : UInt64
  flags : IoengineFlags
  readIologFile : Option String
  writeIologFile : Option String
deriving DecidableEq, Repr

/-- `td_rw(td)`. -/
def tdRw (o : Options) : Bool := o.iomix

/-- `td_read(td)`. -/
def tdRead (o : Options) : Bool := o.ddir == .read

/-- `td_write(td)`. -/
def tdWrite (o : Options) : Bool := o.ddir == .write

/-- `struct io_u`. -/
structure IoU where
  buflen : UInt32
  offset : UInt64
  resid : UInt32
  error : UInt32
  ddir : FioDdir
  file : Option Nat
deriving DecidableEq, Repr

/-- `struct io_piece`. A piece read from an iolog has no file. -/
structure IoPiece where
  file : Option Nat
  offset : UInt64
  len : UInt32
  ddir : DataDdir
deriving DecidableEq, Repr

/-- `f->file_map` with the number of words it was allocated with. -/
structure FileMap where
  words : List UInt64
  numMaps : UInt32
  sized : words.length = numMaps.toNat
deriving DecidableEq

namespace FileMap

/-- No map: the null pointer of a job that does not use one. -/
def empty : FileMap := ⟨[], 0, rfl⟩

/-- A map of `n` cleared words. -/
def cleared (n : UInt32) : FileMap := ⟨List.replicate n.toNat 0, n, List.length_replicate⟩

/-- Read `file_map[idx]`. -/
def read (m : FileMap) (idx : UInt32) : Outcome UInt64 :=
  match m.words[idx.toNat]? with
  | some w => .ok w
  | none => .error (.outOfBounds idx.toNat)

/-- `file_map[idx] |= mask`. -/
def orWord (m : FileMap) (idx : UInt32) (mask : UInt64) : FileMap :=
  ⟨m.words.set idx.toNat (m.words.getD idx.toNat 0 ||| mask), m.numMaps,
    by rw [List.length_set]; exact m.sized⟩

end FileMap

/-- `struct fio_file`. -/
structure FioFile where
  isOpen : Bool
  fileSize : UInt64
  realFileSize : UInt64
  fileOffset : UInt64
  lastPos : UInt64
  map : FileMap

/-- The state of a running job: the counters, the mixed-workload direction, the replay log and the
pool of io units. The units are numbered, and the two lists hold their numbers. -/
structure ThreadData where
  opts : Options
  readIolog : Bool
  ioSize : UInt64
  thisIoBytes : PerDdir UInt64
  ioBlocks : PerDdir UInt64
  ioBytes : PerDdir UInt64
  zoneBytes : UInt64
  lastWasSync : Bool
  rwmixDdir : DataDdir
  ioLogList : List IoPiece
  ioHistList : List IoPiece
  /-- What `write_iolog_put` has written: direction, offset and length of each line. -/
  iologF : List (FioDdir × UInt64 × UInt32)
  ioU : Nat → IoU
  ioUFreelist : List Nat
  ioUBusylist : List Nat
  curDepth : UInt32
  error : Int

/-- What `os_random_long` returns: a value of `lrand48`. -/
abbrev RandLong := Fin (2 ^ 31)

instance neZero_randLong : NeZero (2 ^ 31) := ⟨by decide⟩

end Rtfsc.Fio
