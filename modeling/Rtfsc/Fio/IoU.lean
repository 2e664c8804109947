import Rtfsc.Fio.Types
import Rtfsc.Machine.Rounding

/-!
# fio: the io unit generator

`io_u.c`: the map of used blocks, the choice of the next offset, length and direction, and
`get_io_u`, which puts them together. Random numbers, the clock and the engine's `prep` hook come
from outside, so every call takes them as a `GetEnv`.
-/

namespace Rtfsc.Fio

open Rtfsc.Machine

/-- What one call of `get_io_u` gets from outside: the random numbers it draws for the offset (one
for each probe), for the length and for the direction, the milliseconds since the direction last
changed, and whether `td_io_prep` fails. -/
structure GetEnv where
  random : Nat → RandLong
  bsrange : RandLong
  rwmix : RandLong
  elapsed : UInt64
  prepFails : Bool

/-- `BLOCKS_PER_MAP`. -/
def blocksPerMap : UInt64 := 64

/-- `TO_MAP_BLOCK(td, f, b)`. -/
def toMapBlock (o : Options) (f : FioFile) (b : UInt64) : Outcome UInt64 := do
  let origin ← udiv f.fileOffset o.rwMinBs.toUInt64
  return b - origin

/-- `RAND_MAP_IDX(td, f, b)`, assigned to an `unsigned int`. -/
def randMapIdx (o : Options) (f : FioFile) (b : UInt64) : Outcome UInt32 := do
  let b ← toMapBlock o f b
  return (b / blocksPerMap).toUInt32

/-- `RAND_MAP_BIT(td, f, b)`. -/
def randMapBit (o : Options) (f : FioFile) (b : UInt64) : Outcome UInt64 := do
  let b ← toMapBlock o f b
  return b &&& (blocksPerMap - 1)

/-- `random_map_free`. -/
def randomMapFree (o : Options) (f : FioFile) (block : UInt64) : Outcome Bool := do
  let idx ← randMapIdx o f block
  let bit ← randMapBit o f block
  let w ← f.map.read idx
  return w &&& bitMask bit == 0

/-- The loop of `mark_random_map`: `left` more blocks to mark. Returns the blocks marked. -/
def markRandomMapLoop (o : Options) : Nat → FioFile → UInt64 → UInt32 → Outcome (FioFile × UInt32)
  | 0, f, _, blocks => return (f, blocks)
  | left + 1, f, block, blocks => do
    if !(← randomMapFree o f block) then
      return (f, blocks)
    let idx ← randMapIdx o f block
    let bit ← randMapBit o f block
    if idx < f.map.numMaps then
      let f := { f with map := f.map.orWord idx (bitMask bit) }
      markRandomMapLoop o left f (block + 1) (blocks + 1)
    else
      .error .assertFailed

/-- `mark_random_map`. -/
def markRandomMap (o : Options) (f : FioFile) (u : IoU) (d : DataDdir) : Outcome (FioFile × IoU) := do
  let minBs := o.minBs.get d
  let block ← udiv u.offset minBs.toUInt64
  let (f, blocks) ← markRandomMapLoop o (u.buflen / minBs).toNat f block 0
  if blocks * minBs < u.buflen then
    return (f, { u with buflen := blocks * minBs })
  else
    return (f, u)

/-- The search loop of `get_next_free_block`, over the words not yet read. -/
def getNextFreeBlockLoop (o : Options) (f : FioFile) : List UInt64 → UInt64 → Outcome (Option UInt64)
  | ws, b =>
    if b * o.rwMinBs.toUInt64 < f.realFileSize then
      match ws with
      | [] => .error (.outOfBounds f.map.words.length)
      | w :: ws =>
        if w ≠ -1 then return some (b + UInt64.ofNat (ffz w))
        else getNextFreeBlockLoop o f ws (b + blocksPerMap)
    else
      return none

/-- `get_next_free_block`. -/
def getNextFreeBlock (o : Options) (f : FioFile) : Outcome (Option UInt64) :=
  getNextFreeBlockLoop o f f.map.words 0

/-- The block drawn by one probe of `get_next_offset`. -/
def randomBlock (maxBlocks : UInt64) (r : RandLong) : UInt64 :=
  (maxBlocks - 1) * UInt64.ofNat r / 2147483648

/-- The probe loop of `get_next_offset`, with `loops` probes left before this one. Returns the block
and the probes left after it. -/
def probeLoop (o : Options) (f : FioFile) (d : DataDdir) (maxBlocks : UInt64) :
    Nat → (Nat → RandLong) → Outcome (UInt64 × Nat)
  | 0, _ => return (0, 0)
  | loops + 1, random => do
    let b := randomBlock maxBlocks (random 0)
    if o.norandommap then
      return (b, loops + 1)
    let origin ← udiv f.fileOffset (o.minBs.get d).toUInt64
    if (← randomMapFree o f (b + origin)) || loops == 0 then
      return (b, loops)
    else
      probeLoop o f d maxBlocks loops fun i => random (i + 1)

/-- The block chosen by `get_next_offset`. -/
def nextBlock (o : Options) (f : FioFile) (random : Nat → RandLong) (d : DataDdir) :
    Outcome (Option UInt64) := do
  if o.sequential then
    let b ← udiv f.lastPos (o.minBs.get d).toUInt64
    return some b
  else
    let maxBlocks ← udiv f.fileSize (o.minBs.get d).toUInt64
    let (b, loops) ← probeLoop o f d maxBlocks 50 random
    if loops == 0 then getNextFreeBlock o f else return some b

/-- `get_next_offset`, with `*offset` passed in and out; `false` is a non-zero return. -/
def getNextOffset (o : Options) (f : FioFile) (random : Nat → RandLong) (d : DataDdir)
    (offset : UInt64) : Outcome (Bool × UInt64) := do
  match ← nextBlock o f random d with
  | none => return (false, offset)
  | some b =>
    let offset := b * (o.minBs.get d).toUInt64 + f.fileOffset
    return (!(f.realFileSize < offset), offset)

/-- The length drawn by `get_next_buflen` from the block size range, as a double and truncated. -/
def randBuflen (maxBs : UInt32) (r : RandLong) : UInt32 :=
  UInt32.ofNat (roundDouble (2 ^ 31 + roundDouble ((maxBs - 1).toNat * r)) / 2 ^ 31)

/-- `(buflen + min_bs - 1) & ~(min_bs - 1)`. -/
def roundBuflen (minBs buflen : UInt32) : UInt32 :=
  (buflen + minBs - 1) &&& ~~~(minBs - 1)

/-- The length `get_next_buflen` starts from, before it looks at the remaining size. -/
def drawBuflen (o : Options) (r : RandLong) (d : DataDdir) : UInt32 :=
  if o.minBs.get d = o.maxBs.get d then o.minBs.get d
  else if o.bsUnaligned then randBuflen (o.maxBs.get d) r
  else roundBuflen (o.minBs.get d) (randBuflen (o.maxBs.get d) r)

/-- `get_next_buflen`. -/
def getNextBuflen (td : ThreadData) (r : RandLong) (d : DataDdir) : UInt32 :=
  let buflen := drawBuflen td.opts r d
  let left := td.ioSize - td.thisIoBytes.get d
  if left < buflen.toUInt64 then
    if td.opts.flags.rawio then 0 else left.toUInt32
  else
    buflen

/-- `get_rw_ddir`, with the direction a mixed job keeps. -/
def getRwDdir (td : ThreadData) (elapsed : UInt64) (r : RandLong) : DataDdir × ThreadData :=
  if tdRw td.opts then
    if td.opts.rwmixcycle.toUInt64 ≤ elapsed then
      let v : Nat := 1 + 100 * r / 2 ^ 31
      let d : DataDdir := if v < td.opts.rwmixread.toNat then .read else .write
      (d, { td with rwmixDdir := d })
    else
      (td.rwmixDdir, td)
  else if tdRead td.opts then
    (.read, td)
  else
    (.write, td)

/-- `should_fsync`. -/
def shouldFsync (td : ThreadData) : Bool :=
  if td.lastWasSync then false
  else if td.opts.odirect then false
  else tdWrite td.opts || tdRw td.opts || td.opts.overrideSync

/-- `put_io_u`. -/
def putIoU (td : ThreadData) (i : Nat) : ThreadData :=
  { td with
    ioU := Function.update td.ioU i { td.ioU i with file := none }
    ioUFreelist := i :: td.ioUFreelist.erase i
    ioUBusylist := td.ioUBusylist.erase i
    curDepth := td.curDepth - 1 }

/-- `__get_io_u`. -/
def getFreeIoU (td : ThreadData) : Option (Nat × ThreadData) :=
  match td.ioUFreelist with
  | [] => none
  | i :: rest =>
    some (i, { td with
      ioU := Function.update td.ioU i { td.ioU i with buflen := 0, error := 0, resid := 0 }
      ioUFreelist := rest
      ioUBusylist := i :: td.ioUBusylist
      curDepth := td.curDepth + 1 })

/-- `read_iolog_get`; `false` is a non-zero return. -/
def readIologGet (td : ThreadData) (u : IoU) : Bool × IoU × ThreadData :=
  match td.ioLogList with
  | [] => (false, u, td)
  | p :: rest =>
    (true, { u with offset := p.offset, buflen := p.len, ddir := .data p.ddir, file := p.file },
      { td with ioLogList := rest })

/-- `write_iolog_put`. -/
def writeIologPut (td : ThreadData) (u : IoU) : ThreadData :=
  { td with iologF := td.iologF ++ [(u.ddir, u.offset, u.buflen)] }

/-- Whether `fill_io_u` asks for a sync instead of a transfer. -/
def timeToSync (td : ThreadData) : Bool :=
  td.opts.fsyncBlocks != 0 && td.ioBlocks.write % td.opts.fsyncBlocks.toUInt64 == 0 && shouldFsync td

/-- `fill_io_u` on file number `fi`; `false` is a non-zero return. -/
def fillIoU (td : ThreadData) (f : FioFile) (fi : Nat) (u : IoU) (env : GetEnv) :
    Outcome (Bool × IoU × ThreadData) := do
  if td.readIolog then
    return readIologGet td u
  else if timeToSync td then
    return (true, { u with ddir := .sync, file := some fi }, td)
  else
    let (d, td) := getRwDdir td env.elapsed env.rwmix
    let u := { u with ddir := .data d }
    let (found, offset) ← getNextOffset td.opts f env.random d u.offset
    let u := { u with offset := offset }
    if !found then
      return (false, u, td)
    else
      let u := { u with buflen := getNextBuflen td env.bsrange d }
      if u.buflen = 0 then
        return (false, u, td)
      else
        let td := if td.opts.writeIologFile.isSome then writeIologPut td u else td
        return (true, { u with file := some fi }, td)

/-- The end-of-file check of `get_io_u`; `false` when the unit has to be put back. -/
def clipToFile (o : Options) (f : FioFile) (u : IoU) : Bool × IoU :=
  if f.realFileSize < u.buflen.toUInt64 + u.offset then
    if o.flags.rawio then (false, u)
    else (true, { u with buflen := (f.realFileSize - u.offset).toUInt32 })
  else
    (true, u)

/-- Whether transfers of this job go through the random map. -/
def usesMap (td : ThreadData) : Bool :=
  !td.readIolog && !td.opts.sequential && !td.opts.norandommap

/-- The zone check of `get_io_u`. -/
def skipZone (td : ThreadData) (f : FioFile) : ThreadData × FioFile :=
  if td.opts.zoneSize ≤ td.zoneBytes then
    ({ td with zoneBytes := 0 }, { f with lastPos := f.lastPos + td.opts.zoneSkip })
  else
    (td, f)

/-- The marking step of `get_io_u`. -/
def markIoU (td : ThreadData) (f : FioFile) (u : IoU) (d : DataDdir) : Outcome (FioFile × IoU) :=
  if usesMap td then markRandomMap td.opts f u d else return (f, u)

/-- What `get_io_u` does with a data transfer that passed the end-of-file check: reject it when it
is empty, mark its blocks, move the position of the file. -/
def issueIoU (td : ThreadData) (f : FioFile) (u : IoU) (d : DataDdir) :
    Outcome (Bool × FioFile × IoU) := do
  if u.buflen = 0 then
    return (false, f, u)
  else
    let (f, u) ← markIoU td f u d
    return (true, { f with lastPos := f.lastPos + u.buflen.toUInt64 }, u)

/-- `get_io_u` once the unit `u` is off the free list: fill it, check it against the end of the
file, issue it. `false` when the unit has to be put back. -/
def prepareIoU (td : ThreadData) (f : FioFile) (fi : Nat) (u : IoU) (env : GetEnv) :
    Outcome (Bool × IoU × ThreadData × FioFile) := do
  let (filled, u, td) ← fillIoU td f fi u env
  if !filled then
    return (false, u, td, f)
  let (fits, u) := clipToFile td.opts f u
  if !fits then
    return (false, u, td, f)
  match u.ddir with
  | .sync => return (!env.prepFails, u, td, f)
  | .data d =>
    let (issued, f, u) ← issueIoU td f u d
    return (issued && !env.prepFails, u, td, f)

/-- `get_io_u` on file number `fi`. Returns the number of the unit, the job and the file. -/
def getIoU (td : ThreadData) (f : FioFile) (fi : Nat) (env : GetEnv) :
    Outcome (Option Nat × ThreadData × FioFile) := do
  match getFreeIoU td with
  | none => return (none, td, f)
  | some (i, td) =>
    let (td, f) := skipZone td f
    let (ready, u, td, f) ← prepareIoU td f fi (td.ioU i) env
    let td := { td with ioU := Function.update td.ioU i u }
    if ready then return (some i, td, f) else return (none, putIoU td i, f)

/-- The job with unit `i` replaced. -/
def setUnit (td : ThreadData) (i : Nat) (u : IoU) : ThreadData :=
  { td with ioU := Function.update td.ioU i u }

end Rtfsc.Fio
