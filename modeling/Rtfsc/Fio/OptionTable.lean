import Rtfsc.Fio.Parse

/-!
# fio: the options of a job

The table `options` of `init.c` and the callbacks in it, for a system with io priorities, cpu
affinity, io scheduler switching and huge pages.
-/

namespace Rtfsc.Fio

open Rtfsc.Machine

/-- The members of `struct thread_data` that options store to, and the globals `mlock_size` and
`exitall_on_terminate`. -/
inductive Member
  | name
  | directory
  | filename
  | thread
  | nrFiles
  | ddir
  | iomix
  | ioprio
  | sequential
  | odirect
  | invalidateCache
  | createSerialize
  | createFsync
  | endFsync
  | syncIo
  | verify
  | unlink
  | writeLatLog
  | writeBwLog
  | norandommap
  | bsUnaligned
  | bsRead
  | bsWrite
  | minBsRead
  | minBsWrite
  | maxBsRead
  | maxBsWrite
  | hugepageSize
  | rwMinBs
  | thinktime
  | fsyncBlocks
  | startDelay
  | timeout
  | overwrite
  | bwAvgTime
  | loops
  | zoneSize
  | zoneSkip
  | memType
  | mmapfile
  | stonewall
  | numjobs
  | iodepth
  | rwmixcycle
  | rwmixread
  | rwmixwrite
  | nice
  | readIologFile
  | writeIologFile
  | ioscheduler
  | ioOps
  | rate
  | ratemin
  | ratecycle
  | totalFileSize
  | startOffset
  | cpuload
  | cpucycle
  | execPrerun
  | execPostrun
  | mlockSize
  | exitallOnTerminate
deriving DecidableEq, Repr

/-- A word of a member; `true` is the upper half of a member of eight bytes. -/
abbrev Word := Member × Bool

/-- `td_var_offset`. -/
def tdVarOffset (m : Member) : Word := (m, false)

/-- `name` is the first member. -/
instance : Zero Word := ⟨tdVarOffset .name⟩

/-- The word behind a word: `rw_min_bs` follows `hugepage_size`, which has four bytes only. -/
def nextWord : Word → Word
  | (.hugepageSize, false) => (.rwMinBs, false)
  | (m, _) => (m, true)

/-- The functions that options call. -/
inductive Callback
  | strRwCb
  | strIoengineCb
  | strMemCb
  | strVerifyCb
  | strLockmemCb
  | strPrioCb
  | strPrioclassCb
  | strExitallCb
  | strCpumaskCb
deriving DecidableEq, Repr

/-- `str_rw_cb`. -/
def strRwCb (mem : CStr) (td : Vars Word) : Int × Vars Word :=
  let store := fun (ddir : UInt32) (iomix : Bool) (sequential : UInt32) =>
    let td := store32 (tdVarOffset .ddir) ddir td
    let td := if iomix then store32 (tdVarOffset .iomix) 1 td else td
    (0, store32 (tdVarOffset .sequential) sequential td)
  if startsWith mem "read".toList || startsWith mem "0".toList then store 0 false 1
  else if startsWith mem "randread".toList then store 0 false 0
  else if startsWith mem "write".toList || startsWith mem "1".toList then store 1 false 1
  else if startsWith mem "randwrite".toList then store 1 false 0
  else if startsWith mem "rw".toList then store 0 true 1
  else if startsWith mem "randrw".toList then store 0 true 0
  else (1, td)

/-- `str_verify_cb`. -/
def strVerifyCb (mem : CStr) (td : Vars Word) : Int × Vars Word :=
  if startsWith mem "0".toList then (0, store32 (tdVarOffset .verify) 0 td)
  else if startsWith mem "md5".toList || startsWith mem "1".toList then
    (0, store32 (tdVarOffset .verify) 1 td)
  else if startsWith mem "crc32".toList then (0, store32 (tdVarOffset .verify) 2 td)
  else (1, td)

/-- `strip_blank_end`, on text behind a character that is no blank. -/
def stripBlankEnd (p : CStr) : CStr :=
  (p.reverse.dropWhile fun c => isspace c || iscntrl c).reverse

/-- `get_mmap_file`: `strip_blank_front` only moves its own copy of the pointer. -/
def getMmapFile (str : CStr) : Option CStr :=
  (strchr str ':').map fun (_, p) => stripBlankEnd p

/-- `str_mem_cb`. -/
def strMemCb (mem : CStr) (td : Vars Word) : Int × Vars Word :=
  let setMemType := fun (memType : UInt32) td => (0, store32 (tdVarOffset .memType) memType td)
  let setMmapfile := fun file => Function.update td (tdVarOffset .mmapfile) (.text file)
  if startsWith mem "malloc".toList then setMemType 0 td
  else if startsWith mem "mmaphuge".toList then
    match getMmapFile mem with
    | none => (1, setMmapfile none)
    | some file => setMemType 4 (setMmapfile (some file))
  else if startsWith mem "mmap".toList then setMemType 3 (setMmapfile (getMmapFile mem))
  else if startsWith mem "shmhuge".toList then setMemType 2 td
  else if startsWith mem "shm".toList then setMemType 1 td
  else (1, td)

/-- `str_ioengine_cb`. `loadIoengine` is the engine that can be loaded under a name. -/
def strIoengineCb (loadIoengine : CStr → Option CStr) (str : CStr) (td : Vars Word) :
    Int × Vars Word :=
  (if (loadIoengine str).isSome then 0 else 1,
    Function.update td (tdVarOffset .ioOps) (.text (loadIoengine str)))

/-- `str_lockmem_cb`. -/
def strLockmemCb (val : UInt64) (td : Vars Word) : Int × Vars Word :=
  (0, store64 nextWord (tdVarOffset .mlockSize) val td)

/-- `td->ioprio |= bits`. -/
def orIoprio (bits : UInt32) : CVal → CVal
  | .word v => .word (v ||| bits)
  | .text s => .text s

/-- `str_prioclass_cb`. -/
def strPrioclassCb (val : UInt32) (td : Vars Word) : Int × Vars Word :=
  (0, Function.update td (tdVarOffset .ioprio) (orIoprio (val <<< 13) (td (tdVarOffset .ioprio))))

/-- `str_prio_cb`. -/
def strPrioCb (val : UInt32) (td : Vars Word) : Int × Vars Word :=
  (0, Function.update td (tdVarOffset .ioprio) (orIoprio val (td (tdVarOffset .ioprio))))

/-- `str_exitall_cb`. -/
def strExitallCb (td : Vars Word) : Int × Vars Word :=
  (0, store32 (tdVarOffset .exitallOnTerminate) 1 td)

/-- `str_cpumask_cb`: `fill_cpu_mask` fills a copy of `td->cpumask`. -/
def strCpumaskCb (_val : UInt32) (td : Vars Word) : Int × Vars Word := (0, td)

/-- A callback with what `__handle_option` calls it with. No option has a callback that is called
with something else. -/
def Callback.call (loadIoengine : CStr → Option CStr) (fn : Callback) (arg : CbArg)
    (td : Vars Word) : Int × Vars Word :=
  match fn, arg with
  | .strRwCb, .str mem => Fio.strRwCb mem td
  | .strIoengineCb, .str str => Fio.strIoengineCb loadIoengine str td
  | .strMemCb, .str mem => Fio.strMemCb mem td
  | .strVerifyCb, .str mem => Fio.strVerifyCb mem td
  | .strLockmemCb, .val val => Fio.strLockmemCb val td
  | .strPrioCb, .int val => Fio.strPrioCb val td
  | .strPrioclassCb, .int val => Fio.strPrioclassCb val td
  | .strExitallCb, .none => Fio.strExitallCb td
  | .strCpumaskCb, .int val => Fio.strCpumaskCb val td
  | _, _ => (1, td)

/-- An option whose initializer gives nothing but a name. -/
def namedOption (name : String) (type : FioOptType) : FioOption Word Callback where
  name := name.toList
  type := type
  off1 := 0
  off2 := 0
  off3 := 0
  off4 := 0
  maxVal := 0
  cb := none

/-- An option that stores to one member. -/
def storeOption (name : String) (type : FioOptType) (off1 : Member) : FioOption Word Callback :=
  { namedOption name type with off1 := tdVarOffset off1 }

/-- An option that calls a function. -/
def callOption (name : String) (type : FioOptType) (cb : Callback) : FioOption Word Callback :=
  { namedOption name type with cb := some cb }

/-- `options`. -/
def options : List (FioOption Word Callback) :=
  [ storeOption "name" .strStore .name,
    storeOption "directory" .strStore .directory,
    storeOption "filename" .strStore .filename,
    callOption "rw" .str .strRwCb,
    callOption "ioengine" .str .strIoengineCb,
    callOption "mem" .str .strMemCb,
    callOption "verify" .str .strVerifyCb,
    storeOption "write_iolog" .strStore .writeIologFile,
    storeOption "read_iolog" .strStore .readIologFile,
    storeOption "exec_prerun" .strStore .execPrerun,
    storeOption "exec_postrun" .strStore .execPostrun,
    storeOption "ioscheduler" .strStore .ioscheduler,
    storeOption "size" .strVal .totalFileSize,
    { storeOption "bs" .strValInt .bsRead with off2 := tdVarOffset .bsWrite },
    storeOption "offset" .strVal .startOffset,
    storeOption "zonesize" .strVal .zoneSize,
    storeOption "zoneskip" .strVal .zoneSkip,
    callOption "lockmem" .strVal .strLockmemCb,
    { storeOption "bsrange" .range .minBsRead with
      off2 := tdVarOffset .maxBsRead
      off3 := tdVarOffset .minBsWrite
      off4 := tdVarOffset .maxBsWrite },
    storeOption "nrfiles" .int .nrFiles,
    storeOption "iodepth" .int .iodepth,
    storeOption "fsync" .int .fsyncBlocks,
    storeOption "rwmixcycle" .int .rwmixcycle,
    { storeOption "rwmixread" .int .rwmixread with maxVal := 100 },
    { storeOption "rwmixwrite" .int .rwmixwrite with maxVal := 100 },
    storeOption "nice" .int .nice,
    callOption "prio" .int .strPrioCb,
    callOption "prioclass" .int .strPrioclassCb,
    storeOption "thinktime" .int .thinktime,
    storeOption "rate" .int .rate,
    storeOption "ratemin" .int .ratemin,
    storeOption "ratecycle" .int .ratecycle,
    storeOption "startdelay" .int .startDelay,
    storeOption "timeout" .strValTime .timeout,
    storeOption "invalidate" .int .invalidateCache,
    storeOption "sync" .int .syncIo,
    storeOption "bwavgtime" .int .bwAvgTime,
    storeOption "create_serialize" .int .createSerialize,
    storeOption "create_fsync" .int .createFsync,
    storeOption "loops" .int .loops,
    storeOption "numjobs" .int .numjobs,
    storeOption "cpuload" .int .cpuload,
    storeOption "cpuchunks" .int .cpucycle,
    storeOption "direct" .int .odirect,
    storeOption "overwrite" .int .overwrite,
    callOption "cpumask" .int .strCpumaskCb,
    storeOption "end_fsync" .int .endFsync,
    storeOption "unlink" .strSet .unlink,
    callOption "exitall" .strSet .strExitallCb,
    storeOption "stonewall" .strSet .stonewall,
    storeOption "thread" .strSet .thread,
    storeOption "write_bw_log" .strSet .writeBwLog,
    storeOption "write_lat_log" .strSet .writeLatLog,
    storeOption "norandommap" .strSet .norandommap,
    storeOption "bs_unaligned" .strSet .bsUnaligned,
    storeOption "hugepage-size" .strVal .hugepageSize ]

end Rtfsc.Fio
