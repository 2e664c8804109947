import Rtfsc.Fio.Init

/-!
# fio: the job table

`get_new_job`, `put_job` and `add_job` of `init.c`, and the two ways the parsers call them. A job
is a slot of the table `threads`; its thread number is its place, counted from one.
-/

namespace Rtfsc.Fio

open Rtfsc.Machine

/-- The members of a job that `add_job` reads and writes and that do not depend on its slot.
`ioOps` says that an engine is loaded. -/
structure JobSettings where
  opts : Options
  ioOps : Bool
  numjobs : UInt32
  stonewall : UInt32
  rate : UInt32
  ratemin : UInt32
  rateUsecCycle : Int
  name : Option String
  filename : Option String
  totalFileSize : UInt64
  startOffset : UInt64
  nrUniqFiles : UInt32
  groupid : Int
deriving DecidableEq, Repr

/-- A slot of `threads`: the settings of the job, its number, and its files with their size and
offset. -/
structure ThreadSlot where
  threadNumber : Int
  settings : JobSettings
  files : List (String × UInt64 × UInt64)
deriving DecidableEq, Repr

/-- The settings of a slot cleared by `memset`. -/
def zeroSettings : JobSettings where
  opts := { fillDefThread ⟨false, false, false, false⟩ with
    sequential := false, odirect := false, bs := ⟨0, 0⟩, nrFiles := 0, hugepageSize := 0,
    rwmixcycle := 0, rwmixread := 0 }
  ioOps := false
  numjobs := 0
  stonewall := 0
  rate := 0
  ratemin := 0
  rateUsecCycle := 0
  name := none
  filename := none
  totalFileSize := 0
  startOffset := 0
  nrUniqFiles := 0
  groupid := 0

/-- `fill_def_thread`: the settings of a job that gives none. -/
def defSettings : JobSettings :=
  { zeroSettings with opts := fillDefThread ⟨false, false, false, false⟩, numjobs := 1 }

/-- A slot cleared by `memset`. -/
def zeroSlot : ThreadSlot := ⟨0, zeroSettings, []⟩

/-- `threads`, with `max_jobs` slots, `thread_number` and `groupid`. -/
structure JobTable where
  slots : List ThreadSlot
  threadNumber : Int
  groupid : Int
deriving DecidableEq, Repr

/-- The table before any job. -/
def emptyTable (maxJobs : Nat) : JobTable := ⟨List.replicate maxJobs zeroSlot, 0, 0⟩

/-- `get_new_job(0, parent)`: the table and the slot of the new job. -/
def getNewJob (t : JobTable) (parent : ThreadSlot) : Option (JobTable × Nat) :=
  if (t.slots.length : Int) ≤ t.threadNumber then none
  else
    let n := t.threadNumber.toNat
    some ({ t with
      slots := t.slots.set n { parent with threadNumber := t.threadNumber + 1 }
      threadNumber := t.threadNumber + 1 }, n)

/-- `put_job` on slot `i`: it clears the slot that the number of the job names. -/
def putJob (t : JobTable) (i : Nat) : Outcome JobTable :=
  let n := (t.slots.getD i zeroSlot).threadNumber - 1
  if 0 ≤ n ∧ n < t.slots.length then
    .ok { t with slots := t.slots.set n.toNat zeroSlot, threadNumber := t.threadNumber - 1 }
  else
    .error (.outOfBounds (n % 2 ^ 64).toNat)

/-- What `add_job` gets from outside: whether the default engine can be loaded, and what `stat` says
a name is. -/
structure AddEnv where
  defaultEngine : Bool
  stat : String → Option FioFiletype

/-- `add_job`: the default io engine, if none is set. -/
def loadDefaultEngine (env : AddEnv) (s : JobSettings) : Option JobSettings :=
  if s.ioOps then some s
  else if env.defaultEngine then
    some { s with
      ioOps := true
      opts := { s.opts with flags := ⟨true, false, false, false⟩ } }
  else none

/-- The flags of the engine of a job: direct io is raw io. -/
def rawFlags (o : Options) : IoengineFlags :=
  { o.flags with rawio := o.flags.rawio || o.odirect }

/-- `add_job` up to `setup_rate`, the settings: direct io, the file type, the options that depend on
each other, the files. -/
def prepareSettings (env : AddEnv) (jobname : String) (s : JobSettings) : JobSettings :=
  let filetype := (env.stat jobname).getD .file
  let o := fixupOptions { s.opts with flags := rawFlags s.opts, filetype := filetype }
  { s with
    nrUniqFiles := if s.filename.isSome then 1 else o.nrFiles
    opts := { o with
      nrFiles := if filetype == .file || s.filename.isSome then o.nrFiles else 1 } }

/-- `add_job`, the files of a job with number `n`: the given name, or one name for each file, or the
device itself. -/
def jobFiles (jobname : String) (n : Int) (s : JobSettings) : List (String × UInt64 × UInt64) :=
  (List.range s.opts.nrFiles.toNat).map fun i =>
    let name :=
      match s.filename with
      | some f => f
      | none =>
        if s.opts.filetype == .file then jobname ++ "." ++ toString n ++ "." ++ toString i
        else jobname
    (name, s.totalFileSize / s.opts.nrFiles.toUInt64, s.startOffset)

/-- `setup_rate`: the `rate_usec_cycle` it leaves; `none` is a non-zero return. -/
def setupRate (s : JobSettings) : Outcome (Option Int) :=
  if s.rate = 0 then .ok (some s.rateUsecCycle)
  else if s.rate < s.ratemin then .ok none
  else if s.opts.minBs.read = 0 then .error .divisionByZero
  else
    let readsPerSec := (s.rate * 1024 / s.opts.minBs.read).toInt32.toInt
    if readsPerSec = 0 then .error .divisionByZero
    else .ok (some (Int.tdiv 1000000 readsPerSec))

/-- `groupid` after a job with this number: a stonewall starts a new group. -/
def nextGroupid (groupid : Int) (n : Int) (s : JobSettings) : Int :=
  if s.stonewall ≠ 0 ∧ 1 < n then groupid + 1 else groupid

/-- `add_job` up to `setup_rate`, the settings and the files of a job with an engine. -/
def prepareJob (env : AddEnv) (jobname : String) (groupid : Int) (td : ThreadSlot) : ThreadSlot :=
  let s := prepareSettings env jobname td.settings
  { td with
    settings := { s with groupid := groupid }
    files := jobFiles jobname td.threadNumber s }

/-- `add_job` behind `setup_rate`: the rate cycle and the name. -/
def finishJob (jobname : String) (cycle : Int) (td : ThreadSlot) : ThreadSlot :=
  { td with
    settings := { td.settings with
      rateUsecCycle := cycle
      name := td.settings.name.or (some jobname) } }

/-- `add_job` on slot `i` up to its clone loop. The return value is that of `add_job`: 0, or 1 when
there is no engine, or -1 after the job was put. -/
def addOne (env : AddEnv) (jobname : String) (t : JobTable) (i : Nat) : Outcome (Int × JobTable) :=
  let td := t.slots.getD i zeroSlot
  match loadDefaultEngine env td.settings with
  | none => .ok (1, t)
  | some s => do
    let groupid := nextGroupid t.groupid td.threadNumber s
    let td := prepareJob env jobname groupid { td with settings := s }
    let t := { t with slots := t.slots.set i td, groupid := groupid }
    match ← setupRate td.settings with
    | none => do
      let t ← putJob t i
      return (-1, t)
    | some cycle => return (0, { t with slots := t.slots.set i (finishJob jobname cycle td) })

/-- The settings of a clone: `numjobs` and `stonewall` do not apply to it. -/
def cloneSettings (s : JobSettings) : JobSettings := { s with numjobs := 1, stonewall := 0 }

/-- The clone loop of `add_job` on slot `i`, with `room` free slots. `add_job` on a clone has no
clone loop of its own: its `numjobs` is 1. -/
def cloneLoop (env : AddEnv) (jobname : String) (i : Nat) :
    Nat → Int → JobTable → Outcome (Int × JobTable)
  | room, numjobs, t =>
    if numjobs - 1 = 0 then return (0, t)
    else
      let parent := t.slots.getD i zeroSlot
      match getNewJob t { parent with settings := cloneSettings parent.settings }, room with
      | some (t, j), room + 1 => do
        let (ret, t) ← addOne env jobname t j
        if ret ≠ 0 then
          let t ← putJob t i
          return (-1, t)
        else
          cloneLoop env jobname i room (numjobs - 1) t
      | _, _ => do
        let t ← putJob t i
        return (-1, t)

/-- `add_job` on slot `i`. -/
def addJob (env : AddEnv) (jobname : String) (t : JobTable) (i : Nat) : Outcome (Int × JobTable) := do
  let (ret, t) ← addOne env jobname t i
  if ret ≠ 0 then
    return (ret, t)
  else
    let numjobs := (t.slots.getD i zeroSlot).settings.numjobs.toInt32.toInt
    cloneLoop env jobname i (t.slots.length - t.threadNumber.toNat) numjobs t

/-- The two callers of `add_job`. -/
inductive Caller
  | cmdLine
  | jobsIni
deriving DecidableEq, Repr

/-- `add_job` as `parse_cmd_line` calls it: it puts the job when `add_job` fails. -/
def cmdAddJob (env : AddEnv) (jobname : String) (t : JobTable) (i : Nat) :
    Outcome (Int × JobTable) := do
  let (ret, t) ← addJob env jobname t i
  if ret ≠ 0 then
    let t ← putJob t i
    return (ret, t)
  else
    return (ret, t)

/-- `add_job` as one of its callers calls it. `parse_jobs_ini` leaves everything to `add_job`. -/
def callAddJob (caller : Caller) (env : AddEnv) (jobname : String) (t : JobTable) (i : Nat) :
    Outcome (Int × JobTable) :=
  match caller with
  | .cmdLine => cmdAddJob env jobname t i
  | .jobsIni => addJob env jobname t i

end Rtfsc.Fio
