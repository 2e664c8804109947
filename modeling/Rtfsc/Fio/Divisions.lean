import Rtfsc.Fio.JobTable
import Rtfsc.Fio.RandomMap
import Rtfsc.Fio.Rate
import Rtfsc.Fio.RunThreads

/-!
# fio: what is divided by

The divisors of a job come from its options: block sizes, the blocks in a second at the rate, the size of
a zone in those that are skipped, and the times that two averages are taken over, which let a call of
no time at all through when they are zero. The options for which no call of the job divides by zero are
exactly the ones in `DivisorsOk`.
-/

namespace Rtfsc.Fio

open Rtfsc.Machine

/-- A job with the settings that divisors come from. -/
structure DivJob where
  opts : Options
  rate : UInt32
  ratemin : UInt32
  ratecycle : UInt32
  bwAvgTime : UInt32
  timeout : UInt64
  startDelay : UInt32
  loops : UInt32
  totalFileSize : UInt64
  /-- The engine has a `setup` of its own. -/
  engineSetup : Bool
  /-- What `setup_files` finds as `io_size`. -/
  ioSize : UInt64

/-! ## The functions that divide -/

/-- The sizes that `add_job` gives the files. -/
def fileSizes (j : DivJob) : Outcome (List UInt64) :=
  (List.range j.opts.nrFiles.toNat).mapM fun _ => udiv j.totalFileSize j.opts.nrFiles.toUInt64

/-- The rate state `add_job` hands to `setup_rate`. -/
def DivJob.rateState (j : DivJob) (cycle : UInt64) (pending : Int64) : RateState :=
  ⟨j.rate, j.ratemin, j.opts.minBs, cycle, pending⟩

/-- `check_min_rate`, with what it has from `mtime_since`: whether it fails, and `rate_bytes`. -/
def checkMinRate (j : DivJob) (rateBytes thisIoBytes sinceStart spent : UInt64) :
    Outcome (Bool × UInt64) := do
  if sinceStart < 2000 then return (false, rateBytes)
  else if rateBytes ≠ 0 then
    if spent < j.ratecycle.toUInt64 then return (false, rateBytes)
    else
      let rate ← udiv (thisIoBytes - rateBytes) spent
      if rate < j.ratemin.toUInt64 then return (true, rateBytes)
      else return (false, thisIoBytes)
  else return (false, thisIoBytes)

/-- `add_bw_sample`, with what it has from `mtime_since`: the sample, when there is one. -/
def addBwSample (j : DivJob) (thisIoBytes statIoBytes spent : UInt64) : Outcome (Option UInt64) := do
  if spent < j.bwAvgTime.toUInt64 then return none
  else
    let rate ← udiv (thisIoBytes - statIoBytes) spent
    return some rate

/-- What `thread_eta` reads of a job that may be running. `scaled` is `elapsed * (1.0 / perc)`. -/
structure EtaState where
  runstate : Runstate
  zoneSize : UInt64
  totalIoSize : UInt64
  elapsed : UInt64
  scaled : UInt64

/-- `thread_eta`, what it makes of the run state. -/
def etaSec (j : DivJob) (e : EtaState) (bytesTotal : UInt64) : Outcome UInt64 := do
  match e.runstate with
  | .running | .verifying =>
    let etaSec := e.scaled - e.elapsed
    return if j.timeout ≠ 0 ∧ etaSec > j.timeout - e.elapsed then j.timeout - e.elapsed else etaSec
  | .notCreated | .created | .initialized =>
    let tEta : Int32 :=
      if j.timeout ≠ 0 then (j.timeout + j.startDelay.toUInt64 - e.elapsed).toUInt32.toInt32 else 0
    let rEta : Int32 ←
      if j.rate ≠ 0 then do
        let r ← udiv (bytesTotal / 1024) j.rate.toUInt64
        let r := r.toUInt32.toInt32
        pure (r.toInt64.toUInt64 + (j.startDelay.toUInt64 - e.elapsed)).toUInt32.toInt32
      else pure 0
    let eta := if rEta ≠ 0 ∧ tEta ≠ 0 then min rEta tEta
      else if rEta ≠ 0 then rEta
      else if tEta ≠ 0 then tEta
      else 0
    return eta.toInt64.toUInt64
  | .fsyncing | .exited | .reaped => return 0

/-- `thread_eta`. -/
def threadEta (j : DivJob) (e : EtaState) : Outcome UInt64 := do
  let bytesTotal :=
    if j.opts.verify ≠ .none then
      if tdRw j.opts then e.totalIoSize * 3 / 2 else e.totalIoSize <<< 1
    else e.totalIoSize
  if e.zoneSize ≠ 0 ∧ j.opts.zoneSkip ≠ 0 then
    let zones ← udiv j.opts.zoneSkip e.zoneSize
    let bytesTotal ← udiv bytesTotal zones
    etaSec j e bytesTotal
  else etaSec j e bytesTotal

/-! ## The calls of a job -/

/-- A call of one of the functions. -/
inductive DivCall
  | addJob
  | setupRate (cycle : UInt64) (pending : Int64)
  | initRandomState (files : List FioFile)
  | getNextOffset (f : FioFile) (random : Nat → RandLong) (d : DataDdir) (offset : UInt64)
  | markRandomMap (f : FioFile) (u : IoU) (d : DataDdir)
  | rateThrottle (cycle : UInt64) (pending : Int64) (timeSpent : UInt64) (bytes : UInt32) (d : DataDdir)
  | checkMinRate (rateBytes thisIoBytes sinceStart spent : UInt64)
  | addBwSample (thisIoBytes statIoBytes spent : UInt64)
  | threadEta (e : EtaState)

/-- The fault of a call. -/
def DivCall.fault (j : DivJob) : DivCall → Option Fault
  | .addJob => Machine.fault (fileSizes j)
  | .setupRate cycle pending => Machine.fault (RateState.setupRate (j.rateState cycle pending))
  | .initRandomState files => Machine.fault (Fio.initRandomState j.opts files)
  | .getNextOffset f random d offset => Machine.fault (Fio.getNextOffset j.opts f random d offset)
  | .markRandomMap f u d => Machine.fault (Fio.markRandomMap j.opts f u d)
  | .rateThrottle cycle pending timeSpent bytes d =>
    Machine.fault (Fio.rateThrottle (j.rateState cycle pending) timeSpent bytes d)
  | .checkMinRate rateBytes thisIoBytes sinceStart spent =>
    Machine.fault (Fio.checkMinRate j rateBytes thisIoBytes sinceStart spent)
  | .addBwSample thisIoBytes statIoBytes spent =>
    Machine.fault (Fio.addBwSample j thisIoBytes statIoBytes spent)
  | .threadEta e => Machine.fault (Fio.threadEta j e)

namespace DivJob

/-- `setup_rate` returns no error, so the job is kept. -/
def Kept (j : DivJob) : Prop := j.rate = 0 ∨ j.ratemin ≤ j.rate

/-- The job comes to `do_io`. -/
def Works (j : DivJob) : Prop :=
  j.Kept ∧ j.opts.flags.cpuio = false ∧ j.opts.nrFiles ≠ 0 ∧ j.loops ≠ 0

/-- `get_rw_ddir` may return the direction. -/
def Draws (j : DivJob) (d : DataDdir) : Prop := tdRw j.opts = true ∨ d = j.opts.ddir

/-- `td->ddir` in `do_io`: an iolog may have changed it. -/
def Throttles (j : DivJob) (d : DataDdir) : Prop :=
  d = j.opts.ddir ∨ j.opts.readIologFile.isSome ∧ d = .read

/-- `td->zone_size`: before `setup_files`, or behind it. -/
def ZoneSize (j : DivJob) (z : UInt64) : Prop :=
  z = j.opts.zoneSize ∨ j.engineSetup = false ∧ j.opts.zoneSize = 0 ∧ z = j.ioSize

/-- The job makes the call. -/
def Makes (j : DivJob) : DivCall → Prop
  | .addJob | .setupRate .. => True
  | .initRandomState files => j.Kept ∧ files.length = j.opts.nrFiles.toNat
  | .getNextOffset _ _ d _ => j.Works ∧ j.opts.readIologFile = none ∧ j.Draws d
  | .markRandomMap _ _ d =>
    j.Works ∧ j.opts.readIologFile = none ∧ j.Draws d ∧ j.opts.sequential = false ∧
      j.opts.norandommap = false
  | .rateThrottle _ _ _ _ d => j.Works ∧ j.Throttles d
  | .checkMinRate .. | .addBwSample .. => j.Works
  | .threadEta e => j.Kept ∧ j.ZoneSize e.zoneSize

end DivJob

/-- The options with which a job never divides by zero. -/
structure DivisorsOk (j : DivJob) : Prop where
  /-- At the rate, more than no block of a read is done in a second. -/
  rate : j.rate ≠ 0 → j.ratemin ≤ j.rate →
    j.opts.minBs.read ≠ 0 ∧ j.opts.minBs.read ≤ j.rate * 1024
  map : j.Kept → j.opts.flags.cpuio = false → j.opts.nrFiles ≠ 0 → j.opts.sequential = false →
    j.opts.norandommap = false → j.opts.rwMinBs ≠ 0
  blocks : j.Works → j.opts.readIologFile = none → ∀ d, j.Draws d → j.opts.minBs.get d ≠ 0
  throttle : j.Works → j.rate ≠ 0 → j.opts.minBs.get j.opts.ddir ≠ 0
  ratecycle : j.Works → j.ratecycle ≠ 0
  bwAvgTime : j.Works → j.bwAvgTime ≠ 0
  /-- A zone is no larger than what is skipped behind it. -/
  zones : j.Kept → j.opts.zoneSkip ≠ 0 → ∀ z, j.ZoneSize z → z ≤ j.opts.zoneSkip

/-! ## No division by zero -/

/-- The computation does not divide by zero. -/
def Divides {α : Type} (x : Outcome α) : Prop := Machine.fault x ≠ some .divisionByZero

variable {α β : Type} {j : DivJob}

theorem divides_ok (a : α) : Divides (Except.ok a : Outcome α) := nofun

theorem divides_outOfBounds (i : Nat) : Divides (Except.error (.outOfBounds i) : Outcome α) := by
  intro h
  cases h

theorem not_divides {x : Outcome α} (h : x = .error .divisionByZero) : ¬Divides x := by
  rw [h]
  exact fun hd => hd rfl

theorem Divides.bind {x : Outcome α} {g : α → Outcome β} (hx : Divides x)
    (hg : ∀ a, x = .ok a → Divides (g a)) : Divides (x >>= g) := by
  cases x with
  | ok a => exact hg a rfl
  | error e => exact hx

/-- A computation that divides by zero first. -/
theorem bind_divisionByZero {x : Outcome α} {g : α → Outcome β}
    (h : x = .error .divisionByZero) : (x >>= g) = .error .divisionByZero := by
  rw [h]
  rfl

theorem divides_udiv {a b : UInt64} (h : b ≠ 0) : Divides (udiv a b) := by
  rw [udiv, if_neg h]
  exact divides_ok _

theorem udiv_zero (a : UInt64) : udiv a 0 = .error .divisionByZero := rfl

theorem Divides.mapM {f : α → Outcome β} {l : List α} (h : ∀ a ∈ l, Divides (f a)) :
    Divides (l.mapM f) := by
  induction l with
  | nil => exact divides_ok _
  | cons a l ih =>
    rw [List.mapM_cons]
    refine Divides.bind (h a List.mem_cons_self) fun b _ => ?_
    refine Divides.bind (ih fun c hc => h c (List.mem_cons_of_mem a hc)) fun bs _ => ?_
    exact divides_ok _

theorem divides_ite {p : Prop} [Decidable p] {x y : Outcome α} (hx : p → Divides x)
    (hy : ¬p → Divides y) : Divides (if p then x else y) := by
  by_cases h : p
  · rw [if_pos h]
    exact hx h
  · rw [if_neg h]
    exact hy h

/-! ## One function after the other -/

theorem divides_fileSizes (j : DivJob) : Divides (fileSizes j) := by
  refine Divides.mapM fun i hi => divides_udiv fun h0 => ?_
  have hlt : i < j.opts.nrFiles.toNat := List.mem_range.mp hi
  have hz : j.opts.nrFiles.toNat = 0 := by simpa using congrArg UInt64.toNat h0
  omega

theorem toNat_toInt32_eq_zero {x : UInt32} (h : x.toInt32 = 0) : x = 0 := by
  have hx : x.toInt32.toUInt32 = (0 : Int32).toUInt32 := congrArg Int32.toUInt32 h
  rw [UInt32.toUInt32_toInt32] at hx
  exact hx

/-- `setup_rate` divides twice: by the block size of a read, and by the reads in a second. -/
theorem divides_setupRate {td : RateState} :
    Divides (RateState.setupRate td) ↔ (td.rate ≠ 0 → td.ratemin ≤ td.rate →
      td.minBs.read ≠ 0 ∧ td.minBs.read ≤ td.rate * 1024) := by
  unfold RateState.setupRate
  by_cases hr : td.rate = 0
  · simp [hr, divides_ok]
  rw [if_neg hr]
  by_cases hm : td.rate < td.ratemin
  · rw [if_pos hm]
    exact iff_of_true (divides_ok _) fun _ hle => absurd hm (by simpa using hle)
  rw [if_neg hm]
  have hle : td.ratemin ≤ td.rate := by simpa using hm
  by_cases hbs : td.minBs.read = 0
  · refine iff_of_false (not_divides ?_) fun h => (h hr hle).1 hbs
    exact bind_divisionByZero (by rw [udiv32, if_pos hbs])
  have hu : udiv32 (td.rate * 1024) td.minBs.read = .ok (td.rate * 1024 / td.minBs.read) := by
    rw [udiv32, if_neg hbs]
  rw [hu, ok_bind]
  have hzero : td.rate * 1024 / td.minBs.read = 0 ↔ ¬td.minBs.read ≤ td.rate * 1024 := by
    rw [← UInt32.toNat_inj, UInt32.toNat_div, UInt32.le_iff_toNat_le]
    have hpos : td.minBs.read.toNat ≠ 0 := fun h0 => hbs (UInt32.toNat_inj.mp h0)
    simp [Nat.div_eq_zero_iff, hpos]
  by_cases hq : td.minBs.read ≤ td.rate * 1024
  · refine iff_of_true (Divides.bind ?_ fun c _ => divides_ok _) fun _ _ => ⟨hbs, hq⟩
    rw [idiv, if_neg fun h0 => hzero.mp (toNat_toInt32_eq_zero h0) hq]
    exact divides_ok _
  · refine iff_of_false (not_divides ?_) fun h => hq (h hr hle).2
    exact bind_divisionByZero (by rw [hzero.mpr hq]; rfl)

/-- `setup_rate` of the job table fails, and refuses a job, as the one that computes the cycle does. -/
theorem setupRate_settings (s : JobSettings) (cycle : UInt64) (pending : Int64) :
    (setupRate s).map Option.isSome =
      (RateState.setupRate ⟨s.rate, s.ratemin, s.opts.minBs, cycle, pending⟩).map Option.isSome := by
  unfold setupRate RateState.setupRate
  by_cases hr : s.rate = 0
  · rw [if_pos hr, if_pos hr]
    rfl
  rw [if_neg hr, if_neg hr]
  by_cases hm : s.rate < s.ratemin
  · rw [if_pos hm, if_pos hm]
    rfl
  rw [if_neg hm, if_neg hm]
  by_cases hbs : s.opts.minBs.read = 0
  · rw [if_pos hbs, udiv32, if_pos hbs]
    rfl
  rw [if_neg hbs, udiv32, if_neg hbs, ok_bind]
  dsimp only
  have hzero : (s.rate * 1024 / s.opts.minBs.read).toInt32.toInt = 0 ↔
      (s.rate * 1024 / s.opts.minBs.read).toInt32 = 0 := by
    rw [← Int32.toInt_inj]
    exact Iff.rfl
  by_cases hq : (s.rate * 1024 / s.opts.minBs.read).toInt32 = 0
  · rw [if_pos (hzero.mpr hq), idiv, if_pos hq]
    rfl
  · rw [if_neg (mt hzero.mp hq), idiv, if_neg hq]
    rfl
theorem divides_randomMapFree {o : Options} {f : FioFile} {b : UInt64} (h : o.rwMinBs ≠ 0) :
    Divides (randomMapFree o f b) := by
  rw [randomMapFree_eq h]
  exact divides_ite (fun _ => divides_ok _) fun _ => divides_outOfBounds _

theorem divides_initFileMap {o : Options} {f : FioFile} :
    Divides (initFileMap o f) ↔ o.rwMinBs ≠ 0 := by
  constructor
  · intro h h0
    refine not_divides (bind_divisionByZero (bind_divisionByZero ?_)) h
    rw [h0]
    rfl
  · intro h
    refine Divides.bind (Divides.bind (divides_udiv (toUInt64_ne_zero h)) fun _ _ => divides_ok _)
      fun blocks _ => ?_
    refine divides_ite (fun _ => divides_ok _) fun _ => ?_
    intro hn
    cases hn

/-- `init_random_state` divides by the smaller of the block sizes, for a job with a map. -/
theorem divides_initRandomState {o : Options} {files : List FioFile}
    (h : o.flags.cpuio = false → o.sequential = false → o.norandommap = false → files ≠ [] →
      o.rwMinBs ≠ 0) : Divides (initRandomState o files) := by
  refine divides_ite (fun _ => divides_ok _) fun hmap => ?_
  simp only [Bool.or_eq_true, not_or, Bool.not_eq_true] at hmap
  refine Divides.mapM fun f hf => ?_
  have hrw := h hmap.1.1 hmap.1.2 hmap.2 (List.ne_nil_of_mem hf)
  exact Divides.bind (divides_initFileMap.mpr hrw) fun m _ => divides_ok _

theorem divides_getNextFreeBlockLoop {o : Options} {f : FioFile} {ws : List UInt64} {b : UInt64} :
    Divides (getNextFreeBlockLoop o f ws b) := by
  induction ws generalizing b with
  | nil =>
    rw [getNextFreeBlockLoop]
    exact divides_ite (fun _ => divides_outOfBounds _) fun _ => divides_ok _
  | cons w ws ih =>
    rw [getNextFreeBlockLoop]
    refine divides_ite (fun _ => ?_) fun _ => divides_ok _
    exact divides_ite (fun _ => divides_ok _) fun _ => ih

/-- The probes of a job with a map look into it. -/
theorem divides_probeLoop {o : Options} {f : FioFile} {d : DataDdir} {maxBlocks : UInt64} {loops : Nat}
    {random : Nat → RandLong} (hbs : o.minBs.get d ≠ 0)
    (hmap : o.norandommap = false → o.rwMinBs ≠ 0) :
    Divides (probeLoop o f d maxBlocks loops random) := by
  induction loops generalizing random with
  | zero => exact divides_ok _
  | succ loops ih =>
    unfold probeLoop
    refine divides_ite (fun _ => divides_ok _) fun hno => ?_
    have hrw := hmap (by simpa using hno)
    refine Divides.bind (divides_udiv (toUInt64_ne_zero hbs)) fun origin _ => ?_
    refine Divides.bind (divides_randomMapFree hrw) fun free _ => ?_
    exact divides_ite (fun _ => divides_ok _) fun _ => ih

theorem divides_getNextOffset {o : Options} {f : FioFile} {random : Nat → RandLong} {d : DataDdir}
    {offset : UInt64} (hbs : o.minBs.get d ≠ 0)
    (hmap : o.sequential = false → o.norandommap = false → o.rwMinBs ≠ 0) :
    Divides (getNextOffset o f random d offset) := by
  refine Divides.bind (divides_ite (fun _ => ?_) fun hseq => ?_) fun b _ => ?_
  · exact Divides.bind (divides_udiv (toUInt64_ne_zero hbs)) fun _ _ => divides_ok _
  · refine Divides.bind (divides_udiv (toUInt64_ne_zero hbs)) fun maxBlocks _ => ?_
    refine Divides.bind (divides_probeLoop hbs (hmap (by simpa using hseq))) fun r _ => ?_
    exact divides_ite (fun _ => divides_getNextFreeBlockLoop) fun _ => divides_ok _
  · cases b with
    | none => exact divides_ok _
    | some b => exact divides_ok _

/-- Sequential or not, `get_next_offset` begins with a division by the block size. -/
theorem not_divides_getNextOffset {o : Options} {f : FioFile} {random : Nat → RandLong} {d : DataDdir}
    {offset : UInt64} (hbs : o.minBs.get d = 0) : ¬Divides (getNextOffset o f random d offset) := by
  have hzero : (o.minBs.get d).toUInt64 = 0 := by
    rw [hbs]
    rfl
  refine not_divides (bind_divisionByZero ?_)
  unfold nextBlock
  rw [hzero]
  split
  · exact bind_divisionByZero (udiv_zero _)
  · exact bind_divisionByZero (udiv_zero _)

theorem divides_markRandomMapLoop {o : Options} {f : FioFile} {b : UInt64} {n : UInt32} {left : Nat}
    (h : o.rwMinBs ≠ 0) : Divides (markRandomMapLoop o left f b n) := by
  induction left generalizing f b n with
  | zero => exact divides_ok _
  | succ left ih =>
    rw [markRandomMapLoop_succ h]
    refine divides_ite (fun _ => ?_) fun _ => divides_outOfBounds _
    exact divides_ite (fun _ => divides_ok _) fun _ => ih

theorem divides_markRandomMap {o : Options} {f : FioFile} {u : IoU} {d : DataDdir}
    (hbs : o.minBs.get d ≠ 0) (hrw : o.rwMinBs ≠ 0) : Divides (markRandomMap o f u d) := by
  unfold markRandomMap
  refine Divides.bind (divides_udiv (toUInt64_ne_zero hbs)) fun block _ => ?_
  refine Divides.bind (divides_markRandomMapLoop hrw) fun r _ => ?_
  exact divides_ite (fun _ => divides_ok _) fun _ => divides_ok _

theorem divides_rateThrottle {td : RateState} {timeSpent : UInt64} {bytes : UInt32} {d : DataDdir} :
    Divides (rateThrottle td timeSpent bytes d) ↔ (td.rate ≠ 0 → td.minBs.get d ≠ 0) := by
  unfold rateThrottle
  by_cases hr : td.rate = 0
  · simp [hr, divides_ok]
  rw [if_neg hr]
  by_cases hbs : td.minBs.get d = 0
  · refine iff_of_false (not_divides ?_) fun h => h hr hbs
    exact bind_divisionByZero (by rw [udiv32, if_pos hbs])
  · refine iff_of_true ?_ fun _ => hbs
    have hu : Divides (udiv32 bytes (td.minBs.get d)) := by
      rw [udiv32, if_neg hbs]
      exact divides_ok _
    refine Divides.bind hu fun n _ => divides_ite (fun _ => ?_) fun _ => divides_ok _
    exact divides_ite (fun _ => divides_ok _) fun _ => divides_ok _

theorem ne_zero_of_le {a b : UInt64} (hb : b ≠ 0) (h : ¬a < b) : a ≠ 0 := by
  rintro rfl
  exact h (UInt64.pos_iff_ne_zero.mpr hb)

theorem divides_checkMinRate {rateBytes thisIoBytes sinceStart spent : UInt64} (h : j.ratecycle ≠ 0) :
    Divides (checkMinRate j rateBytes thisIoBytes sinceStart spent) := by
  refine divides_ite (fun _ => divides_ok _) fun _ => divides_ite (fun _ => ?_) fun _ => divides_ok _
  refine divides_ite (fun _ => divides_ok _) fun hspent => ?_
  refine Divides.bind (divides_udiv (ne_zero_of_le (toUInt64_ne_zero h) hspent)) fun rate _ => ?_
  exact divides_ite (fun _ => divides_ok _) fun _ => divides_ok _

/-- With no cycle to wait for, `check_min_rate` divides by a time that may be nothing. -/
theorem not_divides_checkMinRate (h : j.ratecycle = 0) : ¬Divides (checkMinRate j 1 0 2000 0) := by
  refine not_divides ?_
  unfold checkMinRate
  rw [h]
  rfl

theorem divides_addBwSample {thisIoBytes statIoBytes spent : UInt64} (h : j.bwAvgTime ≠ 0) :
    Divides (addBwSample j thisIoBytes statIoBytes spent) := by
  refine divides_ite (fun _ => divides_ok _) fun hspent => ?_
  exact Divides.bind (divides_udiv (ne_zero_of_le (toUInt64_ne_zero h) hspent)) fun _ _ => divides_ok _

theorem not_divides_addBwSample (h : j.bwAvgTime = 0) : ¬Divides (addBwSample j 0 0 0) := by
  refine not_divides ?_
  unfold addBwSample
  rw [h]
  rfl

theorem divides_etaSec {e : EtaState} {bytesTotal : UInt64} : Divides (etaSec j e bytesTotal) := by
  unfold etaSec
  cases e.runstate with
  | running | verifying | fsyncing | exited | reaped => exact divides_ok _
  | notCreated | created | initialized =>
    refine divides_ite (fun hr => ?_) fun _ => divides_ok _
    exact Divides.bind (divides_udiv (toUInt64_ne_zero hr)) fun _ _ => divides_ok _

theorem div_ne_zero_iff {a b : UInt64} (hb : b ≠ 0) : a / b ≠ 0 ↔ b ≤ a := by
  have hpos : b.toNat ≠ 0 := fun h0 => hb (UInt64.toNat_inj.mp h0)
  rw [ne_eq, ← UInt64.toNat_inj, UInt64.toNat_div, UInt64.le_iff_toNat_le]
  simp [Nat.div_eq_zero_iff, hpos]

/-- `thread_eta` divides by the zones that fit in what is skipped. -/
theorem divides_threadEta {e : EtaState} :
    Divides (threadEta j e) ↔ (j.opts.zoneSkip ≠ 0 → e.zoneSize ≤ j.opts.zoneSkip) := by
  unfold threadEta
  dsimp only
  by_cases hz : e.zoneSize ≠ 0 ∧ j.opts.zoneSkip ≠ 0
  · rw [if_pos hz, udiv, if_neg hz.1, ok_bind]
    by_cases hle : e.zoneSize ≤ j.opts.zoneSkip
    · refine iff_of_true (Divides.bind ?_ fun _ _ => divides_etaSec) fun _ => hle
      exact divides_udiv ((div_ne_zero_iff hz.1).mpr hle)
    · refine iff_of_false (not_divides (bind_divisionByZero ?_)) fun h => hle (h hz.2)
      rw [not_not.mp (mt (div_ne_zero_iff hz.1).mp hle)]
      rfl
  · rw [if_neg hz]
    refine iff_of_true divides_etaSec fun hskip => ?_
    have h0 : e.zoneSize = 0 := by simpa [hskip] using hz
    rw [h0]
    exact UInt64.zero_le

/-! ## All calls -/

/-- A file as `calloc` leaves it. -/
def noFile : FioFile := ⟨false, 0, 0, 0, 0, FileMap.empty⟩

/-- The options of `DivisorsOk` keep every call of the job from dividing by zero. -/
theorem DivisorsOk.divides (hj : DivisorsOk j) {c : DivCall} (hc : j.Makes c) :
    c.fault j ≠ some .divisionByZero := by
  cases c with
  | addJob => exact divides_fileSizes j
  | setupRate cycle pending => exact divides_setupRate.mpr hj.rate
  | initRandomState files =>
    obtain ⟨hkept, hlen⟩ := hc
    refine divides_initRandomState fun hcpu hseq hno hfiles => hj.map hkept hcpu ?_ hseq hno
    intro h0
    rw [h0] at hlen
    exact hfiles (List.length_eq_zero_iff.mp hlen)
  | getNextOffset f random d offset =>
    obtain ⟨hw, hlog, hd⟩ := hc
    exact divides_getNextOffset (hj.blocks hw hlog d hd) (hj.map hw.1 hw.2.1 hw.2.2.1)
  | markRandomMap f u d =>
    obtain ⟨hw, hlog, hd, hseq, hno⟩ := hc
    exact divides_markRandomMap (hj.blocks hw hlog d hd) (hj.map hw.1 hw.2.1 hw.2.2.1 hseq hno)
  | rateThrottle cycle pending timeSpent bytes d =>
    obtain ⟨hw, hd⟩ := hc
    refine divides_rateThrottle.mpr fun hr => ?_
    cases hd with
    | inl hd => exact hd ▸ hj.throttle hw hr
    | inr hd => exact hd.2 ▸ (hj.rate hr (hw.1.resolve_left hr)).1
  | checkMinRate rateBytes thisIoBytes sinceStart spent => exact divides_checkMinRate (hj.ratecycle hc)
  | addBwSample thisIoBytes statIoBytes spent => exact divides_addBwSample (hj.bwAvgTime hc)
  | threadEta e => exact divides_threadEta.mpr fun hskip => hj.zones hc.1 hskip e.zoneSize hc.2

/-- Each of the options is needed: without it, one of the calls divides by zero. -/
theorem divisorsOk_of_divides (h : ∀ c, j.Makes c → c.fault j ≠ some .divisionByZero) :
    DivisorsOk j where
  rate := divides_setupRate.mp (h (.setupRate 0 0) trivial)
  map hkept hcpu hfiles hseq hno := by
    -- the first of the files is enough
    have hdiv : Divides (initRandomState j.opts (List.replicate j.opts.nrFiles.toNat noFile)) :=
      h (.initRandomState _) ⟨hkept, List.length_replicate⟩
    obtain ⟨n, hn⟩ := Nat.exists_eq_succ_of_ne_zero fun h0 => hfiles (UInt32.toNat_inj.mp h0)
    intro h0
    refine not_divides ?_ hdiv
    rw [initRandomState, hcpu, hseq, hno, hn, List.replicate_succ, List.mapM_cons]
    refine bind_divisionByZero (bind_divisionByZero (bind_divisionByZero (bind_divisionByZero ?_)))
    rw [h0]
    rfl
  blocks hw hlog d hd h0 :=
    not_divides_getNextOffset h0 (h (.getNextOffset noFile (fun _ => 0) d 0) ⟨hw, hlog, hd⟩)
  throttle hw hr :=
    divides_rateThrottle.mp (h (.rateThrottle 0 0 0 0 j.opts.ddir) ⟨hw, .inl rfl⟩) hr
  ratecycle hw h0 := not_divides_checkMinRate h0 (h (.checkMinRate 1 0 2000 0) hw)
  bwAvgTime hw h0 := not_divides_addBwSample h0 (h (.addBwSample 0 0 0) hw)
  zones hkept hskip z hz :=
    divides_threadEta.mp (h (.threadEta ⟨.running, z, 0, 0, 0⟩) ⟨hkept, hz⟩) hskip

/-- The job of `fill_def_thread` on the sync engine, and a rate. -/
def rateJob (rate : UInt32) : DivJob where
  opts := fixupOptions (fillDefThread ⟨true, false, false, false⟩)
  rate := rate
  ratemin := 0
  ratecycle := 1000
  bwAvgTime := 500
  timeout := 0
  startDelay := 0
  loops := 1
  totalFileSize := 0
  engineSetup := false
  ioSize := 1048576

/-- With the settings of `fill_def_thread` alone nothing divides by zero. -/
theorem divisorsOk_default : DivisorsOk (rateJob 0) where
  rate h := absurd rfl h
  map _ _ _ h := absurd h (by decide)
  blocks _ _ d _ := by cases d <;> decide
  throttle _ h := absurd rfl h
  ratecycle _ := by decide
  bwAvgTime _ := by decide
  zones _ h := absurd rfl h

end Rtfsc.Fio
