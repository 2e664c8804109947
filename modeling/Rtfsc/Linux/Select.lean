import Rtfsc.Machine.BitMap
import Mathlib.Logic.Function.Basic

/-!
# do_select

The scan of the requested descriptors, pass after pass. A pass reads the three input maps word by word and
polls the files of the bits that are set; the words of the result maps are stored where they are not zero.
What the files answer, and what ends the sleep between two passes, comes from outside.
-/

namespace Rtfsc.Linux

open Rtfsc.Machine

/-- `int` -/
def wrapInt (x : Int) : Int := x.bmod (2 ^ 32)

/-- The three sets: `in`, `out` and `ex`. -/
inductive SelectSet
  | inp
  | outp
  | exp
deriving DecidableEq

/-- Something for each of the sets, in the order of the source. -/
def SelectSet.all : List SelectSet := [.inp, .outp, .exp]

/-- `fd_set_bits`: the maps `in`, `out`, `ex`, and `res_in`, `res_out`, `res_ex`. -/
structure FdSetBits where
  requested : SelectSet → List UInt64
  res : SelectSet → List UInt64

/-- What stands still during a call: the open files, `POLLIN_SET`, `POLLOUT_SET` and `POLLEX_SET`,
`POLL_BUSY_LOOP`, and whether the net may be polled busily. -/
structure SelectEnv where
  isOpen : Nat → Bool
  events : SelectSet → UInt32
  pollBusyLoop : UInt32
  netBusyLoopOn : Bool

/-- What a pass finds: the masks of the files, a signal, `table.error`, the busy loop and its clock, and
whether `poll_schedule_timeout` comes back in time. -/
structure SelectPass where
  mask : Nat → UInt32
  signalPending : Bool
  tableError : Int
  needResched : Bool
  busyLoopCurrentTime : UInt64
  busyLoopTimeout : Bool
  inTime : Bool

/-- The variables of the loop over the bits of a word. -/
structure WordScan where
  i : Int
  res : SelectSet → UInt64
  retval : Int
  busyFlag : UInt32
  canBusyLoop : Bool

/-- The variables of the loop over the words: `inp`, `outp` and `exp` advance together, and so do `rinp`,
`routp` and `rexp`. -/
structure PassScan where
  i : Int
  inp : Nat
  rinp : Nat
  fds : FdSetBits
  retval : Int
  busyFlag : UInt32
  canBusyLoop : Bool

/-- What a pass leaves to the next one. -/
structure SelectState where
  fds : FdSetBits
  retval : Int
  busyFlag : UInt32
  busyStart : UInt64
  timedOut : Bool

/-- A call has returned, or it waits for another pass, or it has left a bitmap. -/
inductive SelectOutcome
  | returned (retval : Int) (fds : FdSetBits)
  | waiting
  | outside

/-! ## A word -/

/-- The file that `fdget` finds: its argument is unsigned. -/
def fdOf (i : Int) : Nat := (i % 2 ^ 32).toNat

/-- `if ((mask & SET) && (word & bit))`, for one of the sets. -/
def noteEvents (e : SelectEnv) (mask : UInt32) (words : SelectSet → UInt64) (bit : UInt64)
    (s : WordScan) (c : SelectSet) : WordScan :=
  if mask &&& e.events c ≠ 0 ∧ words c &&& bit ≠ 0 then
    { s with
      res := Function.update s.res c (s.res c ||| bit)
      retval := wrapInt (s.retval + 1) }
  else s

/-- The file of a bit is polled. -/
def pollFile (e : SelectEnv) (mask : UInt32) (words : SelectSet → UInt64) (bit : UInt64)
    (s : WordScan) : WordScan :=
  let s := SelectSet.all.foldl (noteEvents e mask words bit) s
  if s.retval ≠ 0 then { s with canBusyLoop := false, busyFlag := 0 }
  else if s.busyFlag &&& mask ≠ 0 then { s with canBusyLoop := true }
  else s

/-- A round of the loop over the bits. -/
def scanBit (e : SelectEnv) (p : SelectPass) (words : SelectSet → UInt64) (allBits bit : UInt64)
    (s : WordScan) : WordScan :=
  if bit &&& allBits = 0 then s
  else if e.isOpen (fdOf s.i) then pollFile e (p.mask (fdOf s.i)) words bit s
  else s

/-- The loop over the bits of a word, with the number of those that are left. -/
def scanBits (e : SelectEnv) (p : SelectPass) (n : Int) (words : SelectSet → UInt64)
    (allBits : UInt64) : Nat → UInt64 → WordScan → WordScan
  | 0, _, s => s
  | left + 1, bit, s =>
    if n ≤ s.i then s
    else
      let t := scanBit e p words allBits bit s
      scanBits e p n words allBits left (bit <<< 1) { t with i := wrapInt (t.i + 1) }

/-! ## A pass -/

/-- `*inp++`, `*outp++`, `*exp++` -/
def readWords (maps : SelectSet → List UInt64) (k : Nat) : Option (SelectSet → UInt64) :=
  match (maps .inp)[k]?, (maps .outp)[k]?, (maps .exp)[k]? with
  | some a, some b, some c => some fun | .inp => a | .outp => b | .exp => c
  | _, _, _ => none

/-- `if (res_in) *rinp = res_in;` and so on -/
def storeWords (maps : SelectSet → List UInt64) (k : Nat) (res : SelectSet → UInt64) :
    Option (SelectSet → List UInt64) :=
  if ∀ c ∈ SelectSet.all, res c ≠ 0 → k < (maps c).length then
    some fun c => if res c ≠ 0 then (maps c).set k (res c) else maps c
  else none

/-- The loop over the words. Every round reads a word, so that behind the maps it ends. -/
def scanWords (e : SelectEnv) (p : SelectPass) (n : Int) : Nat → PassScan → Option PassScan
  | 0, _ => none
  | rounds + 1, s =>
    if n ≤ s.i then some s
    else
      match readWords s.fds.requested s.inp with
      | none => none
      | some words =>
        let allBits := words .inp ||| words .outp ||| words .exp
        if allBits = 0 then
          scanWords e p n rounds
            { s with i := wrapInt (s.i + 64), inp := s.inp + 1, rinp := s.rinp + 1 }
        else
          let t := scanBits e p n words allBits 64 1 ⟨s.i, fun _ => 0, s.retval, s.busyFlag, s.canBusyLoop⟩
          match storeWords s.fds.res s.rinp t.res with
          | none => none
          | some res =>
            scanWords e p n rounds
              ⟨t.i, s.inp + 1, s.rinp + 1, { s.fds with res := res }, t.retval, t.busyFlag, t.canBusyLoop⟩

/-- A pass, from the first word on. -/
def scanPass (e : SelectEnv) (p : SelectPass) (n : Int) (s : SelectState) : Option PassScan :=
  scanWords e p n ((s.fds.requested .inp).length + 1) ⟨0, 0, 0, s.fds, s.retval, s.busyFlag, false⟩

/-! ## The call -/

/-- `for (;;)`, over the passes that there are. -/
def selectLoop (e : SelectEnv) (n : Int) : List SelectPass → SelectState → SelectOutcome
  | [], _ => .waiting
  | p :: ps, s =>
    match scanPass e p n s with
    | none => .outside
    | some t =>
      let s := { s with fds := t.fds, retval := t.retval, busyFlag := t.busyFlag }
      if s.retval ≠ 0 ∨ s.timedOut ∨ p.signalPending then .returned s.retval s.fds
      else if p.tableError ≠ 0 then .returned p.tableError s.fds
      else if t.canBusyLoop ∧ !p.needResched ∧ s.busyStart = 0 then
        selectLoop e n ps { s with busyStart := p.busyLoopCurrentTime }
      else if t.canBusyLoop ∧ !p.needResched ∧ !p.busyLoopTimeout then selectLoop e n ps s
      else selectLoop e n ps { s with busyFlag := 0, timedOut := s.timedOut || !p.inTime }

/-- `do_select`, with `max_select_fd` and the seconds and nanoseconds of `end_time`. -/
def doSelect (e : SelectEnv) (maxSelectFd : Int → FdSetBits → Int) (n : Int) (fds : FdSetBits)
    (endTime : Option (Int × Int)) (ps : List SelectPass) : SelectOutcome :=
  let retval := maxSelectFd n fds
  if retval < 0 then .returned retval fds
  else
    selectLoop e retval ps
      { fds := fds
        retval := 0
        busyFlag := if e.netBusyLoopOn then e.pollBusyLoop else 0
        busyStart := 0
        timedOut := endTime = some (0, 0) }

end Rtfsc.Linux
