import Rtfsc.Fio.Log
import Rtfsc.Machine.Run

/-!
# fio: the way of an io unit

`do_io`, `do_verify`, `fio_io_sync` and `cleanup_pending_aio` as one machine: a control point, the
job, and the units that the engine has. What the engine, the clock and the verification answer comes
with the events. The engine only gives back units that it has, each once, and no more than it was
asked for.
-/

namespace Rtfsc.Fio

open Rtfsc.Machine

/-- Who called `cleanup_pending_aio` or `fio_io_sync`. -/
inductive IoCaller
  | doIo
  | doVerify
deriving DecidableEq

/-- Where the job is. A control point with a unit is one that still has to queue it. -/
inductive IoPc
  | idle
  | doIo
  | doIoQueue (i : Nat)
  | doIoReap
  | doIoEnd
  | cleanup (caller : IoCaller)
  | cancel (busy : List Nat) (caller : IoCaller)
  | cleanupWait (caller : IoCaller)
  | ioSync (files : List Nat) (caller : IoCaller)
  | ioSyncQueue (i : Nat) (files : List Nat) (caller : IoCaller)
  | ioSyncReap (files : List Nat) (caller : IoCaller)
  | verify
  | verifyQueue (i : Nat)
  | verifyReap
  | verifyEnd
deriving DecidableEq

/-- What a read-back asks for: file, offset and length. -/
abbrev Target := Option Nat × UInt64 × UInt32

def IoPiece.target (p : IoPiece) : Target := (p.file, p.offset, p.len)

def IoU.target (u : IoU) : Target := (u.file, u.offset, u.buflen)

/-- A job on the io path: its files (whether `f->fd` is open) and `next_file`, whether the engine can
cancel, the unit that `do_verify` has not verified yet, the units that the engine has, the read-backs
that `do_verify` has issued, and whether a unit has been put that was not busy. -/
structure IoState where
  td : ThreadData
  fds : List Bool
  nextFile : Nat
  canCancel : Bool
  vIoU : Option Nat
  inFlight : List Nat
  issued : List Target
  twice : Bool
  pc : IoPc

/-- A unit as `io_ops->event` returns it. -/
structure Completion where
  unit : Nat
  resid : UInt32
  error : UInt32
deriving DecidableEq

/-- What `td_io_getevents` returns: `-(code + 1)`, or a number of events. -/
inductive Reaped
  | failed (code : Nat)
  | events (done : List Completion)
deriving DecidableEq

/-- Why `do_io` stops behind a batch of completions. -/
inductive AfterBatch
  | goOn
  | belowMinRate
  | runtimeExceeded
deriving DecidableEq

/-- What comes from outside: a call by `thread_main`, or the answers that a piece of the loops gets.
The file that `do_io` passes to `get_io_u` comes as it is then. -/
inductive IoEvent
  | callDoIo
  | callDoVerify
  | doIoHead (terminate : Bool) (f : FioFile) (env : GetEnv)
  | queue (failed : Bool) (error : UInt32)
  | doIoReap (ret : Reaped) (after : AfterBatch)
  | goOn
  | getevents (ret : Reaped)
  | cancel (failed : Bool)
  | prep (failed : Bool)
  | verifyHead (terminate exceeded prepFails : Bool)
  | verifyQueue (failed : Bool) (error : UInt32) (bad : Bool)
  | verifyReap (ret : Reaped) (bad : Bool)
  | verifyEnd (bad : Bool)

/-- The loop of `get_next_file`, which comes back to the file it started from after at most all. -/
def getNextFileLoop (fds : List Bool) (oldNextFile : Nat) : Nat → Nat → Option Nat × Nat
  | 0, next => (none, next)
  | left + 1, next =>
    let after := if fds.length ≤ next + 1 then 0 else next + 1
    if fds.getD next false then (some next, after)
    else if after = oldNextFile then (none, after)
    else getNextFileLoop fds oldNextFile left after

/-- `get_next_file`: the file, and the next `next_file`. -/
def getNextFile (fds : List Bool) (nextFile : Nat) : Option Nat × Nat :=
  getNextFileLoop fds nextFile fds.length nextFile

/-- `io_completed`, on a job of which `i` is the completed unit. -/
def ioCompleted (td : ThreadData) (u : IoU) : ThreadData :=
  match u.ddir with
  | .sync => { td with lastWasSync := true }
  | .data d =>
    let td := { td with lastWasSync := false }
    if u.error = 0 then
      let bytes := (u.buflen - u.resid).toUInt64
      let td := { td with
        ioBlocks := td.ioBlocks.set d (td.ioBlocks.get d + 1)
        ioBytes := td.ioBytes.set d (td.ioBytes.get d + bytes)
        zoneBytes := td.zoneBytes + bytes
        thisIoBytes := td.thisIoBytes.set d (td.thisIoBytes.get d + bytes) }
      if (tdRw td.opts || tdWrite td.opts) && d == .write then logIoPiece td u else td
    else td

namespace IoState

/-- The job with another content of a unit. -/
def setUnit (s : IoState) (i : Nat) (u : IoU) : IoState :=
  { s with td := { s.td with ioU := Function.update s.td.ioU i u } }

/-- `td_verror`. -/
def verror (s : IoState) (err : Int) : IoState := { s with td := { s.td with error := err } }

def goto (s : IoState) (pc : IoPc) : IoState := { s with pc := pc }

/-- `put_io_u`. -/
def put (s : IoState) (i : Nat) : IoState :=
  { s with td := putIoU s.td i, twice := s.twice || !s.td.ioUBusylist.contains i }

/-- The engine gives a unit back. -/
def takeBack (s : IoState) (c : Completion) : IoState :=
  { s.setUnit c.unit { s.td.ioU c.unit with resid := c.resid, error := c.error } with
    inFlight := s.inFlight.erase c.unit }

/-- One round of `ios_completed`. -/
def complete (s : IoState) (c : Completion) : IoState :=
  let s := s.takeBack c
  { s with td := ioCompleted s.td (s.td.ioU c.unit) }.put c.unit

/-- `ios_completed`. -/
def iosCompleted (s : IoState) (done : List Completion) : IoState := done.foldl complete s

/-- What `io_completed` makes of the error of a unit: that of a sync is not looked at. -/
def unitError (s : IoState) (c : Completion) : UInt32 :=
  match (s.td.ioU c.unit).ddir with
  | .sync => 0
  | .data _ => c.error

/-- `icd.error` behind `ios_completed`: the last error of the batch. -/
def batchError (s : IoState) (done : List Completion) : UInt32 :=
  done.foldl (fun err c => if s.unitError c = 0 then err else s.unitError c) 0

/-- The engine has every unit of the batch, and gives it back once. -/
def Gives (s : IoState) (done : List Completion) : Prop :=
  (done.map Completion.unit).Nodup ∧ ∀ c ∈ done, c.unit ∈ s.inFlight

instance (s : IoState) (done : List Completion) : Decidable (s.Gives done) := by
  unfold Gives
  infer_instance

/-- `do_io_u_verify` on the unit that waits. -/
def doIoUVerify (s : IoState) : IoState :=
  match s.vIoU with
  | none => s
  | some i => { s.put i with vIoU := none }

/-- `do_io_u_verify` returns non-zero: there is a unit, and its verification failed. -/
def verifyFails (s : IoState) (bad : Bool) : Bool := s.vIoU.isSome && bad

/-- `queue_full`. -/
def queueFull (s : IoState) : Bool := s.td.ioUFreelist.isEmpty

/-- The engine accepts a unit, or refuses it with an error in it. -/
def queued (s : IoState) (i : Nat) : IoState := { s with inFlight := i :: s.inFlight }

/-- A unit that `td_io_queue` refused: its error is the job's, and it is put. -/
def refused (s : IoState) (i : Nat) (error : UInt32) : IoState :=
  ((s.setUnit i { s.td.ioU i with error := error }).verror error.toInt32.toInt).put i

/-- Behind `cleanup_pending_aio`. -/
def afterCleanup (s : IoState) : IoCaller → IoState
  | .doIo =>
    if shouldFsync s.td && s.td.opts.endFsync then
      s.goto (.ioSync (List.range s.fds.length) .doIo)
    else s.goto .idle
  | .doVerify => s.goto .idle

/-- A batch of completions, and its error. -/
def reap (s : IoState) (done : List Completion) : IoState :=
  let completed := s.iosCompleted done
  if s.batchError done = 0 then completed
  else completed.verror (s.batchError done).toInt32.toInt

end IoState

open IoState

/-- The next state, or no step. -/
abbrev Step := Except Unit IoState

/-- `do_io`. -/
def doIoStep (s : IoState) : IoEvent → Step
  | .doIoHead terminate f env =>
    if s.td.thisIoBytes.get s.td.opts.ddir < s.td.ioSize then
      if terminate then .ok (s.goto .doIoEnd)
      else
        match getNextFile s.fds s.nextFile with
        | (none, next) => .ok ({ s with nextFile := next }.goto .doIoEnd)
        | (some fi, next) =>
          match getIoU s.td f fi env with
          | .ok (some i, td, _) => .ok ({ s with td := td, nextFile := next }.goto (.doIoQueue i))
          | .ok (none, td, _) => .ok ({ s with td := td, nextFile := next }.goto .doIoEnd)
          | .error _ => .error ()
    else .ok (s.goto .doIoEnd)
  | _ => .error ()

def doIoQueueStep (s : IoState) (i : Nat) : IoEvent → Step
  | .queue failed error =>
    if failed then .ok ((s.refused i error).goto .doIoEnd) else .ok ((s.queued i).goto .doIoReap)
  | _ => .error ()

def doIoReapStep (s : IoState) : IoEvent → Step
  | .doIoReap ret after =>
    match ret with
    | .failed code => .ok ((s.verror (-(code + 1))).goto .doIoEnd)
    | .events done =>
      if s.Gives done then
        if done = [] then .ok (s.goto .doIo)
        else if s.batchError done ≠ 0 then .ok ((s.reap done).goto .doIoEnd)
        else
          match after with
          | .goOn => .ok ((s.reap done).goto .doIo)
          | .belowMinRate => .ok (((s.reap done).verror 12).goto .doIoEnd)
          | .runtimeExceeded => .ok ((s.reap done).goto .doIoEnd)
      else .error ()
  | _ => .error ()

/-- `cleanup_pending_aio` when there is anything pending, or what is behind it. -/
def cleanupIfPending (s : IoState) (caller : IoCaller) : IoState :=
  if s.td.curDepth = 0 then s.afterCleanup caller else s.goto (.cleanup caller)

def doIoEndStep (s : IoState) : IoEvent → Step
  | .goOn => .ok (if s.td.error = 0 then cleanupIfPending s .doIo else s.goto .idle)
  | _ => .error ()

/-- `cleanup_pending_aio`: neither a failure of `td_io_getevents` nor an error in a unit is seen. -/
def cleanupStep (s : IoState) (caller : IoCaller) : IoEvent → Step
  | .getevents ret =>
    let cancelled (s : IoState) : IoState :=
      if s.canCancel then s.goto (.cancel s.td.ioUBusylist caller) else s.goto (.cleanupWait caller)
    match ret with
    | .failed _ => .ok (cancelled s)
    | .events done => if s.Gives done then .ok (cancelled (s.iosCompleted done)) else .error ()
  | _ => .error ()

def cancelStep (s : IoState) (busy : List Nat) (caller : IoCaller) : IoEvent → Step
  | .cancel failed =>
    match busy with
    | [] => .error ()
    | i :: busy =>
      if failed then .ok (s.goto (.cancel busy caller))
      else .ok (({ s with inFlight := s.inFlight.erase i }.put i).goto (.cancel busy caller))
  | .goOn => if busy = [] then .ok (s.goto (.cleanupWait caller)) else .error ()
  | _ => .error ()

def cleanupWaitStep (s : IoState) (caller : IoCaller) : IoEvent → Step
  | .goOn => if s.td.curDepth = 0 then .ok (s.afterCleanup caller) else .error ()
  | .getevents ret =>
    if s.td.curDepth = 0 then .error ()
    else
      match ret with
      | .failed _ => .ok (s.afterCleanup caller)
      | .events done =>
        if s.Gives done then .ok ((s.iosCompleted done).afterCleanup caller) else .error ()
  | _ => .error ()

/-- Behind the last file of a round of `fio_io_sync`. -/
def afterIoSync (s : IoState) : IoCaller → IoState
  | .doIo => s.goto .idle
  | .doVerify => { s with vIoU := none, issued := [] }.goto .verify

/-- `fio_io_sync` on the next file, up to `td_io_queue`. -/
def ioSyncStep (s : IoState) (files : List Nat) (caller : IoCaller) : IoEvent → Step
  | .goOn => if files = [] then .ok (afterIoSync s caller) else .error ()
  | .prep failed =>
    match files with
    | [] => .error ()
    | fi :: files =>
      match getFreeIoU s.td with
      | none => .ok (s.goto (.ioSync files caller))
      | some (i, td) =>
        let s := { s with td := td }.setUnit i { td.ioU i with ddir := .sync, file := some fi }
        if failed then .ok ((s.put i).goto (.ioSync files caller))
        else .ok (s.goto (.ioSyncQueue i files caller))
  | _ => .error ()

def ioSyncQueueStep (s : IoState) (i : Nat) (files : List Nat) (caller : IoCaller) : IoEvent → Step
  | .queue failed error =>
    if failed then .ok ((s.refused i error).goto (.ioSync files caller))
    else .ok ((s.queued i).goto (.ioSyncReap files caller))
  | _ => .error ()

def ioSyncReapStep (s : IoState) (files : List Nat) (caller : IoCaller) : IoEvent → Step
  | .getevents ret =>
    match ret with
    | .failed code => .ok ((s.verror (-(code + 1))).goto (.ioSync files caller))
    | .events done =>
      if s.Gives done then .ok ((s.reap done).goto (.ioSync files caller)) else .error ()
  | _ => .error ()

/-- The loop of `do_verify`, up to `td_io_queue`. A unit for which there is no file stays busy. -/
def verifyStep (s : IoState) : IoEvent → Step
  | .verifyHead terminate exceeded prepFails =>
    if terminate then .ok (s.goto .verifyEnd)
    else
      match getFreeIoU s.td with
      | none => .ok (s.goto .verifyEnd)
      | some (i, td) =>
        let s := { s with td := td }
        if exceeded then .ok ((s.put i).goto .verifyEnd)
        else
          match getNextVerify td (td.ioU i) with
          | (false, _, _) => .ok ((s.put i).goto .verifyEnd)
          | (true, u, td) =>
            let s := { s with td := td }.setUnit i u
            match getNextFile s.fds s.nextFile with
            | (none, next) => .ok ({ s with nextFile := next }.goto .verifyEnd)
            | (some fi, next) =>
              let s := { s with nextFile := next }.setUnit i { u with file := some fi }
              if prepFails then .ok ((s.put i).goto .verifyEnd)
              else .ok (s.goto (.verifyQueue i))
  | _ => .error ()

/-- `td_io_queue` in `do_verify`, and `do_io_u_verify` on the unit before it. -/
def verifyQueueStep (s : IoState) (i : Nat) : IoEvent → Step
  | .verifyQueue failed error bad =>
    if failed then .ok ((s.refused i error).goto .verifyEnd)
    else
      let next := if s.verifyFails bad then IoPc.verifyEnd else .verifyReap
      let s := { s.queued i with issued := s.issued ++ [(s.td.ioU i).target] }
      .ok (s.doIoUVerify.goto next)
  | _ => .error ()

/-- `td_io_getevents` in `do_verify`, the completion of the unit that came, and `do_io_u_verify` on it
when the queue is full. -/
def verifyReapStep (s : IoState) : IoEvent → Step
  | .verifyReap ret bad =>
    match ret with
    | .failed code => .ok ((s.verror (-(code + 1))).goto .verifyEnd)
    | .events [c] =>
      if s.Gives [c] then
        let error := s.unitError c
        let s := s.takeBack c
        let s := { s with td := ioCompleted s.td (s.td.ioU c.unit) }
        if error ≠ 0 then .ok (((s.verror error.toInt32.toInt).put c.unit).goto .verifyEnd)
        else
          let s := { s with vIoU := some c.unit }
          if s.queueFull then
            .ok (s.doIoUVerify.goto (if bad then .verifyEnd else .verify))
          else .ok (s.goto .verify)
      else .error ()
    | .events [] => .ok (s.goto .verifyEnd)
    | .events _ => .error ()
  | _ => .error ()

def verifyEndStep (s : IoState) : IoEvent → Step
  | .verifyEnd _ => .ok (cleanupIfPending s.doIoUVerify .doVerify)
  | _ => .error ()

/-- What `clear_io_state` does to the job. -/
def clearIoState (td : ThreadData) : ThreadData := { td with thisIoBytes := ⟨0, 0⟩, zoneBytes := 0 }

/-- The calls of `thread_main`, which makes no more of them once there is an error. -/
def idleStep (s : IoState) : IoEvent → Step
  | .callDoIo =>
    if s.td.error = 0 then
      .ok ({ s with td := pruneIoPieceLog (clearIoState s.td) }.goto .doIo)
    else .error ()
  | .callDoVerify =>
    if s.td.error = 0 then
      .ok ({ s with td := clearIoState s.td }.goto (.ioSync (List.range s.fds.length) .doVerify))
    else .error ()
  | _ => .error ()

/-- One step of the job. -/
def ioStep (s : IoState) (e : IoEvent) : Step :=
  match s.pc with
  | .idle => idleStep s e
  | .doIo => doIoStep s e
  | .doIoQueue i => doIoQueueStep s i e
  | .doIoReap => doIoReapStep s e
  | .doIoEnd => doIoEndStep s e
  | .cleanup caller => cleanupStep s caller e
  | .cancel busy caller => cancelStep s busy caller e
  | .cleanupWait caller => cleanupWaitStep s caller e
  | .ioSync files caller => ioSyncStep s files caller e
  | .ioSyncQueue i files caller => ioSyncQueueStep s i files caller e
  | .ioSyncReap files caller => ioSyncReapStep s files caller e
  | .verify => verifyStep s e
  | .verifyQueue i => verifyQueueStep s i e
  | .verifyReap => verifyReapStep s e
  | .verifyEnd => verifyEndStep s e

/-- Runs of a job on the io path. -/
abbrev IoRun : IoState → List IoEvent → IoState → Prop := Run fun s e s' => ioStep s e = .ok s'

end Rtfsc.Fio
