import Mathlib.Data.UInt
import Rtfsc.Machine.Run
import Rtfsc.Machine.Tally

/-!
# fio: starting and reaping jobs

`run_threads` and `reap_threads` of `fio.c`, one loop body a step, with the jobs changing their run
state between any two steps. The five counters of the main loop are compared with tallies over the
job table.
-/

namespace Rtfsc.Fio

open Rtfsc.Machine

/-- The `TD_*` run states, in their order. -/
inductive Runstate
  | notCreated
  | created
  | initialized
  | running
  | verifying
  | fsyncing
  | exited
  | reaped
deriving DecidableEq, Repr

/-- The number of a run state. -/
def Runstate.toNat : Runstate → Nat
  | .notCreated => 0
  | .created => 1
  | .initialized => 2
  | .running => 3
  | .verifying => 4
  | .fsyncing => 5
  | .exited => 6
  | .reaped => 7

/-- What `run_threads` has done about a job. The code keeps no such record: it is history, and no
step reads it. -/
inductive Phase
  | waiting
  /-- Counted off as flagged to terminate before it was started. -/
  | dropped
  /-- Created, and in the map of the jobs to wait for. -/
  | created
  /-- Seen `TD_INITIALIZED`. -/
  | seen
  /-- Counted in `nr_running`. -/
  | started
  | reaped
deriving DecidableEq, Repr

/-- The members of a job that starting and reaping use. `cpuio` is `FIO_CPUIO` of an open engine,
`hasThread` says that the thread or process of the job exists. -/
structure Job where
  runstate : Runstate
  terminate : Bool
  startDelay : UInt32
  stonewall : Bool
  createSerialize : Bool
  useThread : Bool
  rate : UInt32
  ratemin : UInt32
  groupid : Int
  cpuio : Bool
  hasThread : Bool
  phase : Phase
deriving DecidableEq, Repr

/-- Where `run_threads` is: at the head of its main loop, or at one job of one of its loops. -/
inductive Pc
  | head
  | create (i : Nat)
  | wait
  | poll (k : Nat)
  | start (i : Nat)
  | reap (i : Nat) (cputhreads pending : Int)
  | done
deriving DecidableEq, Repr

/-- The job table and the locals of `run_threads`. The rates are `int`s, kept as their 32 bits. -/
structure Runner where
  jobs : List Job
  pc : Pc
  map : List (Option Nat)
  left : Int
  todo : Int
  nrRunning : Int
  nrStarted : Int
  tRate : UInt32
  mRate : UInt32
deriving DecidableEq, Repr

/-- What `terminate_threads` does to one job. -/
def terminateJob (td : Job) : Job := { td with terminate := true, startDelay := 0 }

/-- `terminate_threads(TERMINATE_ALL)`. -/
def terminateAll (jobs : List Job) : List Job := jobs.map terminateJob

/-- What a step of `run_threads` gets from outside: the milliseconds since fio was started, whether
`pthread_create` fails, and whether the jobs took too long to start. -/
structure MainEnv where
  spent : UInt64
  createFails : Bool
  timedOut : Bool

/-- The setup loop of `run_threads` on one job: `setup_files` fails or not. -/
def setupJob (td : Job) (setupFails : Bool) : Job :=
  if td.createSerialize && setupFails then { td with runstate := .reaped, phase := .reaped }
  else td

/-- A job before `run_threads`: its run state is 0. -/
def newJob (td : Job) : Job :=
  { td with runstate := .notCreated, hasThread := false, phase := .waiting }

/-- `run_threads` up to its main loop, on jobs paired with whether their `setup_files` fails. -/
def runThreadsInit (setup : List (Job × Bool)) : Runner where
  jobs := setup.map fun (td, fails) => setupJob (newJob td) fails
  pc := .head
  map := []
  left := 0
  todo := setup.length - count (fun (td, fails) => td.createSerialize && fails) setup
  nrRunning := 0
  nrStarted := 0
  tRate := 0
  mRate := 0

/-- Creating a thread or a process for job `i`. -/
def createJob (s : Runner) (i : Nat) (td : Job) (env : MainEnv) : Runner :=
  let fails := td.useThread && env.createFails
  { s with
    jobs := s.jobs.set i { td with runstate := .created, hasThread := !fails, phase := .created }
    map := s.map ++ [some i]
    nrStarted := if fails then s.nrStarted + 1 - 1 else s.nrStarted + 1
    pc := .create (i + 1) }

/-- The loop that creates threads, on job `i`. -/
def createStep (s : Runner) (i : Nat) (env : MainEnv) : Runner :=
  match s.jobs[i]? with
  | none => { s with left := s.map.length, pc := .wait }
  | some td =>
    if td.runstate ≠ .notCreated then
      { s with pc := .create (i + 1) }
    else if td.terminate then
      { s with
        jobs := s.jobs.set i { td with phase := .dropped }
        todo := s.todo - 1
        pc := .create (i + 1) }
    else if td.startDelay ≠ 0 ∧ env.spent < (td.startDelay * 1000).toUInt64 then
      { s with pc := .create (i + 1) }
    else if td.stonewall ∧ (s.nrStarted ≠ 0 ∨ s.nrRunning ≠ 0) then
      { s with left := s.map.length, pc := .wait }
    else
      createJob s i td env

/-- The loop that waits for the created jobs, on entry `k` of the map. -/
def pollStep (s : Runner) (k : Nat) : Runner :=
  match s.map[k]? with
  | none => { s with pc := .wait }
  | some none => { s with pc := .poll (k + 1) }
  | some (some i) =>
    match s.jobs[i]? with
    | none => { s with pc := .poll (k + 1) }
    | some td =>
      if td.runstate = .initialized then
        { s with
          jobs := s.jobs.set i { td with phase := .seen }
          map := s.map.set k none
          left := s.left - 1
          pc := .poll (k + 1) }
      else if Runstate.exited.toNat ≤ td.runstate.toNat then
        { s with
          jobs := s.jobs.set i { td with phase := .started }
          map := s.map.set k none
          left := s.left - 1
          todo := s.todo - 1
          nrRunning := s.nrRunning + 1
          pc := .poll (k + 1) }
      else
        { s with pc := .poll (k + 1) }

/-- The loop that starts the initialized jobs, on job `i`. -/
def startStep (s : Runner) (i : Nat) : Runner :=
  match s.jobs[i]? with
  | none => { s with pc := .reap 0 0 0 }
  | some td =>
    if td.runstate ≠ .initialized then
      { s with pc := .start (i + 1) }
    else
      { s with
        jobs := s.jobs.set i { td with runstate := .running, phase := .started }
        nrRunning := s.nrRunning + 1
        nrStarted := s.nrStarted - 1
        mRate := s.mRate + td.ratemin
        tRate := s.tRate + td.rate
        todo := s.todo - 1
        pc := .start (i + 1) }

/-- `reap_threads`, on job `i`. -/
def reapStep (s : Runner) (i : Nat) (cputhreads pending : Int) : Runner :=
  match s.jobs[i]? with
  | none =>
    { s with
      jobs := if s.nrRunning = cputhreads ∧ pending = 0 then terminateAll s.jobs else s.jobs
      pc := .head }
  | some td =>
    let cputhreads := if td.cpuio then cputhreads + 1 else cputhreads
    if td.runstate ≠ .exited then
      let pending := if td.runstate.toNat < Runstate.running.toNat then pending + 1 else pending
      { s with pc := .reap (i + 1) cputhreads pending }
    else
      { s with
        jobs := s.jobs.set i { td with runstate := .reaped, phase := .reaped }
        nrRunning := s.nrRunning - 1
        mRate := s.mRate - td.ratemin
        tRate := s.tRate - td.rate
        pc := .reap (i + 1) cputhreads pending }

/-- One step of `run_threads`. -/
def mainStep (s : Runner) (env : MainEnv) : Runner :=
  match s.pc with
  | .head => if s.todo = 0 then { s with pc := .done } else { s with map := [], pc := .create 0 }
  | .create i => createStep s i env
  | .wait =>
    if s.left = 0 then { s with pc := .start 0 }
    else if env.timedOut then { s with pc := .done }
    else { s with pc := .poll 0 }
  | .poll k => pollStep s k
  | .start i => startStep s i
  | .reap i cputhreads pending => reapStep s i cputhreads pending
  | .done => s

/-- How a job changes its own run state. A created job initializes itself or gives up; then it waits
for `run_threads`. A running job works until it exits. -/
def Runstate.next : Runstate → Runstate → Bool
  | .created, .initialized | .created, .exited => true
  | .running, .verifying | .running, .fsyncing | .running, .exited => true
  | .verifying, .running | .verifying, .fsyncing | .verifying, .exited => true
  | .fsyncing, .running | .fsyncing, .verifying | .fsyncing, .exited => true
  | _, _ => false

/-- A job in its next run state; its engine is closed when it exits. -/
def changeRunstate (td : Job) (r : Runstate) : Job :=
  { td with runstate := r, cpuio := if r = .exited then false else td.cpuio }

/-- Steps of the whole program: `run_threads` moves on, a job changes its run state, or some jobs are flagged to terminate. `P` restricts the steps of
`run_threads`. -/
inductive RunnerStep (P : Runner → Prop) : Runner → Unit → Runner → Prop
  | main {s} (ok : P s) (env : MainEnv) : RunnerStep P s () (mainStep s env)
  | job {s i td} (r : Runstate) (hi : s.jobs[i]? = some td) (thread : td.hasThread = true)
      (next : td.runstate.next r = true) :
      RunnerStep P s () { s with jobs := s.jobs.set i (changeRunstate td r) }
  | terminate {s} (selected : Job → Bool) :
      RunnerStep P s ()
        { s with jobs := s.jobs.map (fun td => if selected td then terminateJob td else td) }

end Rtfsc.Fio
