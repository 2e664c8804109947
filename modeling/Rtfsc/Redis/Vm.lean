import Rtfsc.Redis.Object
import Rtfsc.Redis.Queues

/-!
# redis: the virtual memory

`vm.c` and the part of `decrRefCount` that belongs to it. Values move between memory and the swap
file; the moves are I/O jobs, which a few threads process and the main thread completes. The state
is what both sides share, and an event is a stretch of one side's code up to the end of its next
critical section of `io_mutex`. What depends on the outside (the addresses `zmalloc` returns, the
size of an object in pages, random numbers, whether a write succeeds) comes with the event.
-/

namespace Rtfsc.Redis.Vm

open Rtfsc.Machine

abbrev DbId := Nat

abbrev ClientId := Nat

/-- A key of a database. -/
abbrev DbKey := DbId × CStr

/-- `robj`, as far as the virtual memory looks at it. Its `storage` is `REDIS_VM_SWAPPING` or
`REDIS_VM_MEMORY`, and `ptr` the bytes of a string. -/
structure Object where
  refcount : Int
  swapping : Bool
  ptr : CStr
deriving DecidableEq

/-- `vmpointer`. Its `storage` is `REDIS_VM_LOADING` or `REDIS_VM_SWAPPED`. -/
structure VmPointer where
  loading : Bool
  page : Nat
  usedpages : Nat
deriving DecidableEq

/-- What is at an address: `storage` tells which of the two a value of a dictionary is. -/
inductive Cell
  | robj (o : Object)
  | vmpointer (v : VmPointer)
deriving DecidableEq

/-- `REDIS_VM_LOADING` or `REDIS_VM_SWAPPING`. -/
def Cell.busy : Cell → Bool
  | robj o => o.swapping
  | vmpointer v => v.loading

/-- Going back from `REDIS_VM_LOADING` to `REDIS_VM_SWAPPED`, from `REDIS_VM_SWAPPING` to
`REDIS_VM_MEMORY`. -/
def Cell.undo : Cell → Cell
  | robj o => robj { o with swapping := false }
  | vmpointer v => vmpointer { v with loading := false }

/-- `REDIS_IOJOB_LOAD`, `REDIS_IOJOB_PREPARE_SWAP`, `REDIS_IOJOB_DO_SWAP`. -/
inductive JobType
  | load
  | prepareSwap
  | doSwap
deriving DecidableEq

/-- `iojob`. -/
structure IoJob where
  type : JobType
  db : DbId
  key : Addr
  id : Addr
  val : Option Addr
  page : Nat
  pages : Nat
  canceled : Bool
deriving DecidableEq

/-- `redisClient`: its database, `io_keys` and `REDIS_IO_WAIT`. -/
structure Client where
  db : DbId
  ioKeys : List Addr
  ioWait : Bool

/-- The memory, the databases, the jobs with their queues, the clients that wait, and the swap file.
`held` lists the references to objects that the rest of the server has, the arguments of commands
for one. -/
structure State where
  heap : Addr → Option Cell
  dict : Table DbKey Addr
  held : List Addr
  jobs : Table JobId IoJob
  queues : Queues
  ioKeys : Table DbKey (Addr × List ClientId)
  clients : Table ClientId Client
  ready : List ClientId
  swap : SwapFile
  swappedObjects : Int

namespace State

variable (s : State)

/-! ## Objects -/

/-- The object at an address. -/
def object (a : Addr) : Except Stop Object :=
  match s.heap a with
  | some (.robj o) => .ok o
  | _ => .error .badPointer

/-- Writing to an address, or freeing it. -/
def setCell (a : Addr) (c : Option Cell) : State := { s with heap := Function.update s.heap a c }

/-- `zmalloc` and the first write: the address was not in use. -/
def create (a : Addr) (c : Cell) : Except Stop State := do
  check (s.heap a = none) .disabled
  return s.setCell a (some c)

/-- `incrRefCount`. -/
def incrRefCount (a : Addr) : Except Stop State := do
  let o ← s.object a
  return s.setCell a (some (.robj { o with refcount := o.refcount + 1 }))

/-- The end of `decrRefCount`: one reference less, and the object freed with the last one. -/
def dropReference (a : Addr) : Except Stop State := do
  let o ← s.object a
  if o.refcount - 1 = 0 then return s.setCell a none
  else return s.setCell a (some (.robj { o with refcount := o.refcount - 1 }))

/-! ## Jobs -/

/-- `freeIOJob`, with the `decrRefCount` it calls. -/
def freeIOJob (decr : State → Addr → Except Stop State) (j : JobId) : Except Stop State := do
  let job ← need (s.jobs.lookup j) .freedJob
  let s ← match job.val with
    | some val => do
      let o ← s.object val
      let s := if o.swapping then s.setCell val (some (.robj { o with swapping := false })) else s
      decr s val
    | none => pure s
  let s ← decr s job.key
  return { s with jobs := s.jobs.erase j }

/-- The search of `vmCancelThreadedIOJob` in one list. -/
def searchJobs (o : Addr) : List JobId → Except Stop (Option (JobId × IoJob))
  | [] => return none
  | j :: rest => do
    let job ← need (s.jobs.lookup j) .freedJob
    if job.canceled = false ∧ job.id = o then return some (j, job)
    else searchJobs o rest

/-- The pages of a cancelled `DO_SWAP` job are free again. -/
def freeJobPages (job : IoJob) : Except Stop State :=
  if job.type = .doSwap then do
    let swap ← s.swap.vmMarkPagesFree job.page job.pages
    return { s with swap }
  else return s

/-- Adjusting the storage of the object of a cancelled job. -/
def undoStorage (o : Addr) : Except Stop State := do
  let cell ← need (s.heap o) .badPointer
  return s.setCell o (some cell.undo)

/-- `vmCancelThreadedIOJob`. While the job is in `io_processing` the main thread tries again and
again, so the step that contains the call is not taken before. -/
def vmCancelThreadedIOJob (decr : State → Addr → Except Stop State) (o : Addr) :
    Except Stop State := do
  let cell ← need (s.heap o) .badPointer
  check (cell.busy = true) .wrongStorage
  match ← s.searchJobs o s.queues.newjobs with
  | some (j, job) => do
    let s ← s.freeJobPages job
    let s ← s.freeIOJob decr j
    undoStorage { s with queues := s.queues.dropNew j } o
  | none =>
    match ← s.searchJobs o s.queues.processing with
    | some _ => .error .disabled
    | none =>
      match ← s.searchJobs o s.queues.processed with
      | some (j, job) => do
        let s ← s.freeJobPages job
        undoStorage { s with jobs := s.jobs.insert j { job with canceled := true } } o
      | none => .error .jobNotFound

/-- `decrRefCount`. It calls itself through `vmCancelThreadedIOJob` and `freeIOJob`; the first
argument bounds how deep. -/
def decrRefCountAux : Nat → State → Addr → Except Stop State
  | 0, _, _ => .error .tooDeep
  | depth + 1, s, a =>
    match s.heap a with
    | none => .error .badPointer
    | some (.vmpointer v) => do
      let s ← if v.loading then s.vmCancelThreadedIOJob (decrRefCountAux depth) a else pure s
      let swap ← s.swap.vmMarkPagesFree v.page v.usedpages
      return { s.setCell a none with swap, swappedObjects := s.swappedObjects - 1 }
    | some (.robj o) => do
      check (¬ o.refcount ≤ 0) .refcount
      let s ← if o.swapping then s.vmCancelThreadedIOJob (decrRefCountAux depth) a else pure s
      s.dropReference a

/-- `decrRefCount`: a job that is freed on the way drops references to objects that have no job. -/
def decrRefCount (a : Addr) : Except Stop State := decrRefCountAux 2 s a

/-- `vmCancelThreadedIOJob` called from outside `decrRefCount`. -/
def cancel (o : Addr) : Except Stop State := s.vmCancelThreadedIOJob decrRefCount o

/-- `queueIOJob`. -/
def queueIOJob (j : JobId) (t : ThreadId) : Except Stop State := do
  let queues ← s.queues.queueIOJob j t
  return { s with queues }

/-- `zmalloc(sizeof(*j))` with the fields written to the new job. -/
def createJob (j : JobId) (job : IoJob) : Except Stop State := do
  check (s.jobs.lookup j = none) .disabled
  return { s with jobs := s.jobs.insert j job }

/-! ## Swapping out and loading -/

/-- `vmSwapObjectBlocking`: whether it returned a `vmpointer`, which is at `vp`. -/
def vmSwapObjectBlocking (val : Addr) (pages : Nat) (random : Nat → Nat) (written : Bool)
    (vp : Addr) : Except Stop (State × Bool) := do
  let o ← s.object val
  check (o.swapping = false) .wrongStorage
  check (o.refcount = 1) .wrongStorage
  match s.swap.vmFindContiguousPages pages random with
  | (none, swap) => return ({ s with swap }, false)
  | (some page, swap) =>
    let s := { s with swap }
    if written = false then return (s, false)
    else
      let s ← s.create vp (.vmpointer ⟨false, page, pages⟩)
      let s ← s.decrRefCount val
      let swap ← s.swap.vmMarkPagesUsed page pages
      return ({ s with swap, swappedObjects := s.swappedObjects + 1 }, true)

/-- `vmSwapObjectThreaded`. -/
def vmSwapObjectThreaded (key val : Addr) (db : DbId) (j : JobId) (t : ThreadId) :
    Except Stop State := do
  let s ← s.createJob j ⟨.prepareSwap, db, key, val, some val, 0, 0, false⟩
  let s ← s.incrRefCount key
  let s ← s.incrRefCount val
  let o ← s.object val
  let s := s.setCell val (some (.robj { o with swapping := true }))
  s.queueIOJob j t

/-- `vmLoadObject`: the loaded object is at `val` and holds `bytes`. -/
def vmLoadObject (o val : Addr) (bytes : CStr) : Except Stop State := do
  match s.heap o with
  | some (.vmpointer v) =>
    let s ← if v.loading then s.cancel o else pure s
    let s ← s.create val (.robj ⟨1, false, bytes⟩)
    let swap ← s.swap.vmMarkPagesFree v.page v.usedpages
    return { s.setCell o none with swap, swappedObjects := s.swappedObjects - 1 }
  | _ => .error .wrongStorage

/-! ## Clients -/

/-- `waitForSwappedKey`, with the address of the job and the thread it may create. -/
def waitForSwappedKey (c : ClientId) (key : Addr) (j : JobId) (t : ThreadId) :
    Except Stop (State × Bool) := do
  let client ← need (s.clients.lookup c) .disabled
  let k ← s.object key
  match s.dict.lookup (client.db, k.ptr) with
  | none => return (s, false)
  | some o =>
    match s.heap o with
    | none => .error .badPointer
    | some (.robj r) =>
      if r.swapping then return (← s.cancel o, false)
      else return (s, false)
    | some (.vmpointer v) => do
      -- this maps clients to the keys they are waiting for
      let s := { s with
        clients := s.clients.insert c { client with ioKeys := client.ioKeys ++ [key] } }
      let s ← s.incrRefCount key
      -- and this keys to the clients waiting for them
      let s ← match s.ioKeys.lookup (client.db, k.ptr) with
        | none =>
          incrRefCount { s with ioKeys := s.ioKeys.insert (client.db, k.ptr) (key, [c]) } key
        | some (ko, l) =>
          pure { s with ioKeys := s.ioKeys.insert (client.db, k.ptr) (ko, l ++ [c]) }
      if v.loading then return (s, true)
      else
        let s := s.setCell o (some (.vmpointer { v with loading := true }))
        let s ← s.createJob j ⟨.load, client.db, key, o, none, v.page, 0, false⟩
        let s ← s.incrRefCount key
        return (← s.queueIOJob j t, true)

/-- The first of the keys whose bytes are `k`. -/
def searchKey (k : CStr) : List Addr → Except Stop (Option Addr)
  | [] => return none
  | a :: rest => do
    let o ← s.object a
    if o.ptr = k then return some a else searchKey k rest

/-- `dontWaitForSwappedKey`: whether the client waits for no other key. -/
def dontWaitForSwappedKey (c : ClientId) (key : Addr) : Except Stop (State × Bool) := do
  let s ← s.incrRefCount key
  let client ← need (s.clients.lookup c) .badPointer
  let k ← s.object key
  let a ← need (← s.searchKey k.ptr client.ioKeys) .notWaiting
  let ioKeys := client.ioKeys.erase a
  let s ← decrRefCount { s with clients := s.clients.insert c { client with ioKeys } } a
  let (ko, l) ← need (s.ioKeys.lookup (client.db, k.ptr)) .notWaiting
  check (c ∈ l) .notWaiting
  let s ← if l.erase c = [] then
      decrRefCount { s with ioKeys := s.ioKeys.erase (client.db, k.ptr) } ko
    else pure { s with ioKeys := s.ioKeys.insert (client.db, k.ptr) (ko, l.erase c) }
  let s ← s.decrRefCount key
  return (s, ioKeys.isEmpty)

/-- The loop of `handleClientsBlockedOnSwappedKey`. The list it walks is the one it found for the key
at first; it must still be there. -/
def handleLoop (db : DbId) (k : CStr) (key : Addr) : Nat → State → Except Stop State
  | 0, s => return s
  | len + 1, s => do
    let (_, l) ← need (s.ioKeys.lookup (db, k)) .freedList
    let c ← need l.head? .badPointer
    let (s, last) ← s.dontWaitForSwappedKey c key
    handleLoop db k key len (if last then { s with ready := s.ready ++ [c] } else s)

/-- `handleClientsBlockedOnSwappedKey`. -/
def handleClientsBlockedOnSwappedKey (db : DbId) (key : Addr) : Except Stop State := do
  let k ← s.object key
  match s.ioKeys.lookup (db, k.ptr) with
  | none => return s
  | some (_, l) => handleLoop db k.ptr key l.length s

/-! ## Completed jobs -/

/-- `vmThreadedIOCompletedJob` from the test of `j->canceled` to the end of the iteration. A swap-out
needs pages (`canSwapOut`, `random`) and the address `vp` of the new `vmpointer`, a job that is
queued again may get the thread `t`. -/
def completeJob (j : JobId) (canSwapOut : Bool) (random : Nat → Nat) (t : ThreadId) (vp : Addr) :
    Except Stop State := do
  let job ← need (s.jobs.lookup j) .freedJob
  if job.canceled then
    let s ← s.freeIOJob decrRefCount j
    return { s with queues := s.queues.release }
  else
    let k ← s.object job.key
    let o ← need (s.dict.lookup (job.db, k.ptr)) .noEntry
    let val ← need job.val .badPointer
    match job.type with
    | .load =>
      match s.heap o with
      | some (.vmpointer v) => do
        let swap ← s.swap.vmMarkPagesFree v.page v.usedpages
        let s := { s with
          swap
          swappedObjects := s.swappedObjects - 1
          dict := s.dict.insert (job.db, k.ptr) val }
        let s ← s.incrRefCount val
        let s ← s.handleClientsBlockedOnSwappedKey job.db job.key
        let s ← s.freeIOJob decrRefCount j
        return { s.setCell o none with queues := s.queues.release }
      | _ => .error .badPointer
    | .prepareSwap => do
      let r ← s.object val
      match if canSwapOut then s.swap.vmFindContiguousPages job.pages random else (none, s.swap) with
      | (none, swap) =>
        let s := { s.setCell val (some (.robj { r with swapping := false })) with swap }
        let s ← s.freeIOJob decrRefCount j
        return { s with queues := s.queues.release }
      | (some page, swap) =>
        let swap ← swap.vmMarkPagesUsed page job.pages
        queueIOJob { s with
          swap
          jobs := s.jobs.insert j { job with type := .doSwap, page }
          queues := s.queues.release } j t
    | .doSwap => do
      let r ← s.object val
      check (r.swapping = true) .notSwapping
      let s ← s.create vp (.vmpointer ⟨false, job.page, job.pages⟩)
      let s := { s with dict := s.dict.insert (job.db, k.ptr) vp }
      let s := s.setCell val (some (.robj { r with swapping := false }))
      let s ← s.decrRefCount val
      let s := { s with swappedObjects := s.swappedObjects + 1 }
      let s ← s.freeIOJob decrRefCount j
      return { s with queues := s.queues.release }

/-- What a thread does with its job outside the lock. A loaded object is at `val` and holds `bytes`;
`pages` is what `rdbSavedObjectPages` returns, `written` whether `vmWriteObjectOnSwap` succeeds. -/
def processJob (j : JobId) (val : Addr) (bytes : CStr) (pages : Nat) (written : Bool) :
    Except Stop State := do
  let job ← need (s.jobs.lookup j) .freedJob
  match job.type with
  | .load =>
    match s.heap job.id with
    | some (.vmpointer _) => do
      let s ← s.create val (.robj ⟨1, false, bytes⟩)
      return { s with jobs := s.jobs.insert j { job with val := some val } }
    | _ => .error .badPointer
  | .prepareSwap => do
    let v ← need job.val .badPointer
    let _ ← s.object v
    return { s with jobs := s.jobs.insert j { job with pages } }
  | .doSwap => do
    let v ← need job.val .badPointer
    let _ ← s.object v
    return { s with
      jobs := s.jobs.insert j (if written then job else { job with canceled := true }) }

end State

/-! ## Events -/

/-- One step of the server. -/
inductive Event
  /-- A client connects, or selects a database while it waits for nothing. -/
  | client (c : ClientId) (db : DbId)
  /-- The server makes an object, takes one more reference to an object that is not being swapped
  out, or drops one. -/
  | argument (a : Addr) (bytes : CStr)
  | retain (a : Addr)
  | drop (a : Addr)
  /-- The database code stores an object under a key, or deletes the key; the old value goes through
  `decrRefCount`. -/
  | store (k : DbKey) (a : Addr)
  | delete (k : DbKey)
  /-- `vmSwapOneObject` with the entry it has chosen. -/
  | swapBlocking (k : DbKey) (pages : Nat) (random : Nat → Nat) (written : Bool) (vp : Addr)
  | swapThreaded (k : DbKey) (key : Addr) (j : JobId) (t : ThreadId)
  /-- A lookup brings the value of a key into memory with `vmLoadObject`. -/
  | load (k : DbKey) (val : Addr) (bytes : CStr)
  /-- `blockClientOnSwappedKeys` is `wait` for each key of the command and then `block`. -/
  | wait (c : ClientId) (key : Addr) (j : JobId) (t : ThreadId)
  | block (c : ClientId)
  | dontWait (c : ClientId) (key : Addr)
  | handle (db : DbId) (key : Addr)
  /-- The first of `io_ready_clients` is resumed. -/
  | resume
  /-- `vmThreadedIOCompletedJob`: reading a byte, taking a job, completing it. -/
  | wake
  | take
  | complete (canSwapOut : Bool) (random : Nat → Nat) (t : ThreadId) (vp : Addr)
  /-- An I/O thread takes a job or exits, processes it, moves it to `io_processed`, and signals. -/
  | ioTake (t : ThreadId)
  | ioProcess (t : ThreadId) (val : Addr) (bytes : CStr) (pages : Nat) (written : Bool)
  | ioAppend (t : ThreadId)
  | ioSignal (t : ThreadId)

namespace State

variable (s : State)

/-- The main thread is not in the middle of another operation. -/
def whenIdle (x : Except Stop State) : Except Stop State := do
  check (s.queues.main = .idle) .disabled
  x

/-- The database code drops the value of a key, if there is one. -/
def dropValue (k : DbKey) : Except Stop State :=
  match s.dict.lookup k with
  | none => return s
  | some old => s.decrRefCount old

/-- A candidate of `vmSwapOneObject`: a value in memory that only its key refers to. -/
def candidate (k : DbKey) : Except Stop Addr := do
  let val ← need (s.dict.lookup k) .disabled
  match s.heap val with
  | some (.robj o) =>
    check (o.swapping = false ∧ o.refcount = 1) .disabled
    return val
  | some (.vmpointer _) => .error .disabled
  | none => .error .badPointer

/-- One step of the server: the next state, or why there is none. -/
def step (s : State) : Event → Except Stop State
  | .client c db => s.whenIdle do
    match s.clients.lookup c with
    | none => return { s with clients := s.clients.insert c ⟨db, [], false⟩ }
    | some client =>
      check (client.ioKeys = []) .disabled
      return { s with clients := s.clients.insert c { client with db } }
  | .argument a bytes => s.whenIdle do
    let s ← s.create a (.robj ⟨1, false, bytes⟩)
    return { s with held := a :: s.held }
  | .retain a => s.whenIdle do
    match s.heap a with
    | some (.robj o) =>
      check (o.swapping = false) .disabled
      let s ← s.incrRefCount a
      return { s with held := a :: s.held }
    | _ => .error .disabled
  | .drop a => s.whenIdle do
    check (a ∈ s.held) .disabled
    decrRefCount { s with held := s.held.erase a } a
  | .store k a => s.whenIdle do
    check (a ∈ s.held) .disabled
    let s ← s.dropValue k
    return { s with dict := s.dict.insert k a, held := s.held.erase a }
  | .delete k => s.whenIdle do
    let s ← s.dropValue k
    return { s with dict := s.dict.erase k }
  | .swapBlocking k pages random written vp => s.whenIdle do
    let val ← s.candidate k
    let (s, swapped) ← s.vmSwapObjectBlocking val pages random written vp
    return if swapped then { s with dict := s.dict.insert k vp } else s
  | .swapThreaded k key j t => s.whenIdle do
    let val ← s.candidate k
    let s ← s.create key (.robj ⟨1, false, k.2⟩)
    let s ← s.vmSwapObjectThreaded key val k.1 j t
    s.decrRefCount key
  | .load k val bytes => s.whenIdle do
    let o ← need (s.dict.lookup k) .disabled
    match s.heap o with
    | some (.vmpointer _) =>
      let s ← s.vmLoadObject o val bytes
      return { s with dict := s.dict.insert k val }
    | some (.robj _) => .error .disabled
    | none => .error .badPointer
  | .wait c key j t => s.whenIdle do
    check (key ∈ s.held) .disabled
    return (← s.waitForSwappedKey c key j t).1
  | .block c => s.whenIdle do
    let client ← need (s.clients.lookup c) .disabled
    return if client.ioKeys = [] then s
      else { s with clients := s.clients.insert c { client with ioWait := true } }
  | .dontWait c key => s.whenIdle do
    let client ← need (s.clients.lookup c) .disabled
    check (key ∈ client.ioKeys) .disabled
    return (← s.dontWaitForSwappedKey c key).1
  | .handle db key => s.whenIdle do
    check (key ∈ s.held) .disabled
    s.handleClientsBlockedOnSwappedKey db key
  | .resume => s.whenIdle do
    match s.ready with
    | [] => .error .disabled
    | c :: rest => do
      let client ← need (s.clients.lookup c) .disabled
      return { s with
        ready := rest
        clients := s.clients.insert c { client with ioWait := false } }
  | .wake => return { s with queues := ← s.queues.wake }
  | .take => return { s with queues := ← s.queues.take }
  | .complete canSwapOut random t vp =>
    match s.queues.main with
    | .holding j => s.completeJob j canSwapOut random t vp
    | _ => .error .disabled
  | .ioTake t => return { s with queues := ← s.queues.ioTake t }
  | .ioProcess t val bytes pages written =>
    match s.queues.threads.lookup t with
    | some (.working j) => do
      let s ← s.processJob j val bytes pages written
      return { s with queues := s.queues.ioFinish t j }
    | _ => .error .disabled
  | .ioAppend t => return { s with queues := ← s.queues.ioAppend t }
  | .ioSignal t => return { s with queues := ← s.queues.ioSignal t }

/-- The server before anything has happened. -/
def init (pages : Nat) (maxThreads : Int) : State where
  heap := fun _ => none
  dict := ∅
  held := []
  jobs := ∅
  queues := ⟨[], [], [], ∅, 0, maxThreads, 0, .idle⟩
  ioKeys := ∅
  clients := ∅
  ready := []
  swap := ⟨pages, fun _ => 0, 0, 0, 0⟩
  swappedObjects := 0

end State

end Rtfsc.Redis.Vm
