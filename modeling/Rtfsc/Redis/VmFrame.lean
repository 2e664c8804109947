import Rtfsc.Redis.VmWaits

/-!
# redis: what the main thread leaves alone

The functions of the virtual memory never touch the jobs that the threads have or have processed.
Only `dontWaitForSwappedKey` ends the waiting of a client, and only
`handleClientsBlockedOnSwappedKey` makes one ready.
-/

namespace Rtfsc.Redis.Vm

open Rtfsc.Machine

namespace State

/-- What the main thread leaves alone; the ready clients too, where `ready` says so, and where
`waits` does, no client stops to wait. -/
structure Untouched (ready waits : Prop) (s s' : State) : Prop where
  ready : ready → s'.ready = s.ready
  keys : waits → ∀ c, s.keysOf c ≠ [] → s'.keysOf c ≠ []
  processing : s'.queues.processing = s.queues.processing
  processed : s'.queues.processed = s.queues.processed
  maxThreads : s'.queues.maxThreads = s.queues.maxThreads
  main : s'.queues.main = s.queues.main ∨ s'.queues.main = .idle

/-- A computation that leaves these alone. Its value is a state, or has one in it. -/
def LeavesAlone {α : Type} (ready waits : Prop) (view : α → State) (s : State)
    (x : Except Stop α) : Prop :=
  Ends (fun _ => True) (fun a => Untouched ready waits s (view a)) x

variable {r w : Prop} {s s' : State} {α β : Type} {v : α → State} {u : β → State}
  {decr : State → Addr → Except Stop State}

theorem Untouched.refl (s : State) : Untouched r w s s :=
  ⟨fun _ => rfl, fun _ _ => id, rfl, rfl, rfl, .inl rfl⟩

theorem keysOf_congr (h : s'.clients = s.clients) (c : ClientId) : s'.keysOf c = s.keysOf c := by
  unfold keysOf
  rw [h]

theorem Untouched.same
    (h : (s'.ready, s'.clients, s'.queues) = (s.ready, s.clients, s.queues)) : Untouched r w s s' := by
  obtain ⟨hready, hrest⟩ := Prod.mk.inj h
  obtain ⟨hclients, hqueues⟩ := Prod.mk.inj hrest
  refine ⟨fun _ => hready, fun _ c => ?_, ?_, ?_, ?_, .inl ?_⟩
  · rw [keysOf_congr hclients]
    exact id
  all_goals rw [hqueues]

theorem keysOf_insert {c : ClientId} {client : Client}
    (h : s'.clients = s.clients.insert c client) (c' : ClientId) :
    s'.keysOf c' = if c' = c then client.ioKeys else s.keysOf c' := by
  unfold keysOf
  rw [h, lookup_insert_eq]
  split <;> rfl

/-- The entry of one client is written, which does not stop to wait. -/
theorem Untouched.setClient {c : ClientId} {client : Client} {ready : List ClientId}
    (hready : r → ready = s.ready) (hkeys : s.keysOf c ≠ [] → client.ioKeys ≠ []) :
    Untouched r w s { s with clients := s.clients.insert c client, ready } where
  ready := hready
  keys _ c' hc' := by
    rw [keysOf_insert rfl]
    split
    · next hcc =>
      subst hcc
      exact hkeys hc'
    · exact hc'
  processing := rfl
  processed := rfl
  maxThreads := rfl
  main := .inl rfl

theorem Untouched.trans {s'' : State} (h : Untouched r w s s') (h' : Untouched r w s' s'') :
    Untouched r w s s'' where
  ready hr := (h'.ready hr).trans (h.ready hr)
  keys hw c hc := h'.keys hw c (h.keys hw c hc)
  processing := h'.processing.trans h.processing
  processed := h'.processed.trans h.processed
  maxThreads := h'.maxThreads.trans h.maxThreads
  main := by
    rcases h'.main with h' | h'
    · rw [h']
      exact h.main
    · exact .inr h'

theorem LeavesAlone.bind {x : Except Stop α} {g : α → Except Stop β} (hx : LeavesAlone r w v s x)
    (hg : ∀ a, LeavesAlone r w u (v a) (g a)) : LeavesAlone r w u s (x >>= g) :=
  Ends.bind hx fun a _ ha => (hg a).imp fun _ => ha.trans

/-- The part that matters has not changed before the computation. -/
theorem LeavesAlone.of {x : Except Stop α} (hx : LeavesAlone r w v s' x) (h : Untouched r w s s') :
    LeavesAlone r w v s x :=
  Ends.imp hx fun _ => h.trans

theorem LeavesAlone.mono {r' w' : Prop} {x : Except Stop α} (hx : LeavesAlone r' w' v s x)
    (hr : r → r') (hw : w → w') : LeavesAlone r w v s x :=
  Ends.imp hx fun _ h => ⟨fun h' => h.ready (hr h'), fun h' => h.keys (hw h'), h.processing,
    h.processed, h.maxThreads, h.main⟩

theorem LeavesAlone.pure {a : α} (h : Untouched r w s (v a)) : LeavesAlone r w v s (Pure.pure a) := h

theorem LeavesAlone.check {p : Prop} [Decidable p] {e : Stop} {g : Unit → Except Stop α}
    (hg : LeavesAlone r w v s (g ())) : LeavesAlone r w v s (check p e >>= g) :=
  Ends.check_bind (fun _ => hg) fun _ => trivial

/-- A value that is only read. -/
theorem LeavesAlone.read {x : Except Stop β} {g : β → Except Stop α}
    (hg : ∀ b, LeavesAlone r w v s (g b)) : LeavesAlone r w v s (x >>= g) := by
  cases x with
  | ok b => exact hg b
  | error e => exact trivial

theorem LeavesAlone.need {x : Option β} {e : Stop} {g : β → Except Stop α}
    (hg : ∀ b, x = some b → LeavesAlone r w v s (g b)) : LeavesAlone r w v s (need x e >>= g) :=
  Ends.need_bind hg fun _ => trivial

/-! ## Objects and jobs -/

theorem create_leavesAlone (a : Addr) (c : Cell) : LeavesAlone r w id s (s.create a c) :=
  .check (.pure (.same rfl))

theorem incrRefCount_leavesAlone (s : State) (a : Addr) : LeavesAlone r w id s (s.incrRefCount a) :=
  .read fun _ => .pure (.same rfl)

theorem dropReference_leavesAlone (a : Addr) : LeavesAlone r w id s (s.dropReference a) := by
  refine .read fun o => ?_
  split <;> exact .pure (.same rfl)

theorem freeIOJob_leavesAlone (hdecr : ∀ s a, LeavesAlone r w id s (decr s a)) (s : State)
    (j : JobId) : LeavesAlone r w id s (s.freeIOJob decr j) := by
  have hend : ∀ (s : State) (job : IoJob), LeavesAlone r w id s (do
      let s ← decr s job.key
      return { s with jobs := s.jobs.erase j }) := fun s job =>
    (hdecr s job.key).bind fun s => .pure (.same rfl)
  refine .read fun job => ?_
  split
  · refine .read fun o => ?_
    dsimp only
    split
    · exact .of ((hdecr _ _).bind fun s => hend s job) (.same rfl)
    · exact (hdecr _ _).bind fun s => hend s job
  · exact hend s job

theorem freeJobPages_leavesAlone (job : IoJob) : LeavesAlone r w id s (s.freeJobPages job) := by
  unfold freeJobPages
  split
  · exact .read fun swap => .pure (.same rfl)
  · exact .pure (.refl s)

theorem undoStorage_leavesAlone (s : State) (o : Addr) : LeavesAlone r w id s (s.undoStorage o) :=
  .read fun _ => .pure (.same rfl)

theorem vmCancelThreadedIOJob_leavesAlone (hdecr : ∀ s a, LeavesAlone r w id s (decr s a)) (o : Addr) :
    LeavesAlone r w id s (s.vmCancelThreadedIOJob decr o) := by
  refine .read fun cell => .check (.read fun found => ?_)
  split
  · next j job =>
    refine (freeJobPages_leavesAlone job).bind fun s =>
      (freeIOJob_leavesAlone hdecr s j).bind fun s => ?_
    exact .of (undoStorage_leavesAlone _ o) ⟨fun _ => rfl, fun _ _ => id, rfl, rfl, rfl, .inl rfl⟩
  · refine .read fun found => ?_
    split
    · exact trivial
    · refine .read fun found => ?_
      split
      · next j job =>
        exact (freeJobPages_leavesAlone job).bind fun s =>
          .of (undoStorage_leavesAlone _ o) (.same rfl)
      · exact trivial

theorem decrRefCountAux_leavesAlone (depth : Nat) (s : State) (a : Addr) :
    LeavesAlone r w id s (decrRefCountAux depth s a) := by
  induction depth generalizing s a with
  | zero => exact trivial
  | succ depth ih =>
    rw [decrRefCountAux]
    split
    · exact trivial
    · next v _ =>
      have hend : ∀ s : State, LeavesAlone r w id s (do
          let swap ← s.swap.vmMarkPagesFree v.page v.usedpages
          return { s.setCell a none with swap, swappedObjects := s.swappedObjects - 1 }) :=
        fun s => .read fun swap => .pure (.same rfl)
      dsimp only
      split
      · exact (vmCancelThreadedIOJob_leavesAlone ih a).bind hend
      · exact hend s
    · refine .check ?_
      dsimp only
      split
      · exact (vmCancelThreadedIOJob_leavesAlone ih a).bind fun s => dropReference_leavesAlone a
      · exact dropReference_leavesAlone a

theorem decrRefCount_leavesAlone (s : State) (a : Addr) : LeavesAlone r w id s (s.decrRefCount a) :=
  decrRefCountAux_leavesAlone 2 s a

theorem cancel_leavesAlone (s : State) (a : Addr) : LeavesAlone r w id s (s.cancel a) :=
  vmCancelThreadedIOJob_leavesAlone decrRefCount_leavesAlone a

theorem queueIOJob_leavesAlone (s : State) (j : JobId) (t : ThreadId) :
    LeavesAlone r w id s (s.queueIOJob j t) := by
  have hq : Ends (fun _ => True) (fun q => q.processing = s.queues.processing ∧
      q.processed = s.queues.processed ∧ q.maxThreads = s.queues.maxThreads ∧
      q.main = s.queues.main) (s.queues.queueIOJob j t) := by
    unfold Queues.queueIOJob
    dsimp only
    split
    · exact Ends.check_bind (fun _ => Ends.pure ⟨rfl, rfl, rfl, rfl⟩) fun _ => trivial
    · exact Ends.pure ⟨rfl, rfl, rfl, rfl⟩
  exact hq.bind fun q _ ⟨hprocessing, hprocessed, hmax, hmain⟩ =>
    Ends.pure ⟨fun _ => rfl, fun _ _ => id, hprocessing, hprocessed, hmax, .inl hmain⟩

theorem createJob_leavesAlone (s : State) (j : JobId) (job : IoJob) :
    LeavesAlone r w id s (s.createJob j job) :=
  .check (.pure (.same rfl))

/-! ## Swapping out and loading -/

theorem vmSwapObjectBlocking_leavesAlone (val : Addr) (pages : Nat) (random : Nat → Nat)
    (written : Bool) (vp : Addr) :
    LeavesAlone r w Prod.fst s (s.vmSwapObjectBlocking val pages random written vp) := by
  refine .read fun o => .check (.check ?_)
  split
  · exact .pure (.same rfl)
  · dsimp only
    split
    · exact .pure (.same rfl)
    · refine .of ((create_leavesAlone vp _).bind fun s =>
        (decrRefCount_leavesAlone _ val).bind fun s => .read fun swap => .pure (.same rfl)) (.same rfl)

theorem vmSwapObjectThreaded_leavesAlone (key val : Addr) (db : DbId) (j : JobId) (t : ThreadId) :
    LeavesAlone r w id s (s.vmSwapObjectThreaded key val db j t) := by
  refine (createJob_leavesAlone s j _).bind fun s => (incrRefCount_leavesAlone _ key).bind fun s =>
    (incrRefCount_leavesAlone _ val).bind fun s => .read fun o => ?_
  exact .of (queueIOJob_leavesAlone _ j t) (.same rfl)

theorem vmLoadObject_leavesAlone (o val : Addr) (bytes : CStr) :
    LeavesAlone r w id s (s.vmLoadObject o val bytes) := by
  unfold vmLoadObject
  split
  · next v _ =>
    have hend : ∀ s : State, LeavesAlone r w id s (do
        let s ← s.create val (.robj ⟨1, false, bytes⟩)
        let swap ← s.swap.vmMarkPagesFree v.page v.usedpages
        return { s.setCell o none with swap, swappedObjects := s.swappedObjects - 1 }) :=
      fun s => (create_leavesAlone val _).bind fun s => .read fun swap => .pure (.same rfl)
    dsimp only
    split
    · exact (cancel_leavesAlone s o).bind hend
    · exact hend s
  · exact trivial

theorem processJob_leavesAlone (j : JobId) (val : Addr) (bytes : CStr) (pages : Nat)
    (written : Bool) : LeavesAlone r w id s (s.processJob j val bytes pages written) := by
  refine .read fun job => ?_
  split
  · split
    · exact (create_leavesAlone val _).bind fun s => .pure (.same rfl)
    · exact trivial
  · exact .read fun v => .read fun o => .pure (.same rfl)
  · exact .read fun v => .read fun o => .pure (.same rfl)

theorem dropValue_leavesAlone (k : DbKey) : LeavesAlone r w id s (s.dropValue k) := by
  unfold dropValue
  split
  · exact .pure (.refl s)
  · exact decrRefCount_leavesAlone s _

/-! ## Clients -/

theorem waitForSwappedKey_leavesAlone (c : ClientId) (key : Addr) (j : JobId) (t : ThreadId) :
    LeavesAlone r w Prod.fst s (s.waitForSwappedKey c key j t) := by
  refine .read fun client => .read fun k => ?_
  split
  · exact .pure (.refl s)
  · next o _ =>
    split
    · exact trivial
    · split
      · exact (cancel_leavesAlone s o).bind fun s => .pure (.refl s)
      · exact .pure (.refl s)
    · next v _ =>
      have hend : ∀ s : State, LeavesAlone r w Prod.fst s (
          if v.loading then return (s, true)
          else do
            let s := s.setCell o (some (.vmpointer { v with loading := true }))
            let s ← s.createJob j ⟨.load, client.db, key, o, none, v.page, 0, false⟩
            let s ← s.incrRefCount key
            return (← s.queueIOJob j t, true)) := by
        intro s
        split
        · exact .pure (.refl s)
        · exact .of ((createJob_leavesAlone _ j _).bind fun s =>
            (incrRefCount_leavesAlone _ key).bind fun s =>
              (queueIOJob_leavesAlone _ j t).bind fun s => .pure (.refl s)) (.same rfl)
      refine .of ((incrRefCount_leavesAlone _ key).bind fun s => ?_) (.setClient (fun _ => rfl)
        fun _ => List.append_ne_nil_of_right_ne_nil _ (List.cons_ne_nil key []))
      dsimp only
      split
      · exact .of ((incrRefCount_leavesAlone _ key).bind hend) (.same rfl)
      · exact .of (hend _) (.same rfl)

theorem dontWaitForSwappedKey_leavesAlone (s : State) (c : ClientId) (key : Addr) :
    LeavesAlone r False Prod.fst s (s.dontWaitForSwappedKey c key) := by
  refine (incrRefCount_leavesAlone s key).bind fun s => .read fun client => .read fun k =>
    .read fun a => .read fun a => ?_
  refine .of ((decrRefCount_leavesAlone _ a).bind fun s => .read fun e => .check ?_)
    ⟨fun _ => rfl, nofun, rfl, rfl, rfl, .inl rfl⟩
  have hend : ∀ s : State, LeavesAlone r False Prod.fst s (do
      let s ← s.decrRefCount key
      return (s, (client.ioKeys.erase a).isEmpty)) := fun s =>
    (decrRefCount_leavesAlone s key).bind fun s => .pure (.refl s)
  dsimp only
  split
  · exact .of ((decrRefCount_leavesAlone _ _).bind hend) (.same rfl)
  · exact .of (hend _) (.same rfl)

/-! ## Where a client may become ready -/

theorem handleLoop_leavesAlone (db : DbId) (k : CStr) (key : Addr) (len : Nat) (s : State) :
    LeavesAlone False False id s (handleLoop db k key len s) := by
  induction len generalizing s with
  | zero => exact .pure (.refl s)
  | succ len ih =>
    refine .read fun e => .read fun c => (dontWaitForSwappedKey_leavesAlone s c key).bind fun p => ?_
    refine .of (ih _) ?_
    split
    · exact ⟨nofun, nofun, rfl, rfl, rfl, .inl rfl⟩
    · exact .refl _

theorem handleClientsBlockedOnSwappedKey_leavesAlone (s : State) (db : DbId) (key : Addr) :
    LeavesAlone False False id s (s.handleClientsBlockedOnSwappedKey db key) := by
  refine .read fun k => ?_
  split
  · exact .pure (.refl s)
  · exact handleLoop_leavesAlone ..

theorem completeJob_leavesAlone (j : JobId) (canSwapOut : Bool) (random : Nat → Nat) (t : ThreadId)
    (vp : Addr) : LeavesAlone False False id s (s.completeJob j canSwapOut random t vp) := by
  have hrelease : ∀ s : State, Untouched False False s { s with queues := s.queues.release } :=
    fun s => ⟨fun _ => rfl, fun _ _ => id, rfl, rfl, rfl, .inr rfl⟩
  have hend : ∀ s : State, LeavesAlone False False id s (do
      let s ← s.freeIOJob decrRefCount j
      return { s with queues := s.queues.release }) := fun s =>
    (freeIOJob_leavesAlone decrRefCount_leavesAlone s j).bind fun s => .pure (hrelease s)
  refine .read fun job => ?_
  split
  · exact hend s
  · refine .read fun k => .read fun o => .read fun val => ?_
    split
    · split
      · refine .read fun swap => .of ((incrRefCount_leavesAlone _ val).bind fun s =>
          (handleClientsBlockedOnSwappedKey_leavesAlone s _ _).bind fun s =>
            (freeIOJob_leavesAlone decrRefCount_leavesAlone s j).bind fun s => .pure ?_) (.same rfl)
        exact ⟨fun _ => rfl, fun _ _ => id, rfl, rfl, rfl, .inr rfl⟩
      · exact trivial
    · refine .read fun v => ?_
      split
      · exact .of (hend _) (.same rfl)
      · refine .read fun swap => .of (queueIOJob_leavesAlone _ j t) ?_
        exact ⟨fun _ => rfl, fun _ _ => id, rfl, rfl, rfl, .inr rfl⟩
    · exact .read fun v => .check ((create_leavesAlone vp _).bind fun s =>
        .of ((decrRefCount_leavesAlone _ val).bind fun s => .of (hend _) (.same rfl)) (.same rfl))

end State

/-! ## One step -/

/-- The event moves jobs between the queues and does nothing else. -/
def Event.movesJobs : Event → Bool
  | .wake => true
  | .take => true
  | .ioTake _ => true
  | .ioAppend _ => true
  | .ioSignal _ => true
  | _ => false

/-- The event may change the list of ready clients. -/
def Event.changesReady : Event → Bool
  | .handle _ _ => true
  | .complete _ _ _ _ => true
  | .resume => true
  | _ => false

/-- The event may end the waiting of a client. -/
def Event.endsWaits : Event → Bool
  | .dontWait _ _ => true
  | .handle _ _ => true
  | .complete _ _ _ _ => true
  | _ => false

namespace State

variable {r w : Prop} {s s' : State} {α : Type} {v : α → State}

theorem whenIdle_leavesAlone {x : Except Stop State} (h : LeavesAlone r w id s x) :
    LeavesAlone r w id s (s.whenIdle x) :=
  .check h

theorem step_leavesAlone (e : Event) (he : e.movesJobs = false) :
    LeavesAlone (e.changesReady = false) (e.endsWaits = false) id s (s.step e) := by
  cases e with
  | client c db =>
    refine whenIdle_leavesAlone ?_
    split
    · next hc =>
      refine .pure (.setClient (fun _ => rfl) fun hne => absurd ?_ hne)
      unfold keysOf
      rw [hc]
      rfl
    · next client hc =>
      refine .check (.pure (.setClient (fun _ => rfl) fun hne => ?_))
      rwa [keysOf_eq hc] at hne
  | argument a bytes =>
    exact whenIdle_leavesAlone ((create_leavesAlone a _).bind fun s => .pure (.same rfl))
  | retain a =>
    refine whenIdle_leavesAlone ?_
    split
    · exact .check ((incrRefCount_leavesAlone s a).bind fun s => .pure (.same rfl))
    · exact trivial
  | drop a => exact whenIdle_leavesAlone (.check (.of (decrRefCount_leavesAlone _ a) (.same rfl)))
  | store k a =>
    exact whenIdle_leavesAlone (.check ((dropValue_leavesAlone k).bind fun s => .pure (.same rfl)))
  | delete k =>
    exact whenIdle_leavesAlone ((dropValue_leavesAlone k).bind fun s => .pure (.same rfl))
  | swapBlocking k pages random written vp =>
    refine whenIdle_leavesAlone (.read fun val =>
      (vmSwapObjectBlocking_leavesAlone val pages random written vp).bind fun p => .pure ?_)
    split
    · exact .same rfl
    · exact .refl _
  | swapThreaded k key j t =>
    exact whenIdle_leavesAlone (.read fun val => (create_leavesAlone key _).bind fun s =>
      (vmSwapObjectThreaded_leavesAlone key val k.1 j t).bind fun s => decrRefCount_leavesAlone s key)
  | load k val bytes =>
    refine whenIdle_leavesAlone (.read fun o => ?_)
    split
    · exact (vmLoadObject_leavesAlone o val bytes).bind fun s => .pure (.same rfl)
    · exact trivial
    · exact trivial
  | wait c key j t =>
    exact whenIdle_leavesAlone (.check ((waitForSwappedKey_leavesAlone c key j t).bind fun p =>
      .pure (.refl _)))
  | block c =>
    refine whenIdle_leavesAlone (.need fun client hc => .pure ?_)
    split
    · exact .refl s
    · refine .setClient (fun _ => rfl) fun hne => ?_
      rwa [keysOf_eq hc] at hne
  | dontWait c key =>
    exact whenIdle_leavesAlone (.read fun client => .check
      (((dontWaitForSwappedKey_leavesAlone s c key).mono id nofun).bind fun p => .pure (.refl _)))
  | handle db key =>
    exact whenIdle_leavesAlone (.check
      ((handleClientsBlockedOnSwappedKey_leavesAlone s db key).mono nofun nofun))
  | resume =>
    refine whenIdle_leavesAlone ?_
    split
    · exact trivial
    · refine .need fun client hc => .pure (.setClient nofun fun hne => ?_)
      rwa [keysOf_eq hc] at hne
  | wake => cases he
  | take => cases he
  | complete canSwapOut random t vp =>
    rw [step]
    split
    · next j _ => exact (completeJob_leavesAlone j canSwapOut random t vp).mono nofun nofun
    · exact trivial
  | ioTake t => cases he
  | ioProcess t val bytes pages written =>
    rw [step]
    split
    · next j _ =>
      exact (processJob_leavesAlone j val bytes pages written).bind fun s =>
        .pure ⟨fun _ => rfl, fun _ _ => id, rfl, rfl, rfl, .inl rfl⟩
    · exact trivial
  | ioAppend t => cases he
  | ioSignal t => cases he

/-- What an event that moves jobs leaves alone. A new job stays one, or a thread takes it. -/
structure OnlyQueues (s : State) (e : Event) (s' : State) : Prop where
  ready : s'.ready = s.ready
  clients : s'.clients = s.clients
  maxThreads : s'.queues.maxThreads = s.queues.maxThreads
  taken : ∀ j ∈ s.queues.newjobs, j ∈ s'.queues.newjobs ∨
    ∃ t, e = .ioTake t ∧ s'.queues.threads.lookup t = some (.working j)

theorem step_onlyQueues (e : Event) (he : e.movesJobs = true) :
    Ends (fun _ => True) (s.OnlyQueues e) (s.step e) := by
  have hend : ∀ {x : Except Stop Queues},
      Ends (fun _ => True) (fun q => q.maxThreads = s.queues.maxThreads ∧
        ∀ j ∈ s.queues.newjobs, j ∈ q.newjobs ∨
          ∃ t, e = .ioTake t ∧ q.threads.lookup t = some (.working j)) x →
      Ends (fun _ => True) (s.OnlyQueues e) (do return { s with queues := ← x }) :=
    fun hx => hx.bind fun q _ hq => Ends.pure ⟨rfl, rfl, hq.1, hq.2⟩
  cases e with
  | wake => exact hend (Ends.check_bind (fun _ => Ends.pure ⟨rfl, fun _ => .inl⟩) fun _ => trivial)
  | take =>
    refine hend (Ends.check_bind (fun _ => ?_) fun _ => trivial)
    split
    · exact trivial
    · exact Ends.pure ⟨rfl, fun _ => .inl⟩
  | ioTake t =>
    refine hend (Ends.check_bind (fun _ => ?_) fun _ => trivial)
    split
    · next hnil => exact Ends.pure ⟨rfl, fun j hj => .inl hj⟩
    · next j rest hnew =>
      refine Ends.pure ⟨rfl, fun i hi => ?_⟩
      rw [hnew] at hi
      rcases List.mem_cons.mp hi with rfl | hrest
      · exact .inr ⟨t, rfl, AList.lookup_insert _⟩
      · exact .inl hrest
  | ioAppend t =>
    refine hend ?_
    unfold Queues.ioAppend
    split
    · exact Ends.pure ⟨rfl, fun _ => .inl⟩
    · exact trivial
  | ioSignal t =>
    exact hend (Ends.check_bind (fun _ => Ends.pure ⟨rfl, fun _ => .inl⟩) fun _ => trivial)
  | _ => cases he

/-- The bound on the number of threads is the one the server was started with. -/
theorem step_maxThreads {e : Event} (h : s.step e = .ok s') :
    s'.queues.maxThreads = s.queues.maxThreads := by
  cases he : e.movesJobs with
  | true => exact ((step_onlyQueues e he).of_ok h).maxThreads
  | false => exact (Ends.of_ok (step_leavesAlone e he) h).maxThreads

/-- Only three events change the list of ready clients. -/
theorem step_ready {e : Event} (h : s.step e = .ok s') (he : e.changesReady = false) :
    s'.ready = s.ready := by
  cases hmoves : e.movesJobs with
  | true => exact ((step_onlyQueues e hmoves).of_ok h).ready
  | false => exact (Ends.of_ok (step_leavesAlone e hmoves) h).ready he

/-- Only three events end the waiting of a client. -/
theorem step_keys {e : Event} (h : s.step e = .ok s') (he : e.endsWaits = false) {c : ClientId}
    (hc : s.keysOf c ≠ []) : s'.keysOf c ≠ [] := by
  cases hmoves : e.movesJobs with
  | true =>
    rw [keysOf_congr ((step_onlyQueues e hmoves).of_ok h).clients]
    exact hc
  | false => exact (Ends.of_ok (step_leavesAlone e hmoves) h).keys he c hc

end State

end Rtfsc.Redis.Vm
