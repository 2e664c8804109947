import Rtfsc.Redis.VmFrame
import Rtfsc.Redis.VmStep

/-!
# redis: waiting clients and jobs between the threads

The lists of waiting clients and the keys of the clients agree in every state, and a client is put on
`io_ready_clients` once, when the last key it waits for is handled.
-/

namespace Rtfsc.Redis.Vm

open Rtfsc.Machine

namespace State

variable {s s' : State} {e : Event} {c : ClientId} {key : Addr} {db : DbId} {pages : Nat}
  {maxThreads : Int} {es : List Event}

/-- What an event does to the clients that wait and to the ready ones. -/
def Wakes (s : State) (e : Event) (s' : State) : Prop :=
  match e with
  | .handle db key =>
    Readied s s' ∧ ∀ k, s.bytesOf key = some k → s'.ioKeys.lookup (db, k) = none
  | .complete _ _ _ _ => Readied s s' ∧ ∀ j, s.queues.main = .holding j → s.Arrived j s'
  | .dontWait c _ => s'.ready = s.ready ∧ ∀ c', c' ≠ c → s'.keysOf c' = s.keysOf c'
  | .resume => (∃ c, s.ready = c :: s'.ready) ∧ ∀ c, s.keysOf c ≠ [] → s'.keysOf c ≠ []
  | _ => s'.ready = s.ready ∧ ∀ c, s.keysOf c ≠ [] → s'.keysOf c ≠ []

/-- An operation of the main thread that has been taken. -/
theorem whenIdle_ok {x : Except Stop State} (h : s.whenIdle x = .ok s') : x = .ok s' := by
  by_cases hidle : s.queues.main = .idle
  · rw [whenIdle, check_pos hidle] at h
    exact h
  · rw [whenIdle, check, if_neg hidle] at h
    cases h

theorem check_ok {α : Type} {p : Prop} [Decidable p] {e : Stop} {x : Except Stop α} {a : α}
    (h : (do check p e; x) = .ok a) : p ∧ x = .ok a := by
  by_cases hp : p
  · rw [check_pos hp] at h
    exact ⟨hp, h⟩
  · rw [check, if_neg hp] at h
    cases h

theorem handle_wakes (h : s.Inv False []) (hs : s.step (.handle db key) = .ok s') :
    s.Wakes (.handle db key) s' := by
  obtain ⟨hkey, hs⟩ := check_ok (whenIdle_ok hs)
  obtain ⟨ko, hko, hks⟩ := h.held_object hkey
  have hpin : 0 < s.jobRefs key + s.held.count key := by
    have hpos := List.count_pos_iff.mpr hkey
    omega
  obtain ⟨s₁, hs₁, -, -, hhandled⟩ := handleClientsBlockedOnSwappedKey_eq h.keys hko hks hpin db
  rw [hs₁] at hs
  cases hs
  refine ⟨hhandled.ready, fun k hk => ?_⟩
  rw [bytesOf_robj hko] at hk
  cases hk
  exact hhandled.gone

theorem complete_wakes {canSwapOut : Bool} {random : Nat → Nat} {t : ThreadId} {vp : Addr}
    (h : s.Inv False []) (hs : s.step (.complete canSwapOut random t vp) = .ok s') :
    s.Wakes (.complete canSwapOut random t vp) s' := by
  rw [step] at hs
  split at hs
  · next j hmain =>
    have hends := (completeJob_ends h hmain canSwapOut random t vp).of_ok hs
    refine ⟨hends.1.2, fun j' hj' => ?_⟩
    rw [hmain] at hj'
    cases hj'
    exact hends.2
  · cases hs

theorem dontWait_wakes (h : s.Inv False []) (hs : s.step (.dontWait c key) = .ok s') :
    s.Wakes (.dontWait c key) s' := by
  refine ⟨step_ready hs rfl, fun c' hne => ?_⟩
  have hs := whenIdle_ok hs
  cases hc : s.clients.lookup c with
  | none =>
    rw [hc] at hs
    cases hs
  | some client =>
    rw [hc, need_some, value_bind] at hs
    obtain ⟨hkey, hs⟩ := check_ok hs
    obtain ⟨ko, hko, hks⟩ := h.keys.object (waitRefs_client hc hkey)
    obtain ⟨s₁, a, hs₁, -, -, hreleased⟩ :=
      dontWaitForSwappedKey_eq h.keys hc hko hks ⟨key, hkey, bytesOf_robj hko⟩
    rw [hs₁] at hs
    cases hs
    exact (hreleased.keysOf c').trans (if_neg hne)

theorem resume_wakes (hs : s.step .resume = .ok s') : s.Wakes .resume s' := by
  refine ⟨?_, fun c => step_keys hs rfl⟩
  have hs := whenIdle_ok hs
  cases hready : s.ready with
  | nil =>
    rw [hready] at hs
    cases hs
  | cons c rest =>
    rw [hready] at hs
    dsimp only at hs
    cases hc : s.clients.lookup c with
    | none =>
      rw [hc] at hs
      cases hs
    | some client =>
      rw [hc] at hs
      cases hs
      exact ⟨c, rfl⟩

theorem step_wakes (h : s.Inv False []) (hs : s.step e = .ok s') : s.Wakes e s' := by
  cases e with
  | handle db key => exact handle_wakes h hs
  | complete canSwapOut random t vp => exact complete_wakes h hs
  | dontWait c key => exact dontWait_wakes h hs
  | resume => exact resume_wakes hs
  | _ => exact ⟨step_ready hs rfl, fun c => step_keys hs rfl⟩

/-- In every state of every run the two maps between clients and keys agree and keep no empty list;
no assert of `dontWaitForSwappedKey` fires in the next step and no freed list is walked; and a client
becomes ready once, in the step that handles its last key. -/
theorem run_blocked (h : Run Steps (init pages maxThreads) es s) :
    (∀ c db k, (s.waiting (db, k)).count c = s.awaited c db k) ∧
      (∀ k e, s.ioKeys.lookup k = some e → e.2 ≠ []) ∧
      (∀ e, s.step e ≠ .error .notWaiting ∧ s.step e ≠ .error .freedList ∧
        s.step e ≠ .error .badPointer) ∧
      ∀ e s', Steps s e s' → s.Wakes e s' := by
  have hinv := run_inv h
  refine ⟨hinv.waits.count, hinv.waits.nonempty, fun e => ?_, fun e s' => step_wakes hinv⟩
  have hstop : ∀ stop, s.step e = .error stop → Allowed False stop := fun stop =>
    (step_ends hinv (e := e) False.elim).of_error
  refine ⟨fun he => ?_, fun he => ?_, fun he => ?_⟩
  all_goals
    rcases hstop _ he with hstop | ⟨-, hstop | hstop⟩
    all_goals cases hstop

/-- A client that names a key twice, and the handling of the key. -/
def twice : List Event :=
  [.client 0 0, .argument 1 [], .store (0, ['a']) 1, .swapBlocking (0, ['a']) 1 (fun _ => 0) true 2,
    .argument 3 ['a'], .wait 0 3 0 0, .wait 0 3 0 0, .block 0, .handle 0 3]

theorem run_blocked_twice : ∃ s, Run Steps (init 8 1) twice s ∧ s.ready = [0] ∧
    (∀ c db k, (s.waiting (db, k)).count c = s.awaited c db k) ∧
      (∀ k e, s.ioKeys.lookup k = some e → e.2 ≠ []) ∧
      (∀ e, s.step e ≠ .error .notWaiting ∧ s.step e ≠ .error .freedList ∧
        s.step e ≠ .error .badPointer) ∧
      ∀ e s', Steps s e s' → s.Wakes e s' := by
  obtain ⟨s, hs, hready⟩ := Run.exists_of_foldlM (f := ready) (b := [0])
    (show (twice.foldlM step (init 8 1)).map ready = .ok [0] by decide)
  exact ⟨s, hs, hready, run_blocked hs⟩

end State

/-!
## No job is lost between the threads

What the counters, the queues and the pipe say about each other in every state of every run, and who
may take a job off `io_newjobs`.
-/

namespace State

variable {s s' : State} {ok : Prop} {owed : List Addr} {e : Event} {j : JobId} {t t' : ThreadId}
  {pc : Pc} {pages : Nat} {maxThreads : Int} {es : List Event}

theorem Inv.placed_nodup (h : s.Inv ok owed) : s.queues.placed.Nodup :=
  h.placed.jobs.nodup_iff.mpr s.jobs.keys_nodup

/-- The jobs in the queues and in the main thread's hand are the jobs there are. -/
theorem Inv.mem_placed (h : s.Inv ok owed) : j ∈ s.queues.placed ↔ (s.jobs.lookup j).isSome := by
  rw [h.placed.jobs.mem_iff, AList.lookup_isSome]
  rfl

/-- Counters, queues and pipe, where at most `maxThreads` threads are allowed. -/
structure HandedOff (s : State) (maxThreads : Int) : Prop where
  active : s.queues.activeThreads = s.queues.threadCount
  bounded : s.queues.activeThreads ≤ maxThreads
  served : s.queues.newjobs ≠ [] → 0 < s.queues.activeThreads
  bytes : s.queues.main ≠ .awake →
    s.queues.pipe + s.queues.signalling = s.queues.processed.length
  /-- Every job is in one place, and the processing jobs are with one thread each. -/
  placed : s.queues.placed.Nodup
  processing : ∀ j ∈ s.queues.processing, ∃! t, ∃ pc, s.queues.threads.lookup t = some pc ∧ j ∈ pc.job

/-- The job is with the thread, and with no other. -/
def With (s : State) (j : JobId) (t : ThreadId) : Prop :=
  ∀ t' pc, s.queues.threads.lookup t' = some pc → (j ∈ pc.job ↔ t' = t)

/-- The step has taken the job off `io_newjobs` for one party: for a thread, which is processing it,
or for the main thread, which has freed it. -/
def TakenOff (s' : State) (e : Event) (j : JobId) : Prop :=
  (∃ t, e = .ioTake t ∧ s'.queues.threads.lookup t = some (.working j) ∧ s'.With j t ∧
    (s'.jobs.lookup j).isSome) ∨
  (s'.jobs.lookup j = none ∧ ∀ t pc, s'.queues.threads.lookup t = some pc → j ∉ pc.job)

theorem Inv.handedOff (h : s.Inv ok owed) (hmax : 1 ≤ s.queues.maxThreads) :
    s.HandedOff s.queues.maxThreads where
  active := h.placed.handOff.active
  bounded := by
    have hbounded := h.placed.handOff.bounded
    omega
  served := h.placed.handOff.served hmax
  bytes hmain := by
    have hbytes := h.placed.handOff.bytes
    rw [if_neg hmain] at hbytes
    exact hbytes
  placed := h.placed_nodup
  processing j hj := by
    have hpos := List.count_pos_iff.mpr hj
    rw [h.placed.handOff.processing] at hpos
    obtain ⟨t, pc, ht, hcount⟩ := exists_of_total_pos hpos
    have hjob := List.count_pos_iff.mp hcount
    refine ⟨t, ⟨pc, ht, hjob⟩, ?_⟩
    rintro t' ⟨pc', ht', hjob'⟩
    exact Queues.working_unique h.placed.handOff h.placed_nodup ht hjob ht' hjob'

theorem run_maxThreads (h : Run Steps (init pages maxThreads) es s) :
    s.queues.maxThreads = maxThreads := by
  refine h.stateInvariant (I := fun s => s.queues.maxThreads = maxThreads) rfl ?_
  intro t e u ht he
  rw [step_maxThreads he, ht]

/-- A job that an event does not leave in `io_newjobs` and no thread has taken is gone. -/
theorem takenOff_main (h : s.Inv ok []) (h' : s'.Inv ok []) (hu : Untouched False False s s')
    (hj : j ∈ s.queues.newjobs) (hj' : j ∉ s'.queues.newjobs) : s'.TakenOff e j := by
  have hnodup := h.placed_nodup
  unfold Queues.placed at hnodup
  rw [List.append_assoc, List.append_assoc] at hnodup
  have hrest := List.disjoint_of_nodup_append hnodup hj
  have hgone : j ∉ s'.queues.placed := by
    unfold Queues.placed
    rw [List.append_assoc, List.append_assoc, hu.processing, hu.processed, List.mem_append,
      not_or]
    refine ⟨hj', fun hmem => hrest ?_⟩
    rcases hu.main with hmain | hmain
    · rwa [hmain] at hmem
    · rw [hmain] at hmem
      rw [← List.append_assoc] at hmem ⊢
      exact List.mem_append_left _ (by simpa [Main.job] using hmem)
  refine .inr ⟨?_, fun t pc ht hjob => ?_⟩
  · cases hlookup : s'.jobs.lookup j with
    | none => rfl
    | some job => exact absurd (h'.mem_placed.mpr (by rw [hlookup]; rfl)) hgone
  · have hproc := Queues.mem_processing h'.placed.handOff ht hjob
    refine hgone ?_
    unfold Queues.placed
    exact List.mem_append_left _ (List.mem_append_left _ (List.mem_append_right _ hproc))

/-- A thread has taken the job. -/
theorem takenOff_thread (h' : s'.Inv ok []) (hworking : s'.queues.threads.lookup t = some (.working j)) :
    s'.TakenOff (.ioTake t) j := by
  have hmem : j ∈ (Pc.working j).job := List.mem_singleton_self j
  refine .inl ⟨t, rfl, hworking, fun t' pc ht' => ⟨fun hjob => ?_, ?_⟩, h'.mem_placed.mp ?_⟩
  · exact Queues.working_unique h'.placed.handOff h'.placed_nodup hworking hmem ht' hjob
  · rintro rfl
    rw [hworking] at ht'
    cases ht'
    exact hmem
  · have hproc := Queues.mem_processing h'.placed.handOff hworking hmem
    unfold Queues.placed
    exact List.mem_append_left _ (List.mem_append_left _ (List.mem_append_right _ hproc))

/-- Whatever takes a job off `io_newjobs`, one party has it. -/
theorem takenOff (h : s.Inv False []) (hs : s.step e = .ok s') (hj : j ∈ s.queues.newjobs)
    (hj' : j ∉ s'.queues.newjobs) : s'.TakenOff e j := by
  have h' : s'.Inv False [] := (step_ends h (e := e) False.elim).of_ok hs
  cases hmoves : e.movesJobs with
  | false =>
    exact takenOff_main h h' (Ends.of_ok ((step_leavesAlone e hmoves).mono False.elim False.elim) hs) hj hj'
  | true =>
    rcases ((step_onlyQueues e hmoves).of_ok hs).taken j hj with hnew | ⟨t, rfl, ht⟩
    · exact absurd hnew hj'
    · exact takenOff_thread h' ht

/-- In every state of every run the counters, the queues and the pipe agree, the main thread finds a
processed job for every byte it has read, and a job leaves `io_newjobs` for one party. -/
theorem run_handOff (hmax : 1 ≤ maxThreads) (h : Run Steps (init pages maxThreads) es s) :
    s.HandedOff maxThreads ∧ (∀ e, s.step e ≠ .error .noProcessedJob) ∧
      ∀ e s', Steps s e s' → ∀ j ∈ s.queues.newjobs, j ∉ s'.queues.newjobs → s'.TakenOff e j := by
  have hinv := run_inv h
  have hthreads := run_maxThreads h
  refine ⟨?_, fun e he => ?_, fun e s' hs j => takenOff hinv hs⟩
  · rw [← hthreads]
    exact hinv.handedOff (by rw [hthreads]; exact hmax)
  · rcases (step_ends hinv (e := e) False.elim).of_error he with hstop | ⟨-, hstop | hstop⟩
    all_goals cases hstop

/-- A value is to be swapped out: a thread takes the job. -/
def swapTaken : List Event :=
  [.argument 1 [], .store (0, []) 1, .swapThreaded (0, []) 2 0 0, .ioTake 0]

theorem run_handOff_swapTaken : ∃ s, Run Steps (init 8 1) swapTaken s ∧ s.queues.processing = [0] ∧
    s.HandedOff 1 ∧ (∀ e, s.step e ≠ .error .noProcessedJob) ∧
      ∀ e s', Steps s e s' → ∀ j ∈ s.queues.newjobs, j ∉ s'.queues.newjobs → s'.TakenOff e j := by
  let view : State → List JobId := fun s => s.queues.processing
  obtain ⟨s, hs, hprocessing⟩ := Run.exists_of_foldlM (f := view) (b := [0])
    (show (swapTaken.foldlM step (init 8 1)).map view = .ok [0] by decide)
  exact ⟨s, hs, hprocessing, run_handOff (by decide) hs⟩

end State

end Rtfsc.Redis.Vm
