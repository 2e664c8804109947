import Rtfsc.Machine.Table
import Rtfsc.Redis.SwapFile

/-!
# redis: the queues of I/O jobs

`vm.c`: the lists `io_newjobs`, `io_processing` and `io_processed`, the I/O threads, their counter and
the pipe that wakes the main thread. What a thread does under `io_mutex` is one step, and so is the
write of its byte. The jobs themselves are behind their addresses, so a queue is a list of addresses.
-/

namespace Rtfsc.Redis

open Rtfsc.Machine

/-- The address of an I/O job. -/
abbrev JobId := Nat

abbrev ThreadId := Nat

/-- Where an I/O thread is in `IOThreadEntryPoint`. -/
inductive Pc
  /-- About to look at `io_newjobs`. -/
  | top
  /-- Processing a job outside the lock. -/
  | working (j : JobId)
  /-- About to move the job to `io_processed`. -/
  | finished (j : JobId)
  /-- About to write the byte. -/
  | signal
deriving DecidableEq

/-- Where the main thread is. -/
inductive Main
  /-- Between two operations; one iteration of `vmThreadedIOCompletedJob` is an operation. -/
  | idle
  /-- It has read a byte and is about to take a job. -/
  | awake
  /-- It has taken a job off `io_processed`. -/
  | holding (j : JobId)
deriving DecidableEq

/-- The queues, the threads that have not exited, and the bytes in the pipe. -/
structure Queues where
  newjobs : List JobId
  processing : List JobId
  processed : List JobId
  threads : Table ThreadId Pc
  activeThreads : Int
  maxThreads : Int
  pipe : Nat
  main : Main

/-- The job of a thread, in `io_processing` while the thread has it. -/
def Pc.job : Pc → List JobId
  | .working j => [j]
  | .finished j => [j]
  | _ => []

/-- The job the main thread has in hand. -/
def Main.job : Main → List JobId
  | .holding j => [j]
  | _ => []

namespace Queues

variable (q : Queues)

/-- `spawnIOThread`, with the identifier the new thread gets. -/
def spawnIOThread (t : ThreadId) : Except Stop Queues := do
  check (q.threads.lookup t = none) .disabled
  return { q with threads := q.threads.insert t .top, activeThreads := q.activeThreads + 1 }

/-- `queueIOJob`. -/
def queueIOJob (j : JobId) (t : ThreadId) : Except Stop Queues :=
  let q := { q with newjobs := q.newjobs ++ [j] }
  if q.activeThreads < q.maxThreads then q.spawnIOThread t else return q

/-- `listDelNode(server.io_newjobs, ln)`, where a job is cancelled. -/
def dropNew (j : JobId) : Queues := { q with newjobs := q.newjobs.erase j }

/-- A thread takes the first of the new jobs, or exits when there is none. -/
def ioTake (t : ThreadId) : Except Stop Queues := do
  check (q.threads.lookup t = some .top) .disabled
  match q.newjobs with
  | [] =>
    return { q with threads := q.threads.erase t, activeThreads := q.activeThreads - 1 }
  | j :: rest =>
    return { q with
      newjobs := rest
      processing := q.processing ++ [j]
      threads := q.threads.insert t (.working j) }

/-- A thread is through with its job. -/
def ioFinish (t : ThreadId) (j : JobId) : Queues :=
  { q with threads := q.threads.insert t (.finished j) }

/-- A thread moves its job to `io_processed`. -/
def ioAppend (t : ThreadId) : Except Stop Queues :=
  match q.threads.lookup t with
  | some (.finished j) =>
    return { q with
      processing := q.processing.erase j
      processed := q.processed ++ [j]
      threads := q.threads.insert t .signal }
  | _ => .error .disabled

/-- A thread writes its byte. -/
def ioSignal (t : ThreadId) : Except Stop Queues := do
  check (q.threads.lookup t = some .signal) .disabled
  return { q with threads := q.threads.insert t .top, pipe := q.pipe + 1 }

/-- `read(fd, buf, 1) == 1` in the main thread. -/
def wake : Except Stop Queues := do
  check (q.main = .idle ∧ 0 < q.pipe) .disabled
  return { q with main := .awake, pipe := q.pipe - 1 }

/-- The main thread takes the oldest processed job. -/
def take : Except Stop Queues := do
  check (q.main = .awake) .disabled
  match q.processed with
  | [] => .error .noProcessedJob
  | j :: rest => return { q with main := .holding j, processed := rest }

/-- The main thread is through with what it was doing. -/
def release : Queues := { q with main := .idle }

/-! ## The hand-off -/

/-- Every job that is in a queue, or in the main thread's hand on its way out of one. -/
def placed : List JobId := q.newjobs ++ q.processing ++ q.processed ++ q.main.job

/-- A job no thread has worked on yet since it was queued. -/
def Pending (j : JobId) : Prop := j ∈ q.newjobs ∨ ∃ t, q.threads.lookup t = some (.working j)

/-- The number of threads that have not exited. -/
def threadCount : Nat := total (fun _ _ => 1) q.threads

/-- The number of threads between the append to `io_processed` and the write of their byte. -/
def signalling : Nat := total (fun _ pc => if pc = .signal then 1 else 0) q.threads

/-- Counters, queues and pipe agree. -/
structure HandOff : Prop where
  /-- `io_active_threads` is the number of threads that will still look at `io_newjobs`. -/
  active : q.activeThreads = q.threadCount
  bounded : q.activeThreads ≤ max 0 q.maxThreads
  /-- No job waits without a thread. -/
  served : 1 ≤ q.maxThreads → q.newjobs ≠ [] → 0 < q.activeThreads
  /-- Every processed job has a byte in the pipe or about to be written; one more byte has been read
  while the main thread is about to take a job. -/
  bytes : q.pipe + q.signalling + (if q.main = .awake then 1 else 0) = q.processed.length
  /-- The processing jobs are those the threads have. -/
  processing : ∀ j, q.processing.count j = total (fun _ pc => pc.job.count j) q.threads

variable {q}

theorem signalling_insert {t : ThreadId} {pc : Pc} (h : q.threads.lookup t = some pc) (pc' : Pc) :
    total (fun _ pc => if pc = Pc.signal then 1 else 0) (q.threads.insert t pc') +
      (if pc = .signal then 1 else 0) = q.signalling + (if pc' = .signal then 1 else 0) :=
  total_replace h pc' fun _ pc => if pc = .signal then 1 else 0

theorem threadCount_insert {t : ThreadId} {pc : Pc} (h : q.threads.lookup t = some pc) (pc' : Pc) :
    total (fun _ _ => 1) (q.threads.insert t pc') = q.threadCount := by
  have := total_replace h pc' fun _ _ => 1
  unfold threadCount
  omega

/-- A thread moves from one point of its loop to another. -/
theorem HandOff.pc {t : ThreadId} {pc pc' : Pc} (h : q.HandOff)
    (ht : q.threads.lookup t = some pc) (hsignal : pc ≠ .signal) (hsignal' : pc' ≠ .signal)
    (hjob : pc'.job = pc.job) : HandOff { q with threads := q.threads.insert t pc' } where
  active := by
    show q.activeThreads = _
    rw [threadCount, threadCount_insert ht]
    exact h.active
  bounded := h.bounded
  served := h.served
  bytes := by
    have hs := signalling_insert ht pc'
    rw [if_neg hsignal, if_neg hsignal'] at hs
    have hb := h.bytes
    show q.pipe + total _ (q.threads.insert t pc') + (if q.main = .awake then 1 else 0) =
      q.processed.length
    omega
  processing j := by
    have hp := total_replace ht pc' fun _ pc => pc.job.count j
    have hj := h.processing j
    rw [hjob] at hp
    show q.processing.count j = total _ (q.threads.insert t pc')
    omega

theorem spawnIOThread_ends (t : ThreadId) (h : q.activeThreads = q.threadCount)
    (hlt : q.activeThreads < q.maxThreads)
    (hbytes : q.pipe + q.signalling + (if q.main = .awake then 1 else 0) = q.processed.length)
    (hproc : ∀ j, q.processing.count j = total (fun _ pc => pc.job.count j) q.threads) :
    Ends (· = .disabled) (fun q' => q'.HandOff ∧
      q' = { q with threads := q.threads.insert t .top, activeThreads := q.activeThreads + 1 } ∧
      q.threads.lookup t = none) (q.spawnIOThread t) := by
  refine Ends.check_bind (fun hnew => ?_) fun _ => rfl
  refine Ends.pure ⟨⟨?_, ?_, ?_, ?_, ?_⟩, rfl, hnew⟩
  · show q.activeThreads + 1 = _
    rw [threadCount, total_insert_new hnew, h, threadCount]
    omega
  · show q.activeThreads + 1 ≤ max 0 q.maxThreads
    omega
  · intro _ _
    show 0 < q.activeThreads + 1
    omega
  · show q.pipe + total _ (q.threads.insert t .top) + (if q.main = .awake then 1 else 0) =
      q.processed.length
    rw [total_insert_new hnew, if_neg (by decide), Nat.zero_add]
    exact hbytes
  · intro j
    show q.processing.count j = total _ (q.threads.insert t .top)
    rw [total_insert_new hnew, hproc]
    simp [Pc.job]

/-- What `queueIOJob` does to the queues. -/
structure Queued (q : Queues) (j : JobId) (q' : Queues) : Prop where
  handOff : q'.HandOff
  newjobs : q'.newjobs = q.newjobs ++ [j]
  processing : q'.processing = q.processing
  processed : q'.processed = q.processed
  main : q'.main = q.main
  working : ∀ t j, q'.threads.lookup t = some (.working j) ↔ q.threads.lookup t = some (.working j)

/-- A queued job is at the end of `io_newjobs`, and there is a thread for it. -/
theorem queueIOJob_ends (h : q.HandOff) (j : JobId) (t : ThreadId) :
    Ends (· = .disabled) (q.Queued j) (q.queueIOJob j t) := by
  unfold queueIOJob
  dsimp only
  split
  · next hlt =>
    refine (spawnIOThread_ends (q := { q with newjobs := q.newjobs ++ [j] }) t h.active hlt h.bytes
      h.processing).imp ?_
    rintro q' ⟨hq', rfl, hnew⟩
    refine ⟨hq', rfl, rfl, rfl, rfl, fun t' j' => ?_⟩
    show (q.threads.insert t Pc.top).lookup t' = _ ↔ _
    rw [lookup_insert_eq]
    split
    · next ht =>
      subst ht
      have hnew' : q.threads.lookup t' = none := hnew
      rw [hnew']
      simp
    · exact Iff.rfl
  · next hge =>
    refine Ends.pure ⟨⟨h.active, h.bounded, fun hmax _ => ?_, h.bytes, h.processing⟩, rfl, rfl, rfl,
      rfl, fun _ _ => Iff.rfl⟩
    have hmax' : 1 ≤ q.maxThreads := hmax
    show 0 < q.activeThreads
    omega

theorem Queued.placed {q' : Queues} {j : JobId} (h : q.Queued j q') :
    q'.placed.Perm (j :: q.placed) := by
  unfold Queues.placed
  rw [h.newjobs, h.processing, h.processed, h.main]
  simp only [List.append_assoc, List.singleton_append]
  exact List.perm_middle

theorem Queued.pending {q' : Queues} {j : JobId} (h : q.Queued j q') (i : JobId) :
    q'.Pending i ↔ i = j ∨ q.Pending i := by
  unfold Pending
  simp only [h.newjobs, h.working, List.mem_append, List.mem_singleton]
  tauto

/-- A cancelled job leaves `io_newjobs`. -/
theorem HandOff.dropNew (h : q.HandOff) (j : JobId) : (q.dropNew j).HandOff where
  active := h.active
  bounded := h.bounded
  served hmax hne := h.served hmax fun h0 => hne (by
    show q.newjobs.erase j = []
    rw [h0]
    rfl)
  bytes := h.bytes
  processing := h.processing

theorem dropNew_placed {j : JobId} (h : j ∈ q.newjobs) :
    q.placed.Perm (j :: (q.dropNew j).placed) := by
  unfold placed Queues.dropNew
  simp only [List.append_assoc]
  exact (List.perm_cons_erase h).append_right _

theorem mem_pending_dropNew {j i : JobId} (hne : i ≠ j) :
    (q.dropNew j).Pending i ↔ q.Pending i := by
  unfold Pending dropNew
  rw [List.mem_erase_of_ne hne]

/-! ## Steps of the threads -/

/-- A step that moves jobs between the queues and the parties, and makes none and drops none. -/
structure Moved (q q' : Queues) : Prop where
  handOff : q'.HandOff
  placed : q'.placed.Perm q.placed
  pending : ∀ j, q'.Pending j ↔ q.Pending j

/-- The number of threads at a place is positive where one is. -/
theorem threadCount_erase {t : ThreadId} {pc : Pc} (h : q.threads.lookup t = some pc) :
    q.threadCount = 1 + total (fun _ _ => 1) (q.threads.erase t) := by
  exact total_of_lookup h fun _ _ => 1

theorem working_insert_iff {t : ThreadId} {pc : Pc} (h : q.threads.lookup t = some pc) (pc' : Pc)
    {j : JobId} (hpc : pc ≠ .working j) (hpc' : pc' ≠ .working j) :
    (∃ t', (q.threads.insert t pc').lookup t' = some (.working j)) ↔
      ∃ t', q.threads.lookup t' = some (.working j) := by
  constructor
  · rintro ⟨t', ht'⟩
    rw [lookup_insert_eq] at ht'
    split at ht'
    · exact absurd (Option.some.inj ht') hpc'
    · exact ⟨t', ht'⟩
  · rintro ⟨t', ht'⟩
    refine ⟨t', ?_⟩
    rw [lookup_insert_eq, if_neg, ht']
    rintro rfl
    rw [h] at ht'
    exact hpc (Option.some.inj ht')

theorem ioTake_ends (h : q.HandOff) (t : ThreadId) :
    Ends (· = .disabled) q.Moved (q.ioTake t) := by
  unfold ioTake
  refine Ends.check_bind (fun ht => ?_) fun _ => rfl
  cases hnew : q.newjobs with
  | nil =>
    have htotal := total_of_lookup ht fun _ pc => if pc = Pc.signal then 1 else 0
    rw [if_neg (by decide), Nat.zero_add] at htotal
    refine Ends.pure ⟨⟨?_, ?_, ?_, ?_, ?_⟩, ?_, fun j => ?_⟩
    · have hcount := threadCount_erase ht
      have hactive := h.active
      show q.activeThreads - 1 = total _ (q.threads.erase t)
      omega
    · have hbounded := h.bounded
      show q.activeThreads - 1 ≤ max 0 q.maxThreads
      omega
    · intro _ hne
      exact absurd rfl hne
    · have hbytes := h.bytes
      unfold signalling at hbytes
      rw [htotal] at hbytes
      exact hbytes
    · intro j
      have hproc := h.processing j
      rw [total_of_lookup ht] at hproc
      simpa [Pc.job] using hproc
    · unfold placed
      rw [hnew]
    · unfold Pending
      rw [hnew]
      refine or_congr Iff.rfl ⟨?_, ?_⟩
      · rintro ⟨t', ht'⟩
        have ht'' : (q.threads.erase t).lookup t' = some (.working j) := ht'
        rw [lookup_erase_eq] at ht''
        split at ht''
        · cases ht''
        · exact ⟨t', ht''⟩
      · rintro ⟨t', ht'⟩
        refine ⟨t', ?_⟩
        show (q.threads.erase t).lookup t' = _
        rw [lookup_erase_eq, if_neg, ht']
        rintro rfl
        rw [ht] at ht'
        cases ht'
  | cons j rest =>
    have hsignal := signalling_insert ht (.working j)
    rw [if_neg nofun, if_neg nofun] at hsignal
    refine Ends.pure ⟨⟨?_, h.bounded, ?_, ?_, ?_⟩, ?_, fun i => ?_⟩
    · show q.activeThreads = total _ (q.threads.insert t (.working j))
      rw [threadCount_insert ht]
      exact h.active
    · intro hmax _
      exact h.served hmax (by rw [hnew]; exact List.cons_ne_nil _ _)
    · have hbytes := h.bytes
      show q.pipe + total _ (q.threads.insert t (.working j)) + (if q.main = .awake then 1 else 0) =
        q.processed.length
      omega
    · intro i
      have hproc := h.processing i
      have htotal : total (fun _ pc => pc.job.count i) (q.threads.insert t (.working j)) + 0 =
          total (fun _ pc => pc.job.count i) q.threads + [j].count i := total_replace ht _ _
      show (q.processing ++ [j]).count i = total _ (q.threads.insert t (.working j))
      rw [List.count_append]
      omega
    · unfold placed
      rw [hnew]
      show (rest ++ (q.processing ++ [j]) ++ q.processed ++ q.main.job).Perm
        (j :: rest ++ q.processing ++ q.processed ++ q.main.job)
      simp only [List.append_assoc, List.cons_append, List.nil_append]
      refine (List.Perm.append_left rest List.perm_middle).trans List.perm_middle
    · unfold Pending
      rw [hnew]
      show i ∈ rest ∨ (∃ t', (q.threads.insert t (.working j)).lookup t' = _) ↔ _
      by_cases hij : i = j
      · subst hij
        exact ⟨fun _ => .inl (List.mem_cons_self ..),
          fun _ => .inr ⟨t, by rw [lookup_insert_eq, if_pos rfl]⟩⟩
      · have hpc' : Pc.working j ≠ .working i := fun heq => hij (Pc.working.inj heq).symm
        have hwork := working_insert_iff ht _ (j := i) nofun hpc'
        rw [hwork, List.mem_cons]
        tauto

/-- No job is in two places, and a thread's job is in `io_processing`. -/
theorem working_unique (h : q.HandOff) (hnodup : q.placed.Nodup) {t t' : ThreadId} {pc pc' : Pc}
    {j : JobId} (ht : q.threads.lookup t = some pc) (hj : j ∈ pc.job)
    (ht' : q.threads.lookup t' = some pc') (hj' : j ∈ pc'.job) : t' = t := by
  by_contra hne
  have hle : q.processing.count j ≤ 1 := by
    refine List.nodup_iff_count_le_one.mp ?_ j
    unfold placed at hnodup
    exact (hnodup.of_append_left.of_append_left).of_append_right
  have hlookup : (q.threads.erase t).lookup t' = some pc' := by
    rw [lookup_erase_eq, if_neg hne, ht']
  have hfirst := List.count_pos_iff.mpr hj
  have hsecond := List.count_pos_iff.mpr hj'
  have hrest := le_total hlookup fun _ pc => pc.job.count j
  have hall := total_of_lookup ht fun _ pc => pc.job.count j
  rw [h.processing] at hle
  omega

theorem mem_processing (h : q.HandOff) {t : ThreadId} {pc : Pc} {j : JobId}
    (ht : q.threads.lookup t = some pc) (hj : j ∈ pc.job) : j ∈ q.processing := by
  rw [← List.count_pos_iff, h.processing]
  exact lt_of_lt_of_le (List.count_pos_iff.mpr hj) (le_total ht fun _ pc => pc.job.count j)

theorem notMem_newjobs (h : q.HandOff) (hnodup : q.placed.Nodup) {t : ThreadId} {pc : Pc} {j : JobId}
    (ht : q.threads.lookup t = some pc) (hj : j ∈ pc.job) : j ∉ q.newjobs := by
  have hproc := mem_processing h ht hj
  unfold placed at hnodup
  have hdisj := List.disjoint_of_nodup_append (hnodup.of_append_left.of_append_left)
  exact fun hnew => hdisj hnew hproc

theorem ioFinish_handOff (h : q.HandOff) {t : ThreadId} {j : JobId}
    (ht : q.threads.lookup t = some (.working j)) : (q.ioFinish t j).HandOff :=
  h.pc ht nofun nofun rfl

/-- A job is no longer pending once its thread is through with it. -/
theorem ioFinish_pending (h : q.HandOff) (hnodup : q.placed.Nodup) {t : ThreadId} {j : JobId}
    (ht : q.threads.lookup t = some (.working j)) (i : JobId) :
    (q.ioFinish t j).Pending i ↔ i ≠ j ∧ q.Pending i := by
  have hj : j ∈ (Pc.working j).job := List.mem_singleton_self j
  by_cases hij : i = j
  · subst hij
    refine ⟨?_, fun hi => absurd rfl hi.1⟩
    rintro (hnew | ⟨t', ht'⟩)
    · exact absurd hnew (notMem_newjobs h hnodup ht hj)
    · have hlookup : (q.threads.insert t (.finished i)).lookup t' = some (.working i) := ht'
      rw [lookup_insert_eq] at hlookup
      split at hlookup
      · exact nomatch Option.some.inj hlookup
      · next hne =>
        exact absurd (working_unique h hnodup ht hj hlookup hj) hne
  · have hpc : Pc.working j ≠ .working i := fun heq => hij (Pc.working.inj heq).symm
    have hwork := working_insert_iff ht (.finished j) hpc nofun
    unfold Pending ioFinish
    simp only [hwork, ne_eq, hij, not_false_eq_true, true_and]

theorem ioAppend_ends (h : q.HandOff) (t : ThreadId) :
    Ends (· = .disabled) q.Moved (q.ioAppend t) := by
  unfold ioAppend
  split
  swap
  · exact rfl
  next j ht =>
  have hj : j ∈ (Pc.finished j).job := List.mem_singleton_self j
  have hproc := mem_processing h ht hj
  refine Ends.pure ⟨⟨?_, h.bounded, h.served, ?_, ?_⟩, ?_, fun i => ?_⟩
  · show q.activeThreads = total _ (q.threads.insert t .signal)
    rw [threadCount_insert ht]
    exact h.active
  · have hbytes := h.bytes
    have hsignal := signalling_insert ht .signal
    rw [if_neg nofun, if_pos rfl] at hsignal
    show q.pipe + total _ (q.threads.insert t .signal) + (if q.main = .awake then 1 else 0) =
      (q.processed ++ [j]).length
    rw [List.length_append, List.length_singleton]
    omega
  · intro i
    have htotal : total (fun _ pc => pc.job.count i) (q.threads.insert t .signal) + [j].count i =
        total (fun _ pc => pc.job.count i) q.threads + 0 := total_replace ht _ _
    have hcount := h.processing i
    have herase := (List.perm_cons_erase hproc).count_eq i
    rw [List.count_cons] at herase
    rw [List.count_singleton] at htotal
    show (q.processing.erase j).count i = total _ (q.threads.insert t .signal)
    omega
  · unfold placed
    show (q.newjobs ++ q.processing.erase j ++ (q.processed ++ [j]) ++ q.main.job).Perm _
    have herase := (List.perm_cons_erase hproc).symm
    simp only [List.append_assoc, List.singleton_append]
    refine List.Perm.append_left _ ?_
    have hmiddle : (q.processing.erase j ++ (q.processed ++ j :: q.main.job)).Perm
        (j :: ((q.processing.erase j ++ q.processed) ++ q.main.job)) := by
      rw [← List.append_assoc]
      exact List.perm_middle
    refine hmiddle.trans ?_
    rw [List.append_assoc]
    exact herase.append_right _
  · have hwork := working_insert_iff ht .signal (j := i) nofun nofun
    unfold Pending
    exact or_congr Iff.rfl hwork

theorem ioSignal_ends (h : q.HandOff) (t : ThreadId) :
    Ends (· = .disabled) q.Moved (q.ioSignal t) := by
  unfold ioSignal
  refine Ends.check_bind (fun ht => ?_) fun _ => rfl
  refine Ends.pure ⟨⟨?_, h.bounded, h.served, ?_, ?_⟩, List.Perm.refl _, fun i => ?_⟩
  · show q.activeThreads = total _ (q.threads.insert t .top)
    rw [threadCount_insert ht]
    exact h.active
  · have hbytes := h.bytes
    have hsignal := signalling_insert ht .top
    rw [if_pos rfl, if_neg nofun] at hsignal
    show q.pipe + 1 + total _ (q.threads.insert t .top) + (if q.main = .awake then 1 else 0) =
      q.processed.length
    omega
  · intro i
    have htotal : total (fun _ pc => pc.job.count i) (q.threads.insert t .top) + 0 =
        total (fun _ pc => pc.job.count i) q.threads + 0 := total_replace ht _ _
    have hcount := h.processing i
    show q.processing.count i = total _ (q.threads.insert t .top)
    omega
  · have hwork := working_insert_iff ht .top (j := i) nofun nofun
    unfold Pending
    exact or_congr Iff.rfl hwork

/-! ## Steps of the main thread -/

theorem wake_ends (h : q.HandOff) : Ends (· = .disabled) q.Moved q.wake := by
  unfold wake
  refine Ends.check_bind (fun hwake => ?_) fun _ => rfl
  refine Ends.pure ⟨⟨h.active, h.bounded, h.served, ?_, h.processing⟩, ?_, fun i => Iff.rfl⟩
  · have hbytes := h.bytes
    rw [hwake.1, if_neg nofun] at hbytes
    show q.pipe - 1 + q.signalling + (if Main.awake = .awake then 1 else 0) = q.processed.length
    rw [if_pos rfl]
    omega
  · unfold placed
    rw [hwake.1]
    rfl

/-- There is a job to take when the main thread has read a byte. -/
theorem take_ends (h : q.HandOff) : Ends (· = .disabled) q.Moved q.take := by
  unfold take
  refine Ends.check_bind (fun hawake => ?_) fun _ => rfl
  have hbytes := h.bytes
  rw [if_pos hawake] at hbytes
  cases hprocessed : q.processed with
  | nil =>
    rw [hprocessed, List.length_nil] at hbytes
    omega
  | cons j rest =>
    rw [hprocessed, List.length_cons] at hbytes
    refine Ends.pure ⟨⟨h.active, h.bounded, h.served, ?_, h.processing⟩, ?_, fun i => Iff.rfl⟩
    · show q.pipe + q.signalling + (if Main.holding j = .awake then 1 else 0) = rest.length
      rw [if_neg nofun]
      omega
    · unfold placed
      rw [hprocessed, hawake]
      show (q.newjobs ++ q.processing ++ rest ++ [j]).Perm
        (q.newjobs ++ q.processing ++ j :: rest ++ [])
      rw [List.append_nil, List.append_assoc]
      exact List.Perm.append_left _ (List.perm_append_singleton j rest)

theorem HandOff.release (h : q.HandOff) (hmain : q.main ≠ .awake) : q.release.HandOff where
  active := h.active
  bounded := h.bounded
  served := h.served
  bytes := by
    have hbytes := h.bytes
    rw [if_neg hmain] at hbytes
    exact hbytes
  processing := h.processing

theorem release_placed {j : JobId} (hmain : q.main = .holding j) :
    q.placed.Perm (j :: q.release.placed) := by
  unfold placed Queues.release
  rw [hmain]
  show (q.newjobs ++ q.processing ++ q.processed ++ [j]).Perm
    (j :: (q.newjobs ++ q.processing ++ q.processed ++ []))
  rw [List.append_nil]
  exact List.perm_append_singleton j _

end Queues

end Rtfsc.Redis
