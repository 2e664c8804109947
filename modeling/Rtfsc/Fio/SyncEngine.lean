import Rtfsc.Fio.Types

/-!
# fio: the sync engine and the position of a file

The engine seeks only where the unit does not start at `last_completed_pos`, so that this member has
to say where the kernel's position is. `clear_io_state` seeks to the start of every file and leaves the
member as it was: the next pass goes wrong where its first transfer on a file starts where the last
one ended.
-/

namespace Rtfsc.Fio

open Rtfsc.Machine

/-- A file of a job on the sync engine: `struct fio_file` with `last_completed_pos`, and the position
the kernel keeps for `f->fd`. -/
structure SyncFile extends FioFile where
  lastCompletedPos : UInt64
  kernelPos : UInt64

/-- `EIO`. -/
def eio : UInt32 := 5

/-- `fio_syncio_prep`, with whether `lseek` fails; `false` is a non-zero return. -/
def fioSyncioPrep (seekFails : Bool) (f : SyncFile) (u : IoU) : Bool × SyncFile :=
  match u.ddir with
  | .sync => (true, f)
  | .data _ =>
    if u.offset = f.lastCompletedPos then (true, f)
    else if seekFails then (false, f)
    else (true, { f with kernelPos := u.offset })

/-- The same for an engine that seeks before every transfer. -/
def alwaysSeekPrep (seekFails : Bool) (f : SyncFile) (u : IoU) : Bool × SyncFile :=
  match u.ddir with
  | .sync => (true, f)
  | .data _ => if seekFails then (false, f) else (true, { f with kernelPos := u.offset })

/-- `fio_syncio_queue`, with what `read`, `write` or `fsync` returns (`none` is -1) and `errno`. -/
def fioSyncioQueue (f : SyncFile) (u : IoU) (returned : Option UInt32) (errno : UInt32) :
    SyncFile × IoU :=
  let ret : UInt32 := returned.getD (-1)
  let f := match u.ddir with
    | .sync => f
    | .data _ => { f with kernelPos := f.kernelPos + (returned.getD 0).toUInt64 }
  let u :=
    if ret ≠ u.buflen then
      if 0 < ret then { u with resid := u.buflen - ret, error := eio }
      else { u with error := errno }
    else u
  (f, u)

/-- What `io_completed` does to the file of the unit. -/
def fileCompleted (f : SyncFile) (u : IoU) : SyncFile :=
  match u.ddir with
  | .sync => f
  | .data _ =>
    if u.error = 0 then { f with lastCompletedPos := u.offset + u.buflen.toUInt64 } else f

/-- What `clear_io_state` does to a file. Its `lseek(f->fd, SEEK_SET, 0)` has the arguments the wrong
way round, but `SEEK_SET` is 0. -/
def clearFile (f : SyncFile) : SyncFile :=
  { f with
    lastPos := 0
    kernelPos := 0
    map := FileMap.cleared f.map.numMaps }

/-! ## Passes of a job -/

/-- What happens to the files while the job runs: the start of a pass, and a unit that the engine
serves with success and in full, a sync or a transfer. -/
inductive SyncEvent
  | clearIoState
  | serve (fi : Nat) (ddir : FioDdir) (offset : UInt64) (buflen : UInt32)

/-- The `prep` of an engine. -/
abbrev Prep := Bool → SyncFile → IoU → Bool × SyncFile

/-- The files of a job. -/
abbrev SyncFiles := Nat → SyncFile

/-- The unit of an event, as `__get_io_u` and its caller leave it. -/
def syncUnit (fi : Nat) (ddir : FioDdir) (offset : UInt64) (buflen : UInt32) : IoU :=
  ⟨buflen, offset, 0, 0, ddir, some fi⟩

/-- The file when `queue` is called for a unit. -/
def prepared (prep : Prep) (s : SyncFiles) (fi : Nat) (u : IoU) : SyncFile := (prep false (s fi) u).2

/-- One event: `prep`, `queue`, the completion. -/
def syncStep (prep : Prep) (s : SyncFiles) : SyncEvent → SyncFiles
  | .clearIoState => fun i => clearFile (s i)
  | .serve fi ddir offset buflen =>
    let u := syncUnit fi ddir offset buflen
    let returned := match ddir with
      | .sync => 0
      | .data _ => buflen
    let queued := fioSyncioQueue (prepared prep s fi u) u (some returned) 0
    Function.update s fi (fileCompleted queued.1 queued.2)

/-- A transfer: the file, the direction, the kernel's position at `queue`, what the unit asks for. -/
structure Transfer where
  file : Nat
  ddir : DataDdir
  position : UInt64
  offset : UInt64
  buflen : UInt32
deriving DecidableEq

/-- The transfer of one event. -/
def transferOf (prep : Prep) (s : SyncFiles) : SyncEvent → List Transfer
  | .serve fi (.data d) offset buflen =>
    [⟨fi, d, (prepared prep s fi (syncUnit fi (.data d) offset buflen)).kernelPos, offset, buflen⟩]
  | _ => []

/-- The transfers of a list of events, oldest first. -/
def syncTransfers (prep : Prep) : SyncFiles → List SyncEvent → List Transfer
  | _, [] => []
  | s, e :: es => transferOf prep s e ++ syncTransfers prep (syncStep prep s e) es

/-- The files when they have been opened. -/
def opened (files : Nat → FioFile) : SyncFiles := fun i => ⟨files i, 0, 0⟩

/-! ## When the position is right -/

/-- What is seen of a file in the events: where its last transfer ended, and whether a pass has begun
since. -/
abbrev Seen := Option UInt64 × Bool

def seeEvent (fi : Nat) (seen : Seen) : SyncEvent → Seen
  | .clearIoState => (seen.1, true)
  | .serve fi' (.data _) offset buflen =>
    if fi' = fi then (some (offset + buflen.toUInt64), false) else seen
  | .serve _ .sync _ _ => seen

def seenOf (fi : Nat) (es : List SyncEvent) : Seen := es.foldl (seeEvent fi) (none, false)

/-- The transfer is the first on its file in a pass and starts where the last one before ended, which
is not the start of the file. -/
def Restarts (before : List SyncEvent) (fi : Nat) (offset : UInt64) : Prop :=
  offset ≠ 0 ∧ seenOf fi before = (some offset, true)

/-- The two positions of a file are what the events say. -/
structure Tracked (before : List SyncEvent) (fi : Nat) (f : SyncFile) : Prop where
  last : f.lastCompletedPos = (seenOf fi before).1.getD 0
  kernel : f.kernelPos = if (seenOf fi before).2 then 0 else (seenOf fi before).1.getD 0

variable {before es : List SyncEvent} {e : SyncEvent} {s : SyncFiles} {fi : Nat} {d : DataDdir}
  {offset : UInt64} {buflen : UInt32} {f : SyncFile}

theorem seenOf_snoc (before : List SyncEvent) (e : SyncEvent) (fi : Nat) :
    seenOf fi (before ++ [e]) = seeEvent fi (seenOf fi before) e := by
  unfold seenOf
  rw [List.foldl_append]
  rfl

theorem tracked_opened (files : Nat → FioFile) (fi : Nat) : Tracked [] fi (opened files fi) :=
  ⟨rfl, rfl⟩

theorem prepared_elided (h : offset = (s fi).lastCompletedPos) :
    prepared fioSyncioPrep s fi (syncUnit fi (.data d) offset buflen) = s fi :=
  congrArg Prod.snd (if_pos h)

theorem prepared_seeks (h : offset ≠ (s fi).lastCompletedPos) :
    prepared fioSyncioPrep s fi (syncUnit fi (.data d) offset buflen) =
      { s fi with kernelPos := offset } :=
  congrArg Prod.snd (if_neg h)

/-- `prep` leaves the position at the offset of the unit, unless the transfer restarts. -/
theorem prepared_position {n : UInt32} (h : Tracked before fi (s fi)) :
    (prepared fioSyncioPrep s fi (syncUnit fi (.data d) offset n)).kernelPos = offset ↔
      ¬ Restarts before fi offset := by
  obtain ⟨hlast, hkernel⟩ := h
  unfold Restarts
  by_cases hoff : offset = (s fi).lastCompletedPos
  · -- no seek: the position is where the last transfer ended, or the start of the file
    rw [prepared_elided hoff, hkernel]
    rw [hlast] at hoff
    cases hseen : seenOf fi before with
    | mk last begun =>
      rw [hseen] at hoff
      subst hoff
      cases last with
      | none => simp
      | some pos =>
        cases begun with
        | false => simp
        | true => simp [eq_comm]
  · rw [prepared_seeks hoff]
    refine iff_of_true rfl fun hrestarts => hoff ?_
    rw [hlast, hrestarts.2]
    rfl

theorem fioSyncioQueue_ddir (f : SyncFile) (u : IoU) (returned : Option UInt32) (errno : UInt32) :
    (fioSyncioQueue f u returned errno).2.ddir = u.ddir := by
  unfold fioSyncioQueue
  dsimp only
  split
  · split <;> rfl
  · rfl

theorem fileCompleted_sync {u : IoU} (h : u.ddir = .sync) : fileCompleted f u = f := by
  unfold fileCompleted
  rw [h]

/-- A sync does not touch the positions. -/
theorem syncStep_sync (s : SyncFiles) (fi : Nat) (offset : UInt64) (buflen : UInt32) :
    syncStep fioSyncioPrep s (.serve fi .sync offset buflen) = s := by
  unfold syncStep
  dsimp only
  rw [fileCompleted_sync (fioSyncioQueue_ddir ..)]
  exact Function.update_eq_self fi s

/-- A transfer moves the position by its length and remembers where it should have ended. -/
theorem syncStep_data (prep : Prep) (s : SyncFiles) (fi : Nat) (d : DataDdir) (offset : UInt64)
    (buflen : UInt32) :
    syncStep prep s (.serve fi (.data d) offset buflen) =
      let f := prepared prep s fi (syncUnit fi (.data d) offset buflen)
      Function.update s fi { f with
        kernelPos := f.kernelPos + buflen.toUInt64
        lastCompletedPos := offset + buflen.toUInt64 } := by
  have hfull : (fioSyncioQueue (prepared prep s fi (syncUnit fi (.data d) offset buflen))
      (syncUnit fi (.data d) offset buflen) (some buflen) 0).2 =
        syncUnit fi (.data d) offset buflen := if_neg (not_not_intro rfl)
  unfold syncStep
  dsimp only
  rw [hfull]
  rfl

/-- One event that does not restart keeps track of every file. -/
theorem Tracked.step (h : ∀ fi, Tracked before fi (s fi))
    (he : ∀ fi d offset buflen, e = .serve fi (.data d) offset buflen → ¬ Restarts before fi offset)
    (fi : Nat) : Tracked (before ++ [e]) fi (syncStep fioSyncioPrep s e fi) := by
  obtain ⟨hlast, hkernel⟩ := h fi
  cases e with
  | clearIoState =>
    refine ⟨?_, ?_⟩
    · rw [seenOf_snoc]
      exact hlast
    · rw [seenOf_snoc]
      rfl
  | serve fi' ddir offset buflen =>
    cases ddir with
    | sync =>
      rw [syncStep_sync]
      refine ⟨?_, ?_⟩
      · rw [seenOf_snoc]
        exact hlast
      · rw [seenOf_snoc]
        exact hkernel
    | data d =>
      have hposition := (prepared_position (d := d) (n := buflen) (h fi')).mpr (he fi' d offset buflen rfl)
      rw [syncStep_data]
      dsimp only
      by_cases hfi : fi = fi'
      · subst hfi
        rw [Function.update_self, hposition]
        refine ⟨?_, ?_⟩
        all_goals
          rw [seenOf_snoc, seeEvent, if_pos rfl]
          rfl
      · rw [Function.update_of_ne hfi]
        refine ⟨?_, ?_⟩
        · rw [seenOf_snoc, seeEvent, if_neg (Ne.symm hfi)]
          exact hlast
        · rw [seenOf_snoc, seeEvent, if_neg (Ne.symm hfi)]
          exact hkernel

/-- Whatever the files were before, an engine that always seeks transfers at the offsets. -/
theorem syncTransfers_always (prep : Prep) (s s' : SyncFiles) (es : List SyncEvent) :
    syncTransfers alwaysSeekPrep s' es =
      (syncTransfers prep s es).map fun t => { t with position := t.offset } := by
  induction es generalizing s s' with
  | nil => rfl
  | cons e es ih =>
    rw [syncTransfers, syncTransfers, List.map_append, ih]
    congr 1
    cases e with
    | clearIoState => rfl
    | serve fi ddir offset buflen =>
      cases ddir with
      | sync => rfl
      | data d => rfl

theorem syncTransfers_eq_always (prep : Prep) (s s' : SyncFiles) (es : List SyncEvent) :
    syncTransfers prep s es = syncTransfers alwaysSeekPrep s' es ↔
      ∀ t ∈ syncTransfers prep s es, t.position = t.offset := by
  rw [syncTransfers_always prep s]
  constructor
  · intro h t ht
    rw [h] at ht
    obtain ⟨t', -, rfl⟩ := List.mem_map.mp ht
    rfl
  · intro h
    refine ((List.map_congr_left fun t ht => ?_).trans (List.map_id _)).symm
    exact congrArg (fun p => ({ t with position := p } : Transfer)) (h t ht).symm

/-- From files whose positions are tracked on, the transfers are in place as long as none restarts. -/
theorem inPlace_iff (h : ∀ fi, Tracked before fi (s fi)) :
    (∀ t ∈ syncTransfers fioSyncioPrep s es, t.position = t.offset) ↔
      ∀ pre fi d offset buflen post, es = pre ++ .serve fi (.data d) offset buflen :: post →
        ¬ Restarts (before ++ pre) fi offset := by
  induction es generalizing before s with
  | nil =>
    refine iff_of_true (fun t ht => (nomatch ht)) fun pre fi d offset buflen post hes => ?_
    exact absurd hes.symm (List.append_ne_nil_of_right_ne_nil _ (List.cons_ne_nil _ _))
  | cons e es ih =>
    have hhead : (∀ t ∈ transferOf fioSyncioPrep s e, t.position = t.offset) ↔
        ∀ fi d offset buflen, e = .serve fi (.data d) offset buflen → ¬ Restarts before fi offset := by
      cases e with
      | clearIoState => exact iff_of_true (fun t ht => (nomatch ht)) fun _ _ _ _ he => nomatch he
      | serve fi ddir offset buflen =>
        cases ddir with
        | sync => exact iff_of_true (fun t ht => (nomatch ht)) fun _ _ _ _ he => nomatch he
        | data d =>
          have hposition : (prepared fioSyncioPrep s fi
              (syncUnit fi (.data d) offset buflen)).kernelPos = offset ↔
                ¬ Restarts before fi offset := prepared_position (h fi)
          rw [transferOf, List.forall_mem_singleton, hposition]
          refine ⟨?_, fun hno => hno fi d offset buflen rfl⟩
          rintro hno _ _ _ _ ⟨⟩
          exact hno
    rw [syncTransfers, List.forall_mem_append, hhead]
    constructor
    · rintro ⟨hno, hrest⟩ pre fi d offset buflen post hes
      cases pre with
      | nil =>
        rw [List.append_nil]
        exact hno fi d offset buflen (List.cons.inj hes).1
      | cons e' pre =>
        obtain ⟨rfl, htail⟩ := List.cons.inj hes
        have hlater := (ih (Tracked.step h hno)).mp hrest pre fi d offset buflen post htail
        rwa [List.append_assoc] at hlater
    · intro hall
      have hno : ∀ fi d offset buflen, e = .serve fi (.data d) offset buflen →
          ¬ Restarts before fi offset := by
        rintro fi d offset buflen rfl
        have hfirst := hall [] fi d offset buflen es rfl
        rwa [List.append_nil] at hfirst
      refine ⟨hno, (ih (Tracked.step h hno)).mpr ?_⟩
      rintro pre fi d offset buflen post rfl
      have hlater := hall (e :: pre) fi d offset buflen post rfl
      rwa [List.append_assoc]

/-- The sync engine transfers at the offsets, as an engine does that always seeks, if and only if no
pass begins on a file where the last transfer on it ended. -/
theorem seekElision_iff (files : Nat → FioFile) (es : List SyncEvent) :
    ((∀ t ∈ syncTransfers fioSyncioPrep (opened files) es, t.position = t.offset) ∧
      syncTransfers fioSyncioPrep (opened files) es =
        syncTransfers alwaysSeekPrep (opened files) es) ↔
      ∀ pre fi d offset buflen post, es = pre ++ .serve fi (.data d) offset buflen :: post →
        ¬ Restarts pre fi offset := by
  rw [syncTransfers_eq_always, and_self]
  exact inPlace_iff (tracked_opened files)

/-- Two loops of a random write job on two blocks. The second begins with the block that starts where
the first loop ended, and writes it over the other one. -/
theorem seekElision_secondLoop : ¬ ∀ files es,
    (∀ t ∈ syncTransfers fioSyncioPrep (opened files) es, t.position = t.offset) ∧
      syncTransfers fioSyncioPrep (opened files) es =
        syncTransfers alwaysSeekPrep (opened files) es := by
  intro hall
  have hplace := (hall (fun _ => ⟨true, 8192, 8192, 0, 0, .cleared 1⟩) [.clearIoState,
    .serve 0 (.data .write) 4096 4096, .serve 0 (.data .write) 0 4096, .clearIoState,
    .serve 0 (.data .write) 4096 4096]).1 ⟨0, .write, 0, 4096, 4096⟩ (by decide)
  exact absurd hplace (by decide)

end Rtfsc.Fio
