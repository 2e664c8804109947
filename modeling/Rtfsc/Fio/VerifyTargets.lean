import Rtfsc.Fio.Pool
import Rtfsc.Fio.Verify

/-!
# fio: what the verification reads back

`do_verify` takes the pieces one after the other and the files in turn. A piece knows the file it was
written to, but `get_next_verify` does not pass it on: the read-backs are the pieces if and only if
taking the files in turn puts no piece on another file.
-/

namespace Rtfsc.Fio

open Rtfsc.Machine IoState

/-! ## The files in turn -/

/-- The read-backs of some pieces, when `next_file` is this. -/
def readBacks (fds : List Bool) : Nat → List IoPiece → List Target
  | _, [] => []
  | next, p :: pieces =>
    ((getNextFile fds next).1, p.offset, p.len) :: readBacks fds (getNextFile fds next).2 pieces

/-- `next_file` after some pieces. -/
def nextFileAfter (fds : List Bool) : Nat → List IoPiece → Nat
  | next, [] => next
  | next, _ :: pieces => nextFileAfter fds (getNextFile fds next).2 pieces

variable {fds : List Bool} {next : Nat} {done pieces : List IoPiece} {p : IoPiece}

theorem readBacks_length : (readBacks fds next pieces).length = pieces.length := by
  induction pieces generalizing next with
  | nil => rfl
  | cons p pieces ih => exact congrArg (· + 1) ih

theorem readBacks_snoc : readBacks fds next (done ++ [p]) = readBacks fds next done ++
    [((getNextFile fds (nextFileAfter fds next done)).1, p.offset, p.len)] := by
  induction done generalizing next with
  | nil => rfl
  | cons q done ih => exact congrArg (_ :: ·) ih

theorem readBacks_append {rest : List IoPiece} : readBacks fds next (done ++ rest) =
    readBacks fds next done ++ readBacks fds (nextFileAfter fds next done) rest := by
  induction done generalizing next with
  | nil => rfl
  | cons q done ih => exact congrArg (_ :: ·) ih

theorem nextFileAfter_snoc : nextFileAfter fds next (done ++ [p]) =
    (getNextFile fds (nextFileAfter fds next done)).2 := by
  induction done generalizing next with
  | nil => rfl
  | cons q done ih => exact ih

/-- The file after a file, in turn. -/
theorem turn_eq {n : Nat} (h : next < n) :
    (if n ≤ next + 1 then 0 else next + 1) = (next + 1) % n := by
  split
  · next hge =>
    have heq : next + 1 = n := by omega
    rw [heq, Nat.mod_self]
  · next hlt => exact (Nat.mod_eq_of_lt (by omega)).symm

theorem getNextFileLoop_lt {old left : Nat} (h : next < fds.length) :
    (getNextFileLoop fds old left next).2 < fds.length := by
  induction left generalizing next with
  | zero => exact h
  | succ left ih =>
    have hafter : (next + 1) % fds.length < fds.length := Nat.mod_lt _ (by omega)
    unfold getNextFileLoop
    dsimp only
    rw [turn_eq h]
    split
    · exact hafter
    · split
      · exact hafter
      · exact ih hafter

/-- `get_next_file` stays among the files. -/
theorem getNextFile_lt (h : next < fds.length) : (getNextFile fds next).2 < fds.length :=
  getNextFileLoop_lt h

/-- A round that has passed `j` closed files goes on to an open one. -/
theorem getNextFileLoop_some {old left j : Nat} (hold : old < fds.length) (hopen : true ∈ fds)
    (hround : left + j = fds.length)
    (hclosed : ∀ i < j, fds.getD ((old + i) % fds.length) false = false) :
    ∃ fi, (getNextFileLoop fds old left ((old + j) % fds.length)).1 = some fi := by
  have hpos : 0 < fds.length := by omega
  -- after a whole round every file would be closed
  have hnever (hall : ∀ i < fds.length, fds.getD ((old + i) % fds.length) false = false) :
      False := by
    obtain ⟨k, hk, hget⟩ := List.getElem_of_mem hopen
    have hplace : (old + (k + fds.length - old) % fds.length) % fds.length = k := by
      rw [Nat.add_mod_mod, Nat.add_sub_cancel' (by omega), Nat.add_mod_right, Nat.mod_eq_of_lt hk]
    have hfalse := hall _ (Nat.mod_lt (k + fds.length - old) hpos)
    rw [hplace, List.getD_eq_getElem _ _ hk, hget] at hfalse
    cases hfalse
  induction left generalizing j with
  | zero => exact (hnever fun i hi => hclosed i (by omega)).elim
  | succ left ih =>
    have hlt : (old + j) % fds.length < fds.length := Nat.mod_lt _ hpos
    unfold getNextFileLoop
    dsimp only
    rw [turn_eq hlt, Nat.mod_add_mod, Nat.add_assoc]
    split
    · exact ⟨_, rfl⟩
    · next hshut =>
      have hclosed' : ∀ i < j + 1, fds.getD ((old + i) % fds.length) false = false := by
        intro i hi
        rcases Nat.lt_succ_iff_lt_or_eq.mp hi with hi | rfl
        · exact hclosed i hi
        · exact Bool.eq_false_iff.mpr hshut
      split
      · next hback =>
        have hwhole : j + 1 = fds.length := by
          by_contra hne
          have hsmall : j + 1 < fds.length := by omega
          rcases Nat.lt_or_ge (old + (j + 1)) fds.length with hin | hout
          · rw [Nat.mod_eq_of_lt hin] at hback
            omega
          · rw [Nat.mod_eq_sub_mod hout, Nat.mod_eq_of_lt (by omega)] at hback
            omega
        exact (hnever fun i hi => hclosed' i (by omega)).elim
      · exact ih (by omega) hclosed'

/-- `get_next_file` finds a file when one is open. -/
theorem getNextFile_some (h : next < fds.length) (hopen : true ∈ fds) :
    ∃ fi, (getNextFile fds next).1 = some fi := by
  have hround := getNextFileLoop_some h hopen (Nat.add_zero fds.length)
    (fun i hi => absurd hi (Nat.not_lt_zero i))
  rw [Nat.add_zero, Nat.mod_eq_of_lt h] at hround
  exact hround

theorem nextFileAfter_lt (h : next < fds.length) (done : List IoPiece) :
    nextFileAfter fds next done < fds.length := by
  induction done generalizing next with
  | nil => exact h
  | cons p done ih => exact ih (getNextFile_lt h)

/-! ## One round of the loop -/

/-- `do_verify` in front of its loop, in a job that has nothing pending, a free unit and an open file. -/
structure ReadyToVerify (s : IoState) : Prop where
  pc : s.pc = .verify
  waits : s.vIoU = none
  inFlight : s.inFlight = []
  issued : s.issued = []
  free : s.td.ioUFreelist ≠ []
  nextFile : s.nextFile < s.fds.length
  isOpen : true ∈ s.fds

/-- The verification fails on what the device returns for a read-back. -/
def deviceFails (device : Target → VerifyBuf) (t : Target) : Bool := verifyIoU (device t) != some 0

/-- What happens in the loop when nothing stops it and the engine serves every read: the verification
of a unit answers what it says about the buffer that the device returned. -/
def Undisturbed (fails : Target → Bool) (s : IoState) : IoEvent → Prop
  | .verifyHead terminate exceeded prepFails =>
    terminate = false ∧ exceeded = false ∧ prepFails = false
  | .verifyQueue failed _ bad =>
    failed = false ∧ ∀ i ∈ s.vIoU, bad = fails (s.td.ioU i).target
  | .verifyReap (.events [c]) bad => c.error = 0 ∧ bad = fails (s.td.ioU c.unit).target
  | _ => False

instance (fails : Target → Bool) (s : IoState) (e : IoEvent) :
    Decidable (Undisturbed fails s e) := by
  unfold Undisturbed
  split <;> infer_instance

/-- A device that returns what was written: for every piece, the buffer that was populated for it. -/
def ReturnsWritten (device : Target → VerifyBuf) (pieces : List IoPiece) : Prop :=
  ∀ p ∈ pieces, ∃ (verify : Verify) (hdr : VerifyHeader) (random : Nat → UInt8) (u : IoU),
    verify ≠ .none ∧ verifyHeaderSize.toUInt32 ≤ u.buflen ∧ u.target = p.target ∧
      device p.target = populateVerifyIoU verify hdr random u

theorem ReturnsWritten.accepts {device : Target → VerifyBuf} {t : Target}
    (h : ReturnsWritten device pieces) (ht : t ∈ pieces.map IoPiece.target) :
    deviceFails device t = false := by
  obtain ⟨p, hp, rfl⟩ := List.mem_map.mp ht
  obtain ⟨verify, hdr, random, u, htype, hlen, -, hdevice⟩ := h p hp
  unfold deviceFails
  rw [hdevice, verifyIoU_populate htype hlen]
  rfl

/-- A unit that the loop has handed to the engine: a read of something it has issued. -/
def IsReadBack (s : IoState) (i : Nat) : Prop :=
  (s.td.ioU i).ddir = .data .read ∧ (s.td.ioU i).target ∈ s.issued

/-- The control points of the loop, and the one behind it. -/
def inLoop : IoPc → Bool
  | .verify | .verifyQueue _ | .verifyReap | .verifyEnd => true
  | _ => false

/-- Where the loop stands: the pieces that have been issued, and the rest. -/
structure VerifyAt (fds : List Bool) (next : Nat) (done rest : List IoPiece) (s : IoState) : Prop where
  fds_eq : s.fds = fds
  issued : s.issued = readBacks fds next done
  readBack : ∀ i ∈ s.inFlight ++ s.vIoU.toList, IsReadBack s i
  atVerify : s.pc = .verify → s.td.ioHistList = rest ∧ s.td.ioUFreelist ≠ [] ∧
    s.nextFile = nextFileAfter fds next done ∧ s.inFlight = []
  atQueue : ∀ i, s.pc = .verifyQueue i → ∃ p, rest = p :: s.td.ioHistList ∧
    (s.td.ioU i).ddir = .data .read ∧
    (s.td.ioU i).target = ((getNextFile fds (nextFileAfter fds next done)).1, p.offset, p.len) ∧
    s.nextFile = nextFileAfter fds next (done ++ [p]) ∧ s.inFlight = []
  atReap : s.pc = .verifyReap → s.td.ioHistList = rest ∧
    s.nextFile = nextFileAfter fds next done ∧ s.vIoU = none ∧ ∃ i, s.inFlight = [i]

/-- The loop goes on, or it ends behind the last piece or where a verification fails. -/
def GoesOn (fails : Target → Bool) (fds : List Bool) (next : Nat) (pieces : List IoPiece)
    (s : IoState) : Prop :=
  inLoop s.pc = true ∧ ∃ done rest, pieces = done ++ rest ∧ VerifyAt fds next done rest s ∧
    (s.pc = .verifyEnd → rest = [] ∨ ∃ t ∈ s.issued, fails t = true)

variable {fails : Target → Bool} {n i : Nat} {rest : List IoPiece} {s s' : IoState}
  {e : IoEvent} {td : ThreadData}

theorem getFreeIoU_unit (h : getFreeIoU s.td = some (i, td)) :
    td.ioHistList = s.td.ioHistList ∧ ∀ j ≠ i, td.ioU j = s.td.ioU j := by
  unfold getFreeIoU at h
  split at h
  · cases h
  · cases h
    exact ⟨rfl, fun j hj => Function.update_of_ne hj ..⟩

theorem getFreeIoU_ne_none (h : s.td.ioUFreelist ≠ []) : ∃ i td, getFreeIoU s.td = some (i, td) := by
  unfold getFreeIoU
  cases hfree : s.td.ioUFreelist with
  | nil => exact absurd hfree h
  | cons i free => exact ⟨_, _, rfl⟩

/-- The head of the loop when no piece is left. -/
theorem verifyStep_done (hget : getFreeIoU s.td = some (i, td)) (hhist : td.ioHistList = []) :
    verifyStep s (.verifyHead false false false) =
      .ok (({ s with td := td }.put i).goto .verifyEnd) := by
  simp [verifyStep, hget, getNextVerify, hhist]

/-- The head of the loop on the next piece. -/
theorem verifyStep_piece {fi after : Nat} (hget : getFreeIoU s.td = some (i, td))
    (hhist : td.ioHistList = p :: rest)
    (hfile : getNextFile s.fds s.nextFile = (some fi, after)) :
    verifyStep s (.verifyHead false false false) =
      .ok ((({ s with td := { td with ioHistList := rest }, nextFile := after }.setUnit i
          { td.ioU i with offset := p.offset, buflen := p.len, ddir := .data .read }).setUnit i
          { td.ioU i with
            offset := p.offset, buflen := p.len, ddir := .data .read, file := some fi }).goto
        (.verifyQueue i)) := by
  simp only [verifyStep, hget, getNextVerify, hhist, IoState.setUnit, hfile, Bool.false_eq_true, if_false]

/-- A unit that has the content it had is a read-back as it was. -/
theorem IsReadBack.same {j : Nat} (h : IsReadBack s j) (hunit : (s'.td.ioU j).ddir = (s.td.ioU j).ddir)
    (htarget : (s'.td.ioU j).target = (s.td.ioU j).target)
    (hissued : ∀ t ∈ s.issued, t ∈ s'.issued) : IsReadBack s' j := by
  refine ⟨hunit.trans h.1, ?_⟩
  rw [htarget]
  exact hissued _ h.2

theorem verifyHead_goesOn (hn : n < 2 ^ 32) (hinv : IoInv n s) (hnext : next < fds.length)
    (hopen : true ∈ fds) (hsplit : pieces = done ++ rest) (h : VerifyAt fds next done rest s)
    (hpc : s.pc = .verify) (hok : Undisturbed fails s e) (hstep : verifyStep s e = .ok s') :
    GoesOn fails fds next pieces s' := by
  obtain ⟨hhist, hfree, hturn, hflight⟩ := h.atVerify hpc
  obtain ⟨i, td, hget⟩ := getFreeIoU_ne_none hfree
  obtain ⟨hkept, hothers⟩ := getFreeIoU_unit hget
  -- the unit that waits for its verification is another one
  have hwaits : ∀ j ∈ s.inFlight ++ s.vIoU.toList, j ≠ i := by
    rintro j hj rfl
    rw [hflight, List.nil_append] at hj
    have hbusy := hinv.holds.busy j (by simp [hj])
    exact (hinv.holds.pool.get hn hget).2.2 hbusy
  cases e with
  | verifyHead terminate exceeded prepFails =>
    obtain ⟨rfl, rfl, rfl⟩ := hok
    cases rest with
    | nil =>
      rw [verifyStep_done hget (hkept.trans hhist)] at hstep
      cases hstep
      refine ⟨rfl, done, [], hsplit, ⟨h.fds_eq, h.issued, ?_, nofun, nofun, nofun⟩, fun _ => .inl rfl⟩
      intro j hj
      have hunit : (putIoU td i).ioU j = s.td.ioU j :=
        (Function.update_of_ne (hwaits j hj) ..).trans (hothers j (hwaits j hj))
      exact (h.readBack j hj).same (congrArg IoU.ddir hunit) (congrArg IoU.target hunit)
        fun t ht => ht
    | cons p rest =>
      obtain ⟨fi, hfile⟩ := getNextFile_some (nextFileAfter_lt hnext done) hopen
      have hturned : getNextFile s.fds s.nextFile =
          (some fi, (getNextFile fds (nextFileAfter fds next done)).2) := by
        rw [h.fds_eq, hturn]
        exact Prod.ext hfile rfl
      rw [verifyStep_piece hget (hkept.trans hhist) hturned] at hstep
      cases hstep
      refine ⟨rfl, done, p :: rest, hsplit, ⟨h.fds_eq, h.issued, ?_, nofun, ?_, nofun⟩, nofun⟩
      · intro j hj
        have hne := hwaits j hj
        have hunit (u u' : IoU) :
            Function.update (Function.update td.ioU i u) i u' j = s.td.ioU j := by
          rw [Function.update_of_ne hne, Function.update_of_ne hne, hothers j hne]
        exact (h.readBack j hj).same (congrArg IoU.ddir (hunit _ _))
          (congrArg IoU.target (hunit _ _)) fun t ht => ht
      · rintro j ⟨⟩
        refine ⟨p, rfl, ?_, ?_, nextFileAfter_snoc.symm, hflight⟩
        · simp [goto, IoState.setUnit]
        · rw [hfile]
          simp [goto, IoState.setUnit, IoU.target]
  | _ => cases hstep

theorem verifyQueue_goesOn (hinv : IoInv n s) (hsplit : pieces = done ++ rest)
    (h : VerifyAt fds next done rest s) (hpc : s.pc = .verifyQueue i)
    (hok : Undisturbed fails s e) (hstep : verifyQueueStep s i e = .ok s') :
    GoesOn fails fds next pieces s' := by
  obtain ⟨p, hrest, hddir, htarget, hturn, hflight⟩ := h.atQueue i hpc
  cases e with
  | verifyQueue failed error bad =>
    obtain ⟨rfl, hbad⟩ := hok
    have hissued : s.issued ++ [(s.td.ioU i).target] = readBacks fds next (done ++ [p]) := by
      rw [readBacks_snoc, h.issued, htarget]
    have hi : IsReadBack { s with issued := s.issued ++ [(s.td.ioU i).target] } i :=
      ⟨hddir, List.mem_append_right _ (List.mem_singleton_self _)⟩
    have hsplit' : pieces = (done ++ [p]) ++ s.td.ioHistList := by
      rw [hsplit, hrest, List.append_assoc, List.singleton_append]
    unfold verifyQueueStep at hstep
    simp only [Bool.false_eq_true, if_false] at hstep
    cases hwaits : s.vIoU with
    | none =>
      simp only [verifyFails, doIoUVerify, queued, hwaits, Option.isSome_none, Bool.false_and,
        Bool.false_eq_true, if_false] at hstep
      cases hstep
      refine ⟨rfl, done ++ [p], s.td.ioHistList, hsplit',
        ⟨h.fds_eq, hissued, ?_, nofun, nofun, fun _ => ⟨rfl, hturn, rfl, i, ?_⟩⟩, nofun⟩
      · intro j hj
        obtain rfl : j = i := by simpa [goto, hflight] using hj
        exact hi
      · exact congrArg (i :: ·) hflight
    | some v =>
      have hne : i ≠ v := by
        have hnodup := (List.nodup_append.mp hinv.holds.nodup).2.1
        rw [hpc, hwaits] at hnodup
        exact fun heq => (List.nodup_cons.mp hnodup).1 (List.mem_singleton.mpr heq)
      -- the unit that waited is put, and the one that was queued is left as it is
      have hput : IsReadBack ({ s.queued i with
          issued := s.issued ++ [(s.td.ioU i).target] }.put v) i := by
        have hunit : (putIoU s.td v).ioU i = s.td.ioU i := Function.update_of_ne hne ..
        exact hi.same (congrArg IoU.ddir hunit) (congrArg IoU.target hunit) fun t ht => ht
      have hmem : ∀ j ∈ (i :: s.inFlight) ++ (none : Option Nat).toList, j = i := by
        intro j hj
        simpa [hflight] using hj
      simp only [verifyFails, doIoUVerify, queued, hwaits, Option.isSome_some, Bool.true_and] at hstep
      cases bad with
      | false =>
        cases hstep
        refine ⟨rfl, done ++ [p], s.td.ioHistList, hsplit',
          ⟨h.fds_eq, hissued, ?_, nofun, nofun, fun _ => ⟨rfl, hturn, rfl, i, ?_⟩⟩, nofun⟩
        · intro j hj
          obtain rfl := hmem j hj
          exact hput
        · exact congrArg (i :: ·) hflight
      | true =>
        cases hstep
        refine ⟨rfl, done ++ [p], s.td.ioHistList, hsplit',
          ⟨h.fds_eq, hissued, ?_, nofun, nofun, nofun⟩, fun _ => .inr ?_⟩
        · intro j hj
          obtain rfl := hmem j hj
          exact hput
        · have hread := h.readBack v (by simp [hwaits])
          exact ⟨_, List.mem_append_left _ hread.2, (hbad v hwaits).symm⟩
  | _ => cases hstep

/-- The completion of a read logs nothing. -/
theorem ioCompleted_read (td : ThreadData) {u : IoU} (h : u.ddir = .data .read) :
    (ioCompleted td u).ioHistList = td.ioHistList ∧ (ioCompleted td u).ioU = td.ioU ∧
      (ioCompleted td u).ioUFreelist = td.ioUFreelist := by
  unfold ioCompleted
  rw [h]
  dsimp only
  split
  · rw [if_neg (by simp [show (DataDdir.read == DataDdir.write) = false from rfl])]
    exact ⟨rfl, rfl, rfl⟩
  · exact ⟨rfl, rfl, rfl⟩

/-- What the completion of a read-back leaves: the pieces, the files and the units. -/
theorem completed_read {c : Completion} (h : (s.td.ioU c.unit).ddir = .data .read) :
    let td := ioCompleted (s.takeBack c).td ((s.takeBack c).td.ioU c.unit)
    td.ioHistList = s.td.ioHistList ∧ (td.ioU c.unit).ddir = .data .read ∧
      (td.ioU c.unit).target = (s.td.ioU c.unit).target := by
  have hunit : (s.takeBack c).td.ioU c.unit =
      { s.td.ioU c.unit with resid := c.resid, error := c.error } := Function.update_self ..
  obtain ⟨hhist, hunits, -⟩ :=
    ioCompleted_read (s.takeBack c).td ((congrArg IoU.ddir hunit).trans h)
  dsimp only
  rw [hhist, hunits, hunit]
  exact ⟨rfl, h, rfl⟩

theorem verifyReap_goesOn (hsplit : pieces = done ++ rest)
    (h : VerifyAt fds next done rest s) (hpc : s.pc = .verifyReap)
    (hok : Undisturbed fails s e) (hstep : verifyReapStep s e = .ok s') :
    GoesOn fails fds next pieces s' := by
  obtain ⟨hhist, hturn, hwaits, i, hflight⟩ := h.atReap hpc
  cases e with
  | verifyReap ret bad =>
    obtain ⟨c, rfl⟩ : ∃ c, ret = .events [c] := by
      unfold Undisturbed at hok
      split at hok
      · next heq => cases heq
      · next heq => cases heq
      · next heq =>
        cases heq
        exact ⟨_, rfl⟩
      · exact hok.elim
    obtain ⟨hnoerror, hbad⟩ := hok
    unfold verifyReapStep at hstep
    dsimp only at hstep
    split at hstep
    · next hgives =>
      have hc := hgives.2 c (List.mem_singleton_self c)
      obtain rfl : c.unit = i := by simpa [hflight] using hc
      have hread := h.readBack c.unit (by simp [hflight])
      have hunit : s.unitError c = 0 := by
        unfold unitError
        rw [hread.1]
        exact hnoerror
      obtain ⟨hkept, hddir, htarget⟩ := completed_read hread.1
      have hempty : s.inFlight.erase c.unit = [] := by
        rw [hflight, List.erase_cons_head]
      simp only [hunit, ne_eq, not_true_eq_false, if_false] at hstep
      split at hstep
      · -- the queue is full: the unit is verified at once, and free again
        have hnothing : ∀ j, j ∉ s.inFlight.erase c.unit ++ (none : Option Nat).toList := by
          simp [hempty]
        cases bad with
        | false =>
          cases hstep
          refine ⟨rfl, done, rest, hsplit, ⟨h.fds_eq, h.issued, ?_, fun _ => ?_, nofun, nofun⟩, nofun⟩
          · exact fun j hj => (hnothing j hj).elim
          · exact ⟨hkept.trans hhist, List.cons_ne_nil _ _, hturn, hempty⟩
        | true =>
          cases hstep
          refine ⟨rfl, done, rest, hsplit, ⟨h.fds_eq, h.issued, ?_, nofun, nofun, nofun⟩,
            fun _ => .inr ⟨_, hread.2, hbad.symm⟩⟩
          exact fun j hj => (hnothing j hj).elim
      · next hroom =>
        cases hstep
        refine ⟨rfl, done, rest, hsplit, ⟨h.fds_eq, h.issued, ?_, fun _ => ?_, nofun, nofun⟩, nofun⟩
        · intro j hj
          obtain rfl : j = c.unit := by
            have hmem : j ∈ s.inFlight.erase c.unit ++ [c.unit] := hj
            simpa [hempty] using hmem
          refine ⟨hddir, ?_⟩
          have hissued := hread.2
          rw [← htarget] at hissued
          exact hissued
        · refine ⟨hkept.trans hhist, fun hnil => hroom ?_, hturn, hempty⟩
          exact List.isEmpty_iff.mpr hnil
    · cases hstep
  | _ => cases hstep

theorem GoesOn.step (hn : n < 2 ^ 32) (hinv : IoInv n s) (hnext : next < fds.length)
    (hopen : true ∈ fds) (h : GoesOn fails fds next pieces s) (hok : Undisturbed fails s e)
    (hstep : ioStep s e = .ok s') : GoesOn fails fds next pieces s' := by
  obtain ⟨hpcs, done, rest, hsplit, hat, -⟩ := h
  unfold ioStep at hstep
  cases hpc : s.pc with
  | verify =>
    rw [hpc] at hstep
    exact verifyHead_goesOn hn hinv hnext hopen hsplit hat hpc hok hstep
  | verifyQueue i =>
    rw [hpc] at hstep
    exact verifyQueue_goesOn hinv hsplit hat hpc hok hstep
  | verifyReap =>
    rw [hpc] at hstep
    exact verifyReap_goesOn hsplit hat hpc hok hstep
  | verifyEnd =>
    rw [hpc] at hstep
    unfold verifyEndStep at hstep
    cases e with
    | verifyEnd bad => exact hok.elim
    | _ => cases hstep
  | _ =>
    rw [hpc] at hpcs
    cases hpcs

theorem ReadyToVerify.goesOn (h : ReadyToVerify s) :
    GoesOn fails s.fds s.nextFile s.td.ioHistList s := by
  have hpc := h.pc
  have hnot : s.pc ≠ .verifyEnd := by simp [hpc]
  refine ⟨by rw [hpc]; rfl, [], s.td.ioHistList, rfl,
    ⟨rfl, h.issued, ?_, fun _ => ⟨rfl, h.free, rfl, h.inFlight⟩, ?_, ?_⟩,
    fun hend => absurd hend hnot⟩
  · intro i hi
    rw [h.inFlight, h.waits] at hi
    cases hi
  · intro i hi
    rw [hpc] at hi
    cases hi
  · intro hi
    rw [hpc] at hi
    cases hi

/-! ## The whole loop -/

/-- Runs of the loop that nothing stops. -/
abbrev VerifyRun (fails : Target → Bool) : IoState → List IoEvent → IoState → Prop :=
  Run fun s e s' => ioStep s e = .ok s' ∧ Undisturbed fails s e

theorem VerifyRun.goesOn {es : List IoEvent} (hn : n < 2 ^ 32) (hinv : IoInv n s)
    (hready : ReadyToVerify s) (hrun : VerifyRun fails s es s') :
    GoesOn fails s.fds s.nextFile s.td.ioHistList s' := by
  have hboth : IoInv n s' ∧ GoesOn fails s.fds s.nextFile s.td.ioHistList s' :=
    hrun.stateInvariant (I := fun t => IoInv n t ∧ GoesOn fails s.fds s.nextFile s.td.ioHistList t)
      ⟨hinv, hready.goesOn⟩ fun t e u h hstep => ⟨h.1.step hn hstep.1,
        h.2.step hn h.1 hready.nextFile hready.isOpen hstep.2 hstep.1⟩
  exact hboth.2

/-- A job that writes 4k blocks of files of 12288 bytes in random order and verifies them. -/
def verifiedJob (nrFiles : Nat) : IoState :=
  startIo (fixupOptions { randomWriter with verify := .crc32 }) 12288 nrFiles false

/-- A write to a file, which block 0 or 1 of it by the random number. -/
def writeTo (random : RandLong) (back : List Completion) : List IoEvent :=
  [.doIoHead false (clearedFile 12288 1) ⟨fun _ => random, 0, 0, 0, false⟩, .queue false 0,
    .doIoReap (.events back) .goOn]

/-- The end of `do_io`, when it is terminated. -/
def endDoIo : List IoEvent := [.doIoHead true (clearedFile 12288 1) zeroEnv, .goOn]

/-- `fio_io_sync` of one file by `do_verify`. -/
def syncFile : List IoEvent := [.prep false, .queue false 0, .getevents (.events [⟨1, 0, 0⟩])]

/-- A device that has what was written for some pieces, and blank blocks. -/
def writtenDevice (pieces : List Target) (t : Target) : VerifyBuf :=
  if t ∈ pieces then
    populateVerifyIoU .crc32 zeroHeader (fun _ => 7) { writeUnit t.2.2 with file := t.1, offset := t.2.1 }
  else ⟨zeroHeader, []⟩

theorem writtenDevice_fails (pieces : List Target) (h : ∀ t ∈ pieces, t.2.2 = 4096) :
    deviceFails (writtenDevice pieces) = fun t => !decide (t ∈ pieces) := by
  funext t
  unfold deviceFails writtenDevice
  split
  · next hmem =>
    have hlen : verifyHeaderSize.toUInt32 ≤ t.2.2 := by
      rw [h t hmem]
      decide
    have hwritten : ∀ u : IoU, u.buflen = t.2.2 →
        verifyIoU (populateVerifyIoU .crc32 zeroHeader (fun _ => 7) u) = some 0 :=
      fun u hu => verifyIoU_populate nofun (hu ▸ hlen)
    rw [hwritten _ rfl]
    simp [hmem]
  · next hnot =>
    have hblank : verifyIoU ⟨zeroHeader, []⟩ = some 1 := by decide
    rw [hblank]
    simp [hnot]

theorem writtenDevice_returnsWritten (pieces : List IoPiece) (h : ∀ p ∈ pieces, p.len = 4096) :
    ReturnsWritten (writtenDevice (pieces.map IoPiece.target)) pieces := by
  intro p hp
  refine ⟨.crc32, zeroHeader, fun _ => 7,
    { writeUnit p.len with file := p.file, offset := p.offset }, nofun, ?_, rfl, ?_⟩
  · show verifyHeaderSize.toUInt32 ≤ p.len
    rw [h p hp]
    decide
  · exact if_pos (List.mem_map_of_mem hp)

/-- One round of the loop that nothing stops. -/
def undisturbedStep (fails : Target → Bool) (s : IoState) (e : IoEvent) : Step :=
  if Undisturbed fails s e then ioStep s e else .error ()

theorem VerifyRun.of_foldlM {es : List IoEvent} (h : es.foldlM (undisturbedStep fails) s = .ok s') :
    VerifyRun fails s es s' := by
  refine (Run.of_foldlM h).mono fun t e u hstep => ?_
  unfold undisturbedStep at hstep
  split at hstep
  · next hok => exact ⟨hstep, hok⟩
  · cases hstep

instance : DecidableEq Target := instDecidableEqProd

/-- What is seen of the job in front of the loop: whether it is ready, the pieces, and the pieces with
the files whose turn it is. -/
def beforeLoop (s : IoState) : Bool × List IoPiece × List Target :=
  (decide (s.pc = .verify ∧ s.vIoU = none ∧ s.inFlight = [] ∧ s.issued = [] ∧
    s.td.ioUFreelist ≠ [] ∧ s.nextFile < s.fds.length ∧ true ∈ s.fds), s.td.ioHistList,
    readBacks s.fds s.nextFile s.td.ioHistList)

/-- A job is executed up to the loop, and through it. -/
def execVerify (fails : Target → Bool) (s : IoState) (es es' : List IoEvent) :
    Except Unit ((Bool × List IoPiece × List Target) × IoPc × List Target) := do
  let t ← es.foldlM ioStep s
  let u ← es'.foldlM (undisturbedStep fails) t
  return (beforeLoop t, u.pc, u.issued)

theorem exists_verifyRun {es es' : List IoEvent} {turns issued : List Target}
    (h : execVerify fails s es es' = .ok ((true, pieces, turns), .verifyEnd, issued)) :
    ∃ t u, IoRun s es t ∧ ReadyToVerify t ∧ t.td.ioHistList = pieces ∧
      readBacks t.fds t.nextFile t.td.ioHistList = turns ∧ VerifyRun fails t es' u ∧
      u.pc = .verifyEnd ∧ u.issued = issued := by
  unfold execVerify at h
  cases ht : es.foldlM ioStep s with
  | error _ =>
    rw [ht] at h
    cases h
  | ok t =>
    rw [ht] at h
    cases hu : es'.foldlM (undisturbedStep fails) t with
    | error _ =>
      change (es'.foldlM (undisturbedStep fails) t >>= _) = _ at h
      rw [hu] at h
      cases h
    | ok u =>
      change (es'.foldlM (undisturbedStep fails) t >>= _) = _ at h
      rw [hu] at h
      obtain ⟨hbefore, hafter⟩ := Prod.mk.inj (Except.ok.inj h)
      obtain ⟨hready, hpieces⟩ := Prod.mk.inj hbefore
      obtain ⟨hpieces, hturns⟩ := Prod.mk.inj hpieces
      obtain ⟨hend, hissued⟩ := Prod.mk.inj hafter
      obtain ⟨hpc, hwaits, hflight, hnone, hfree, hnext, hopen⟩ := of_decide_eq_true hready
      exact ⟨t, u, Run.of_foldlM ht, ⟨hpc, hwaits, hflight, hnone, hfree, hnext, hopen⟩, hpieces,
        hturns, VerifyRun.of_foldlM hu, hend, hissued⟩

/-- One file, one write. -/
def oneWrite : List IoEvent :=
  .callDoIo :: writeTo 0 [⟨1, 0, 0⟩] ++ endDoIo ++ .callDoVerify :: syncFile ++ [.goOn]

/-- One round of the loop on the unit on top of the free list. -/
def readBack (pending bad : Bool) : List IoEvent :=
  [.verifyHead false false false, .verifyQueue false 0 pending,
    .verifyReap (.events [⟨1, 0, 0⟩]) bad]

/-- Two files, the second of which is written at 4096 and completes first. -/
def crossedWrites : List IoEvent :=
  .callDoIo :: writeTo 0 [] ++ writeTo 2147483647 [⟨0, 0, 0⟩] ++ endDoIo ++
    [.getevents (.events [⟨1, 0, 0⟩]), .goOn] ++ .callDoVerify :: syncFile ++ syncFile ++ [.goOn]

end Rtfsc.Fio
