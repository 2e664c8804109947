import Rtfsc.Fio.Pool
import Mathlib.Data.List.Induction

/-!
# fio: how often a job syncs

The loop of `do_io` on an engine that serves each unit at once. The number of blocks written decides when
the next unit is a sync, and `last_was_sync` that it is not a second one; every completed transfer clears
it, one of a read as well.
-/

namespace Rtfsc.Fio.Fsync

open Rtfsc.Machine IoState

/-! ## What is seen of the loop -/

/-- What is seen of a step: a unit that goes to the engine, or one that has come back. -/
inductive Traffic
  | issued (ddir : FioDdir)
  | completed (ddir : FioDdir)
  | other
deriving DecidableEq

/-- The control points of the loop of `do_io`. -/
def inLoop : IoPc → Bool
  | .doIo | .doIoQueue _ | .doIoReap => true
  | _ => false

/-- The traffic of a step. -/
def traffic (s : IoState) (e : IoEvent) : Traffic :=
  match s.pc, e with
  | .doIoQueue i, .queue _ _ => .issued (s.td.ioU i).ddir
  | .doIoReap, .doIoReap (.events [c]) _ => .completed (s.td.ioU c.unit).ddir
  | _, _ => .other

/-- `getevents` of a synchronous engine returns one event. -/
def ServesAtOnce : IoEvent → Prop
  | .doIoReap ret _ => ∃ c, ret = .events [c]
  | _ => True

/-- A step of the loop, and what is seen of it. -/
def LoopStep (s : IoState) (o : Traffic) (s' : IoState) : Prop :=
  inLoop s.pc = true ∧ ∃ e, ioStep s e = .ok s' ∧ ServesAtOnce e ∧ o = traffic s e

/-- Runs of the loop of `do_io`. -/
abbrev LoopRun : IoState → List Traffic → IoState → Prop := Run LoopStep

/-- The units of a run that are syncs. -/
def Traffic.isSync (o : Traffic) : Bool := o = .issued .sync

/-- The writes of a run that have come back. -/
def Traffic.isWrite (o : Traffic) : Bool := o = .completed (.data .write)

/-- The number of writes that have come back. -/
def writes (os : List Traffic) : Nat := os.countP Traffic.isWrite

/-- The writes that have come back since the last sync, or since the start, those of the whole run, and
whether there was a sync. -/
structure Tally where
  since : Nat
  total : Nat
  synced : Bool

def Tally.add (t : Tally) : Traffic → Tally
  | .issued .sync => ⟨0, t.total, true⟩
  | .completed (.data .write) => ⟨t.since + 1, t.total + 1, t.synced⟩
  | _ => t

def tally (os : List Traffic) : Tally := os.foldl Tally.add ⟨0, 0, false⟩

variable {os os₁ os₂ : List Traffic} {o : Traffic} {t : Tally}

theorem tally_snoc (os : List Traffic) (o : Traffic) : tally (os ++ [o]) = (tally os).add o := by
  rw [tally, List.foldl_append]
  rfl

theorem Tally.add_since (t : Tally) (h : o.isSync = false) :
    (t.add o).since = t.since + if o.isWrite then 1 else 0 := by
  cases o with
  | issued d =>
    cases d with
    | data d => rfl
    | sync => cases h
  | completed d =>
    cases d with
    | data d => cases d <;> rfl
    | sync => rfl
  | other => rfl

theorem Tally.add_total (t : Tally) (o : Traffic) :
    (t.add o).total = t.total + if o.isWrite then 1 else 0 := by
  cases o with
  | issued d => cases d <;> rfl
  | completed d =>
    cases d with
    | data d => cases d <;> rfl
    | sync => rfl
  | other => rfl

theorem writes_cons (o : Traffic) (os : List Traffic) :
    writes (o :: os) = (if o.isWrite then 1 else 0) + writes os := by
  rw [writes, List.countP_cons, Nat.add_comm]
  rfl

theorem writes_append (os₁ os₂ : List Traffic) : writes (os₁ ++ os₂) = writes os₁ + writes os₂ :=
  List.countP_append

/-- Without a sync every write counts. -/
theorem foldl_since (t : Tally) (h : ∀ o ∈ os, o.isSync = false) :
    (os.foldl Tally.add t).since = t.since + writes os := by
  induction os generalizing t with
  | nil => rfl
  | cons o os ih =>
    rw [List.foldl_cons, ih _ fun o ho => h o (.tail _ ho), t.add_since (h o List.mem_cons_self),
      writes_cons, Nat.add_assoc]

theorem foldl_total (t : Tally) (os : List Traffic) :
    (os.foldl Tally.add t).total = t.total + writes os := by
  induction os generalizing t with
  | nil => rfl
  | cons o os ih => rw [List.foldl_cons, ih, t.add_total, writes_cons, Nat.add_assoc]

theorem foldl_synced (os : List Traffic) (h : t.synced = true) :
    (os.foldl Tally.add t).synced = true := by
  induction os generalizing t with
  | nil => exact h
  | cons o os ih =>
    refine ih ?_
    cases o with
    | issued d => cases d <;> first | exact h | rfl
    | completed d =>
      cases d with
      | data d => cases d <;> exact h
      | sync => exact h
    | other => exact h

/-! ## What decides about a sync -/

variable {td td' : ThreadData} {u u' : IoU} {f f' : FioFile} {fi i : Nat} {env : GetEnv} {d : FioDdir}

/-- What `fill_io_u` decides on is the same. -/
structure SameCadence (td td' : ThreadData) : Prop where
  opts : td'.opts = td.opts
  readIolog : td'.readIolog = td.readIolog
  ioBlocks : td'.ioBlocks = td.ioBlocks
  lastWasSync : td'.lastWasSync = td.lastWasSync

theorem SameCadence.refl (td : ThreadData) : SameCadence td td := ⟨rfl, rfl, rfl, rfl⟩

theorem SameCadence.trans {td₁ : ThreadData} (h : SameCadence td td₁) (h' : SameCadence td₁ td') :
    SameCadence td td' :=
  ⟨h'.opts.trans h.opts, h'.readIolog.trans h.readIolog, h'.ioBlocks.trans h.ioBlocks,
    h'.lastWasSync.trans h.lastWasSync⟩

theorem SameCadence.timeToSync (h : SameCadence td td') : timeToSync td' = timeToSync td := by
  unfold Fio.timeToSync shouldFsync
  rw [h.opts, h.ioBlocks, h.lastWasSync]

/-- The direction of a unit that `fill_io_u` has filled. -/
def Chosen (td : ThreadData) : FioDdir → Prop
  | .sync => timeToSync td = true
  | .data d => timeToSync td = false ∧ (tdRw td.opts = false → tdWrite td.opts = true → d = .write)

theorem Chosen.congr (h : SameCadence td td') (hd : Chosen td d) : Chosen td' d := by
  cases d with
  | sync => exact h.timeToSync.trans hd
  | data d => exact ⟨h.timeToSync.trans hd.1, h.opts ▸ hd.2⟩

theorem getRwDdir_cadence (td : ThreadData) (elapsed : UInt64) (r : RandLong) :
    SameCadence td (getRwDdir td elapsed r).2 ∧
      (tdRw td.opts = false → tdWrite td.opts = true → (getRwDdir td elapsed r).1 = .write) := by
  unfold getRwDdir
  split
  · rename_i hrw
    have hnot {P : Prop} : tdRw td.opts = false → P := fun h => absurd hrw (by rw [h]; decide)
    split
    · exact ⟨⟨rfl, rfl, rfl, rfl⟩, hnot⟩
    · exact ⟨SameCadence.refl td, hnot⟩
  · split
    · rename_i hread
      refine ⟨SameCadence.refl td, fun _ hwrite => ?_⟩
      unfold tdRead at hread
      unfold tdWrite at hwrite
      rw [eq_of_beq hread] at hwrite
      cases hwrite
    · exact ⟨SameCadence.refl td, fun _ _ => rfl⟩

theorem fillIoU_cadence {filled : Bool} (hlog : td.readIolog = false)
    (h : fillIoU td f fi u env = .ok (filled, u', td')) :
    SameCadence td td' ∧ (filled = true → Chosen td u'.ddir) := by
  unfold fillIoU at h
  rw [hlog, if_neg Bool.false_ne_true] at h
  split at h
  · rename_i htime
    cases h
    exact ⟨SameCadence.refl td, fun _ => htime⟩
  · rename_i htime
    obtain ⟨hturn, hwrite⟩ := getRwDdir_cadence td env.elapsed env.rwmix
    generalize getRwDdir td env.elapsed env.rwmix = turn at h hturn hwrite
    obtain ⟨d, td₁⟩ := turn
    obtain ⟨⟨found, offset⟩, -, h⟩ := bind_eq_ok.mp h
    dsimp only at h hturn hwrite
    split at h
    · cases h
      exact ⟨hturn, fun hfilled => nomatch hfilled⟩
    · split at h
      · cases h
        exact ⟨hturn, fun hfilled => nomatch hfilled⟩
      · cases h
        refine ⟨?_, fun _ => ⟨Bool.eq_false_iff.mpr htime, hwrite⟩⟩
        split
        · exact hturn.trans ⟨rfl, rfl, rfl, rfl⟩
        · exact hturn

theorem clipToFile_ddir (o : Options) (f : FioFile) (u : IoU) :
    (clipToFile o f u).2.ddir = u.ddir := by
  unfold clipToFile
  split
  · split <;> rfl
  · rfl

theorem issueIoU_ddir {d : DataDdir} {issued : Bool}
    (h : issueIoU td f u d = .ok (issued, f', u')) : u'.ddir = u.ddir := by
  unfold issueIoU at h
  split at h
  · cases h
    rfl
  · obtain ⟨⟨f₁, u₁⟩, hmark, h⟩ := bind_eq_ok.mp h
    cases h
    unfold markIoU at hmark
    split at hmark
    · unfold markRandomMap at hmark
      obtain ⟨block, -, hmark⟩ := bind_eq_ok.mp hmark
      obtain ⟨⟨f₂, blocks⟩, -, hmark⟩ := bind_eq_ok.mp hmark
      dsimp only at hmark
      split at hmark
      · cases hmark
        rfl
      · cases hmark
        rfl
    · cases hmark
      rfl

theorem prepareIoU_cadence {ready : Bool} (hlog : td.readIolog = false)
    (h : prepareIoU td f fi u env = .ok (ready, u', td', f')) :
    SameCadence td td' ∧ (ready = true → Chosen td u'.ddir) := by
  unfold prepareIoU at h
  obtain ⟨⟨filled, u₀, td₀⟩, hfill, h⟩ := bind_eq_ok.mp h
  obtain ⟨hsame, hchosen⟩ := fillIoU_cadence hlog hfill
  have hclip := clipToFile_ddir td₀.opts f u₀
  dsimp only at h
  split at h
  · cases h
    exact ⟨hsame, fun hready => nomatch hready⟩
  · rename_i hfilled
    have hchosen := hchosen (by simpa using hfilled)
    rw [← hclip] at hchosen
    generalize clipToFile td₀.opts f u₀ = clipped at h hchosen
    obtain ⟨fits, u₁⟩ := clipped
    dsimp only at h hchosen
    split at h
    · cases h
      exact ⟨hsame, fun hready => nomatch hready⟩
    · split at h
      · cases h
        exact ⟨hsame, fun _ => hchosen⟩
      · obtain ⟨⟨issued, f₁, u₂⟩, hissue, h⟩ := bind_eq_ok.mp h
        cases h
        rw [← issueIoU_ddir hissue] at hchosen
        exact ⟨hsame, fun _ => hchosen⟩

theorem getFreeIoU_cadence (h : getFreeIoU td = some (i, td')) : SameCadence td td' := by
  unfold getFreeIoU at h
  split at h
  · cases h
  · cases h
    exact ⟨rfl, rfl, rfl, rfl⟩

theorem skipZone_cadence (td : ThreadData) (f : FioFile) : SameCadence td (skipZone td f).1 := by
  unfold skipZone
  split <;> exact ⟨rfl, rfl, rfl, rfl⟩

/-- A unit that `get_io_u` returns has the direction that `fill_io_u` decided on. -/
theorem getIoU_cadence (hlog : td.readIolog = false)
    (h : getIoU td f fi env = .ok (some i, td', f')) :
    SameCadence td td' ∧ Chosen td' (td'.ioU i).ddir := by
  unfold getIoU at h
  split at h
  · cases h
  · rename_i j td₁ hfree
    have hsame := (getFreeIoU_cadence hfree).trans (skipZone_cadence td₁ f)
    generalize skipZone td₁ f = zone at h hsame
    obtain ⟨td₂, f₂⟩ := zone
    obtain ⟨⟨ready, u, td₃, f₃⟩, hprep, h⟩ := bind_eq_ok.mp h
    dsimp only at hsame hprep h
    obtain ⟨hsame', hchosen⟩ := prepareIoU_cadence (hsame.readIolog.trans hlog) hprep
    split at h
    · rename_i hready
      cases h
      refine ⟨hsame.trans (hsame'.trans ⟨rfl, rfl, rfl, rfl⟩), ?_⟩
      have hunit : (Function.update td₃.ioU i u i).ddir = u.ddir := by rw [Function.update_self]
      show Chosen _ (Function.update td₃.ioU i u i).ddir
      rw [hunit]
      exact (hchosen hready).congr (hsame'.trans ⟨rfl, rfl, rfl, rfl⟩)
    · cases h

/-! ## What comes back -/

variable {s s' : IoState} {c : Completion} {e : IoEvent}

theorem ioCompleted_sync (td : ThreadData) (h : u.ddir = .sync) :
    ioCompleted td u = { td with lastWasSync := true } := by
  unfold ioCompleted
  rw [h]

theorem ioCompleted_data (td : ThreadData) {d : DataDdir} (h : u.ddir = .data d) :
    (ioCompleted td u).opts = td.opts ∧ (ioCompleted td u).readIolog = td.readIolog ∧
      (ioCompleted td u).lastWasSync = false ∧
      (u.error = 0 → (ioCompleted td u).ioBlocks = td.ioBlocks.set d (td.ioBlocks.get d + 1)) := by
  unfold ioCompleted
  rw [h]
  dsimp only
  split
  · split
    · exact ⟨rfl, rfl, rfl, fun _ => rfl⟩
    · exact ⟨rfl, rfl, rfl, fun _ => rfl⟩
  · rename_i herror
    exact ⟨rfl, rfl, rfl, fun hnone => absurd hnone herror⟩

/-- The unit as it comes back. -/
def returned (s : IoState) (c : Completion) : IoU :=
  { s.td.ioU c.unit with resid := c.resid, error := c.error }

theorem reap_cadence (s : IoState) (c : Completion) :
    SameCadence (ioCompleted (s.takeBack c).td (returned s c)) (s.reap [c]).td := by
  have hunit : (s.takeBack c).td.ioU c.unit = returned s c := Function.update_self ..
  have hcomplete : (s.iosCompleted [c]).td =
      putIoU (ioCompleted (s.takeBack c).td (returned s c)) c.unit := by
    rw [← hunit]
    rfl
  unfold reap
  dsimp only
  split
  · rw [hcomplete]
    exact ⟨rfl, rfl, rfl, rfl⟩
  · unfold verror
    dsimp only
    rw [hcomplete]
    exact ⟨rfl, rfl, rfl, rfl⟩

theorem reap_inFlight (s : IoState) (c : Completion) :
    (s.reap [c]).inFlight = s.inFlight.erase c.unit := by
  unfold reap
  dsimp only
  split <;> rfl

theorem batchError_data {d : DataDdir} (h : (s.td.ioU c.unit).ddir = .data d)
    (hnone : s.batchError [c] = 0) : c.error = 0 := by
  have hunit : s.unitError c = c.error := by rw [unitError, h]
  unfold batchError at hnone
  rw [List.foldl_cons, List.foldl_nil, hunit] at hnone
  split at hnone
  · assumption
  · exact hnone

/-! ## How many writes there is room for -/

/-- The writes that may have come back since the last sync when `b` blocks have been written. -/
def room (n b : Nat) : Nat := if b % n = 0 then n else b % n

theorem room_le {n b : Nat} (hn : 0 < n) : room n b ≤ n := by
  unfold room
  split
  · exact Nat.le_refl n
  · exact (Nat.mod_lt b hn).le

theorem room_pos {n b : Nat} (hn : 0 < n) : 0 < room n b := by
  unfold room
  split <;> omega

/-- A block more, and the counter may wrap. -/
theorem room_succ {n b m : Nat} (hn : 0 < n) (hb : b % n ≠ 0) (hm : b < m) :
    room n b < room n ((b + 1) % m) := by
  have hlt := Nat.mod_lt b hn
  have hmod : (b + 1) % n = (b % n + 1) % n := (Nat.mod_add_mod b n 1).symm
  rw [show room n b = b % n from if_neg hb]
  unfold room
  split
  · exact hlt
  · rename_i hnext
    rcases Nat.lt_or_ge (b + 1) m with hsmall | hwrap
    · rw [Nat.mod_eq_of_lt hsmall, hmod] at hnext ⊢
      rcases Nat.lt_or_ge (b % n + 1) n with hbelow | hfull
      · rw [Nat.mod_eq_of_lt hbelow]
        exact Nat.lt_succ_self _
      · rw [show b % n + 1 = n by omega, Nat.mod_self] at hnext
        exact absurd rfl hnext
    · rw [show b + 1 = m by omega, Nat.mod_self, Nat.zero_mod] at hnext
      exact absurd rfl hnext

/-! ## The invariant of the loop -/

/-- A job that syncs after a number of blocks. -/
structure Syncing (o : Options) : Prop where
  blocks : o.fsyncBlocks ≠ 0
  buffered : o.odirect = false
  mode : tdWrite o = true ∨ tdRw o = true

/-- The number of blocks. -/
def every (o : Options) : Nat := o.fsyncBlocks.toNat

/-- The blocks that the job has written. -/
def written (td : ThreadData) : Nat := td.ioBlocks.write.toNat

variable {opts : Options} {start : Nat}

theorem Syncing.every_pos (h : Syncing opts) : 0 < every opts := by
  refine Nat.pos_of_ne_zero fun hzero => h.blocks ?_
  exact UInt32.toNat_inj.mp hzero

theorem Syncing.timeToSync_iff (h : Syncing opts) (ho : td.opts = opts) :
    timeToSync td = true ↔ written td % every opts = 0 ∧ td.lastWasSync = false := by
  have hmod : td.ioBlocks.write % opts.fsyncBlocks.toUInt64 = 0 ↔ written td % every opts = 0 := by
    rw [← UInt64.toNat_inj, UInt64.toNat_mod, UInt32.toNat_toUInt64]
    rfl
  have hmode : (tdWrite opts || tdRw opts || opts.overrideSync) = true := by
    rcases h.mode with hmode | hmode <;> simp [hmode]
  unfold timeToSync shouldFsync
  rw [ho, h.buffered, hmode, ← hmod]
  cases td.lastWasSync <;> simp [h.blocks]

/-- What holds in the loop: the counts, and what they have to do with the blocks. -/
structure Counted (opts : Options) (start : Nat) (t : Tally) (td : ThreadData) : Prop where
  opts_eq : td.opts = opts
  log : td.readIolog = false
  fits : t.since ≤ room (every opts) (written td)
  fresh : td.lastWasSync = true → t.since = 0
  since_le : t.since ≤ t.total
  exactly : start + t.total < 2 ^ 64 → written td = start + t.total
  aligned : start + t.total < 2 ^ 64 → t.synced = true → every opts ∣ written td - t.since

/-- In a job that only writes, a sync is not followed by another one. -/
def Moved (opts : Options) (t : Tally) (td : ThreadData) : Prop :=
  tdRw opts = false → t.synced = true → t.since = 0 → td.lastWasSync = true

/-- The unit that the loop has at a control point. -/
def AtPc (opts : Options) (t : Tally) (s : IoState) : Prop :=
  match s.pc with
  | .doIo => s.inFlight = [] ∧ Moved opts t s.td
  | .doIoQueue i => s.inFlight = [] ∧ Moved opts t s.td ∧ Chosen s.td (s.td.ioU i).ddir
  | .doIoReap => ∃ i, s.inFlight = [i] ∧
      match (s.td.ioU i).ddir with
      | .sync => t.since = 0
      | .data d => Chosen s.td (.data d)
  | _ => True

/-- The invariant of the loop. What is left behind it is the bound. -/
def Cadence (opts : Options) (start : Nat) (t : Tally) (s : IoState) : Prop :=
  t.since ≤ every opts ∧ (inLoop s.pc = true → Counted opts start t s.td ∧ AtPc opts t s)

theorem Counted.since_le_every (hs : Syncing opts) (h : Counted opts start t td) :
    t.since ≤ every opts :=
  h.fits.trans (room_le hs.every_pos)

theorem Counted.same (h : Counted opts start t td) (same : SameCadence td td') :
    Counted opts start t td' := by
  have hwritten : written td' = written td := by rw [written, written, same.ioBlocks]
  refine ⟨same.opts.trans h.opts_eq, same.readIolog.trans h.log, ?_, ?_, h.since_le, ?_, ?_⟩
  · rw [hwritten]
    exact h.fits
  · rw [same.lastWasSync]
    exact h.fresh
  · rw [hwritten]
    exact h.exactly
  · rw [hwritten]
    exact h.aligned

theorem Moved.same (h : Moved opts t td) (same : SameCadence td td') : Moved opts t td' := by
  unfold Moved at h ⊢
  rwa [same.lastWasSync]

/-! ## One step -/

/-- A sync is due: in a job that only writes enough blocks have been written. -/
theorem Counted.due (hs : Syncing opts) (h : Counted opts start t td) (hmoved : Moved opts t td)
    (hchosen : Chosen td .sync) (hfits : start + t.total < 2 ^ 64) (hrw : tdRw opts = false)
    (hsynced : t.synced = true) : every opts ≤ t.since := by
  obtain ⟨hmod, hlast⟩ := (hs.timeToSync_iff h.opts_eq).mp hchosen
  have hpos : t.since ≠ 0 := fun hzero => by
    rw [hmoved hrw hsynced hzero] at hlast
    cases hlast
  have hle : t.since ≤ written td := by
    rw [h.exactly hfits]
    exact h.since_le.trans (Nat.le_add_left _ _)
  have hdvd : every opts ∣ t.since :=
    (Nat.dvd_sub_iff_right hle (Nat.dvd_of_mod_eq_zero hmod)).mp (h.aligned hfits hsynced)
  exact Nat.le_of_dvd (Nat.pos_of_ne_zero hpos) hdvd

/-- A sync goes to the engine. -/
theorem Counted.sync (hs : Syncing opts) (h : Counted opts start t td) (hchosen : Chosen td .sync) :
    Counted opts start (t.add (.issued .sync)) td where
  opts_eq := h.opts_eq
  log := h.log
  fits := Nat.zero_le _
  fresh _ := rfl
  since_le := Nat.zero_le _
  exactly := h.exactly
  aligned _ _ := Nat.dvd_of_mod_eq_zero ((hs.timeToSync_iff h.opts_eq).mp hchosen).1

/-- A write that comes back is not one too many. -/
theorem Counted.write_le (hs : Syncing opts) (h : Counted opts start t td) {d : DataDdir}
    (hchosen : Chosen td (.data d)) : t.since + 1 ≤ every opts := by
  have hnot : ¬(written td % every opts = 0 ∧ td.lastWasSync = false) := by
    rw [← hs.timeToSync_iff h.opts_eq, hchosen.1]
    decide
  by_cases hmod : written td % every opts = 0
  · have hlast : td.lastWasSync = true := by
      cases hlast : td.lastWasSync with
      | true => rfl
      | false => exact absurd ⟨hmod, hlast⟩ hnot
    rw [h.fresh hlast]
    exact hs.every_pos
  · have hroom : room (every opts) (written td) = written td % every opts := if_neg hmod
    have hlt := Nat.mod_lt (written td) hs.every_pos
    have hfits := h.fits
    omega

/-- A write without an error is counted. -/
theorem Counted.write (hs : Syncing opts) (h : Counted opts start t td)
    (hchosen : Chosen td (.data .write)) (hopts : td'.opts = td.opts)
    (hlog : td'.readIolog = td.readIolog) (hlast : td'.lastWasSync = false)
    (hblocks : td'.ioBlocks = td.ioBlocks.set .write (td.ioBlocks.get .write + 1)) :
    Counted opts start (t.add (.completed (.data .write))) td' := by
  have hwritten : written td' = (written td + 1) % 2 ^ 64 := by
    rw [written, hblocks]
    exact UInt64.toNat_add _ _
  have hnot : ¬(written td % every opts = 0 ∧ td.lastWasSync = false) := by
    rw [← hs.timeToSync_iff h.opts_eq, hchosen.1]
    decide
  have hnext (hfits : start + (t.total + 1) < 2 ^ 64) : written td' = written td + 1 := by
    rw [hwritten, h.exactly (by omega)]
    exact Nat.mod_eq_of_lt (by omega)
  refine ⟨hopts.trans h.opts_eq, hlog.trans h.log, ?_, ?_, Nat.succ_le_succ h.since_le, ?_, ?_⟩
  · show t.since + 1 ≤ _
    rw [hwritten]
    by_cases hmod : written td % every opts = 0
    · have hsince : t.since = 0 := h.fresh (by simpa [hmod] using hnot)
      rw [hsince]
      exact room_pos hs.every_pos
    · exact Nat.lt_of_le_of_lt h.fits (room_succ hs.every_pos hmod (UInt64.toNat_lt _))
  · intro htrue
    rw [hlast] at htrue
    cases htrue
  · intro hfits
    replace hfits : start + (t.total + 1) < 2 ^ 64 := hfits
    have hexactly := h.exactly (by omega)
    have hnext := hnext hfits
    show written td' = start + (t.total + 1)
    omega
  · intro hfits hsynced
    replace hfits : start + (t.total + 1) < 2 ^ 64 := hfits
    show every opts ∣ written td' - (t.since + 1)
    rw [hnext hfits, Nat.add_sub_add_right]
    exact h.aligned (by omega) hsynced

/-- A read, or a sync that comes back. -/
theorem Counted.other (h : Counted opts start t td) (hopts : td'.opts = td.opts)
    (hlog : td'.readIolog = td.readIolog) (hblocks : td'.ioBlocks.write = td.ioBlocks.write)
    (hfresh : td'.lastWasSync = true → t.since = 0) : Counted opts start t td' := by
  have hwritten : written td' = written td := by rw [written, written, hblocks]
  refine ⟨hopts.trans h.opts_eq, hlog.trans h.log, ?_, hfresh, h.since_le, ?_, ?_⟩
  · rw [hwritten]
    exact h.fits
  · rw [hwritten]
    exact h.exactly
  · rw [hwritten]
    exact h.aligned

/-- `get_io_u` fetches a unit, or the loop ends. -/
theorem doIo_cadence (hs : Syncing opts) (hpc : s.pc = .doIo) (h : Counted opts start t s.td)
    (hflight : s.inFlight = []) (hmoved : Moved opts t s.td) (hstep : ioStep s e = .ok s') :
    Cadence opts start (t.add (traffic s e)) s' := by
  have hother : traffic s e = .other := by
    unfold traffic
    rw [hpc]
  rw [hother]
  show Cadence opts start t s'
  have hleave (hout : inLoop s'.pc = false) : Cadence opts start t s' :=
    ⟨h.since_le_every hs, fun hloop => absurd hloop (by rw [hout]; decide)⟩
  unfold ioStep at hstep
  rw [hpc] at hstep
  cases e with
  | doIoHead terminate f env =>
    dsimp only [doIoStep] at hstep
    split at hstep
    · split at hstep
      · cases hstep
        exact hleave rfl
      · split at hstep
        · cases hstep
          exact hleave rfl
        · split at hstep
          · rename_i i td f' hget
            cases hstep
            obtain ⟨hsame, hchosen⟩ := getIoU_cadence h.log hget
            have hcounted := h.same hsame
            refine ⟨hcounted.since_le_every hs, fun _ => ⟨hcounted, ?_⟩⟩
            exact ⟨hflight, hmoved.same hsame, hchosen⟩
          · cases hstep
            exact hleave rfl
          · cases hstep
    · cases hstep
      exact hleave rfl
  | _ => cases hstep

/-- The unit goes to the engine. -/
theorem doIoQueue_cadence (hs : Syncing opts) (hpc : s.pc = .doIoQueue i)
    (h : Counted opts start t s.td) (hflight : s.inFlight = [])
    (hchosen : Chosen s.td (s.td.ioU i).ddir) (hstep : ioStep s e = .ok s') :
    Cadence opts start (t.add (traffic s e)) s' := by
  unfold ioStep at hstep
  rw [hpc] at hstep
  cases e with
  | queue failed error =>
    have htraffic : traffic s (.queue failed error) = .issued (s.td.ioU i).ddir := by
      unfold traffic
      rw [hpc]
    rw [htraffic]
    have hcounted : Counted opts start (t.add (.issued (s.td.ioU i).ddir)) s.td := by
      cases hd : (s.td.ioU i).ddir with
      | sync =>
        rw [hd] at hchosen
        exact h.sync hs hchosen
      | data d => exact h
    dsimp only [doIoQueueStep] at hstep
    split at hstep
    · cases hstep
      exact ⟨hcounted.since_le_every hs, fun hloop => nomatch hloop⟩
    · cases hstep
      refine ⟨hcounted.since_le_every hs, fun _ => ⟨hcounted, i, ?_, ?_⟩⟩
      · show i :: s.inFlight = [i]
        rw [hflight]
      · show match (s.td.ioU i).ddir with
          | .sync => (t.add (.issued (s.td.ioU i).ddir)).since = 0
          | .data d => Chosen s.td (.data d)
        cases hd : (s.td.ioU i).ddir with
        | sync => rfl
        | data d =>
          rw [hd] at hchosen
          exact hchosen
  | _ => cases hstep

/-- The sync has come back. -/
theorem reap_sync (h : Counted opts start t s.td) (hd : (s.td.ioU c.unit).ddir = .sync)
    (hsince : t.since = 0) :
    Counted opts start t (s.reap [c]).td ∧ Moved opts t (s.reap [c]).td := by
  have hsame := reap_cadence s c
  have hu : (returned s c).ddir = .sync := hd
  rw [ioCompleted_sync _ hu] at hsame
  constructor
  · exact h.other hsame.opts hsame.readIolog (by rw [hsame.ioBlocks]; rfl) fun _ => hsince
  · exact fun _ _ _ => hsame.lastWasSync

/-- A transfer has come back without an error. -/
theorem reap_data (hs : Syncing opts) (h : Counted opts start t s.td) {d : DataDdir}
    (hd : (s.td.ioU c.unit).ddir = .data d) (hchosen : Chosen s.td (.data d)) (herror : c.error = 0) :
    Counted opts start (t.add (.completed (.data d))) (s.reap [c]).td ∧
      Moved opts (t.add (.completed (.data d))) (s.reap [c]).td := by
  have hsame := reap_cadence s c
  obtain ⟨hopts, hlog, hlast, hblocks⟩ :=
    ioCompleted_data (u := returned s c) (s.takeBack c).td hd
  have hopts := hsame.opts.trans hopts
  have hlog := hsame.readIolog.trans hlog
  have hlast := hsame.lastWasSync.trans hlast
  have hblocks := hsame.ioBlocks.trans (hblocks herror)
  have hfresh {P : Prop} : (s.reap [c]).td.lastWasSync = true → P := fun htrue =>
    absurd htrue (by rw [hlast]; decide)
  cases d with
  | read =>
    refine ⟨h.other hopts hlog (by rw [hblocks]; rfl) hfresh, fun hrw => ?_⟩
    have hwrite := hs.mode.resolve_right (by rw [hrw]; decide)
    rw [← h.opts_eq] at hrw hwrite
    cases hchosen.2 hrw hwrite
  | write =>
    exact ⟨h.write hs hchosen hopts hlog hlast hblocks, fun _ _ hzero => nomatch hzero⟩

/-- A unit has come back: the loop goes on unless there is an error. -/
theorem doIoReap_cadence (hs : Syncing opts) (hpc : s.pc = .doIoReap)
    (h : Counted opts start t s.td) (hat : AtPc opts t s) (hserves : ServesAtOnce e)
    (hstep : ioStep s e = .ok s') : Cadence opts start (t.add (traffic s e)) s' := by
  unfold AtPc at hat
  unfold ioStep at hstep
  rw [hpc] at hat hstep
  cases e with
  | doIoReap ret after =>
    obtain ⟨c, rfl⟩ := hserves
    obtain ⟨i, hflight, hunit⟩ := hat
    have htraffic : traffic s (.doIoReap (.events [c]) after) =
        .completed (s.td.ioU c.unit).ddir := by
      unfold traffic
      rw [hpc]
    rw [htraffic]
    dsimp only [doIoReapStep] at hstep
    split at hstep
    · rename_i hgives
      have hc : c.unit = i := by
        have hmem := hgives.2 c (List.mem_singleton_self c)
        rw [hflight] at hmem
        exact List.mem_singleton.mp hmem
      rw [if_neg (List.cons_ne_nil c [])] at hstep
      subst hc
      have hempty : (s.reap [c]).inFlight = [] := by
        rw [reap_inFlight, hflight, List.erase_cons_head]
      have hbound : (t.add (.completed (s.td.ioU c.unit).ddir)).since ≤ every opts := by
        cases hd : (s.td.ioU c.unit).ddir with
        | sync => exact h.since_le_every hs
        | data d =>
          rw [hd] at hunit
          cases d with
          | read => exact h.since_le_every hs
          | write => exact h.write_le hs hunit
      have hon (hnone : s.batchError [c] = 0) :
          Counted opts start (t.add (.completed (s.td.ioU c.unit).ddir)) (s.reap [c]).td ∧
            Moved opts (t.add (.completed (s.td.ioU c.unit).ddir)) (s.reap [c]).td := by
        cases hd : (s.td.ioU c.unit).ddir with
        | sync =>
          rw [hd] at hunit
          exact reap_sync h hd hunit
        | data d =>
          rw [hd] at hunit
          exact reap_data hs h hd hunit (batchError_data hd hnone)
      split at hstep
      · cases hstep
        exact ⟨hbound, fun hloop => nomatch hloop⟩
      · rename_i hnone
        obtain ⟨hcounted, hmoved⟩ := hon (not_not.mp hnone)
        cases after with
        | goOn =>
          cases hstep
          exact ⟨hbound, fun _ => ⟨hcounted, hempty, hmoved⟩⟩
        | belowMinRate =>
          cases hstep
          exact ⟨hbound, fun hloop => nomatch hloop⟩
        | runtimeExceeded =>
          cases hstep
          exact ⟨hbound, fun hloop => nomatch hloop⟩
    · cases hstep
  | _ => cases hstep

/-- One step of the loop keeps the invariant. -/
theorem Cadence.step (hs : Syncing opts) (h : Cadence opts start t s) (hstep : LoopStep s o s') :
    Cadence opts start (t.add o) s' := by
  obtain ⟨hloop, e, hio, hserves, rfl⟩ := hstep
  obtain ⟨hcounted, hat⟩ := h.2 hloop
  cases hpc : s.pc with
  | doIo =>
    unfold AtPc at hat
    rw [hpc] at hat
    exact doIo_cadence hs hpc hcounted hat.1 hat.2 hio
  | doIoQueue i =>
    unfold AtPc at hat
    rw [hpc] at hat
    exact doIoQueue_cadence hs hpc hcounted hat.1 hat.2.2 hio
  | doIoReap => exact doIoReap_cadence hs hpc hcounted hat hserves hio
  | _ =>
    rw [hpc] at hloop
    cases hloop

/-- A sync that goes to the engine comes after enough writes, in a job that only writes. -/
theorem Cadence.due (hs : Syncing opts) (h : Cadence opts start t s)
    (hstep : LoopStep s (.issued .sync) s') (hfits : start + t.total < 2 ^ 64)
    (hrw : tdRw opts = false) (hsynced : t.synced = true) : every opts ≤ t.since := by
  obtain ⟨hloop, e, hio, hserves, htraffic⟩ := hstep
  obtain ⟨hcounted, hat⟩ := h.2 hloop
  unfold AtPc at hat
  unfold traffic at htraffic
  split at htraffic
  · rename_i i _ _ hpc
    rw [hpc] at hat
    obtain ⟨-, hmoved, hchosen⟩ := hat
    rw [← Traffic.issued.inj htraffic] at hchosen
    exact hcounted.due hs hmoved hchosen hfits hrw hsynced
  · cases htraffic
  · cases htraffic

/-! ## Runs -/

/-- `do_io` at the start of its loop, with nothing in flight. -/
structure Starts (opts : Options) (s : IoState) : Prop where
  pc : s.pc = .doIo
  flight : s.inFlight = []
  opts_eq : s.td.opts = opts
  log : s.td.readIolog = false

theorem Starts.cadence (h : Starts opts s) : Cadence opts (written s.td) (tally []) s := by
  refine ⟨Nat.zero_le _, fun _ => ⟨⟨h.opts_eq, h.log, Nat.zero_le _, fun _ => rfl, Nat.le_refl 0,
    fun _ => rfl, fun _ hsynced => nomatch hsynced⟩, ?_⟩⟩
  unfold AtPc
  rw [h.pc]
  exact ⟨h.flight, fun _ hsynced => nomatch hsynced⟩

theorem LoopRun.cadence {s₀ : IoState} (hs : Syncing opts) (h : Starts opts s₀)
    (hrun : LoopRun s₀ os s) : Cadence opts (written s₀.td) (tally os) s :=
  hrun.invariant (I := fun os s => Cadence opts (written s₀.td) (tally os) s) h.cadence
    fun os s o s' hinv hstep => by
      rw [tally_snoc]
      exact hinv.step hs hstep

/-- In every run of the loop of `do_io` on a synchronous engine, of a job with buffered writes that syncs
after a number of blocks and does not read an iolog, no more writes than that come back without a sync. In
a job that only writes at least that many come back between two syncs, unless the counter wraps. -/
theorem doIo_fsync {s₀ : IoState} (hs : Syncing opts) (hstart : Starts opts s₀)
    (hrun : LoopRun s₀ os s) :
    (∀ os₁ os₂ os₃, os = os₁ ++ os₂ ++ os₃ → (∀ o ∈ os₂, o.isSync = false) →
      writes os₂ ≤ every opts) ∧
    (tdRw opts = false → written s₀.td + writes os < 2 ^ 64 →
      ∀ os₁ os₂ os₃, os = os₁ ++ .issued .sync :: os₂ ++ .issued .sync :: os₃ →
        (∀ o ∈ os₂, o.isSync = false) → every opts ≤ writes os₂) := by
  constructor
  · rintro os₁ os₂ os₃ rfl hnone
    obtain ⟨u, hpre, -⟩ := hrun.split
    have hle := (LoopRun.cadence hs hstart hpre).1
    rw [tally, List.foldl_append, foldl_since _ hnone] at hle
    exact (Nat.le_add_left _ _).trans hle
  · rintro hrw hfits os₁ os₂ os₃ rfl hnone
    obtain ⟨u, hpre, hrest⟩ := hrun.split
    obtain ⟨v, hsync⟩ := hrest.first
    have hcadence := LoopRun.cadence hs hstart hpre
    have htally : tally (os₁ ++ .issued .sync :: os₂) =
        os₂.foldl Tally.add ((tally os₁).add (.issued .sync)) := by
      rw [tally, List.foldl_append]
      rfl
    have hsince : (tally (os₁ ++ .issued .sync :: os₂)).since = writes os₂ := by
      rw [htally, foldl_since _ hnone]
      exact Nat.zero_add _
    have hsynced : (tally (os₁ ++ .issued .sync :: os₂)).synced = true := by
      rw [htally]
      exact foldl_synced _ rfl
    have htotal : (tally (os₁ ++ .issued .sync :: os₂)).total = writes (os₁ ++ .issued .sync :: os₂) :=
      (foldl_total _ _).trans (Nat.zero_add _)
    rw [← hsince]
    refine hcadence.due hs hsync ?_ hrw hsynced
    rw [htotal]
    refine Nat.lt_of_le_of_lt (Nat.add_le_add_left ?_ _) hfits
    rw [writes_append _ (.issued .sync :: os₃)]
    exact Nat.le_add_right _ _

/-! ## Three jobs -/

/-- `ServesAtOnce`, to be computed. -/
def servesAtOnce : IoEvent → Bool
  | .doIoReap (.events [_]) _ => true
  | .doIoReap _ _ => false
  | _ => true

/-- What is seen of some events in the loop. -/
def watch (s : IoState) : List IoEvent → Option (List Traffic)
  | [] => some []
  | e :: es =>
    if inLoop s.pc && servesAtOnce e then
      match ioStep s e with
      | .ok s' => (watch s' es).map (traffic s e :: ·)
      | .error _ => none
    else none

theorem servesAtOnce_iff (h : servesAtOnce e = true) : ServesAtOnce e := by
  cases e with
  | doIoReap ret after =>
    cases ret with
    | failed code => cases h
    | events done =>
      match done with
      | [] => cases h
      | [c] => exact ⟨c, rfl⟩
      | _ :: _ :: _ => cases h
  | _ => trivial

theorem loopRun_of_watch {es : List IoEvent} (h : watch s es = some os) : ∃ s', LoopRun s os s' := by
  induction es generalizing s os with
  | nil =>
    cases h
    exact ⟨s, .nil⟩
  | cons e es ih =>
    unfold watch at h
    split at h
    · rename_i hcond
      obtain ⟨hloop, hserves⟩ := Bool.and_eq_true_iff.mp hcond
      split at h
      · rename_i t hio
        obtain ⟨os', hrest, rfl⟩ := Option.map_eq_some_iff.mp h
        obtain ⟨s', hrun⟩ := ih hrest
        have hstep : LoopStep s (traffic s e) t := ⟨hloop, e, hio, servesAtOnce_iff hserves, rfl⟩
        exact ⟨s', (Run.nil.snoc hstep).append hrun⟩
      · cases h
    · cases h

/-- A job on a synchronous engine that writes blocks of 4k and syncs after every one, buffered or not, with
reads between or not. -/
def syncJob (odirect iomix : Bool) : Options :=
  fixupOptions { fillDefThread ⟨true, false, false, false⟩ with
    ddir := .write, fsyncBlocks := 1, odirect := odirect, iomix := iomix }

/-- A job in the loop of `do_io`. -/
def loopStart (o : Options) : IoState := (startIo o 12288 1 false).goto .doIo

/-- One unit goes to the engine and comes back. -/
def oneUnit : List IoEvent :=
  [.doIoHead false (clearedFile 12288 0) zeroEnv, .queue false 0,
    .doIoReap (.events [⟨0, 0, 0⟩]) .goOn]

/-- What is seen of it. -/
def served (d : FioDdir) : List Traffic := [.other, .issued d, .completed d]

theorem loopStart_starts (odirect iomix : Bool) :
    Starts (syncJob odirect iomix) (loopStart (syncJob odirect iomix)) :=
  ⟨rfl, rfl, rfl, rfl⟩

/-- Buffered writes: between two syncs one block comes back. -/
theorem doIo_fsync_buffered : ∃ s, LoopRun (loopStart (syncJob false false))
      (served .sync ++ served (.data .write) ++ served .sync) s ∧
    every (syncJob false false) ≤ writes (.completed .sync :: served (.data .write) ++ [.other]) := by
  have hwatch : watch (loopStart (syncJob false false)) (oneUnit ++ oneUnit ++ oneUnit) =
      some (served .sync ++ served (.data .write) ++ served .sync) := by decide +kernel
  obtain ⟨s, hrun⟩ := loopRun_of_watch hwatch
  have hsyncing : Syncing (syncJob false false) := ⟨by decide, rfl, .inl rfl⟩
  obtain ⟨-, hbetween⟩ := doIo_fsync hsyncing (loopStart_starts false false) hrun
  exact ⟨s, hrun, hbetween rfl (by decide) [.other] _ [.completed .sync] rfl (by decide)⟩

/-- Direct writes are not synced at all, and in a mixed job the next unit after a sync and a read is a
sync again. -/
theorem doIo_fsync_direct_mixed :
    (¬∀ (opts : Options) (s₀ : IoState) (os : List Traffic) (s : IoState), opts.fsyncBlocks ≠ 0 →
      tdWrite opts = true ∨ tdRw opts = true → Starts opts s₀ → LoopRun s₀ os s →
        ∀ os₁ os₂ os₃, os = os₁ ++ os₂ ++ os₃ → (∀ o ∈ os₂, o.isSync = false) →
          writes os₂ ≤ every opts) ∧
    ¬∀ (opts : Options) (s₀ : IoState) (os : List Traffic) (s : IoState), opts.fsyncBlocks ≠ 0 →
      tdWrite opts = true ∨ tdRw opts = true → Starts opts s₀ → LoopRun s₀ os s →
        ∀ os₁ os₂ os₃, os = os₁ ++ .issued .sync :: os₂ ++ .issued .sync :: os₃ →
          (∀ o ∈ os₂, o.isSync = false) → every opts ≤ writes os₂ := by
  constructor
  · intro hall
    have hwatch : watch (loopStart (syncJob true false)) (oneUnit ++ oneUnit) =
        some (served (.data .write) ++ served (.data .write)) := by decide +kernel
    obtain ⟨s, hrun⟩ := loopRun_of_watch hwatch
    have hle := hall _ _ _ s (by decide) (.inl rfl) (loopStart_starts true false) hrun [] _ []
      (List.append_nil _).symm (by decide)
    exact absurd hle (by decide)
  · intro hall
    have hwatch : watch (loopStart (syncJob false true)) (oneUnit ++ oneUnit ++ oneUnit) =
        some (served .sync ++ served (.data .read) ++ served .sync) := by decide +kernel
    obtain ⟨s, hrun⟩ := loopRun_of_watch hwatch
    have hle := hall _ _ _ s (by decide) (.inl rfl) (loopStart_starts false true) hrun [.other]
      (.completed .sync :: served (.data .read) ++ [.other]) [.completed .sync] rfl (by decide)
    exact absurd hle (by decide)

end Rtfsc.Fio.Fsync
