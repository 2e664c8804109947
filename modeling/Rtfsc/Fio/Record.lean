import Rtfsc.Fio.Generator
import Rtfsc.Fio.Iolog

/-!
# fio: recording runs

A job with `write_iolog` writes a line in `fill_io_u`, where the transfer is drawn, and not where it
is handed to the engine. The two differ when the transfer is cut at the end of the file or by the
random map, or put back; a sync and a read of the verification are not recorded. Where every transfer
is issued as it was drawn, the iolog read back gives the units that were issued; but the direction of
a job that only writes comes back as reading.
-/

namespace Rtfsc.Fio

open Rtfsc.Machine

/-- A recording job, with the units that it has handed to the engine so far. -/
structure Recording where
  td : ThreadData
  issued : List IologEntry

/-- What happens in a recording job: a call of `get_io_u` on a file as it is then, the sync of
`fio_io_sync`, a read of `do_verify`, or anything that leaves the settings and the iolog alone. -/
inductive RecordEvent
  | getIoU (f : FioFile) (fi : Nat) (env : GetEnv)
  | fioIoSync (fi : Nat)
  | getNextVerify (fi : Nat)
  | other

/-- What the engine is given: the unit `i` of the job. -/
def entryOf (td : ThreadData) (i : Nat) : IologEntry :=
  ((td.ioU i).ddir, (td.ioU i).offset, (td.ioU i).buflen)

theorem entryOf_setUnit (td : ThreadData) (i : Nat) (u : IoU) :
    entryOf (setUnit td i u) i = (u.ddir, u.offset, u.buflen) := by
  have hunit : (setUnit td i u).ioU i = u := Function.update_self ..
  rw [entryOf, hunit]

/-- The unit of `fio_io_sync`. -/
def fsyncUnit (u : IoU) (fi : Nat) : IoU := { u with ddir := .sync, file := some fi }

/-- A step of a recording job. What comes to nothing before `td_io_queue` in `fio_io_sync` and
`do_verify` is one of the other steps. -/
inductive RecordStep : Recording → RecordEvent → Recording → Prop
  | issued {td td' f f' fi env i log} (call : getIoU td f fi env = .ok (some i, td', f')) :
    RecordStep ⟨td, log⟩ (.getIoU f fi env) ⟨td', log ++ [entryOf td' i]⟩
  | refused {td td' f f' fi env log} (call : getIoU td f fi env = .ok (none, td', f')) :
    RecordStep ⟨td, log⟩ (.getIoU f fi env) ⟨td', log⟩
  | sync {td td₁ td' fi i log} (free : getFreeIoU td = some (i, td₁))
    (unit : td' = setUnit td₁ i (fsyncUnit (td₁.ioU i) fi)) :
    RecordStep ⟨td, log⟩ (.fioIoSync fi) ⟨td', log ++ [entryOf td' i]⟩
  | verify {td td₁ td₂ td' fi i u log} (free : getFreeIoU td = some (i, td₁))
    (next : getNextVerify td₁ (td₁.ioU i) = (true, u, td₂))
    (unit : td' = setUnit td₂ i { u with file := some fi }) :
    RecordStep ⟨td, log⟩ (.getNextVerify fi) ⟨td', log ++ [entryOf td' i]⟩
  | other {td td' log} (opts : td'.opts = td.opts) (replay : td'.readIolog = td.readIolog)
    (iolog : td'.iologF = td.iologF) : RecordStep ⟨td, log⟩ .other ⟨td', log⟩

/-- A job that records: `write_iolog` is set, and no iolog is replayed. -/
def Records (td : ThreadData) : Prop :=
  td.readIolog = false ∧ td.opts.writeIologFile.isSome = true

/-- Nothing makes the generator sync, and the transfer it draws stays as it is: it ends in the file,
the blocks of it are free and make it up in whole, and `prep` does not fail. -/
def KeepsDraw (td : ThreadData) (f : FioFile) (env : GetEnv) : Prop :=
  let d := (getRwDdir td env.elapsed env.rwmix).1
  let minBs := td.opts.minBs.get d
  let len := getNextBuflen td env.bsrange d
  timeToSync td = false ∧
    ∀ b, nextBlock td.opts f env.random d = .ok (some b) → len ≠ 0 →
      let offset := b * minBs.toUInt64 + f.fileOffset
      offset ≤ f.realFileSize →
        ¬f.realFileSize < len.toUInt64 + offset ∧
          (usesMap td → minBs.toNat ∣ len.toNat ∧
            BlocksFree td.opts f (offset / minBs.toUInt64) (len.toNat / minBs.toNat)) ∧
          env.prepFails = false

/-- What is asked of the steps of a recording job: nothing but transfers issued as they were drawn. -/
def RecordedAsIssued (td : ThreadData) : RecordEvent → Prop
  | .getIoU f _ env => KeepsDraw td (zonedFile td f) env
  | .fioIoSync _ => False
  | .getNextVerify _ => False
  | .other => True

/-! ## One call -/

theorem mapPos_ofNat (o : Options) (f : FioFile) (b : UInt64) {j : Nat} (hj : j < 2 ^ 32) :
    mapPos o f (b + UInt64.ofNat j) =
      ((b - f.fileOffset / o.rwMinBs.toUInt64).toNat + j) % 2 ^ 38 := by
  have hsum : b + UInt64.ofNat j - f.fileOffset / o.rwMinBs.toUInt64 =
      b - f.fileOffset / o.rwMinBs.toUInt64 + UInt64.ofNat j := by
    rw [UInt64.sub_eq_add_neg, UInt64.sub_eq_add_neg, UInt64.add_assoc, UInt64.add_assoc,
      UInt64.add_comm (UInt64.ofNat j)]
  rw [mapPos, hsum, UInt64.toNat_toUInt32, UInt64.toNat_div, UInt64.toNat_add, UInt64.toNat_ofNat',
    show (64 : UInt64).toNat = 64 from rfl]
  omega

/-- `mark_random_map` keeps a transfer of free blocks. -/
theorem markRandomMap_keeps {o : Options} {f f' : FioFile} {u u' : IoU} {d : DataDdir}
    (hdvd : (o.minBs.get d).toNat ∣ u.buflen.toNat)
    (hfree : BlocksFree o f (u.offset / (o.minBs.get d).toUInt64)
      (u.buflen.toNat / (o.minBs.get d).toNat))
    (h : markRandomMap o f u d = .ok (f', u')) : u' = u := by
  obtain ⟨-, k, hk, hu, hlen, hf, hblocks, hstop⟩ := markRandomMap_ok h
  have hsmall : u.buflen.toNat / (o.minBs.get d).toNat < 2 ^ 32 :=
    Nat.lt_of_le_of_lt (Nat.div_le_self _ _) u.buflen.toNat_lt
  have hwhole : k = u.buflen.toNat / (o.minBs.get d).toNat := by
    rcases Nat.lt_or_eq_of_le hk with hlt | heq
    · have hused := hstop hlt
      rw [hf, testBit_markBlocks fun j hj => (hblocks j hj).1, (hfree k hlt).2] at hused
      obtain h0 | ⟨j, hj, hsame⟩ := hused
      · cases h0
      · rw [mapPos_ofNat _ _ _ (by omega), mapPos_ofNat _ _ _ (by omega)] at hsame
        omega
    · exact heq
  have hbuflen : u'.buflen = u.buflen := by
    rw [← UInt32.toNat_inj, hlen, hwhole, Nat.div_mul_cancel hdvd]
  rw [hu, hbuflen]

theorem getRwDdir_iologF (td : ThreadData) (elapsed : UInt64) (r : RandLong) :
    (getRwDdir td elapsed r).2.iologF = td.iologF := by
  unfold getRwDdir
  split
  · split <;> rfl
  · split <;> rfl

/-- What a call adds to the iolog, and that it leaves the settings alone. -/
structure Recorded (td td' : ThreadData) (added : List IologEntry) : Prop where
  iologF : td'.iologF = td.iologF ++ added
  opts : td'.opts = td.opts
  readIolog : td'.readIolog = td.readIolog

theorem Recorded.nothing {td td' : ThreadData} (hiolog : td'.iologF = td.iologF)
    (hopts : td'.opts = td.opts) (hread : td'.readIolog = td.readIolog) : Recorded td td' [] :=
  ⟨by rw [hiolog, List.append_nil], hopts, hread⟩

theorem Recorded.trans {td td₁ td' : ThreadData} {added : List IologEntry}
    (h : Recorded td td₁ []) (h' : Recorded td₁ td' added) : Recorded td td' added :=
  ⟨by rw [h'.iologF, h.iologF, List.append_nil], h'.opts.trans h.opts,
    h'.readIolog.trans h.readIolog⟩

/-- `fill_io_u` without a sync records what it draws. -/
theorem fillIoU_record {td td' : ThreadData} {f : FioFile} {fi : Nat} {u u' : IoU} {env : GetEnv}
    {filled : Bool} (hrec : Records td) (hsync : timeToSync td = false)
    (h : fillIoU td f fi u env = .ok (filled, u', td')) :
    (filled = false ∧ Recorded td td' []) ∨
      (filled = true ∧ Recorded td td' [(u'.ddir, u'.offset, u'.buflen)] ∧ u'.ddir ≠ .sync) := by
  unfold fillIoU at h
  rw [hrec.1, hsync] at h
  simp only [Bool.false_eq_true, if_false] at h
  have hiolog := getRwDdir_iologF td env.elapsed env.rwmix
  obtain ⟨hopts, hread, -⟩ := getRwDdir_opts td env.elapsed env.rwmix
  generalize getRwDdir td env.elapsed env.rwmix = turn at h hiolog hopts hread
  obtain ⟨d, td₁⟩ := turn
  obtain ⟨⟨found, offset⟩, hoff, h⟩ := bind_eq_ok.mp h
  dsimp only at h hiolog hopts hread
  cases found with
  | false =>
    cases h
    exact .inl ⟨rfl, .nothing hiolog hopts hread⟩
  | true =>
    simp only [Bool.not_true, Bool.false_eq_true, if_false, hopts, hrec.2, if_true] at h
    split at h
    · cases h
      exact .inl ⟨rfl, .nothing hiolog hopts hread⟩
    · cases h
      exact .inr ⟨rfl, ⟨by rw [writeIologPut, hiolog], hopts, hread⟩, FioDdir.noConfusion⟩

/-- A transfer that stays as it was drawn passes the checks of `get_io_u` and the random map. -/
theorem KeepsDraw.stays {td : ThreadData} {f : FioFile} {env : GetEnv} {d : DataDdir} {u : IoU}
    (hkeeps : KeepsDraw td f env) (hu : Chosen td f env d u) :
    clipToFile td.opts f u = (true, u) ∧ env.prepFails = false ∧
      ∀ f₁ u₁, markIoU td f u d = .ok (f₁, u₁) → u₁ = u := by
  obtain ⟨b, hb, hoffset⟩ := hu.block
  unfold KeepsDraw at hkeeps
  dsimp only at hkeeps
  rw [hu.turn, ← hu.drawn] at hkeeps
  have hinside := hu.inside
  rw [hoffset] at hinside
  obtain ⟨hend, hmap, hprep⟩ := hkeeps.2 b hb hu.nonempty hinside
  rw [← hoffset] at hend hmap
  refine ⟨?_, hprep, ?_⟩
  · unfold clipToFile
    rw [if_neg hend]
  · intro f₁ u₁ hmark
    unfold markIoU at hmark
    split at hmark
    · next huse =>
      obtain ⟨hdvd, hfree⟩ := hmap huse
      exact markRandomMap_keeps hdvd hfree hmark
    · cases hmark
      rfl

theorem prepareIoU_record {td td' : ThreadData} {f f' : FioFile} {fi : Nat} {u u' : IoU}
    {env : GetEnv} {ready : Bool} (hrec : Records td) (hkeeps : KeepsDraw td f env)
    (h : prepareIoU td f fi u env = .ok (ready, u', td', f')) :
    (ready = false ∧ Recorded td td' []) ∨
      (ready = true ∧ Recorded td td' [(u'.ddir, u'.offset, u'.buflen)] ∧ u'.ddir ≠ .sync) := by
  unfold prepareIoU at h
  obtain ⟨⟨filled, u₀, td₀⟩, hfill, h⟩ := bind_eq_ok.mp h
  obtain ⟨rfl, hnothing⟩ | ⟨rfl, hrecorded, hnosync⟩ := fillIoU_record hrec hkeeps.1 hfill
  · cases h
    exact .inl ⟨rfl, hnothing⟩
  · obtain ⟨hopts, hlog₀, hu⟩ := fillIoU_ok hrec.1 hfill
    obtain ⟨d, hd⟩ := hu.resolve_left hnosync
    obtain ⟨hclip, hprep, hmark⟩ := hkeeps.stays hd
    have hmap : markIoU td₀ = markIoU td := by
      funext f u d
      simp only [markIoU, usesMap, hopts, hrec.1, hlog₀]
    dsimp only at h
    rw [hopts, hclip, hprep] at h
    simp only [Bool.not_true, Bool.false_eq_true, if_false, hd.ddir] at h
    obtain ⟨⟨issued, f₁, u₁⟩, hissue, hret⟩ := bind_eq_ok.mp h
    unfold issueIoU at hissue
    rw [if_neg hd.nonempty, hmap] at hissue
    obtain ⟨⟨f₂, u₂⟩, hmarked, hmoved⟩ := bind_eq_ok.mp hissue
    obtain rfl := hmark _ _ hmarked
    cases hmoved
    cases hret
    exact .inr ⟨rfl, hrecorded, hnosync⟩

theorem KeepsDraw.sameJob {td td' : ThreadData} {f : FioFile} {env : GetEnv}
    (hkeeps : KeepsDraw td f env) (same : SameJob td td')
    (hsync : timeToSync td' = timeToSync td) : KeepsDraw td' f env := by
  have hlen : getNextBuflen td' = getNextBuflen td := by
    funext r d
    simp only [getNextBuflen, same.opts, same.ioSize, same.thisIoBytes]
  have hmap : usesMap td' = usesMap td := by simp only [usesMap, same.opts, same.readIolog]
  unfold KeepsDraw at hkeeps ⊢
  rw [same.turn, hlen, hmap, hsync, same.opts]
  exact hkeeps

theorem getFreeIoU_record {td td' : ThreadData} {i : Nat} (h : getFreeIoU td = some (i, td'))
    (f : FioFile) :
    timeToSync (skipZone td' f).1 = timeToSync td ∧ Recorded td (skipZone td' f).1 [] := by
  unfold getFreeIoU at h
  split at h
  · cases h
  · cases h
    unfold skipZone
    split <;> exact ⟨rfl, .nothing rfl rfl rfl⟩

/-- A call of `get_io_u` that issues what it draws records what it issues. -/
theorem getIoU_record {td td' : ThreadData} {f f' : FioFile} {fi : Nat} {env : GetEnv}
    {r : Option Nat} (hrec : Records td) (hkeeps : KeepsDraw td (zonedFile td f) env)
    (h : getIoU td f fi env = .ok (r, td', f')) :
    (r = none ∧ Recorded td td' []) ∨
      ∃ i, r = some i ∧ Recorded td td' [entryOf td' i] ∧ (entryOf td' i).1 ≠ .sync := by
  unfold getIoU at h
  split at h
  · cases h
    exact .inl ⟨rfl, .nothing rfl rfl rfl⟩
  · next i td₀ hfree =>
    obtain ⟨hsame, hzone⟩ := getFreeIoU_sameJob hfree f
    obtain ⟨hsync, hzoned⟩ := getFreeIoU_record hfree f
    have hkeeps₁ : KeepsDraw (skipZone td₀ f).1 (skipZone td₀ f).2 env := by
      rw [show (skipZone td₀ f).2 = zonedFile td f from hzone]
      exact hkeeps.sameJob (hsame.trans (skipZone_sameJob td₀ f)) hsync
    have hrec₁ : Records (skipZone td₀ f).1 := by
      unfold Records
      rw [hzoned.opts, hzoned.readIolog]
      exact hrec
    obtain ⟨⟨ready, u, td₂, f₂⟩, hprep, hret⟩ := bind_eq_ok.mp h
    dsimp only at hret
    obtain ⟨rfl, hnothing⟩ | ⟨rfl, hrecorded, hnosync⟩ := prepareIoU_record hrec₁ hkeeps₁ hprep
    · cases hret
      have hkept := hzoned.trans hnothing
      exact .inl ⟨rfl, hkept.iologF, hkept.opts, hkept.readIolog⟩
    · cases hret
      have hkept := hzoned.trans hrecorded
      refine .inr ⟨i, rfl, ?_⟩
      show Recorded td (setUnit td₂ i u) [entryOf (setUnit td₂ i u) i] ∧ _
      rw [entryOf_setUnit]
      refine ⟨⟨hkept.iologF, hkept.opts, hkept.readIolog⟩, ?_⟩
      show (entryOf (setUnit td₂ i u) i).1 ≠ _
      rwa [entryOf_setUnit]

/-! ## Runs -/

/-- The iolog is what has been issued, and all of it is transfers. -/
structure LogIsIssued (r : Recording) : Prop where
  records : Records r.td
  iologF : r.td.iologF = r.issued
  transfers : ∀ e ∈ r.issued, e.1 ≠ .sync

theorem LogIsIssued.step {r r' : Recording} {e : RecordEvent} (hinv : LogIsIssued r)
    (hstep : RecordStep r e r') (hok : RecordedAsIssued r.td e) : LogIsIssued r' := by
  obtain ⟨hrec, hlog, htransfers⟩ := hinv
  have hstill {td td' : ThreadData} {added : List IologEntry} (hrec : Records td)
      (h : Recorded td td' added) : Records td' := by
    unfold Records
    rw [h.opts, h.readIolog]
    exact hrec
  cases hstep with
  | issued call =>
    obtain ⟨hnone, -⟩ | ⟨i, hsome, hrecorded, hnosync⟩ := getIoU_record hrec hok call
    · cases hnone
    · obtain rfl := Option.some.inj hsome
      refine ⟨hstill hrec hrecorded, ?_, ?_⟩
      · rw [hrecorded.iologF, hlog]
      · intro e he
        rcases List.mem_append.mp he with he | he
        · exact htransfers e he
        · rw [List.mem_singleton.mp he]
          exact hnosync
  | refused call =>
    obtain ⟨-, hnothing⟩ | ⟨i, hsome, -⟩ := getIoU_record hrec hok call
    · refine ⟨hstill hrec hnothing, ?_, htransfers⟩
      rw [hnothing.iologF, List.append_nil, hlog]
    · cases hsome
  | sync free unit => exact hok.elim
  | verify free next unit => exact hok.elim
  | other opts replay iolog =>
    have hnothing := Recorded.nothing iolog opts replay
    exact ⟨hstill hrec hnothing, iolog.trans hlog, htransfers⟩

/-- A buffered job with `write_iolog` that reads its files from front to back. -/
def recordingReader : Options :=
  { fillDefThread ⟨false, false, false, false⟩ with writeIologFile := some "iolog", iodepth := 2 }

/-- A call of `get_io_u` on a file of some size, with all random numbers zero. -/
def readCall (size : UInt64) : RecordEvent := .getIoU (clearedFile size 0) 0 zeroEnv

/-- What one call hands out and records, in a job that has to transfer `ioSize` bytes. -/
def recordOne (ioSize size : UInt64) : Option (IologEntry × List IologEntry) :=
  match getIoU (startJob (fixupOptions recordingReader) ioSize) (clearedFile size 0) 0 zeroEnv with
  | .ok (some i, td, _) => some (entryOf td i, td.iologF)
  | _ => none

theorem recordOne_step (ioSize size : UInt64) (e : IologEntry) (log : List IologEntry)
    (h : recordOne ioSize size = some (e, log)) :
    ∃ td, td.iologF = log ∧ RecordStep ⟨startJob (fixupOptions recordingReader) ioSize, []⟩
      (readCall size) ⟨td, [e]⟩ := by
  unfold recordOne at h
  split at h
  · next i td f hcall =>
    cases h
    exact ⟨td, rfl, .issued hcall⟩
  · cases h

end Rtfsc.Fio
