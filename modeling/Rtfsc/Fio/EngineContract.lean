import Rtfsc.Fio.Engines
import Rtfsc.Fio.Init

/-!
# fio: whether an engine tells the truth

Each call of an engine has its condition on what the system calls under it return: what `queue` and
`getevents` say is true exactly then. Only `queue` of libaio and `getevents` of the engines with one
unit have none.
-/

namespace Rtfsc.Fio

open Rtfsc.Machine

/-! ## The contract -/

/-- What the loop takes from a `queue` that returned. -/
structure QueueOk (q : Queued) : Prop where
  accepted : q.ret = 0 → q.served = .full
  errno : ∀ e, q.served = .failed e → q.u.error = e
  resid : q.served ≠ .full → q.u.resid ≤ q.u.buflen

/-- What the loop takes from a `getevents` that returned `n`, when the calls under it gave this. -/
def GeteventsOk (n : Int) (events : List Nat) : EventsReply → Prop
  | .ok units => n = units.length ∧ (events.take units.length).Perm units
  | .error _ => n < 0

/-- The unit as `__get_io_u` leaves it. -/
def Fresh (u : IoU) : Prop := u.error = 0 ∧ u.resid = 0

/-- An engine that has one unit, and it is finished when `queue` returns. -/
inductive DepthOne
  | sync
  | splice
  | sgIoctl

def DepthOne.getevents : DepthOne → Int → List Nat → Outcome Int
  | .sync => fioSyncioGetevents
  | .splice => fioSpliceioGetevents
  | .sgIoctl => fioSgioIoctlGetevents

/-- What `event` gives behind the last `queue`. -/
def DepthOne.event (engine : DepthOne) (last : Option Nat) : Option (Nat × Queued) → Option Nat
  | none => last
  | some (i, q) =>
    match engine with
    | .sync | .splice => lastIoU last i q
    | .sgIoctl => some i

/-- The units that are busy: the one queued, unless it was put back. -/
def busyUnits : Option (Nat × Queued) → List Nat
  | none => []
  | some (i, q) => if q.ret = 0 then [i] else []

/-- A call of an engine. -/
inductive EngineCall
  | syncQueue (f : SyncFile) (u : IoU) (returned : Option UInt32) (errno : UInt32)
  | depthOneGetevents (engine : DepthOne) (max : Int) (last : Option Nat) (queued : Option (Nat × Queued))
  | spliceQueue (u : IoU) (replies : List Reply) (errno : UInt32)
  | libaioQueue (u : IoU) (replies : List Reply)
  | libaioGetevents (events : List Nat) (replies : List EventsReply)
  | sgQueue (bd : Bool) (u : IoU) (calls : SgCalls)
  | sgGetevents (max : Int) (events : List Nat) (replies : List EventsReply)

/-- What `read` has returned by the end of `fio_sgio_getevents`. -/
def batches (replies : List EventsReply) : List (List Nat) := replies.filterMap Except.toOption

/-- What the calls under `fio_sgio_getevents` gave together. -/
def sgCompleted (replies : List EventsReply) : EventsReply :=
  match replies.getLast? with
  | some (.error e) => if e = eagain then .ok (batches replies).flatten else .error e
  | _ => .ok (batches replies).flatten

namespace EngineCall

/-- The loop is told the truth. -/
def Meets : EngineCall → Prop
  | .syncQueue f u returned errno => QueueOk (syncQueued f u returned errno)
  | .depthOneGetevents engine max last queued => ∀ n, engine.getevents max (busyUnits queued) = .ok n →
    GeteventsOk n (engine.event last queued).toList (.ok (busyUnits queued))
  | .spliceQueue u replies errno => ∀ q, fioSpliceioQueue u replies errno = some q → QueueOk q
  | .libaioQueue u replies => ∀ q, fioLibaioQueue u replies = some q → QueueOk q
  | .libaioGetevents events replies => ∀ n events' got, fioLibaioGetevents events replies = some (n, events') →
    replies.getLast? = some got → GeteventsOk n events' got
  | .sgQueue bd u calls => QueueOk (fioSgioQueue bd u calls)
  | .sgGetevents max events replies => ∀ n events', fioSgioGetevents max events replies = some (n, events') →
    GeteventsOk n events' (sgCompleted replies)

/-- The bytes a command may transfer. -/
def dxferLen (u : IoU) : UInt32 := if u.ddir = .sync then 0 else u.buflen

/-- The unit is one that the loop queues, and the calls are those of the function, as documented. -/
def Documented : EngineCall → Prop
  | .syncQueue _ u returned _ => Fresh u ∧ ∀ n d, returned = some n → u.ddir = .data d → n ≤ u.buflen
  | .depthOneGetevents _ _ _ queued => ∀ i q, queued = some (i, q) → q.ret = q.u.error
  | .spliceQueue u replies errno => Fresh u ∧ fioSpliceioQueue u replies errno ≠ none
  | .libaioQueue u replies => fioLibaioQueue u replies ≠ none
  | .libaioGetevents events replies => fioLibaioGetevents events replies ≠ none
  | .sgQueue bd u calls => Fresh u ∧
    (∀ e, sgCommand bd (u.ddir == .sync) calls = .error e → e ≠ 0) ∧
    ∀ hdr, sgCommand bd (u.ddir == .sync) calls = .ok hdr → hdr.resid ≤ dxferLen u
  | .sgGetevents max events replies => fioSgioGetevents max events replies ≠ none

/-- What the calls must give for that. -/
def Right : EngineCall → Prop
  | .syncQueue _ u returned errno => returned ≠ none ∧
    ∀ d, u.ddir = .data d → returned = some 0 → u.buflen ≠ 0 → errno ≠ 0
  | .depthOneGetevents .. => True
  | .spliceQueue u replies _ => ∀ e, replies.getLast? = some (.failed e) →
    e = enodata ∧ u.ddir ≠ .sync ∧ enodata < u.buflen
  | .libaioQueue .. => True
  | .libaioGetevents _ replies => ∀ e, replies.getLast? ≠ some (.error e)
  | .sgQueue bd u calls => (bd = false → ∀ e, sgCommand bd (u.ddir == .sync) calls ≠ .error e) ∧
    ∀ hdr, sgCommand bd (u.ddir == .sync) calls = .ok hdr → hdr.status = 0 →
      hdr.hostStatus = 0 ∧ hdr.driverStatus = 0 ∧ hdr.resid = 0
  | .sgGetevents _ events replies => (∀ e, replies.getLast? = some (.error e) → e = eagain) →
    ((events.drop (laid (batches replies)).front.length).take (laid (batches replies)).lost.length).Perm
      (laid (batches replies)).lost

end EngineCall

/-! ## What `queue` says -/

variable {q : Queued} {u : IoU} {e code ret errno : UInt32}

theorem queueOk_full (h : q.served = .full) : QueueOk q where
  accepted _ := h
  errno e he := by rw [h] at he; cases he
  resid hne := absurd h hne

theorem queueOk_short (h : q.served = .short) : QueueOk q ↔ q.ret ≠ 0 ∧ q.u.resid ≤ q.u.buflen := by
  have hfull : q.served ≠ .full := by rw [h]; decide
  refine ⟨fun hq => ⟨fun h0 => hfull (hq.accepted h0), hq.resid hfull⟩, ?_⟩
  rintro ⟨hret, hresid⟩
  refine ⟨fun h0 => absurd h0 hret, fun e he => ?_, fun _ => hresid⟩
  rw [h] at he
  cases he

theorem queueOk_failed (h : q.served = .failed e) :
    QueueOk q ↔ q.ret ≠ 0 ∧ q.u.error = e ∧ q.u.resid ≤ q.u.buflen := by
  have hfull : q.served ≠ .full := by rw [h]; exact Served.noConfusion
  refine ⟨fun hq => ⟨fun h0 => hfull (hq.accepted h0), hq.errno e h, hq.resid hfull⟩, ?_⟩
  rintro ⟨hret, herr, hresid⟩
  refine ⟨fun h0 => absurd h0 hret, fun e' he' => ?_, fun _ => hresid⟩
  rw [h] at he'
  cases he'
  exact herr

theorem sub_le_self_iff {a b : UInt32} : a - b ≤ a ↔ b ≤ a := by
  have ha := a.toNat_lt
  have hb := b.toNat_lt
  rw [UInt32.le_iff_toNat_le, UInt32.le_iff_toNat_le, UInt32.toNat_sub]
  omega

theorem checkRet_eq (h : ret = u.buflen) : checkRet code u ret errno = u := if_neg (not_not_intro h)

theorem checkRet_pos (h : ret ≠ u.buflen) (h0 : 0 < ret) :
    checkRet code u ret errno = { u with resid := u.buflen - ret, error := code } := by
  rw [checkRet, if_pos h, if_pos h0]

theorem checkRet_zero (h : 0 ≠ u.buflen) : checkRet code u 0 errno = { u with error := errno } := by
  rw [checkRet, if_pos h, if_neg (UInt32.lt_irrefl 0)]

/-- A failure that comes as -1 is a count: the unit has its whole length and one byte more left. -/
theorem not_queueOk_minusOne (hu : Fresh u) {e : UInt32} :
    ¬QueueOk ⟨(checkRet code u minusOne errno).error, checkRet code u minusOne errno, .failed e⟩ := by
  rw [queueOk_failed rfl]
  rintro ⟨hret, -, hresid⟩
  by_cases h : minusOne = u.buflen
  · rw [checkRet_eq h] at hret
    exact hret hu.1
  · rw [checkRet_pos h (by decide)] at hresid
    have hle : minusOne ≤ u.buflen := sub_le_self_iff.mp hresid
    have hmax := u.buflen.toNat_lt
    rw [UInt32.le_iff_toNat_le] at hle
    refine h (UInt32.toNat_inj.mp ?_)
    have h1 : minusOne.toNat = 4294967295 := rfl
    omega

/-- A failure that comes as its errno is right for one errno. -/
theorem queueOk_errno (hu : Fresh u) :
    QueueOk ⟨(checkRet enodata u e errno).error, checkRet enodata u e errno, .failed e⟩ ↔
      e = enodata ∧ enodata < u.buflen := by
  rw [queueOk_failed rfl]
  dsimp only
  by_cases h : e = u.buflen
  · rw [checkRet_eq h]
    refine iff_of_false (fun hq => hq.1 hu.1) ?_
    rintro ⟨rfl, hlt⟩
    exact absurd h (UInt32.ne_of_lt hlt)
  by_cases h0 : e = 0
  · subst h0
    rw [checkRet_zero h]
    refine iff_of_false (fun hq => hq.1 hq.2.1) ?_
    rintro ⟨he, -⟩
    exact absurd he (by decide)
  · rw [checkRet_pos h (UInt32.pos_iff_ne_zero.mpr h0)]
    dsimp only
    rw [sub_le_self_iff]
    constructor
    · rintro ⟨-, rfl, hle⟩
      exact ⟨rfl, UInt32.lt_of_le_of_ne hle h⟩
    · rintro ⟨rfl, hlt⟩
      exact ⟨by decide, rfl, UInt32.le_of_lt hlt⟩

/-- The sync engine is right when the call did not fail and a transfer of nothing finds an errno. -/
theorem syncQueued_ok_iff {f : SyncFile} {returned : Option UInt32} (hu : Fresh u)
    (hn : ∀ n d, returned = some n → u.ddir = .data d → n ≤ u.buflen) :
    QueueOk (syncQueued f u returned errno) ↔ returned ≠ none ∧
      ∀ d, u.ddir = .data d → returned = some 0 → u.buflen ≠ 0 → errno ≠ 0 := by
  have hcheck : (fioSyncioQueue f u returned errno).2 = checkRet eio u (returned.getD minusOne) errno := rfl
  unfold syncQueued
  rw [hcheck]
  cases returned with
  | none => exact iff_of_false (not_queueOk_minusOne hu) fun h => h.1 rfl
  | some n =>
    dsimp only [Option.elim_some, Option.getD_some]
    cases hd : u.ddir with
    | sync =>
      refine iff_of_true (queueOk_full ?_) ⟨Option.some_ne_none n, fun d hd' => nomatch hd'⟩
      simp only [servedBytes, hd]
    | data d =>
      by_cases hfull : n = u.buflen
      · refine iff_of_true (queueOk_full ?_) ⟨Option.some_ne_none n, ?_⟩
        · simp only [servedBytes, hd, if_pos hfull]
        · rintro _ - hn0 hbuf
          cases hn0
          exact absurd hfull.symm hbuf
      have hshort : servedBytes u n = .short := by simp only [servedBytes, hd, if_neg hfull]
      rw [hshort, queueOk_short rfl]
      dsimp only
      by_cases h0 : n = 0
      · subst h0
        rw [checkRet_zero hfull, hu.2]
        constructor
        · exact fun h => ⟨Option.some_ne_none 0, fun _ _ _ _ => h.1⟩
        · exact fun h => ⟨h.2 d rfl rfl (Ne.symm hfull), UInt32.zero_le⟩
      · rw [checkRet_pos hfull (UInt32.pos_iff_ne_zero.mpr h0)]
        have heio : eio ≠ 0 := by decide
        refine iff_of_true ⟨heio, sub_le_self_iff.mpr (hn n d rfl hd)⟩ ⟨Option.some_ne_none n, ?_⟩
        rintro _ - hn0 -
        cases hn0
        exact absurd rfl h0

/-! ## The loops of the splice engine -/

theorem returns_eq_some {ρ α : Type} {rest : List ρ} {a b : α} :
    returns rest a = some b ↔ rest = [] ∧ a = b := by
  unfold returns
  cases rest <;> simp

/-- The result is an error exactly when the last call failed. -/
def LastFails {α : Type} (replies : List Reply) (r : Except UInt32 α) : Prop :=
  ∀ e, replies.getLast? = some (.failed e) ↔ r = .error e

variable {reply : Reply} {replies rest : List Reply}

theorem lastFails_failed {α : Type} (e : UInt32) : LastFails [.failed e] (.error e : Except UInt32 α) := by
  intro e'
  rw [List.getLast?_singleton]
  constructor <;> rintro ⟨⟩ <;> rfl

/-- A call that the result does not come from can stand in front: it is not the last that failed. -/
theorem LastFails.cons {α : Type} {r : Except UInt32 α} (h : LastFails rest r)
    (hr : ∀ e, reply = .failed e → rest ≠ []) : LastFails (reply :: rest) r := by
  intro e
  rw [← h e]
  cases rest with
  | nil =>
    rw [List.getLast?_singleton, List.getLast?_nil, Option.some_inj]
    refine iff_of_false (fun he => hr e he rfl) ?_
    rintro ⟨⟩
  | cons reply' rest => rw [List.getLast?_cons_cons]

theorem LastFails.done {α : Type} {r : Except UInt32 α} {n : UInt32} (h : LastFails rest r) :
    LastFails (.done n :: rest) r :=
  h.cons fun _ he => nomatch he

theorem lastFails_nil {α : Type} (a : α) : LastFails [] (.ok a : Except UInt32 α) := by
  intro e
  constructor <;> rintro ⟨⟩

/-- `splice` is asked for no more than is left. -/
theorem le_of_le_thisLen {buflen n : UInt32} (h : n.toUInt64 ≤ thisLen buflen) (hn : n < 2147483648) :
    n.toNat ≤ buflen.toNat := by
  have h31 : (2147483648 : UInt32).toNat = 2147483648 := rfl
  rw [UInt32.lt_iff_toNat_lt, h31] at hn
  by_cases hneg : 2147483648 ≤ buflen.toNat
  · omega
  have hint : buflen.toInt32.toInt = buflen.toNat := by
    have hcond := BitVec.toInt_eq_toNat_cond buflen.toBitVec
    have hnat : buflen.toBitVec.toNat = buflen.toNat := rfl
    have hto : buflen.toInt32.toInt = buflen.toBitVec.toInt := rfl
    rw [hto, hcond, hnat]
    split <;> omega
  have hsize : spliceDefSize.toInt = 65536 := rfl
  rw [UInt64.le_iff_toNat_le, UInt32.toNat_toUInt64] at h
  unfold thisLen at h
  dsimp only at h
  split at h
  · next hlt =>
    rw [Int32.lt_iff_toInt_lt, hsize, hint] at hlt
    have hcap : spliceDefSize.toInt64.toUInt64.toNat = 65536 := rfl
    omega
  · have hwide := toNat_widen buflen.toInt32
    rw [hint] at hwide
    omega

/-- One run of the loops of `fio_splice_read`: it fails with the last call, or all bytes were read. -/
theorem fioSpliceReadLoop_spec {buflen ret p : UInt32} {r : Except UInt32 UInt32}
    (hsum : p.toNat + ret.toNat + buflen.toNat < 2 ^ 32)
    (h : fioSpliceReadLoop replies buflen ret p = some r) :
    LastFails replies r ∧ ∀ n, r = .ok n → n.toNat = p.toNat + ret.toNat + buflen.toNat := by
  induction replies generalizing buflen ret p with
  | nil =>
    rw [fioSpliceReadLoop] at h
    split at h
    · next hdone =>
      obtain ⟨rfl, rfl⟩ := hdone
      cases h
      refine ⟨lastFails_nil p, ?_⟩
      rintro n ⟨⟩
      rfl
    · cases h
  | cons reply rest ih =>
    rw [fioSpliceReadLoop.eq_def] at h
    dsimp only at h
    by_cases hret : ret ≠ 0
    · -- there is something in the pipe to read
      rw [if_pos hret] at h
      cases reply with
      | failed e =>
        obtain ⟨rfl, rfl⟩ := returns_eq_some.mp h
        exact ⟨lastFails_failed e, fun n hn => nomatch hn⟩
      | done n =>
        dsimp only at h
        split at h
        · next hle =>
          rw [UInt32.le_iff_toNat_le] at hle
          have hsub : (ret - n).toNat = ret.toNat - n.toNat := UInt32.toNat_sub_of_le _ _ (by
            rw [UInt32.le_iff_toNat_le]; exact hle)
          have hadd : (p + n).toNat = p.toNat + n.toNat := by
            rw [UInt32.toNat_add]
            omega
          obtain ⟨hlast, hcount⟩ := ih (by omega) h
          exact ⟨hlast.done, fun m hm => by rw [hcount m hm]; omega⟩
        · cases h
    rw [if_neg hret] at h
    have hret0 : ret = 0 := not_not.mp hret
    subst hret0
    by_cases hbuf : buflen ≠ 0
    · rw [if_pos hbuf] at h
      cases reply with
      | failed e =>
        dsimp only at h
        split at h
        · -- the loop goes on, so that this was not the last call
          obtain ⟨hlast, hcount⟩ := ih hsum h
          refine ⟨hlast.cons fun e _ hnil => ?_, hcount⟩
          subst hnil
          rw [fioSpliceReadLoop, if_neg fun hdone => hbuf hdone.2] at h
          cases h
        · obtain ⟨rfl, rfl⟩ := returns_eq_some.mp h
          exact ⟨lastFails_failed e, fun n hn => nomatch hn⟩
      | done n =>
        dsimp only at h
        split at h
        · next hle =>
          have hlen := le_of_le_thisLen hle.1 hle.2
          have hsub : (buflen - n).toNat = buflen.toNat - n.toNat := UInt32.toNat_sub_of_le _ _ (by
            rw [UInt32.le_iff_toNat_le]; exact hlen)
          have hzero : (0 : UInt32).toNat = 0 := rfl
          obtain ⟨hlast, hcount⟩ := ih (by omega) h
          exact ⟨hlast.done, fun m hm => by rw [hcount m hm]; omega⟩
        · cases h
    · rw [if_neg hbuf] at h
      cases h

/-- At the end of a file `splice` gives nothing, however often `fio_splice_read` asks. -/
theorem fioSpliceRead_endOfFile (hu : u.buflen ≠ 0) (k : Nat) :
    fioSpliceRead u (List.replicate k (.done 0)) = none := by
  unfold fioSpliceRead
  induction k with
  | zero => exact if_neg fun h => hu h.2
  | succ k ih =>
    have hle : (0 : UInt32).toUInt64 ≤ thisLen u.buflen ∧ (0 : UInt32) < 2147483648 :=
      ⟨UInt64.zero_le, by decide⟩
    rw [List.replicate_succ, fioSpliceReadLoop.eq_def]
    dsimp only
    rw [if_neg (not_not_intro rfl), if_pos hu, if_pos hle, UInt32.sub_zero]
    exact ih

/-- What is left to the call: what `vmsplice` has not taken yet, and what is in the pipe. -/
def WriteCall.inPipe : WriteCall → Nat
  | .poll | .vmsplice => 0
  | .splice ret => ret.toNat

theorem inPipe_nextWriteCall (ret : UInt32) : (nextWriteCall ret).inPipe = ret.toNat := by
  unfold nextWriteCall
  split
  · next h => rw [h]; rfl
  · rfl

/-- One run of the loops of `fio_splice_write`. -/
theorem fioSpliceWriteLoop_spec {iovLen off : UInt64} {call : WriteCall} {r : Except UInt32 UInt64}
    (hsum : off.toNat + call.inPipe + iovLen.toNat < 2 ^ 64)
    (h : fioSpliceWriteLoop replies iovLen call off = some r) :
    LastFails replies r ∧ ∀ n, r = .ok n → n.toNat = off.toNat + call.inPipe + iovLen.toNat := by
  induction replies generalizing iovLen call off with
  | nil =>
    rw [fioSpliceWriteLoop] at h
    split at h
    · next hdone =>
      obtain ⟨rfl, rfl⟩ := hdone
      cases h
      refine ⟨lastFails_nil off, ?_⟩
      rintro n ⟨⟩
      rfl
    · cases h
  | cons reply rest ih =>
    rw [fioSpliceWriteLoop.eq_def] at h
    cases call with
    | poll =>
      cases reply with
      | failed e =>
        dsimp only at h
        split at h
        · obtain ⟨rfl, rfl⟩ := returns_eq_some.mp h
          exact ⟨lastFails_failed e, fun n hn => nomatch hn⟩
        · cases h
      | done n =>
        dsimp only at h
        split at h
        · have hsame : WriteCall.poll.inPipe = WriteCall.vmsplice.inPipe := rfl
          rw [hsame] at hsum ⊢
          obtain ⟨hlast, hcount⟩ := ih hsum h
          exact ⟨hlast.done, hcount⟩
        · cases h
    | vmsplice =>
      cases reply with
      | failed e =>
        obtain ⟨rfl, rfl⟩ := returns_eq_some.mp h
        exact ⟨lastFails_failed e, fun n hn => nomatch hn⟩
      | done n =>
        dsimp only at h
        split at h
        · next hle =>
          have hlen := hle.1
          rw [UInt64.le_iff_toNat_le, UInt32.toNat_toUInt64] at hlen
          have hsub : (iovLen - n.toUInt64).toNat = iovLen.toNat - n.toNat := by
            rw [UInt64.toNat_sub_of_le _ _ hle.1, UInt32.toNat_toUInt64]
          have hpipe := inPipe_nextWriteCall n
          have hzero : WriteCall.vmsplice.inPipe = 0 := rfl
          obtain ⟨hlast, hcount⟩ := ih (by omega) h
          exact ⟨hlast.done, fun m hm => by rw [hcount m hm]; omega⟩
        · cases h
    | splice ret =>
      cases reply with
      | failed e =>
        obtain ⟨rfl, rfl⟩ := returns_eq_some.mp h
        exact ⟨lastFails_failed e, fun n hn => nomatch hn⟩
      | done n =>
        dsimp only at h
        split at h
        · next hle =>
          have hlen := hle
          rw [UInt32.le_iff_toNat_le] at hlen
          have hsub := UInt32.toNat_sub_of_le _ _ hle
          have hpipe := inPipe_nextWriteCall (ret - n)
          have hfull : (WriteCall.splice ret).inPipe = ret.toNat := rfl
          have hadd : (off + n.toUInt64).toNat = off.toNat + n.toNat := by
            rw [UInt64.toNat_add, UInt32.toNat_toUInt64]
            omega
          obtain ⟨hlast, hcount⟩ := ih (by omega) h
          exact ⟨hlast.done, fun m hm => by rw [hcount m hm]; omega⟩
        · cases h

/-! ## Each call -/

/-- What the splice engine makes of a transfer. -/
theorem spliceRet_ok_iff {r : Except UInt32 UInt64} {d : DataDdir} (hu : Fresh u) (hd : u.ddir = .data d)
    (hlast : LastFails replies r) (hcount : ∀ n, r = .ok n → n.toNat = u.buflen.toNat) :
    QueueOk ⟨(checkRet enodata u (spliceRet u r).1 errno).error,
      checkRet enodata u (spliceRet u r).1 errno, (spliceRet u r).2⟩ ↔
      ∀ e, replies.getLast? = some (.failed e) → e = enodata ∧ u.ddir ≠ .sync ∧ enodata < u.buflen := by
  have hdata : u.ddir ≠ .sync := by rw [hd]; exact FioDdir.noConfusion
  cases r with
  | error e =>
    have he := (hlast e).mpr rfl
    rw [spliceRet, queueOk_errno hu]
    constructor
    · rintro ⟨rfl, hlt⟩ e' he'
      rw [he] at he'
      cases he'
      exact ⟨rfl, hdata, hlt⟩
    · intro hall
      obtain ⟨rfl, -, hlt⟩ := hall e he
      exact ⟨rfl, hlt⟩
  | ok n =>
    have hn : n = u.buflen.toUInt64 := by
      rw [← UInt64.toNat_inj, UInt32.toNat_toUInt64]
      exact hcount n rfl
    refine iff_of_true (queueOk_full (if_pos hn)) fun e he => ?_
    cases (hlast e).mp he

theorem spliceQueue_ok_iff (hu : Fresh u) (h : fioSpliceioQueue u replies errno = some q) :
    QueueOk q ↔
      ∀ e, replies.getLast? = some (.failed e) → e = enodata ∧ u.ddir ≠ .sync ∧ enodata < u.buflen := by
  unfold fioSpliceioQueue at h
  obtain ⟨ret, hret, hq⟩ := Option.map_eq_some_iff.mp h
  subst hq
  cases hd : u.ddir with
  | data d =>
    rw [← hd]
    cases d with
    | read =>
      rw [hd] at hret
      obtain ⟨r, hr, rfl⟩ := Option.map_eq_some_iff.mp hret
      have hlt := u.buflen.toNat_lt
      have hzero : (0 : UInt32).toNat = 0 := rfl
      obtain ⟨hlast, hcount⟩ := fioSpliceReadLoop_spec (by omega) hr
      refine spliceRet_ok_iff hu hd (fun e => (hlast e).trans ?_) ?_
      · cases r <;> simp [Except.map]
      · intro n hn
        cases r with
        | error e => cases hn
        | ok m =>
          cases hn
          rw [UInt32.toNat_toUInt64, hcount m rfl]
          omega
    | write =>
      rw [hd] at hret
      obtain ⟨r, hr, rfl⟩ := Option.map_eq_some_iff.mp hret
      have hlt := u.buflen.toNat_lt
      have hlen := UInt32.toNat_toUInt64 u.buflen
      have hzero : (0 : UInt64).toNat + WriteCall.poll.inPipe = 0 := rfl
      obtain ⟨hlast, hcount⟩ := fioSpliceWriteLoop_spec (by omega) hr
      exact spliceRet_ok_iff hu hd hlast fun n hn => by rw [hcount n hn]; omega
  | sync =>
    rw [hd] at hret
    -- one call, to `fsync`
    match replies, hret with
    | [.failed e], hret =>
      cases hret
      refine iff_of_false (not_queueOk_minusOne hu) fun hall => (hall e rfl).2.1 rfl
    | [.done n], hret =>
      cases hret
      refine iff_of_true (queueOk_full rfl) ?_
      rintro e ⟨⟩

/-- The libaio engine says of every unit what became of it. -/
theorem libaioQueue_ok (h : fioLibaioQueue u replies = some q) : QueueOk q := by
  induction replies with
  | nil => cases h
  | cons reply rest ih =>
    cases reply with
    | done n =>
      rw [fioLibaioQueue] at h
      split at h
      · exact ih h
      · split at h
        · obtain ⟨-, rfl⟩ := returns_eq_some.mp h
          exact queueOk_full rfl
        · cases h
    | failed e =>
      rw [fioLibaioQueue] at h
      split at h
      · exact ih h
      · obtain ⟨-, rfl⟩ := returns_eq_some.mp h
        exact (queueOk_failed rfl).mpr ⟨(by decide : (1 : UInt32) ≠ 0), rfl, UInt32.le_refl _⟩

theorem libaioGeteventsLoop_last {replies : List EventsReply} {reply : EventsReply}
    (h : libaioGeteventsLoop replies = some reply) : replies.getLast? = some reply := by
  induction replies with
  | nil => cases h
  | cons first rest ih =>
    have hskip : libaioGeteventsLoop rest = some reply → (first :: rest).getLast? = some reply := by
      intro hrest
      rw [List.getLast?_cons, ih hrest]
      rfl
    cases first with
    | ok units =>
      rw [libaioGeteventsLoop] at h
      split at h
      · exact hskip h
      · obtain ⟨rfl, rfl⟩ := returns_eq_some.mp h
        rfl
    | error e =>
      rw [libaioGeteventsLoop] at h
      split at h
      · exact hskip h
      · obtain ⟨rfl, rfl⟩ := returns_eq_some.mp h
        rfl

/-- An error from `io_getevents` comes back as a count. -/
theorem libaioGetevents_ok_iff {events events' : List Nat} {replies : List EventsReply} {n : Int}
    (h : fioLibaioGetevents events replies = some (n, events')) :
    (∀ got, replies.getLast? = some got → GeteventsOk n events' got) ↔
      ∀ e, replies.getLast? ≠ some (.error e) := by
  obtain ⟨reply, hreply, hn⟩ := Option.map_eq_some_iff.mp h
  have hlast := libaioGeteventsLoop_last hreply
  cases reply with
  | ok units =>
    have hr : EventsReply.r (.ok units) = units.length := rfl
    have hpos : ¬((units.length : Int) < 0) := by omega
    dsimp only at hn
    rw [hr, if_neg hpos] at hn
    cases hn
    refine iff_of_true (fun got hgot => ?_) fun e he => ?_
    · rw [hlast] at hgot
      cases hgot
      exact ⟨rfl, List.Perm.of_eq (take_refill events units)⟩
    · rw [hlast] at he
      cases he
  | error e =>
    have hr : EventsReply.r (.error e) = -e.toNat := rfl
    rw [hr] at hn
    refine iff_of_false (fun hall => ?_) fun hno => hno e hlast
    have hneg : n < 0 := hall (.error e) hlast
    have hn' := congrArg Prod.fst hn
    dsimp only at hn'
    split at hn' <;> omega

theorem le_dxferLen (u : IoU) : EngineCall.dxferLen u ≤ u.buflen := by
  unfold EngineCall.dxferLen
  split
  · exact UInt32.zero_le
  · exact UInt32.le_refl _

/-- The parts of a sequence of calls that had a value. -/
theorem bind_ok_of_eq {α β : Type} {x : Except UInt32 α} {g : α → Except UInt32 β} {b : β}
    (h : x.bind g = .ok b) : ∃ a, x = .ok a ∧ g a = .ok b := by
  cases x with
  | error e => cases h
  | ok a => exact ⟨a, rfl, h⟩

theorem servedCommand_eq_failed {command : Except UInt32 SgHdr} :
    servedCommand command = .failed e ↔ command = .error e := by
  cases command with
  | error e' => simp [servedCommand]
  | ok hdr =>
    unfold servedCommand
    dsimp only
    split <;> simp

/-- A command that was waited for, and what `fio_sgio_doio` gives of it where no error is lost. -/
theorem sgQueue_command_ok_iff {bd : Bool} {calls : SgCalls} {hdr : SgHdr} (hu : Fresh u)
    (hdoio : fioSgioDoio bd calls (u.ddir == .sync) = (0, 0, hdr))
    (hcommand : sgCommand bd (u.ddir == .sync) calls = .ok hdr) (hresid : hdr.resid ≤ u.buflen) :
    QueueOk (fioSgioQueue bd u calls) ↔
      (hdr.status = 0 → hdr.hostStatus = 0 ∧ hdr.driverStatus = 0 ∧ hdr.resid = 0) := by
  unfold fioSgioQueue
  dsimp only
  rw [hdoio, hcommand]
  dsimp only
  have hpos : ¬((0 : Int) < 0) := by decide
  rw [if_neg hpos, servedCommand]
  by_cases hstatus : hdr.status = 0
  · by_cases hgood : hdr.hostStatus = 0 ∧ hdr.driverStatus = 0 ∧ hdr.resid = 0
    · exact iff_of_true (queueOk_full (if_pos ⟨hstatus, hgood⟩)) fun _ => hgood
    · refine iff_of_false (fun hq => ?_) fun h => hgood (h hstatus)
      have hfull := hq.accepted (by rw [if_neg (not_not_intro hstatus)]; exact hu.1)
      dsimp only at hfull
      rw [if_neg fun h => hgood h.2] at hfull
      cases hfull
  · refine iff_of_true ?_ fun h => absurd h hstatus
    rw [if_pos hstatus, if_neg fun h => hstatus h.1]
    have heio : eio ≠ 0 := by decide
    exact (queueOk_short rfl).mpr ⟨heio, hresid⟩

/-- The sg engine loses what the character device says, and commands that fail before the device. -/
theorem sgQueue_ok_iff {bd : Bool} {calls : SgCalls} (hu : Fresh u)
    (hne : ∀ e, sgCommand bd (u.ddir == .sync) calls = .error e → e ≠ 0)
    (hresid : ∀ hdr, sgCommand bd (u.ddir == .sync) calls = .ok hdr → hdr.resid ≤ EngineCall.dxferLen u) :
    QueueOk (fioSgioQueue bd u calls) ↔
      (bd = false → ∀ e, sgCommand bd (u.ddir == .sync) calls ≠ .error e) ∧
      ∀ hdr, sgCommand bd (u.ddir == .sync) calls = .ok hdr → hdr.status = 0 →
        hdr.hostStatus = 0 ∧ hdr.driverStatus = 0 ∧ hdr.resid = 0 := by
  cases hcommand : sgCommand bd (u.ddir == .sync) calls with
  | ok hdr =>
    have hle : hdr.resid ≤ u.buflen := UInt32.le_trans (hresid hdr hcommand) (le_dxferLen u)
    have hdoio : fioSgioDoio bd calls (u.ddir == .sync) = (0, 0, hdr) := by
      unfold sgCommand at hcommand
      unfold fioSgioDoio
      cases bd with
      | true =>
        have hioctl : calls.ioctl = .ok hdr := hcommand
        simp [fioSgioIoctlDoio, hioctl]
      | false =>
        obtain ⟨⟨⟩, hwrite, hcommand⟩ := bind_ok_of_eq hcommand
        simp only [Bool.false_eq_true, if_false, fioSgioRwDoio, hwrite]
        split at hcommand
        · next hs => rw [if_pos hs, hcommand]
        · next hs =>
          cases hcommand
          rw [if_neg hs]
    rw [sgQueue_command_ok_iff hu hdoio hcommand hle]
    simp
  | error e =>
    have he := hne e hcommand
    have hfailed : (fioSgioQueue bd u calls).served = .failed e := servedCommand_eq_failed.mpr hcommand
    rw [queueOk_failed hfailed]
    cases bd with
    | true =>
      have hioctl : calls.ioctl = .error e := hcommand
      have hu' : (fioSgioQueue true u calls).u = { u with error := e } := by
        simp [fioSgioQueue, fioSgioDoio, fioSgioIoctlDoio, hioctl]
      have hret : (fioSgioQueue true u calls).ret = (fioSgioQueue true u calls).u.error := rfl
      rw [hret, hu', hu.2]
      exact iff_of_true ⟨he, rfl, UInt32.zero_le⟩ ⟨fun h => (nomatch h), fun hdr hhdr => nomatch hhdr⟩
    | false =>
      refine iff_of_false (fun hq => ?_) fun h => h.1 rfl e rfl
      -- the errno is not below 0, and the header says nothing
      have hdoio : fioSgioDoio false calls (u.ddir == .sync) = ((e.toNat : Int), e, SgHdr.init) := by
        unfold sgCommand at hcommand
        unfold fioSgioDoio
        rw [if_neg Bool.false_ne_true] at hcommand ⊢
        unfold fioSgioRwDoio
        cases hwrite : calls.write with
        | error e' =>
          rw [hwrite] at hcommand
          cases hcommand
          rfl
        | ok _ =>
          rw [hwrite] at hcommand
          have hread : (if (u.ddir == .sync) = true then calls.read else .ok .init) = .error e := hcommand
          dsimp only
          split at hread
          · next hs => rw [if_pos hs, hread]
          · cases hread
      have hret : (fioSgioQueue false u calls).ret = 0 := by
        have hpos : ¬((e.toNat : Int) < 0) := by omega
        unfold fioSgioQueue
        dsimp only
        rw [hdoio]
        dsimp only
        rw [if_neg hpos]
        exact hu.1
      exact hq.1 hret

/-- The last reply is no error but `EAGAIN`. -/
def EndsWell (replies : List EventsReply) : Prop := ∀ e, replies.getLast? = some (.error e) → e = eagain

theorem endsWell_cons {replies : List EventsReply} {units : List Nat} :
    EndsWell (.ok units :: replies) ↔ EndsWell replies := by
  unfold EndsWell
  cases replies with
  | nil => simp
  | cons reply replies => rw [List.getLast?_cons_cons]

theorem sgCompleted_eq {replies : List EventsReply} (h : EndsWell replies) :
    sgCompleted replies = .ok (batches replies).flatten := by
  unfold sgCompleted
  split
  · next e he => rw [if_pos (h e he)]
  · rfl

/-- The loop of `fio_sgio_getevents` writes one batch over the other. -/
theorem sgioGeteventsLoop_spec {replies : List EventsReply} {left r n : Int} {events events' : List Nat}
    (h : sgioGeteventsLoop replies left r events = some (n, events')) (hends : EndsWell replies) :
    n = r + (batches replies).flatten.length ∧ events' = (batches replies).foldl refill events := by
  induction replies generalizing left r events with
  | nil =>
    rw [sgioGeteventsLoop] at h
    split at h
    · cases h
      exact ⟨(Int.add_zero n).symm, rfl⟩
    · cases h
  | cons reply rest ih =>
    rw [sgioGeteventsLoop.eq_def] at h
    dsimp only at h
    split at h
    · cases h
    cases reply with
    | error e =>
      obtain ⟨rfl, hn⟩ := returns_eq_some.mp h
      rw [if_pos (hends e rfl)] at hn
      cases hn
      exact ⟨(Int.add_zero n).symm, rfl⟩
    | ok units =>
      dsimp only at h
      split at h
      · next hempty =>
        obtain ⟨rfl, hn⟩ := returns_eq_some.mp h
        cases hn
        rw [List.isEmpty_iff.mp hempty]
        exact ⟨(Int.add_zero n).symm, rfl⟩
      · obtain ⟨hn, hevents⟩ := ih h (endsWell_cons.mp hends)
        have hbatches : batches (.ok units :: rest) = units :: batches rest := rfl
        rw [hbatches, List.flatten_cons, List.length_append]
        exact ⟨by push_cast; omega, hevents⟩

theorem sgioGeteventsLoop_failed {replies : List EventsReply} {left r n : Int} {events events' : List Nat}
    {e : UInt32} (h : sgioGeteventsLoop replies left r events = some (n, events'))
    (he : replies.getLast? = some (.error e)) (hne : e ≠ eagain) : n = -1 := by
  induction replies generalizing left r events with
  | nil => cases he
  | cons reply rest ih =>
    rw [sgioGeteventsLoop.eq_def] at h
    dsimp only at h
    split at h
    · cases h
    cases reply with
    | error e' =>
      obtain ⟨rfl, hn⟩ := returns_eq_some.mp h
      cases he
      rw [if_neg hne] at hn
      exact (congrArg Prod.fst hn).symm
    | ok units =>
      have hlater : rest ≠ [] → rest.getLast? = some (.error e) := by
        intro hrest
        obtain ⟨reply', rest', rfl⟩ := List.exists_cons_of_ne_nil hrest
        rw [List.getLast?_cons_cons] at he
        exact he
      have hrest : rest ≠ [] := by
        rintro rfl
        cases he
      dsimp only at h
      split at h
      · exact absurd (returns_eq_some.mp h).1 hrest
      · exact ih h (hlater hrest)

/-- The events hold all batches when what one was laid over stands behind them already. -/
theorem sgGetevents_ok_iff {max n : Int} {events events' : List Nat} {replies : List EventsReply}
    (h : fioSgioGetevents max events replies = some (n, events')) :
    GeteventsOk n events' (sgCompleted replies) ↔ (EndsWell replies →
      ((events.drop (laid (batches replies)).front.length).take (laid (batches replies)).lost.length).Perm
        (laid (batches replies)).lost) := by
  by_cases hends : EndsWell replies
  · obtain ⟨hn, hevents⟩ := sgioGeteventsLoop_spec h hends
    rw [sgCompleted_eq hends, GeteventsOk, hevents, refilled_perm_iff]
    refine ⟨fun hok _ => hok.2, fun hlost => ⟨?_, hlost hends⟩⟩
    rw [hn, Int.zero_add]
  · refine iff_of_true ?_ fun h => absurd h hends
    unfold EndsWell at hends
    push Not at hends
    obtain ⟨e, he, hne⟩ := hends
    have hcompleted : sgCompleted replies = .error e := by
      unfold sgCompleted
      rw [he]
      exact if_neg hne
    rw [hcompleted, sgioGeteventsLoop_failed h he hne]
    exact (by decide : (-1 : Int) < 0)

/-- An engine with one unit gives it back. -/
theorem depthOne_ok {engine : DepthOne} {max n : Int} {last : Option Nat} {queued : Option (Nat × Queued)}
    (hq : ∀ i q, queued = some (i, q) → q.ret = q.u.error)
    (h : engine.getevents max (busyUnits queued) = .ok n) :
    GeteventsOk n (engine.event last queued).toList (.ok (busyUnits queued)) := by
  have hsame : engine.getevents max (busyUnits queued) = fioSyncioGetevents max (busyUnits queued) := by
    cases engine <;> rfl
  have hn : n = if (busyUnits queued).isEmpty then 0 else 1 := by
    rw [hsame, fioSyncioGetevents] at h
    split at h <;> cases h
    rfl
  subst hn
  cases queued with
  | none => exact ⟨rfl, List.Perm.refl _⟩
  | some iq =>
    obtain ⟨i, q⟩ := iq
    by_cases hret : q.ret = 0
    · have hbusy : busyUnits (some (i, q)) = [i] := if_pos hret
      have hevent : engine.event last (some (i, q)) = some i := by
        cases engine with
        | sync | splice => exact if_pos (hq i q rfl ▸ hret)
        | sgIoctl => rfl
      rw [hbusy, hevent]
      exact ⟨rfl, List.Perm.refl _⟩
    · have hbusy : busyUnits (some (i, q)) = [] := if_neg hret
      rw [hbusy]
      exact ⟨rfl, List.Perm.refl _⟩

/-! ## All calls -/

/-- **What an engine tells the loop is true exactly when the calls under it give what `Right` says.** -/
theorem meets_iff_right (c : EngineCall) (h : c.Documented) : c.Meets ↔ c.Right := by
  cases c with
  | syncQueue f u returned errno => exact syncQueued_ok_iff h.1 h.2
  | depthOneGetevents engine max last queued => exact iff_of_true (fun n hn => depthOne_ok h hn) trivial
  | spliceQueue u replies errno =>
    obtain ⟨q, hq⟩ := Option.ne_none_iff_exists'.mp h.2
    refine Iff.trans ⟨fun hmeets => hmeets q hq, fun hok q' hq' => ?_⟩ (spliceQueue_ok_iff h.1 hq)
    rw [hq] at hq'
    cases hq'
    exact hok
  | libaioQueue u replies => exact iff_of_true (fun q hq => libaioQueue_ok hq) trivial
  | libaioGetevents events replies =>
    obtain ⟨⟨n, events'⟩, hn⟩ := Option.ne_none_iff_exists'.mp h
    refine Iff.trans ⟨fun hmeets got => hmeets n events' got hn, fun hok n' events'' got hn' => ?_⟩
      (libaioGetevents_ok_iff hn)
    rw [hn] at hn'
    cases hn'
    exact hok got
  | sgQueue bd u calls => exact sgQueue_ok_iff h.1 h.2.1 h.2.2
  | sgGetevents max events replies =>
    obtain ⟨⟨n, events'⟩, hn⟩ := Option.ne_none_iff_exists'.mp h
    refine Iff.trans ⟨fun hmeets => hmeets n events' hn, fun hok n' events'' hn' => ?_⟩
      (sgGetevents_ok_iff hn)
    rw [hn] at hn'
    cases hn'
    exact hok

/-- A unit of 4 KiB on the sync engine, and what `read` returns for it. -/
def oneRead (returned : Option UInt32) (errno : UInt32) : EngineCall :=
  .syncQueue ⟨⟨true, 4096, 4096, 0, 0, .empty⟩, 0, 0⟩ ⟨4096, 0, 0, 0, .data .read, some 0⟩ returned errno

theorem meets_iff_right_wholeRead : (oneRead (some 4096) 0).Meets := by
  refine (meets_iff_right (oneRead (some 4096) 0) ⟨⟨rfl, rfl⟩, ?_⟩).mpr ⟨Option.some_ne_none _, ?_⟩
  · rintro n d ⟨⟩ -
    decide
  · rintro d - ⟨⟩

/-- `read` fails with `EBADF`: the unit has `EIO`, and 4097 of its 4096 bytes left. -/
theorem syncQueue_failedRead : (oneRead none 9).Documented ∧ ¬(oneRead none 9).Meets := by
  refine ⟨⟨⟨rfl, rfl⟩, ?_⟩, fun hq => absurd (QueueOk.errno hq 9 rfl) (by decide)⟩
  rintro n d ⟨⟩

end Rtfsc.Fio
