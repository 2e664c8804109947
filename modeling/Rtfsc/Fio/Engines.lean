import Rtfsc.Fio.SyncEngine
import Rtfsc.Machine.Outcome
import Rtfsc.Machine.Refill

/-!
# fio: what an engine tells the loop

The loop takes 0 from `queue` for a unit that was accepted, and by an engine that does the transfer
itself for one that was transferred in full; it takes an errno from the unit, and a count from
`getevents` for that many events. A call of an engine is modelled with what the system calls under it
return, from the first to the last one it makes.
-/

namespace Rtfsc.Fio

open Rtfsc.Machine

/-- `ENODATA`, `EAGAIN` and `EINTR`. -/
def enodata : UInt32 := 61

def eagain : UInt32 := 11

def eintr : UInt32 := 4

/-- What a system call returns: a count, or -1 with an errno. -/
inductive Reply
  | done (n : UInt32)
  | failed (errno : UInt32)
deriving DecidableEq, Repr

/-- A call that returns with these replies left makes no more calls. -/
def returns {ρ α : Type} (rest : List ρ) (a : α) : Option α := if rest.isEmpty then some a else none

/-- What became of a unit. -/
inductive Served
  | full
  | short
  | failed (errno : UInt32)
deriving DecidableEq, Repr

/-- What `queue` returns, the unit behind it, and what became of it. -/
structure Queued where
  ret : UInt32
  u : IoU
  served : Served
deriving DecidableEq, Repr

/-- How the sync and the splice engine report what the call returned. -/
def checkRet (code : UInt32) (u : IoU) (ret errno : UInt32) : IoU :=
  if ret ≠ u.buflen then
    if 0 < ret then { u with resid := u.buflen - ret, error := code } else { u with error := errno }
  else u

/-- `-1`, as an `unsigned int`. -/
def minusOne : UInt32 := -1

/-! ## The sync engine -/

/-- What became of the unit of a `read`, `write` or `fsync` that returned. -/
def servedBytes (u : IoU) (n : UInt32) : Served :=
  match u.ddir with
  | .sync => .full
  | .data _ => if n = u.buflen then .full else .short

def syncQueued (f : SyncFile) (u : IoU) (returned : Option UInt32) (errno : UInt32) : Queued :=
  let u' := (fioSyncioQueue f u returned errno).2
  ⟨u'.error, u', returned.elim (.failed errno) (servedBytes u)⟩

/-- `fio_syncio_getevents`, on the busy list. -/
def fioSyncioGetevents (max : Int) (ioUBusylist : List Nat) : Outcome Int :=
  if max ≤ 1 then .ok (if ioUBusylist.isEmpty then 0 else 1) else .error .assertFailed

/-- `sd->last_io_u` behind `queue`. -/
def lastIoU (last : Option Nat) (i : Nat) (q : Queued) : Option Nat := if q.u.error = 0 then some i else last

/-! ## The splice engine -/

/-- `SPLICE_DEF_SIZE`. -/
def spliceDefSize : Int32 := 65536

/-- `this_len`, an `int`, as the `size_t` that `splice` takes. -/
def thisLen (buflen : UInt32) : UInt64 :=
  let thisLen := buflen.toInt32
  if spliceDefSize < thisLen then spliceDefSize.toInt64.toUInt64 else thisLen.toInt64.toUInt64

/-- The loops of `fio_splice_read`, with `buflen`, `ret` and the bytes at `p` so far: the errno it
returns, or the bytes read where it returns `io_u->buflen`. Nothing when the calls do not end it, or
are not the ones it makes. -/
def fioSpliceReadLoop : List Reply → UInt32 → UInt32 → UInt32 → Option (Except UInt32 UInt32)
  | [], buflen, ret, p => if ret = 0 ∧ buflen = 0 then some (.ok p) else none
  | reply :: rest, buflen, ret, p =>
    if ret ≠ 0 then
      match reply with
      | .failed e => returns rest (.error e)
      | .done n => if n ≤ ret then fioSpliceReadLoop rest buflen (ret - n) (p + n) else none
    else if buflen ≠ 0 then
      match reply with
      | .failed e =>
        if e = enodata ∨ e = eagain then fioSpliceReadLoop rest buflen 0 p else returns rest (.error e)
      | .done n =>
        if n.toUInt64 ≤ thisLen buflen ∧ n < 2147483648 then fioSpliceReadLoop rest (buflen - n) n p
        else none
    else none

/-- `fio_splice_read`. -/
def fioSpliceRead (u : IoU) (replies : List Reply) : Option (Except UInt32 UInt32) :=
  fioSpliceReadLoop replies u.buflen 0 0

/-- The call that `fio_splice_write` makes next, with what is left of `ret` in the pipe. -/
inductive WriteCall
  | poll
  | vmsplice
  | splice (ret : UInt32)
deriving DecidableEq, Repr

/-- The inner loop goes on while there is something in the pipe. -/
def nextWriteCall (ret : UInt32) : WriteCall := if ret = 0 then .poll else .splice ret

/-- The loops of `fio_splice_write`, with `iov_len` and the bytes written so far. -/
def fioSpliceWriteLoop : List Reply → UInt64 → WriteCall → UInt64 → Option (Except UInt32 UInt64)
  | [], iovLen, call, off => if iovLen = 0 ∧ call = .poll then some (.ok off) else none
  | reply :: rest, iovLen, call, off =>
    match call, reply with
    | .poll, .failed e => if iovLen ≠ 0 then returns rest (.error e) else none
    | .poll, .done _ => if iovLen ≠ 0 then fioSpliceWriteLoop rest iovLen .vmsplice off else none
    | .vmsplice, .failed e => returns rest (.error e)
    | .vmsplice, .done n =>
      if n.toUInt64 ≤ iovLen ∧ n < 2147483648 then
        fioSpliceWriteLoop rest (iovLen - n.toUInt64) (nextWriteCall n) off
      else none
    | .splice _, .failed e => returns rest (.error e)
    | .splice ret, .done n =>
      if n ≤ ret then fioSpliceWriteLoop rest iovLen (nextWriteCall (ret - n)) (off + n.toUInt64) else none

/-- `fio_splice_write`. -/
def fioSpliceWrite (u : IoU) (replies : List Reply) : Option (Except UInt32 UInt64) :=
  fioSpliceWriteLoop replies u.buflen.toUInt64 .poll 0

/-- `ret` of `fio_spliceio_queue` and what became of the unit: both loops return an errno as it is. -/
def spliceRet (u : IoU) : Except UInt32 UInt64 → UInt32 × Served
  | .error e => (e, .failed e)
  | .ok moved => (u.buflen, if moved = u.buflen.toUInt64 then .full else .short)

/-- `ret` of an `fsync`. -/
def fsyncRet : Reply → UInt32 × Served
  | .failed e => (minusOne, .failed e)
  | .done n => (n, .full)

/-- `fio_spliceio_queue`, with the errno that was left behind before. -/
def fioSpliceioQueue (u : IoU) (replies : List Reply) (errno : UInt32) : Option Queued :=
  let ret : Option (UInt32 × Served) :=
    match u.ddir, replies with
    | .data .read, _ => (fioSpliceRead u replies).map fun r => spliceRet u (r.map UInt32.toUInt64)
    | .data .write, _ => (fioSpliceWrite u replies).map (spliceRet u)
    | .sync, [reply] => some (fsyncRet reply)
    | .sync, _ => none
  ret.map fun r =>
    let u' := checkRet enodata u r.1 errno
    ⟨u'.error, u', r.2⟩

/-- `fio_spliceio_getevents`. -/
def fioSpliceioGetevents (max : Int) (ioUBusylist : List Nat) : Outcome Int :=
  fioSyncioGetevents max ioUBusylist

/-! ## The libaio engine -/

/-- The loop of `fio_libaio_queue` on what `io_submit` returns for the one unit, and what follows it. -/
def fioLibaioQueue (u : IoU) : List Reply → Option Queued
  | [] => none
  | .done n :: rest =>
    if n = 0 then fioLibaioQueue u rest else if n = 1 then returns rest ⟨0, u, .full⟩ else none
  | .failed e :: rest =>
    if e = eagain ∨ e = eintr then fioLibaioQueue u rest
    else returns rest ⟨1, { u with resid := u.buflen, error := e }, .failed e⟩

/-- What `io_getevents` returns: the units it wrote to the events, or an error. -/
abbrev EventsReply := Except UInt32 (List Nat)

/-- `r`, as `io_getevents` returns it. -/
def EventsReply.r : EventsReply → Int
  | .ok units => units.length
  | .error e => -e.toNat

/-- The loop of `fio_libaio_getevents`: the reply that ends it. -/
def libaioGeteventsLoop : List EventsReply → Option EventsReply
  | [] => none
  | .ok units :: rest => if units.isEmpty then libaioGeteventsLoop rest else returns rest (.ok units)
  | .error e :: rest =>
    if e = eagain ∨ e = eintr then libaioGeteventsLoop rest else returns rest (.error e)

/-- `fio_libaio_getevents`: what it returns, and the events. -/
def fioLibaioGetevents (events : List Nat) (replies : List EventsReply) : Option (Int × List Nat) :=
  (libaioGeteventsLoop replies).map fun reply =>
    let r := reply.r
    (if r < 0 then -r else r,
      match reply with
      | .ok units => refill events units
      | .error _ => events)

/-! ## The sg engine -/

/-- What `sg_io_hdr` says of a command behind it. -/
structure SgHdr where
  status : UInt8
  hostStatus : UInt16
  driverStatus : UInt16
  resid : UInt32
deriving DecidableEq, Repr

/-- As `sgio_hdr_init` leaves it. -/
def SgHdr.init : SgHdr := ⟨0, 0, 0, 0⟩

/-- What the calls on the device return: `ioctl`, `write` and `read`. -/
structure SgCalls where
  ioctl : Except UInt32 SgHdr
  write : Except UInt32 Unit
  read : Except UInt32 SgHdr
deriving DecidableEq, Repr

/-- `fio_sgio_ioctl_doio`: -1 with the errno, or the header. -/
def fioSgioIoctlDoio (calls : SgCalls) : Int × UInt32 × SgHdr :=
  match calls.ioctl with
  | .error e => (-1, e, .init)
  | .ok hdr => (0, 0, hdr)

/-- `fio_sgio_rw_doio`: an errno as it is. -/
def fioSgioRwDoio (calls : SgCalls) (sync : Bool) : Int × UInt32 × SgHdr :=
  match calls.write with
  | .error e => (e.toNat, e, .init)
  | .ok () =>
    if sync then
      match calls.read with
      | .error e => (e.toNat, e, .init)
      | .ok hdr => (0, 0, hdr)
    else (0, 0, .init)

/-- `fio_sgio_doio`, on a block device or not. -/
def fioSgioDoio (bd : Bool) (calls : SgCalls) (sync : Bool) : Int × UInt32 × SgHdr :=
  if bd then fioSgioIoctlDoio calls else fioSgioRwDoio calls sync

/-- What became of a command. -/
def servedCommand : Except UInt32 SgHdr → Served
  | .error e => .failed e
  | .ok hdr =>
    if hdr.status = 0 ∧ hdr.hostStatus = 0 ∧ hdr.driverStatus = 0 ∧ hdr.resid = 0 then .full else .short

/-- The command whose end `queue` waits for: on a block device each one. -/
def sgCommand (bd : Bool) (sync : Bool) (calls : SgCalls) : Except UInt32 SgHdr :=
  if bd then calls.ioctl
  else calls.write.bind fun _ => if sync then calls.read else .ok .init

/-- `fio_sgio_queue`. -/
def fioSgioQueue (bd : Bool) (u : IoU) (calls : SgCalls) : Queued :=
  let sync := u.ddir == .sync
  let (ret, errno, hdr) := fioSgioDoio bd calls sync
  let u' :=
    if ret < 0 then { u with error := errno }
    else if hdr.status ≠ 0 then { u with resid := hdr.resid, error := eio }
    else u
  ⟨u'.error, u', servedCommand (sgCommand bd sync calls)⟩

/-- `fio_sgio_ioctl_getevents`. -/
def fioSgioIoctlGetevents (max : Int) (ioUBusylist : List Nat) : Outcome Int :=
  fioSyncioGetevents max ioUBusylist

/-- The loop of `fio_sgio_getevents` on what `read` returns, with `left`, `r` and the events. -/
def sgioGeteventsLoop : List EventsReply → Int → Int → List Nat → Option (Int × List Nat)
  | [], left, r, events => if left = 0 then some (r, events) else none
  | reply :: rest, left, r, events =>
    if left = 0 then none
    else
      match reply with
      | .error e => returns rest (if e = eagain then r else -1, events)
      | .ok units =>
        if units.isEmpty then returns rest (r, events)
        else sgioGeteventsLoop rest (left - units.length) (r + units.length) (refill events units)

/-- `fio_sgio_getevents`. -/
def fioSgioGetevents (max : Int) (events : List Nat) (replies : List EventsReply) :
    Option (Int × List Nat) :=
  sgioGeteventsLoop replies max 0 events

end Rtfsc.Fio
