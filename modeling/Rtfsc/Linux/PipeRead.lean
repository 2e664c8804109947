import Rtfsc.Machine.Wrapping

/-!
# Reading from a pipe

`pipe_read` empties the buffers of a pipe in order until it has what was asked for, a packet ends it, an
error stops it, or the pipe is empty and it may not wait. While it waits, it gives up the lock, and finds
whatever others have made of the pipe.
-/

namespace Rtfsc.Linux

open Rtfsc.Machine

/-- `struct pipe_buffer`; `ref` stands for the reference to the page that it holds. -/
structure PipeBuffer where
  ref : Nat
  page : List UInt8
  offset : Nat
  len : Nat
  packet : Bool
deriving DecidableEq

/-- `struct pipe_inode_info` -/
structure Pipe where
  bufs : Nat → PipeBuffer
  buffers : Nat
  curbuf : Nat
  nrbufs : Nat
  writers : Nat
  waitingWriters : Nat

/-- The bytes of a buffer that have not been read. -/
def PipeBuffer.bytes (b : PipeBuffer) : List UInt8 :=
  (b.page.drop b.offset).take b.len

namespace Pipe

/-- The buffers in use, from `curbuf` on. -/
def ring (p : Pipe) : List PipeBuffer :=
  ringSlots p.buffers p.bufs p.curbuf p.nrbufs

/-- The ring has a power of two of slots, and what its buffers tell of their pages is there. -/
structure Sound (p : Pipe) : Prop where
  size : ∃ k, p.buffers = 2 ^ k
  curbuf : p.curbuf < p.buffers
  nrbufs : p.nrbufs ≤ p.buffers
  inside : ∀ b ∈ p.ring, b.offset + b.len ≤ b.page.length

end Pipe

/-- What is decided elsewhere in one round of the loop: the result of `pipe_buf_confirm`, the most that
`copy_page_to_iter` can copy, whether a signal is pending, and the pipe as `pipe_wait` leaves it. -/
structure PipeRound where
  confirm : Option { error : Int // error < 0 }
  copies : Nat
  signalPending : Bool
  waited : { p : Pipe // p.Sound }

/-- The local variables of `pipe_read` and the pipe, with what has been copied to the reader, the
references that have been released, and all buffers that were found in the pipe when it was locked. -/
structure PipeReader where
  pipe : Pipe
  totalLen : Nat
  ret : Int
  doWakeup : Bool
  copied : List UInt8
  released : List Nat
  found : List PipeBuffer

/-- `-EAGAIN` -/
def pipeAgain : Int := -11

/-- `-EFAULT` -/
def pipeFault : Int := -14

/-- `-ERESTARTSYS` -/
def pipeRestart : Int := -512

namespace PipeReader

/-- `if (!ret) ret = error;` -/
def fail (error : Int) (s : PipeReader) : PipeReader :=
  { s with ret := if s.ret = 0 then error else s.ret }

/-- `pipe_buf_release`, and the buffer is taken out of the ring. -/
def release (buf : PipeBuffer) (bufs : Nat) (s : PipeReader) : PipeReader :=
  { s with
    released := s.released ++ [buf.ref]
    pipe := { s.pipe with
      curbuf := (s.pipe.curbuf + 1) &&& (s.pipe.buffers - 1)
      nrbufs := bufs - 1 }
    doWakeup := true }

/-- The round as far as it is about `curbuf`, which holds a buffer: whether the loop is left, the local
`bufs`, and the state. -/
def consume (r : PipeRound) (s : PipeReader) : Bool × Nat × PipeReader :=
  let bufs := s.pipe.nrbufs
  let buf := s.pipe.bufs s.pipe.curbuf
  let chars := if s.totalLen < buf.len then s.totalLen else buf.len
  match r.confirm with
  | some error => (true, bufs, s.fail error)
  | none =>
    let written := min r.copies chars
    let s := { s with copied := s.copied ++ (buf.page.drop buf.offset).take written }
    if written < chars then (true, bufs, s.fail pipeFault)
    else
      let buf := { buf with offset := buf.offset + chars, len := buf.len - chars }
      -- a packet ends the read, and what is left of it is lost
      let totalLen := if buf.packet then chars else s.totalLen
      let buf := if buf.packet then { buf with len := 0 } else buf
      let s := { s with
        ret := s.ret + chars
        pipe := { s.pipe with bufs := Function.update s.pipe.bufs s.pipe.curbuf buf } }
      let (bufs, s) := if buf.len = 0 then (bufs - 1, s.release buf bufs) else (bufs, s)
      let totalLen := totalLen - chars
      (totalLen = 0, bufs, { s with totalLen := totalLen })

/-- The rest of the round, where the pipe is empty. -/
def await (nonblock : Bool) (r : PipeRound) (s : PipeReader) : Bool × PipeReader :=
  if s.pipe.writers = 0 then (true, s)
  else if s.pipe.waitingWriters = 0 ∧ s.ret ≠ 0 then (true, s)
  else if s.pipe.waitingWriters = 0 ∧ nonblock then (true, { s with ret := pipeAgain })
  else if r.signalPending then (true, s.fail pipeRestart)
  else (false, { s with pipe := r.waited.1, found := s.found ++ r.waited.1.ring })

/-- One round of the loop. -/
def round (nonblock : Bool) (r : PipeRound) (s : PipeReader) : Bool × PipeReader :=
  let (left, bufs, s) := if s.pipe.nrbufs = 0 then (false, 0, s) else s.consume r
  if left then (true, s)
  else if bufs ≠ 0 then (false, s)
  else s.await nonblock r

/-- The loop; `none` while it has not been left. -/
def loop (nonblock : Bool) : List PipeRound → PipeReader → Option PipeReader
  | [], _ => none
  | r :: rs, s =>
    let (left, s) := s.round nonblock r
    if left then some s else loop nonblock rs s

end PipeReader

/-- `pipe_read` of `total_len` bytes. -/
def pipeRead (nonblock : Bool) (pipe : Pipe) (totalLen : Nat) (rounds : List PipeRound) :
    Option PipeReader :=
  let s : PipeReader := ⟨pipe, totalLen, 0, false, [], [], pipe.ring⟩
  if totalLen = 0 then some s else s.loop nonblock rounds

/-! ## Messages -/

/-- What a pipe holds for its reader: the bytes of its buffers that are not empty, and whether they are
packets. -/
def messages (bs : List PipeBuffer) : List (List UInt8 × Bool) :=
  (bs.map fun b => (b.bytes, b.packet)).filter fun m => m.1 ≠ []

/-- The first `n` bytes, and what is left when they have been read: a packet ends the read and is lost as
a whole. -/
def readMessages : Nat → List (List UInt8 × Bool) → List UInt8 × List (List UInt8 × Bool)
  | _, [] => ([], [])
  | n, (bytes, packet) :: ms =>
    if n = 0 then ([], (bytes, packet) :: ms)
    else if packet then (bytes.take n, ms)
    else if n < bytes.length then (bytes.take n, (bytes.drop n, packet) :: ms)
    else (bytes ++ (readMessages (n - bytes.length) ms).1, (readMessages (n - bytes.length) ms).2)

end Rtfsc.Linux
