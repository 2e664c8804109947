import Rtfsc.Fio.IoU

/-!
# fio: the lists of io pieces

`log.c` and `get_next_verify`: the iolog read at the start of a job, and the list of writes that
verification reads back. A line of an iolog is what `sscanf` makes of it: direction, offset and
length, or nothing when the line is malformed.
-/

namespace Rtfsc.Fio

open Rtfsc.Machine

/-- A line of an iolog, once scanned. -/
abbrev IologLine := Option (Int × UInt64 × UInt32)

/-- The data direction with this number. -/
def ddirOfInt (rw : Int) : Option DataDdir :=
  if rw = 0 then some .read else if rw = 1 then some .write else none

/-- The lines of an iolog that `init_iolog_read` keeps, as pieces. -/
def iologPieces (lines : List IologLine) : List IoPiece :=
  lines.filterMap fun line =>
    line.bind fun (rw, offset, bytes) =>
      (ddirOfInt rw).map fun d => ⟨none, offset, bytes, d⟩

/-- `init_iolog_read` on one piece: the largest block of its direction grows with it. -/
def initIologPiece (td : ThreadData) (p : IoPiece) : ThreadData :=
  { td with
    opts := { td.opts with
      maxBs := if td.opts.maxBs.get p.ddir < p.len then td.opts.maxBs.set p.ddir p.len
        else td.opts.maxBs }
    ioLogList := td.ioLogList ++ [p] }

/-- `init_iolog_read`; `false` is a non-zero return. -/
def initIologRead (td : ThreadData) (lines : List IologLine) : Bool × ThreadData :=
  let pieces := iologPieces lines
  let td := pieces.foldl initIologPiece td
  let reads := pieces.any fun p => p.ddir == .read
  let writes := pieces.any fun p => p.ddir == .write
  if !reads && !writes then (false, td)
  else if reads && writes then (true, { td with opts := { td.opts with iomix := true } })
  else (true, { td with opts := { td.opts with ddir := .read } })

/-- Insert behind the last piece with a smaller offset. -/
def insertPiece (p : IoPiece) (l : List IoPiece) : List IoPiece :=
  let larger := fun q : IoPiece => !(q.offset < p.offset)
  (l.reverse.dropWhile larger).reverse ++ p :: (l.reverse.takeWhile larger).reverse

/-- `log_io_piece`. The direction of the piece is not set, and nobody reads it. -/
def logIoPiece (td : ThreadData) (u : IoU) : ThreadData :=
  let p : IoPiece := ⟨u.file, u.offset, u.buflen, .write⟩
  { td with
    ioHistList := if td.opts.sequential || !td.opts.overwrite then td.ioHistList ++ [p]
      else insertPiece p td.ioHistList }

/-- `prune_io_piece_log`. -/
def pruneIoPieceLog (td : ThreadData) : ThreadData := { td with ioHistList := [] }

/-- `get_next_verify`; `false` is a non-zero return. -/
def getNextVerify (td : ThreadData) (u : IoU) : Bool × IoU × ThreadData :=
  match td.ioHistList with
  | [] => (false, u, td)
  | p :: rest =>
    (true, { u with offset := p.offset, buflen := p.len, ddir := .data .read },
      { td with ioHistList := rest })

theorem mem_insertPiece {p q : IoPiece} {l : List IoPiece} (h : q ∈ insertPiece p l) :
    q = p ∨ q ∈ l := by
  simp only [insertPiece, List.mem_append, List.mem_reverse, List.mem_cons] at h
  rcases h with h | rfl | h
  · exact .inr (List.mem_reverse.mp ((List.dropWhile_suffix _).subset h))
  · exact .inl rfl
  · exact .inr (List.mem_reverse.mp ((List.takeWhile_prefix _).subset h))

end Rtfsc.Fio
