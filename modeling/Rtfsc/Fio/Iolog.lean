import Rtfsc.Machine.CString
import Rtfsc.Fio.Log

/-!
# fio: the text of an iolog

What `write_iolog_put` prints and what `fgets` and `sscanf` in `init_iolog_read` read. Every line
that was printed is read back as it was, whatever its numbers are.
-/

namespace Rtfsc.Fio

open Rtfsc.Machine

/-- What is recorded of an io unit: direction, offset and length. -/
abbrev IologEntry := FioDdir × UInt64 × UInt32

/-- The numbers of `enum fio_ddir`. -/
def FioDdir.number : FioDdir → Nat
  | .data .read => 0
  | .data .write => 1
  | .sync => 2

/-- `fprintf(td->iolog_f, "%u,%llu,%u\n", ..)`. -/
def iologLine (e : IologEntry) : CStr :=
  Nat.toDigits 10 e.1.number ++ ',' :: (Nat.toDigits 10 e.2.1.toNat ++
    ',' :: (Nat.toDigits 10 e.2.2.toNat ++ ['\n']))

/-- The file that `write_iolog_put` leaves. -/
def iologText (log : List IologEntry) : CStr := log.flatMap iologLine

/-- `fgets` with room for `n` characters before the NUL: the line, with its newline when there was
room for it, and what is left of the file. -/
def fgetsLine : Nat → CStr → CStr × CStr
  | 0, s => ([], s)
  | _ + 1, [] => ([], [])
  | n + 1, c :: s =>
    if c = '\n' then ([c], s)
    else
      let (line, rest) := fgetsLine n s
      (c :: line, rest)

theorem fgetsLine_append (n : Nat) (s : CStr) : (fgetsLine n s).1 ++ (fgetsLine n s).2 = s := by
  induction n generalizing s with
  | zero => rfl
  | succ n ih =>
    cases s with
    | nil => rfl
    | cons c s =>
      rw [fgetsLine]
      split
      · rfl
      · exact congrArg (c :: ·) (ih s)

theorem fgetsLine_rest_lt (n : Nat) (c : Char) (s : CStr) :
    (fgetsLine (n + 1) (c :: s)).2.length < (c :: s).length := by
  rw [fgetsLine]
  split
  · exact Nat.lt_succ_self _
  · have happend := congrArg List.length (fgetsLine_append n s)
    rw [List.length_append] at happend
    rw [List.length_cons]
    dsimp only
    omega

/-- `fgets(str, 4096, f)` until the end of the file. -/
def fgetsLines (s : CStr) : List CStr :=
  match s with
  | [] => []
  | c :: s => (fgetsLine 4095 (c :: s)).1 :: fgetsLines (fgetsLine 4095 (c :: s)).2
termination_by s.length
decreasing_by exact fgetsLine_rest_lt ..

/-- `%d`: a `long` in base 10, made an `int`, and the text behind it. -/
def scanInt (s : CStr) : Option (Int32 × CStr) :=
  let (neg, s) := scanSign (s.dropWhile isspace)
  let ds := s.takeWhile Char.isDigit
  let n : Int := if neg then -(decimal ds : Int) else decimal ds
  let n := max Int64.minValue.toInt (min Int64.maxValue.toInt n)
  if ds = [] then none else some (Int32.ofInt n, s.dropWhile Char.isDigit)

/-- `sscanf(p, "%d,%llu,%u", ..)`; `none` when it does not return 3. -/
def scanIologLine (s : CStr) : IologLine :=
  match scanInt s with
  | some (rw, ',' :: s) =>
    match scanUl s with
    | some (offset, _, ',' :: s) =>
      (scanUl s).map fun (bytes, _, _) => (rw.toInt, offset, bytes.toUInt32)
    | _ => none
  | _ => none

/-- The lines of the file, scanned. -/
def scanIolog (text : CStr) : List IologLine := (fgetsLines text).map scanIologLine

/-! ## Printed lines are read back -/

/-- A line that fits into the buffer is read whole. -/
theorem fgetsLine_newline {line : CStr} (rest : CStr) {n : Nat} (hline : '\n' ∉ line)
    (hn : line.length < n) :
    fgetsLine n (line ++ '\n' :: rest) = (line ++ ['\n'], rest) := by
  induction line generalizing n with
  | nil =>
    obtain ⟨n, rfl⟩ := Nat.exists_eq_succ_of_ne_zero (Nat.ne_of_gt hn)
    rfl
  | cons c line ih =>
    obtain ⟨n, rfl⟩ := Nat.exists_eq_succ_of_ne_zero (Nat.ne_of_gt (Nat.zero_lt_of_lt hn))
    have hc : c ≠ '\n' := fun h => hline (h ▸ List.mem_cons_self)
    have htail : '\n' ∉ line := fun h => hline (List.mem_cons_of_mem _ h)
    rw [List.cons_append, fgetsLine, if_neg hc, ih htail (Nat.lt_of_succ_lt_succ hn)]
    rfl

theorem fgetsLines_newline {line rest : CStr} (hline : '\n' ∉ line) (hn : line.length < 4095) :
    fgetsLines (line ++ '\n' :: rest) = (line ++ ['\n']) :: fgetsLines rest := by
  obtain ⟨c, s, hcons⟩ : ∃ c s, line ++ '\n' :: rest = c :: s := by
    cases line with
    | nil => exact ⟨_, _, rfl⟩
    | cons c line => exact ⟨_, _, rfl⟩
  have hget := fgetsLine_newline rest hline hn
  rw [hcons] at hget ⊢
  rw [fgetsLines, hget]

theorem length_toDigits {n : Nat} (h : n < 10 ^ 20) : (Nat.toDigits 10 n).length ≤ 20 :=
  (Nat.length_toDigits_le_iff (by decide) (by decide)).mpr h

/-- What is printed of an io unit in front of the newline. -/
theorem iologLine_eq (e : IologEntry) :
    ∃ line, iologLine e = line ++ ['\n'] ∧ '\n' ∉ line ∧ line.length < 4095 := by
  have hdigits (n : Nat) : '\n' ∉ Nat.toDigits 10 n := by
    intro h
    exact absurd (isDigit_of_mem_toDigits _ h) (by decide)
  refine ⟨Nat.toDigits 10 e.1.number ++ ',' :: (Nat.toDigits 10 e.2.1.toNat ++
    ',' :: Nat.toDigits 10 e.2.2.toNat), ?_, ?_, ?_⟩
  · simp [iologLine]
  · simp [hdigits]
  · have hddir : (Nat.toDigits 10 e.1.number).length ≤ 20 := by
      apply length_toDigits
      cases e.1 with
      | data d => cases d <;> decide
      | sync => decide
    have hoffset := length_toDigits (Nat.lt_trans e.2.1.toNat_lt (by decide))
    have hlen := length_toDigits (Nat.lt_trans e.2.2.toNat_lt (by decide))
    simp only [List.length_append, List.length_cons]
    omega

theorem fgetsLines_iologText (log : List IologEntry) :
    fgetsLines (iologText log) = log.map iologLine := by
  induction log with
  | nil =>
    rw [iologText, List.flatMap_nil, fgetsLines]
    rfl
  | cons e log ih =>
    obtain ⟨line, hline, hnl, hlen⟩ := iologLine_eq e
    have htext : iologText (e :: log) = line ++ '\n' :: iologText log := by
      show iologLine e ++ iologText log = _
      rw [hline, List.append_assoc]
      rfl
    rw [htext, fgetsLines_newline hnl hlen, ih, List.map_cons, hline]

theorem scanInt_digits {ds rest : CStr} (hne : ds ≠ []) (hd : ∀ c ∈ ds, c.isDigit = true)
    (hr : NoDigitHead rest) (hlt : decimal ds < 2 ^ 31) :
    scanInt (ds ++ rest) = some (Int32.ofInt (decimal ds), rest) := by
  obtain ⟨htake, hdrop⟩ := takeWhile_digits hd hr
  obtain ⟨c, ds', rfl⟩ := List.exists_cons_of_ne_nil hne
  have hc := not_isspace_of_isDigit (hd c (List.mem_cons_self ..))
  have hmax : Int64.maxValue.toInt = 2 ^ 63 - 1 := by decide
  have hmin : Int64.minValue.toInt = -2 ^ 63 := by decide
  unfold scanInt
  rw [List.cons_append, List.dropWhile_cons_of_neg (by rw [hc.1]; decide), scanSign_cons hc.2,
    ← List.cons_append]
  dsimp only
  rw [htake, hdrop, if_neg hne, if_neg (by decide), hmax, hmin, min_eq_right (by omega),
    max_eq_right (by omega)]

/-- A printed line is scanned as it was printed. -/
theorem scanIologLine_iologLine (e : IologEntry) :
    scanIologLine (iologLine e) = some ((e.1.number : Int), e.2.1, e.2.2) := by
  have hcomma (rest : CStr) : NoDigitHead (',' :: rest) := noDigitHead_cons (by decide)
  have hsmall : decimal (Nat.toDigits 10 e.1.number) < 2 ^ 31 := by
    rw [decimal_toDigits]
    cases e.1 with
    | data d => cases d <;> decide
    | sync => decide
  have hddir : (Int32.ofInt (e.1.number : Int)).toInt = e.1.number := by
    cases e.1 with
    | data d => cases d <;> decide
    | sync => decide
  have hrw : scanInt (iologLine e) = some (Int32.ofInt e.1.number, ',' :: (Nat.toDigits 10
      e.2.1.toNat ++ ',' :: (Nat.toDigits 10 e.2.2.toNat ++ ['\n']))) := by
    rw [iologLine, scanInt_digits Nat.toDigits_ne_nil isDigit_of_mem_toDigits (hcomma _) hsmall,
      decimal_toDigits]
  have hoffset : scanUl (Nat.toDigits 10 e.2.1.toNat ++ ',' :: (Nat.toDigits 10 e.2.2.toNat ++
      ['\n'])) = some (e.2.1, false, ',' :: (Nat.toDigits 10 e.2.2.toNat ++ ['\n'])) := by
    rw [scanUl_digits Nat.toDigits_ne_nil isDigit_of_mem_toDigits (hcomma _), decimal_toDigits,
      if_pos e.2.1.toNat_lt, UInt64.ofNat_toNat]
  have hbytes : scanUl (Nat.toDigits 10 e.2.2.toNat ++ ['\n']) =
      some (UInt64.ofNat e.2.2.toNat, false, ['\n']) := by
    rw [scanUl_digits Nat.toDigits_ne_nil isDigit_of_mem_toDigits (noDigitHead_cons (by decide)),
      decimal_toDigits, if_pos (Nat.lt_trans e.2.2.toNat_lt (by decide))]
  simp [scanIologLine, hrw, hoffset, hbytes, hddir]

/-- What was printed is what `init_iolog_read` scans. -/
theorem scanIolog_iologText (log : List IologEntry) :
    scanIolog (iologText log) = log.map fun e => some ((e.1.number : Int), e.2.1, e.2.2) := by
  rw [scanIolog, fgetsLines_iologText, List.map_map]
  exact List.map_congr_left fun e _ => scanIologLine_iologLine e

/-! ## Replay -/

/-- Calls of `read_iolog_get`, each for the next of some units, until one returns non-zero: what
they put into the units. -/
def replayIolog : List IoU → ThreadData → List IologEntry
  | [], _ => []
  | u :: us, td =>
    match readIologGet td u with
    | (true, u, td) => (u.ddir, u.offset, u.buflen) :: replayIolog us td
    | (false, _, _) => []

/-- The record of a piece. -/
def IoPiece.entry (p : IoPiece) : IologEntry := (.data p.ddir, p.offset, p.len)

theorem replayIolog_eq {us : List IoU} {td : ThreadData} (h : td.ioLogList.length ≤ us.length) :
    replayIolog us td = td.ioLogList.map IoPiece.entry := by
  induction us generalizing td with
  | nil =>
    rw [List.eq_nil_of_length_eq_zero (Nat.le_zero.mp h)]
    rfl
  | cons u us ih =>
    cases hlog : td.ioLogList with
    | nil => simp [replayIolog, readIologGet, hlog]
    | cons p rest =>
      rw [hlog] at h
      simp only [replayIolog, readIologGet, hlog, List.map_cons]
      rw [ih (Nat.le_of_succ_le_succ h)]
      rfl

/-- The pieces that come back from a log of transfers. -/
theorem iologPieces_iologText {log : List IologEntry} (h : ∀ e ∈ log, e.1 ≠ .sync) :
    (iologPieces (scanIolog (iologText log))).map IoPiece.entry = log := by
  rw [scanIolog_iologText]
  induction log with
  | nil => rfl
  | cons e log ih =>
    obtain ⟨d, offset, len⟩ := e
    have htail := ih fun e he => h e (List.mem_cons_of_mem _ he)
    cases d with
    | sync => exact absurd rfl (h _ List.mem_cons_self)
    | data d =>
      have hhead : ddirOfInt (FioDdir.data d).number = some d := by cases d <;> rfl
      simp only [iologPieces, List.map_cons, List.filterMap_cons, Option.bind_some, hhead,
        Option.map_some] at htail ⊢
      rw [htail]
      rfl

theorem foldl_initIologPiece (pieces : List IoPiece) (td : ThreadData) :
    (pieces.foldl initIologPiece td).ioLogList = td.ioLogList ++ pieces ∧
      (pieces.foldl initIologPiece td).opts.iomix = td.opts.iomix := by
  induction pieces generalizing td with
  | nil => exact ⟨(List.append_nil _).symm, rfl⟩
  | cons p pieces ih =>
    obtain ⟨hlist, hmix⟩ := ih (initIologPiece td p)
    rw [List.foldl_cons, hlist, hmix]
    exact ⟨List.append_assoc .., rfl⟩

/-- The direction of the options is that of the transfers: both, only reads or only writes. -/
def MixMatches (o : Options) (issued : List IologEntry) : Prop :=
  let reads := issued.any fun e => e.1 == .data .read
  let writes := issued.any fun e => e.1 == .data .write
  if reads && writes then tdRw o
  else if reads then tdRead o && !tdRw o
  else tdWrite o && !tdRw o

/-- A job that reads the iolog back gets the units that were issued, and their direction. -/
def ReadsBack (reader : ThreadData) (log issued : List IologEntry) : Prop :=
  let read := initIologRead reader (scanIolog (iologText log))
  read.1 = true ∧ (∀ us : List IoU, issued.length ≤ us.length → replayIolog us read.2 = issued) ∧
    MixMatches read.2.opts issued

/-- What is replayed from its pieces is the log. -/
theorem replayIolog_pieces {log : List IologEntry}
    (h : ∀ e ∈ log, e.1 ≠ .sync) {td : ThreadData} {us : List IoU}
    (htd : td.ioLogList = iologPieces (scanIolog (iologText log)))
    (hlen : log.length ≤ us.length) : replayIolog us td = log := by
  have hpieces := iologPieces_iologText h
  have hcount : td.ioLogList.length = log.length := by
    rw [htd, ← List.length_map (f := IoPiece.entry), hpieces]
  rw [replayIolog_eq (by rw [hcount]; exact hlen), htd, hpieces]

theorem any_iologPieces {log : List IologEntry} (h : ∀ e ∈ log, e.1 ≠ .sync) (d : DataDdir) :
    ((iologPieces (scanIolog (iologText log))).any fun p => p.ddir == d) =
      log.any fun e => e.1 == .data d := by
  have hentry : (fun p : IoPiece => p.ddir == d) =
      (fun e : IologEntry => e.1 == .data d) ∘ IoPiece.entry := by
    funext p
    cases hp : p.ddir <;> cases d <;> simp [IoPiece.entry, hp]
  rw [hentry, ← List.any_map, iologPieces_iologText h]

/-- The pieces of the log are the list of the job that reads it, whatever its direction becomes. -/
theorem initIologRead_ioLogList (reader : ThreadData) (lines : List IologLine)
    (hempty : reader.ioLogList = []) :
    (initIologRead reader lines).2.ioLogList = iologPieces lines := by
  have hlist := (foldl_initIologPiece (iologPieces lines) reader).1
  rw [hempty, List.nil_append] at hlist
  unfold initIologRead
  dsimp only
  split
  · exact hlist
  · split <;> exact hlist

/-- Nothing but the log itself comes back from it. -/
theorem ReadsBack.log_eq {reader : ThreadData} {log issued : List IologEntry}
    (hback : ReadsBack reader log issued) (h : ∀ e ∈ log, e.1 ≠ .sync)
    (hempty : reader.ioLogList = []) : log = issued := by
  let us : List IoU := List.replicate (log.length + issued.length)
    { buflen := 0, offset := 0, resid := 0, error := 0, ddir := .sync, file := none }
  have hus : us.length = log.length + issued.length := List.length_replicate
  rw [← hback.2.1 us (by omega)]
  exact (replayIolog_pieces h (initIologRead_ioLogList reader _ hempty) (by omega)).symm

/-- `init_iolog_read` succeeds and takes the direction of the log over if and only if a read is in
it, and a write too unless the job was not a mixed one before. -/
theorem initIologRead_mixMatches {reader : ThreadData} {log : List IologEntry}
    (h : ∀ e ∈ log, e.1 ≠ .sync) :
    ((initIologRead reader (scanIolog (iologText log))).1 = true ∧
        MixMatches (initIologRead reader (scanIolog (iologText log))).2.opts log) ↔
      (∃ e ∈ log, e.1 = .data .read) ∧
        ((∃ e ∈ log, e.1 = .data .write) ∨ reader.opts.iomix = false) := by
  have hmix := (foldl_initIologPiece (iologPieces (scanIolog (iologText log))) reader).2
  have hexists (d : DataDdir) :
      (log.any fun e => e.1 == .data d) = true ↔ ∃ e ∈ log, e.1 = .data d := by
    simp
  rw [← hexists, ← hexists, ← hmix]
  unfold MixMatches initIologRead
  dsimp only
  rw [any_iologPieces h, any_iologPieces h]
  cases log.any fun e => e.1 == .data .read with
  | false =>
    cases log.any fun e => e.1 == .data .write with
    | false => simp
    | true => simp [tdWrite]
  | true =>
    cases log.any fun e => e.1 == .data .write with
    | false => simp [tdRead, tdRw]
    | true => simp [tdRw]

/-- The same for all that is read back of a log of transfers. -/
theorem readsBack_iff {reader : ThreadData} {log : List IologEntry} (h : ∀ e ∈ log, e.1 ≠ .sync)
    (hempty : reader.ioLogList = []) :
    ReadsBack reader log log ↔
      (∃ e ∈ log, e.1 = .data .read) ∧
        ((∃ e ∈ log, e.1 = .data .write) ∨ reader.opts.iomix = false) := by
  have hreplay : ∀ us : List IoU, log.length ≤ us.length →
      replayIolog us (initIologRead reader (scanIolog (iologText log))).2 = log :=
    fun us => replayIolog_pieces h (initIologRead_ioLogList reader _ hempty)
  rw [← initIologRead_mixMatches h]
  exact ⟨fun hback => ⟨hback.1, hback.2.2⟩, fun hmatch => ⟨hmatch.1, hreplay, hmatch.2⟩⟩

end Rtfsc.Fio
