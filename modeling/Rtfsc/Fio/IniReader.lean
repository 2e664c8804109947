import Rtfsc.Fio.EntryPoints
import Rtfsc.Machine.Lines

/-!
# fio: the job file parser

`parse_jobs_ini` reads a file with two loops: the outer one looks for the line of a section, the inner
one takes its options up to the next `[` and then seeks back behind the last option. What the parser
makes of a section goes to `get_new_job` and `add_job`, whose answers come from outside.
-/

namespace Rtfsc.Fio

open Rtfsc.Machine

/-- What came of a section: the settings in `def_thread` behind a global one, a job with its settings
as `add_job` got them and what it returned, a job that was dropped, or no slot for one. -/
inductive Done
  | globalSettings (data : Vars Word)
  | added (name : CStr) (data : Vars Word) (ret : Int)
  | dropped (name : CStr)
  | noSlot (name : CStr)

/-- What the parser gets from outside: the engines, whether `get_new_job` has a slot, what `add_job`
returns, and whether `errno` is `ERANGE` behind it, all of it after what was done before. -/
structure IniEnv where
  loadIoengine : CStr → Option CStr
  room : List Done → Bool
  addJob : List Done → CStr → Vars Word → Int
  erange : List Done → Bool → Bool

/-- The state of the parser between two sections. -/
structure IniState where
  defThread : Vars Word
  erange : Bool
  stonewall : UInt32
  done : List Done

/-- `is_empty_or_comment`. -/
def isEmptyOrComment : CStr → Bool
  | [] => true
  | c :: line =>
    if c = ';' then true
    else if !isspace c && !iscntrl c then false
    else isEmptyOrComment line

/-- `strip_blank_front`: it moves its own copy of the pointer, and `*p` is never stored to. -/
def stripBlankFront (p : CStr) : CStr :=
  let _s := p.dropWhile isspace
  p

/-- `sscanf(p, "[%255s]", name)`. -/
def sscanfSection : CStr → Option CStr
  | '[' :: p =>
    let name := ((p.dropWhile isspace).takeWhile (!isspace ·)).take 255
    if name.isEmpty then none else some name
  | _ => none

/-- `parse_option` on the options of a job. -/
def parseJobOption (env : IniEnv) (text : CStr) (s : ParseState Word) :
    Outcome (Int × ParseState Word) :=
  parseOption nextWord (Callback.call env.loadIoengine) text options s

/-- The inner loop of `parse_jobs_ini`, with the position that was saved, whether an option was refused,
and the settings. -/
def optionLines (env : IniEnv) (text off : CStr) (bad : Bool) (s : ParseState Word) :
    Outcome (CStr × Bool × ParseState Word) :=
  match h : fgets 4096 text with
  | none => .ok (off, bad, s)
  | some (p, rest) =>
    have : rest.length < text.length := fgets_length (by decide) h
    if isEmptyOrComment p then optionLines env rest off bad s
    else
      let p := stripBlankFront p
      if p.head? = some '[' then .ok (off, bad, s)
      else
        match parseJobOption env (stripBlankEnd p) s with
        | .error e => .error e
        | .ok (r, s) => optionLines env rest rest (bad || r != 0) s
termination_by text.length

/-- `get_new_job`: the settings a section begins with. The first job of a file may have to wait for the
jobs before it. -/
def beginSection (env : IniEnv) (isGlobal : Bool) (st : IniState) : Option (Vars Word) :=
  if isGlobal then some st.defThread
  else if env.room st.done then
    some (if st.stonewall ≠ 0 then store32 (tdVarOffset .stonewall) st.stonewall st.defThread
      else st.defThread)
  else none

/-- The variables that are not members of a job: the last store to them stays. -/
def withGlobals (data defThread : Vars Word) : Vars Word := fun w =>
  if w.1 = .mlockSize ∨ w.1 = .exitallOnTerminate then data w else defThread w

/-- `add_job` on a section none of whose options was refused: what it returns. -/
def endSection (env : IniEnv) (isGlobal : Bool) (name : CStr) (s : ParseState Word) (st : IniState) :
    Int × IniState :=
  if isGlobal then
    (0, { st with
      defThread := s.data
      erange := s.erange
      done := st.done ++ [.globalSettings s.data] })
  else
    let ret := env.addJob st.done name s.data
    (ret, {
      defThread := withGlobals s.data st.defThread
      erange := env.erange st.done s.erange
      stonewall := 0
      done := st.done ++ [.added name s.data ret] })

variable {env : IniEnv} {text off p rest : CStr} {bad : Bool} {s : ParseState Word} {st : IniState}

theorem optionLines_eq (env : IniEnv) (off : CStr) (bad : Bool) (s : ParseState Word)
    (h : fgets 4096 text = some (p, rest)) :
    optionLines env text off bad s =
      if isEmptyOrComment p then optionLines env rest off bad s
      else if (stripBlankFront p).head? = some '[' then .ok (off, bad, s)
      else
        match parseJobOption env (stripBlankEnd (stripBlankFront p)) s with
        | .error e => .error e
        | .ok (r, s) => optionLines env rest rest (bad || r != 0) s := by
  rw [optionLines]
  split
  · next hnone =>
    rw [hnone] at h
    cases h
  · next p' rest' hsome =>
    rw [hsome] at h
    cases h
    rfl

theorem optionLines_end (h : fgets 4096 text = none) : optionLines env text off bad s = .ok (off, bad, s) := by
  rw [optionLines]
  split
  · rfl
  · next p' rest' hsome =>
    rw [hsome] at h
    cases h

/-- The position the inner loop saves is not in front of where it starts. -/
theorem optionLines_length {off' : CStr} {bad' : Bool} {s' : ParseState Word} {n : Nat}
    (htext : text.length ≤ n) (hoff : off.length ≤ n)
    (h : optionLines env text off bad s = .ok (off', bad', s')) : off'.length ≤ n := by
  induction hlen : text.length using Nat.strong_induction_on generalizing text off bad s with
  | _ len ih =>
    cases hget : fgets 4096 text with
    | none =>
      rw [optionLines_end hget] at h
      cases h
      exact hoff
    | some line =>
      obtain ⟨p, rest⟩ := line
      have hrest : rest.length < text.length := fgets_length (by decide) hget
      rw [optionLines_eq env off bad s hget] at h
      split at h
      · exact ih rest.length (by omega) (by omega) hoff h rfl
      · split at h
        · cases h
          exact hoff
        · split at h
          · cases h
          · exact ih rest.length (by omega) (by omega) (by omega) h rfl

/-- `parse_jobs_ini` on the text of a file: what came of its sections. -/
def parseJobsIni (env : IniEnv) (text : CStr) (st : IniState) : Outcome (List Done) :=
  match h : fgets 4095 text with
  | none => .ok st.done
  | some (p, rest) =>
    have hrest : rest.length < text.length := fgets_length (by decide) h
    if isEmptyOrComment p then parseJobsIni env rest st
    else
      match sscanfSection p with
      | none => parseJobsIni env rest st
      | some name =>
        let isGlobal := startsWith name "global".toList
        let name := name.dropLast
        match beginSection env isGlobal st with
        | none => .ok (st.done ++ [.noSlot name])
        | some td =>
          match hlines : optionLines env rest rest false ⟨td, st.erange⟩ with
          | .error e => .error e
          | .ok (off, bad, s) =>
            have : off.length < text.length :=
              Nat.lt_of_le_of_lt (optionLines_length (Nat.le_refl _) (Nat.le_refl _) hlines) hrest
            if bad then .ok (st.done ++ [.dropped name])
            else
              let (ret, st) := endSection env isGlobal name s st
              if ret = 0 then parseJobsIni env off st else .ok st.done
termination_by text.length

theorem parseJobsIni_end (h : fgets 4095 text = none) : parseJobsIni env text st = .ok st.done := by
  rw [parseJobsIni]
  split
  · rfl
  · next p' rest' hsome =>
    rw [hsome] at h
    cases h

/-- The outer loop skips what is no section. -/
theorem parseJobsIni_skips (env : IniEnv) (st : IniState) :
    Skips (fun text => parseJobsIni env text st) 4095 fun p => isEmptyOrComment p ∨ sscanfSection p = none := by
  intro text p rest hget hp
  dsimp only
  rw [parseJobsIni]
  split
  · next hnone =>
    rw [hnone] at hget
    cases hget
  · next p' rest' hsome =>
    rw [hsome] at hget
    cases hget
    split
    · rfl
    · next hempty =>
      rw [hp.resolve_left hempty]

/-- A section: its options, and then the file from behind the last of them on. -/
theorem parseJobsIni_section {name : CStr} (hget : fgets 4095 text = some (p, rest))
    (hp : isEmptyOrComment p = false) (hname : sscanfSection p = some name) :
    parseJobsIni env text st =
      match beginSection env (startsWith name "global".toList) st with
      | none => .ok (st.done ++ [.noSlot name.dropLast])
      | some td =>
        match optionLines env rest rest false ⟨td, st.erange⟩ with
        | .error e => .error e
        | .ok (off, bad, s) =>
          if bad then .ok (st.done ++ [.dropped name.dropLast])
          else
            let r := endSection env (startsWith name "global".toList) name.dropLast s st
            if r.1 = 0 then parseJobsIni env off r.2 else .ok r.2.done := by
  rw [parseJobsIni]
  split
  · next hnone =>
    rw [hnone] at hget
    cases hget
  · next p' rest' hsome =>
    rw [hsome] at hget
    cases hget
    rw [if_neg (by rw [hp]; decide), hname]
    dsimp only
    cases hnew : beginSection env (startsWith name "global".toList) st with
    | none => rfl
    | some td =>
      dsimp only
      split
      · next e he => rw [he]
      · next off bad s hs => rw [hs]

/-- The inner loop skips blank lines and comments. -/
theorem optionLines_skips (env : IniEnv) (off : CStr) (bad : Bool) (s : ParseState Word) :
    Skips (fun text => optionLines env text off bad s) 4096 fun p => isEmptyOrComment p = true := by
  intro text p rest hget hp
  dsimp only
  rw [optionLines_eq env off bad s hget, if_pos hp]

end Rtfsc.Fio
