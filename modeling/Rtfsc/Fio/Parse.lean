import Rtfsc.Machine.CString
import Mathlib.Logic.Function.Basic

/-!
# fio: the option parser

`parse.c`. An option names the variables it stores to by their offsets. A variable is addressed by
words of four bytes: `next` is the word behind a word, where a store of eight bytes puts its upper
half. The functions behind callbacks are not part of `parse.c`; they are called by name.
-/

namespace Rtfsc.Fio

open Rtfsc.Machine

/-- What a word holds, or what the pointer that is stored there points to. -/
inductive CVal
  | word (v : UInt32)
  | text (s : Option CStr)
deriving DecidableEq, Repr

/-- The memory options are stored to. -/
abbrev Vars (ω : Type) := ω → CVal

/-- `enum fio_opt_type`. -/
inductive FioOptType
  | str
  | strVal
  | strValInt
  | strValTime
  | strStore
  | range
  | int
  | strSet
deriving DecidableEq, Repr

/-- `struct fio_option`. The offset 0 as `off2`, `off3` or `off4` means that there is none, and a
`maxVal` of 0 that there is no maximum. `κ` names the callbacks. -/
structure FioOption (ω κ : Type) where
  name : CStr
  type : FioOptType
  off1 : ω
  off2 : ω
  off3 : ω
  off4 : ω
  maxVal : UInt32
  cb : Option κ
deriving DecidableEq

/-- What a callback is called with besides the data. -/
inductive CbArg
  | str (s : CStr)
  | val (v : UInt64)
  | int (v : UInt32)
  | none

/-- The state of the parser: the data, and whether `errno` is `ERANGE`. -/
structure ParseState (ω : Type) where
  data : Vars ω
  erange : Bool

/-- `get_mult_time`. -/
def getMultTime (c : Char) : UInt64 :=
  if c = 'm' ∨ c = 'M' then 60
  else if c = 'h' ∨ c = 'H' then 60 * 60
  else if c = 'd' ∨ c = 'D' then 24 * 60 * 60
  else 1

/-- `get_mult_bytes`. -/
def getMultBytes (c : Char) : UInt64 :=
  if c = 'k' ∨ c = 'K' then 1024
  else if c = 'm' ∨ c = 'M' then 1024 * 1024
  else if c = 'g' ∨ c = 'G' then 1024 * 1024 * 1024
  else 1

/-- `str_to_decimal`: the value, unless it is refused, and whether `errno` is now `ERANGE`. -/
def strToDecimal (str : CStr) (erange kilo : Bool) : Option UInt64 × Bool :=
  match str.getLast? with
  | none => (none, erange)
  | some last =>
    let (v, e) := strtoul str
    let erange := erange || e
    if v = ulongMax ∧ erange then (none, erange)
    else (some (v * if kilo then getMultBytes last else getMultTime last), erange)

/-- `check_range_bytes`. The second `sscanf` reads what the first has read without a suffix. -/
def checkRangeBytes (str : CStr) : Option UInt64 × Bool :=
  match sscanfUlChar str with
  | none => (none, false)
  | some (v, some suffix, e) => (some (v * getMultBytes suffix), e)
  | some (v, none, e) => (some v, e)

/-- `check_int`. -/
def checkInt (p : CStr) : Option UInt32 × Bool :=
  match sscanfUint p with
  | none => (none, false)
  | some (v, e) => (some v, e)

/-- A value is cut to the maximum of its option. -/
def FioOption.clamp {ω κ : Type} (o : FioOption ω κ) (v : UInt64) : UInt64 :=
  if o.maxVal ≠ 0 ∧ v > o.maxVal.toUInt64 then o.maxVal.toUInt64 else v

section

variable {ω κ : Type} [DecidableEq ω] [Zero ω]

/-- `val_store` to an `unsigned int`. -/
def store32 (off : ω) (v : UInt32) (data : Vars ω) : Vars ω := Function.update data off (.word v)

/-- `val_store` to an `unsigned long long`. -/
def store64 (next : ω → ω) (off : ω) (v : UInt64) (data : Vars ω) : Vars ω :=
  store32 (next off) (v >>> 32).toUInt32 (store32 off v.toUInt32 data)

/-- A pointer to a copy of `s`. -/
def storeText (off : ω) (s : CStr) (data : Vars ω) : Vars ω :=
  Function.update data off (.text (some s))

/-- The stores of `__handle_option` for an option with one variable for each part: the first part
goes to the first one, and the last part to the second one. -/
def storeParts (o : FioOption ω κ) (first more : Bool) (store : ω → Vars ω → Vars ω)
    (data : Vars ω) : Vars ω :=
  let data := if first then store o.off1 data else data
  if !more ∧ o.off2 ≠ 0 then store o.off2 data else data

/-- The stores of `__handle_option` for a range. -/
def storeRange (o : FioOption ω κ) (first more : Bool) (ul1 ul2 : UInt64) (data : Vars ω) :
    Vars ω :=
  let data :=
    if first then store32 o.off2 ul2.toUInt32 (store32 o.off1 ul1.toUInt32 data) else data
  if !more ∧ o.off3 ≠ 0 ∧ o.off4 ≠ 0 then
    store32 o.off4 ul2.toUInt32 (store32 o.off3 ul1.toUInt32 data)
  else data

/-- `FIO_OPT_RANGE` of `__handle_option`: the two ends of a range, in order. -/
def readRange (ptr : CStr) (erange : Bool) : Outcome (Option (UInt64 × UInt64) × Bool) := do
  let tmp ← strncpy ptr 127
  match strchr tmp '-' with
  | none => return (none, erange)
  | some (p1, p2) =>
    let (ul1, e1) := checkRangeBytes p1
    match ul1 with
    | none => return (none, erange || e1)
    | some ul1 =>
      let (ul2, e2) := checkRangeBytes p2
      match ul2 with
      | none => return (none, erange || e1 || e2)
      | some ul2 =>
        return (some (if ul1 > ul2 then (ul2, ul1) else (ul1, ul2)), erange || e1 || e2)

variable (next : ω → ω) (call : κ → CbArg → Vars ω → Int × Vars ω)

/-- `__handle_option`. -/
def handleOptionPart (o : FioOption ω κ) (ptr : Option CStr) (first more : Bool)
    (s : ParseState ω) : Outcome (Int × ParseState ω) :=
  match o.type, ptr with
  | .strSet, _ =>
    match o.cb with
    | some fn =>
      let (ret, data) := call fn .none s.data
      .ok (ret, { s with data := data })
    | none => .ok (0, { s with data := storeParts o first more (store32 · 1) s.data })
  | _, none => .ok (1, s)
  | .str, some ptr =>
    match o.cb with
    | some fn =>
      let (ret, data) := call fn (.str ptr) s.data
      .ok (ret, { s with data := data })
    | none => .error .nullPointer
  | .strStore, some ptr => .ok (0, { s with data := storeText o.off1 ptr s.data })
  | .range, some ptr => do
    let (ends, erange) ← readRange ptr s.erange
    match ends with
    | none => return (1, { s with erange := erange })
    | some (ul1, ul2) =>
      return (0, ⟨storeRange o first more ul1 ul2 s.data, erange⟩)
  | .int, some ptr =>
    let (il, e) := checkInt ptr
    let s := { s with erange := s.erange || e }
    match il with
    | none => .ok (1, s)
    | some il =>
      let il := (o.clamp il.toUInt64).toUInt32
      match o.cb with
      | some fn =>
        let (ret, data) := call fn (.int il) s.data
        .ok (ret, { s with data := data })
      | none => .ok (0, { s with data := storeParts o first more (store32 · il) s.data })
  | type, some ptr =>
    let (ull, erange) := strToDecimal ptr s.erange (type != .strValTime)
    let s := { s with erange := erange }
    match ull with
    | none => .ok (1, s)
    | some ull =>
      let ull := o.clamp ull
      match o.cb with
      | some fn =>
        let (ret, data) := call fn (.val ull) s.data
        .ok (ret, { s with data := data })
      | none =>
        let store := if type = .strValInt then (store32 · ull.toUInt32) else (store64 next · ull)
        .ok (0, { s with data := storeParts o first more store s.data })

/-- `handle_option`. -/
def handleOption (o : FioOption ω κ) (ptr : Option CStr) (s : ParseState ω) :
    Outcome (Int × ParseState ω) := do
  match ptr.bind (strchr · ',') with
  | none => handleOptionPart next call o ptr true false s
  | some (_, ptr2) => do
    let (r1, s) ← handleOptionPart next call o ptr true true s
    let (r2, s) ← handleOptionPart next call o (some ptr2) false false s
    return (if r1 ≠ 0 ∧ r2 ≠ 0 then 1 else 0, s)

/-- `find_option`. -/
def findOption (options : List (FioOption ω κ)) (opt : CStr) : Option (FioOption ω κ) :=
  options.find? (·.name == opt)

/-- `parse_cmd_option`. -/
def parseCmdOption (opt : CStr) (val : Option CStr) (options : List (FioOption ω κ))
    (s : ParseState ω) : Outcome (Int × ParseState ω) :=
  match findOption options opt with
  | none => .ok (1, s)
  | some o => do
    let (r, s) ← handleOption next call o val s
    return (if r = 0 then 0 else 1, s)

/-- `parse_option`. -/
def parseOption (opt : CStr) (options : List (FioOption ω κ)) (s : ParseState ω) :
    Outcome (Int × ParseState ω) := do
  let tmp ← strncpy opt 63
  let (pre, post) :=
    match strchr tmp '=' with
    | some (pre, post) => (pre, some post)
    | none => (tmp, none)
  match findOption options pre with
  | none => return (1, s)
  | some o => do
    let (r, s) ← handleOption next call o post s
    return (if r = 0 then 0 else 1, s)

end

end Rtfsc.Fio
