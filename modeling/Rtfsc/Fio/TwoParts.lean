import Rtfsc.Fio.Parse
import Mathlib.Tactic.Ring

/-!
# fio: arguments of two parts

An argument `x,y` of an option with two slots means `x` for the first and `y` for the second, and
an argument `x` means `x` for both. The parser hands the whole text to the number readers, so what
it stores agrees with that only where the end of `y` does not change the reading of `x`.
-/

namespace Rtfsc.Fio

open Rtfsc.Machine

/-! ## The grammar -/

/-- The suffixes of a `siint`. -/
def siUnit (c : Char) : Option Nat :=
  if c = 'k' then some 1024 else if c = 'm' then some (1024 * 1024)
  else if c = 'g' then some (1024 * 1024 * 1024) else none

/-- The suffixes of a time. -/
def timeUnit (c : Char) : Option Nat :=
  if c = 'm' then some 60 else if c = 'h' then some (60 * 60)
  else if c = 'd' then some (24 * 60 * 60) else none

/-- The suffixes of the arguments of an option. -/
def FioOptType.unit : FioOptType → Char → Option Nat
  | strValTime => timeUnit
  | _ => siUnit

/-- Decimal digits with a suffix or none. -/
structure Number (unit : Char → Option Nat) where
  digits : CStr
  suffix : Option Char
  nonempty : digits ≠ []
  isDigits : ∀ c ∈ digits, c.isDigit = true
  known : ∀ c, suffix = some c → (unit c).isSome

namespace Number

variable {unit : Char → Option Nat}

def text (x : Number unit) : CStr := x.digits ++ x.suffix.toList

/-- The number in front of the suffix. -/
def num (x : Number unit) : Nat := decimal x.digits

/-- What the suffix multiplies it with. -/
def mult (x : Number unit) : Nat := (x.suffix.bind unit).getD 1

def value (x : Number unit) : Nat := x.num * x.mult

end Number

/-- A range `lo-hi`. -/
structure Range where
  lo : Number (FioOptType.unit .range)
  hi : Number (FioOptType.unit .range)

def Range.text (r : Range) : CStr := r.lo.text ++ '-' :: r.hi.text

/-- An argument `x` or `x,y`, where `x` may be empty in front of the comma. -/
inductive Arg (α : Type)
  | one (x : α)
  | two (x : Option α) (y : α)

def Arg.text {α : Type} (text : α → CStr) : Arg α → CStr
  | one x => text x
  | two x y => (x.map text).getD [] ++ ',' :: text y

/-- What an argument means for the first slot, when that holds `old`. -/
def Arg.first {α β : Type} (value : α → β) (old : β) : Arg α → β
  | one x => value x
  | two x _ => (x.map value).getD old

/-- What an argument means for the second slot. -/
def Arg.second {α β : Type} (value : α → β) : Arg α → β
  | one x => value x
  | two _ y => value y

/-! ## Slots -/

section

variable {ω κ : Type} [DecidableEq ω] [Zero ω]

/-- The types of options whose parts are single numbers. -/
def FioOptType.single : FioOptType → Bool
  | strVal | strValInt | strValTime | int => true
  | _ => false

/-- The types of options that are stored in eight bytes. -/
def FioOptType.wide : FioOptType → Bool
  | strVal | strValTime => true
  | _ => false

/-- The number in a word. -/
def getWord (data : Vars ω) (off : ω) : Nat :=
  match data off with
  | .word v => v.toNat
  | .text _ => 0

/-- The number in the slot of an option. -/
def getSlot (next : ω → ω) (type : FioOptType) (data : Vars ω) (off : ω) : Nat :=
  if type.wide then getWord data off + 2 ^ 32 * getWord data (next off) else getWord data off

/-- Two slots that do not overlap. -/
structure Apart (next : ω → ω) (type : FioOptType) (off off' : ω) : Prop where
  ne : off ≠ off'
  wide : type.wide = true → off ≠ next off' ∧ next off ≠ off' ∧ next off ≠ next off'

omit [DecidableEq ω] [Zero ω] in
theorem Apart.symm {next : ω → ω} {type : FioOptType} {off off' : ω}
    (h : Apart next type off off') : Apart next type off' off :=
  ⟨h.ne.symm, fun hw => ⟨(h.wide hw).2.1.symm, (h.wide hw).1.symm, (h.wide hw).2.2.symm⟩⟩

/-- An option with two slots that do not overlap. -/
structure TwoSlots (next : ω → ω) (o : FioOption ω κ) : Prop where
  given : o.off2 ≠ 0
  pairs : o.type.wide = true → next o.off1 ≠ o.off1 ∧ next o.off2 ≠ o.off2
  apart : Apart next o.type o.off1 o.off2

/-- What a part of an option with one number a part is read as: the number with the multiplier of
the last character of the text. -/
def readNumber (type : FioOptType) (ptr : CStr) (erange : Bool) : Option UInt64 × Bool :=
  match type with
  | .int => ((checkInt ptr).1.map (·.toUInt64), erange || (checkInt ptr).2)
  | type => strToDecimal ptr erange (type != .strValTime)

/-- The store of an option with one number a part. -/
def storeNumber (next : ω → ω) (type : FioOptType) (v : UInt64) (off : ω) (data : Vars ω) : Vars ω :=
  if type.wide then store64 next off v data else store32 off v.toUInt32 data

variable {next : ω → ω} {call : κ → CbArg → Vars ω → Int × Vars ω} {o : FioOption ω κ}

/-- `__handle_option` on a part with one number. -/
theorem handleOptionPart_single (hcb : o.cb = none) (htype : o.type.single = true) (ptr : CStr)
    (first more : Bool) (s : ParseState ω) :
    handleOptionPart next call o (some ptr) first more s =
      match readNumber o.type ptr s.erange with
      | (none, e) => .ok (1, { s with erange := e })
      | (some v, e) =>
        .ok (0, ⟨storeParts o first more (storeNumber next o.type (o.clamp v)) s.data, e⟩) := by
  unfold handleOptionPart readNumber
  cases ht : o.type with
  | str => rw [ht] at htype; cases htype
  | strStore => rw [ht] at htype; cases htype
  | range => rw [ht] at htype; cases htype
  | strSet => rw [ht] at htype; cases htype
  | int =>
    simp only [hcb]
    rcases checkInt ptr with ⟨_ | il, e⟩ <;> rfl
  | strVal =>
    simp only [hcb]
    rcases strToDecimal ptr s.erange (FioOptType.strVal != .strValTime) with ⟨_ | v, e⟩ <;> rfl
  | strValInt =>
    simp only [hcb]
    rcases strToDecimal ptr s.erange (FioOptType.strValInt != .strValTime) with ⟨_ | v, e⟩ <;> rfl
  | strValTime =>
    simp only [hcb]
    rcases strToDecimal ptr s.erange (FioOptType.strValTime != .strValTime) with ⟨_ | v, e⟩ <;> rfl

/-! ## What the stores leave in the slots -/

omit [Zero ω] in
theorem getWord_store32 (data : Vars ω) (off : ω) (v : UInt32) :
    getWord (store32 off v data) off = v.toNat := by
  simp [getWord, store32]

omit [Zero ω] in
theorem getWord_store32_of_ne {data : Vars ω} {off off' : ω} (v : UInt32) (h : off ≠ off') :
    getWord (store32 off v data) off' = getWord data off' := by
  simp [getWord, store32, h.symm]

/-- The bits of the slots of a type. -/
def FioOptType.width (type : FioOptType) : Nat := if type.wide then 64 else 32

omit [Zero ω] in
theorem getSlot_storeNumber {type : FioOptType} {off : ω} (h : type.wide = true → next off ≠ off)
    (v : UInt64) (data : Vars ω) :
    getSlot next type (storeNumber next type v off data) off = v.toNat % 2 ^ type.width := by
  unfold getSlot storeNumber FioOptType.width
  cases hw : type.wide with
  | false =>
    rw [if_neg (by decide), if_neg (by decide), if_neg (by decide), getWord_store32,
      UInt64.toNat_toUInt32]
  | true =>
    have hlt := UInt64.toNat_lt v
    have hshift : (v >>> 32).toNat = v.toNat / 2 ^ 32 := by
      rw [UInt64.toNat_shiftRight, Nat.shiftRight_eq_div_pow]
      rfl
    rw [if_pos rfl, if_pos rfl, if_pos rfl, store64, getWord_store32, getWord_store32_of_ne _ (h hw),
      getWord_store32, UInt64.toNat_toUInt32, UInt64.toNat_toUInt32, hshift]
    omega

omit [Zero ω] in
theorem getSlot_storeNumber_of_ne {type : FioOptType} {off off' : ω} (v : UInt64) (data : Vars ω)
    (h : Apart next type off off') :
    getSlot next type (storeNumber next type v off data) off' = getSlot next type data off' := by
  unfold getSlot storeNumber
  cases hw : type.wide with
  | false =>
    rw [if_neg (by decide), if_neg (by decide), if_neg (by decide), getWord_store32_of_ne _ h.ne]
  | true =>
    obtain ⟨h1, h2, h3⟩ := h.wide hw
    rw [if_pos rfl, if_pos rfl, if_pos rfl, store64, getWord_store32_of_ne _ h2,
      getWord_store32_of_ne _ h.ne, getWord_store32_of_ne _ h3, getWord_store32_of_ne _ h1]

end

/-! ## What the number readers read -/

theorem siUnit_cases {c : Char} (h : (siUnit c).isSome = true) : c = 'k' ∨ c = 'm' ∨ c = 'g' := by
  unfold siUnit at h
  by_contra hno
  rw [not_or, not_or] at hno
  rw [if_neg hno.1, if_neg hno.2.1, if_neg hno.2.2] at h
  cases h

theorem timeUnit_cases {c : Char} (h : (timeUnit c).isSome = true) :
    c = 'm' ∨ c = 'h' ∨ c = 'd' := by
  unfold timeUnit at h
  by_contra hno
  rw [not_or, not_or] at hno
  rw [if_neg hno.1, if_neg hno.2.1, if_neg hno.2.2] at h
  cases h

theorem ne_of_isDigit {c d : Char} (hc : c.isDigit = true) (hd : d.isDigit = false) : c ≠ d := by
  rintro rfl
  rw [hc] at hd
  cases hd

/-- A digit is no suffix. -/
theorem unit_of_isDigit (type : FioOptType) {c : Char} (h : c.isDigit = true) :
    type.unit c = none := by
  have hne : ∀ d : Char, d.isDigit = false → c ≠ d := fun d => ne_of_isDigit h
  have hsi : siUnit c = none := by
    rw [siUnit, if_neg (hne 'k' rfl), if_neg (hne 'm' rfl), if_neg (hne 'g' rfl)]
  have htime : timeUnit c = none := by
    rw [timeUnit, if_neg (hne 'm' rfl), if_neg (hne 'h' rfl), if_neg (hne 'd' rfl)]
  cases type <;> assumption

/-- The multiplier of a digit or a suffix. -/
theorem toNat_getMult (type : FioOptType) {c : Char}
    (h : c.isDigit = true ∨ (type.unit c).isSome = true) :
    (if type != .strValTime then getMultBytes c else getMultTime c).toNat =
      (type.unit c).getD 1 := by
  rcases h with h | h
  · -- a digit multiplies with one
    have hne : ∀ d : Char, d.isDigit = false → c ≠ d := fun d => ne_of_isDigit h
    rw [unit_of_isDigit type h]
    split
    · simp [getMultBytes, hne 'k' rfl, hne 'K' rfl, hne 'm' rfl, hne 'M' rfl, hne 'g' rfl,
        hne 'G' rfl]
    · simp [getMultTime, hne 'm' rfl, hne 'M' rfl, hne 'h' rfl, hne 'H' rfl, hne 'd' rfl,
        hne 'D' rfl]
  · have hsi : (siUnit c).isSome = true → (getMultBytes c).toNat = (siUnit c).getD 1 := by
      intro hc
      rcases siUnit_cases hc with rfl | rfl | rfl <;> rfl
    have htime : (timeUnit c).isSome = true → (getMultTime c).toNat = (timeUnit c).getD 1 := by
      intro hc
      rcases timeUnit_cases hc with rfl | rfl | rfl <;> rfl
    cases type with
    | strValTime => exact htime h
    | _ => exact hsi h

/-- The last character of a number tells its multiplier. -/
theorem Number.getLast_text {type : FioOptType} (x : Number type.unit) :
    ∃ c, x.text.getLast? = some c ∧ (c.isDigit = true ∨ (type.unit c).isSome = true) ∧
      (type.unit c).getD 1 = x.mult := by
  obtain ⟨digits, suffix, hne, hd, hk⟩ := x
  cases suffix with
  | none =>
    obtain ⟨c, hc⟩ := Option.isSome_iff_exists.mp (List.getLast?_isSome.mpr hne)
    have hdigit := hd c (List.mem_of_getLast? hc)
    refine ⟨c, by simpa [Number.text] using hc, .inl hdigit, ?_⟩
    rw [unit_of_isDigit type hdigit]
    rfl
  | some c => exact ⟨c, by simp [Number.text], .inr (hk c rfl), rfl⟩

/-- A number that an option accepts while `errno` is `ERANGE` or not. -/
def Readable (type : FioOptType) (erange : Bool) (n : Nat) : Prop :=
  type = .int ∨ (n < 2 ^ 64 ∧ ¬ (n = 2 ^ 64 - 1 ∧ erange = true))

instance (type : FioOptType) (erange : Bool) (n : Nat) : Decidable (Readable type erange n) :=
  inferInstanceAs (Decidable (_ ∨ _))

/-- The value of a number `n` in a text that ends with a suffix of multiplier `m`. An `unsigned int`
has no suffix, and keeps the lower half of what `sscanf` reads. -/
def readValue (type : FioOptType) (n m : Nat) : Nat :=
  if type = .int then min n (2 ^ 64 - 1) % 2 ^ 32 else n * m % 2 ^ 64

theorem readValue_lt (type : FioOptType) (n m : Nat) : readValue type n m < 2 ^ 64 := by
  unfold readValue
  split
  · exact lt_of_lt_of_le (Nat.mod_lt _ (by decide)) (by decide)
  · exact Nat.mod_lt _ (by decide)

/-- `strtoul` on digits. -/
theorem strtoul_digits {ds rest : CStr} (hne : ds ≠ []) (hd : ∀ c ∈ ds, c.isDigit = true)
    (hr : NoDigitHead rest) :
    strtoul (ds ++ rest) =
      (UInt64.ofNat (min (decimal ds) (2 ^ 64 - 1)), decide (2 ^ 64 ≤ decimal ds)) := by
  unfold strtoul
  rw [scanUl_digits hne hd hr]
  by_cases hlt : decimal ds < 2 ^ 64
  · rw [if_pos hlt, Nat.min_eq_left (by omega), decide_eq_false (by omega)]
  · rw [if_neg hlt, Nat.min_eq_right (by omega), decide_eq_true (by omega),
      (ofNat_eq_ulongMax (by decide)).mpr rfl]

/-- `str_to_decimal` on digits in front of a text with this last character. -/
theorem strToDecimal_digits {type : FioOptType} (hint : type ≠ .int) {ds rest : CStr} {c : Char}
    (erange : Bool) (hne : ds ≠ []) (hd : ∀ c ∈ ds, c.isDigit = true) (hr : NoDigitHead rest)
    (hlast : (ds ++ rest).getLast? = some c)
    (hc : c.isDigit = true ∨ (type.unit c).isSome = true) :
    strToDecimal (ds ++ rest) erange (type != .strValTime) =
      (if Readable type erange (decimal ds) then
        some (UInt64.ofNat (readValue type (decimal ds) ((type.unit c).getD 1))) else none,
        erange || decide (2 ^ 64 ≤ decimal ds)) := by
  have hmult := toNat_getMult type hc
  unfold strToDecimal
  rw [hlast, strtoul_digits hne hd hr]
  dsimp only
  by_cases hlt : decimal ds < 2 ^ 64
  · rw [Nat.min_eq_left (by omega), decide_eq_false (by omega), Bool.or_false]
    have hiff := ofNat_eq_ulongMax hlt
    by_cases hmax : decimal ds = 2 ^ 64 - 1 ∧ erange = true
    · rw [if_pos ⟨hiff.mpr hmax.1, hmax.2⟩, if_neg]
      rintro (h | h)
      · exact hint h
      · exact h.2 hmax
    · have hread : Readable type erange (decimal ds) := .inr ⟨hlt, hmax⟩
      rw [if_neg fun h => hmax ⟨hiff.mp h.1, h.2⟩, if_pos hread]
      congr 2
      rw [← UInt64.toNat_inj, UInt64.toNat_mul, hmult, UInt64.toNat_ofNat_of_lt' hlt,
        UInt64.toNat_ofNat_of_lt' (readValue_lt ..), readValue, if_neg hint]
  · rw [Nat.min_eq_right (by omega), decide_eq_true (by omega), Bool.or_true,
      (ofNat_eq_ulongMax (by decide)).mpr rfl, if_pos ⟨rfl, rfl⟩, if_neg]
    rintro (h | h)
    · exact hint h
    · exact hlt h.1

/-- `check_int` on digits. -/
theorem checkInt_digits {ds rest : CStr} (hne : ds ≠ []) (hd : ∀ c ∈ ds, c.isDigit = true)
    (hr : NoDigitHead rest) :
    checkInt (ds ++ rest) =
      (some (UInt64.ofNat (min (decimal ds) (2 ^ 64 - 1))).toUInt32,
        decide (2 ^ 64 ≤ decimal ds)) := by
  unfold checkInt sscanfUint
  rw [scanUl_digits hne hd hr]
  by_cases hlt : decimal ds < 2 ^ 64
  · rw [if_pos hlt, Nat.min_eq_left (by omega), decide_eq_false (by omega)]
    rfl
  · rw [if_neg hlt, Nat.min_eq_right (by omega), decide_eq_true (by omega),
      (ofNat_eq_ulongMax (by decide)).mpr rfl]
    rfl

/-- A part that starts with digits. -/
theorem readNumber_digits {type : FioOptType} (hsingle : type.single = true) {ds rest : CStr}
    {c : Char} (erange : Bool) (hne : ds ≠ []) (hd : ∀ c ∈ ds, c.isDigit = true)
    (hr : NoDigitHead rest) (hlast : (ds ++ rest).getLast? = some c)
    (hc : c.isDigit = true ∨ (type.unit c).isSome = true) :
    readNumber type (ds ++ rest) erange =
      (if Readable type erange (decimal ds) then
        some (UInt64.ofNat (readValue type (decimal ds) ((type.unit c).getD 1))) else none,
        erange || decide (2 ^ 64 ≤ decimal ds)) := by
  by_cases hint : type = .int
  · subst hint
    unfold readNumber
    rw [checkInt_digits hne hd hr, if_pos (.inl rfl)]
    dsimp only
    rw [Option.map_some]
    congr 2
    have hmin : min (decimal ds) (2 ^ 64 - 1) < 2 ^ 64 := by omega
    rw [← UInt64.toNat_inj, UInt32.toNat_toUInt64, UInt64.toNat_toUInt32,
      UInt64.toNat_ofNat_of_lt' (readValue_lt ..), UInt64.toNat_ofNat_of_lt' hmin,
      readValue, if_pos rfl]
  · rw [← strToDecimal_digits hint erange hne hd hr hlast hc]
    cases type with
    | int => exact absurd rfl hint
    | _ => rfl

/-- The part in front of a leading comma reads as 0, or as nothing where `sscanf` looks for a
number. -/
theorem readNumber_comma {type : FioOptType} (hsingle : type.single = true) (t : CStr) (e : Bool) :
    readNumber type (',' :: t) e = (if type = .int then none else some 0, e) := by
  have hscan : scanUl (',' :: t) = none := scanUl_eq_none rfl ⟨by decide, by decide⟩ rfl
  have hdecimal : ∀ kilo, strToDecimal (',' :: t) e kilo = (some 0, e) := by
    intro kilo
    unfold strToDecimal strtoul
    rw [List.getLast?_cons, hscan]
    simp only [Bool.or_false]
    rw [if_neg fun h => absurd h.1 (by decide)]
    simp
  cases type with
  | int =>
    unfold readNumber checkInt sscanfUint
    rw [hscan]
    simp
  | strVal => exact hdecimal _
  | strValInt => exact hdecimal _
  | strValTime => exact hdecimal _
  | str => cases hsingle
  | strStore => cases hsingle
  | range => cases hsingle
  | strSet => cases hsingle

namespace Number

variable {type : FioOptType} (x : Number type.unit)

/-- What follows the digits of a number is no digit. -/
theorem noDigitHead_suffix (rest : CStr) (h : NoDigitHead rest) :
    NoDigitHead (x.suffix.toList ++ rest) := by
  cases hs : x.suffix with
  | none => exact h
  | some c =>
    refine noDigitHead_cons ?_
    by_contra hdigit
    rw [Bool.not_eq_false] at hdigit
    have hknown := x.known c hs
    rw [unit_of_isDigit type hdigit] at hknown
    cases hknown

/-- Neither a comma nor a dash is part of a number. -/
theorem notMem_text {c : Char} (hdigit : c.isDigit = false) (hunit : type.unit c = none) :
    c ∉ x.text := by
  intro h
  rcases List.mem_append.mp h with h | h
  · rw [x.isDigits c h] at hdigit
    cases hdigit
  · have hknown := x.known c (Option.mem_toList.mp h)
    rw [hunit] at hknown
    cases hknown

theorem comma_notMem : ',' ∉ x.text := x.notMem_text rfl (by cases type <;> rfl)

theorem dash_notMem : '-' ∉ x.text := x.notMem_text rfl (by cases type <;> rfl)

/-- A number is read with the multiplier of the last character of the text it stands in front of. -/
theorem readNumber_text (hsingle : type.single = true) (e : Bool) :
    readNumber type x.text e =
      (if Readable type e x.num then some (UInt64.ofNat (readValue type x.num x.mult)) else none,
        e || decide (2 ^ 64 ≤ x.num)) := by
  obtain ⟨c, hlast, hc, hmult⟩ := x.getLast_text
  have hrest := x.noDigitHead_suffix [] noDigitHead_nil
  rw [List.append_nil] at hrest
  have hread := readNumber_digits hsingle e x.nonempty x.isDigits hrest hlast hc
  rw [hmult] at hread
  exact hread

theorem readNumber_text_comma (hsingle : type.single = true) (y : Number type.unit) (e : Bool) :
    readNumber type (x.text ++ ',' :: y.text) e =
      (if Readable type e x.num then some (UInt64.ofNat (readValue type x.num y.mult)) else none,
        e || decide (2 ^ 64 ≤ x.num)) := by
  obtain ⟨c, hlast, hc, hmult⟩ := y.getLast_text
  have hrest := x.noDigitHead_suffix (',' :: y.text) (noDigitHead_cons rfl)
  have hlast' : (x.digits ++ (x.suffix.toList ++ ',' :: y.text)).getLast? = some c := by
    rw [List.getLast?_append, List.getLast?_append, List.getLast?_cons, hlast]
    rfl
  have hread := readNumber_digits hsingle e x.nonempty x.isDigits hrest hlast' hc
  rw [hmult, ← List.append_assoc] at hread
  exact hread

end Number

/-! ## Options with one number a part -/

section

variable {ω κ : Type}

/-- A value cut to the maximum of its option. -/
def FioOption.cut (o : FioOption ω κ) (v : Nat) : Nat :=
  if o.maxVal = 0 then v else min v o.maxVal.toNat

theorem FioOption.toNat_clamp (o : FioOption ω κ) (v : UInt64) :
    (o.clamp v).toNat = o.cut v.toNat := by
  unfold FioOption.clamp FioOption.cut
  by_cases hzero : o.maxVal = 0
  · rw [if_neg fun h => h.1 hzero, if_pos hzero]
  · rw [if_neg hzero]
    by_cases hgt : v > o.maxVal.toUInt64
    · rw [if_pos ⟨hzero, hgt⟩, UInt32.toNat_toUInt64, Nat.min_eq_right]
      exact (UInt64.lt_iff_toNat_lt.mp hgt).le
    · rw [if_neg fun h => hgt h.2, Nat.min_eq_left]
      exact UInt64.le_iff_toNat_le.mp (UInt64.not_lt.mp hgt)

/-- What is stored for a number `n` in a text with multiplier `m`. -/
def FioOption.stored (o : FioOption ω κ) (n m : Nat) : Nat :=
  o.cut (readValue o.type n m) % 2 ^ o.type.width

/-- What a slot that held `old` holds after a part with the number `n`: a number that is not accepted
leaves it alone. -/
def FioOption.landing (o : FioOption ω κ) (erange : Bool) (n m old : Nat) : Nat :=
  if Readable o.type erange n then o.stored n m else old

/-- The arguments `x` and `x,y` that store the values of their parts, in slots that held `old1` and
`old2`: what is read with the multiplier at the end of the text, cut to the maximum of the option and
the width of its slots, is the value of the part with its own multiplier, cut to the maximum. -/
def FioOption.SingleAgrees (o : FioOption ω κ) (erange : Bool) (old1 old2 : Nat) :
    Arg (Number o.type.unit) → Prop
  | .one x => Readable o.type erange x.num ∧ o.stored x.num x.mult = o.cut x.value
  | .two none y =>
    (o.type = .int ∨ old1 = 0) ∧ o.landing erange y.num y.mult old2 = o.cut y.value
  | .two (some x) y =>
    let erange' := erange || decide (2 ^ 64 ≤ x.num)
    (Readable o.type erange x.num ∨ Readable o.type erange' y.num) ∧
      o.landing erange x.num y.mult old1 = o.cut x.value ∧
      o.landing erange' y.num y.mult old2 = o.cut y.value

end

section

variable {ω κ : Type} [DecidableEq ω] [Zero ω] {next : ω → ω}
  {call : κ → CbArg → Vars ω → Int × Vars ω} {o : FioOption ω κ}

/-- The data after a part that was read as `r`. -/
def afterPart (next : ω → ω) (o : FioOption ω κ) (first more : Bool) (r : Option UInt64)
    (data : Vars ω) : Vars ω :=
  match r with
  | none => data
  | some v => storeParts o first more (storeNumber next o.type (o.clamp v)) data

theorem handleOptionPart_read (hcb : o.cb = none) (htype : o.type.single = true) {ptr : CStr}
    {first more e : Bool} {r : Option UInt64} {s : ParseState ω}
    (hread : readNumber o.type ptr s.erange = (r, e)) :
    handleOptionPart next call o (some ptr) first more s =
      .ok (if r.isSome then 0 else 1, ⟨afterPart next o first more r s.data, e⟩) := by
  rw [handleOptionPart_single hcb htype, hread]
  cases r <;> rfl

theorem getSlot_afterPart_first (hslots : TwoSlots next o) (r : Option UInt64) (data : Vars ω) :
    getSlot next o.type (afterPart next o true true r data) o.off1 =
        r.elim (getSlot next o.type data o.off1) (fun v => o.cut v.toNat % 2 ^ o.type.width) ∧
      getSlot next o.type (afterPart next o true true r data) o.off2 =
        getSlot next o.type data o.off2 := by
  cases r with
  | none => exact ⟨rfl, rfl⟩
  | some v =>
    have hdata : afterPart next o true true (some v) data =
        storeNumber next o.type (o.clamp v) o.off1 data := by
      simp [afterPart, storeParts]
    rw [hdata]
    refine ⟨?_, getSlot_storeNumber_of_ne _ _ hslots.apart⟩
    rw [getSlot_storeNumber fun hw => (hslots.pairs hw).1, FioOption.toNat_clamp]
    rfl

theorem getSlot_afterPart_last (hslots : TwoSlots next o) (r : Option UInt64) (data : Vars ω) :
    getSlot next o.type (afterPart next o false false r data) o.off1 =
        getSlot next o.type data o.off1 ∧
      getSlot next o.type (afterPart next o false false r data) o.off2 =
        r.elim (getSlot next o.type data o.off2) (fun v => o.cut v.toNat % 2 ^ o.type.width) := by
  cases r with
  | none => exact ⟨rfl, rfl⟩
  | some v =>
    have hdata : afterPart next o false false (some v) data =
        storeNumber next o.type (o.clamp v) o.off2 data := by
      simp [afterPart, storeParts, hslots.given]
    rw [hdata]
    refine ⟨getSlot_storeNumber_of_ne _ _ hslots.apart.symm, ?_⟩
    rw [getSlot_storeNumber fun hw => (hslots.pairs hw).2, FioOption.toNat_clamp]
    rfl

theorem getSlot_afterPart_both (hslots : TwoSlots next o) (v : UInt64) (data : Vars ω) :
    getSlot next o.type (afterPart next o true false (some v) data) o.off1 =
        o.cut v.toNat % 2 ^ o.type.width ∧
      getSlot next o.type (afterPart next o true false (some v) data) o.off2 =
        o.cut v.toNat % 2 ^ o.type.width := by
  have hdata : afterPart next o true false (some v) data =
      storeNumber next o.type (o.clamp v) o.off2
        (storeNumber next o.type (o.clamp v) o.off1 data) := by
    simp [afterPart, storeParts, hslots.given]
  rw [hdata, getSlot_storeNumber_of_ne _ _ hslots.apart.symm,
    getSlot_storeNumber fun hw => (hslots.pairs hw).1,
    getSlot_storeNumber fun hw => (hslots.pairs hw).2, FioOption.toNat_clamp]
  exact ⟨rfl, rfl⟩

/-- `handle_option` accepts the text and leaves these numbers in the two slots. -/
def StoresTwo (next : ω → ω) (call : κ → CbArg → Vars ω → Int × Vars ω) (o : FioOption ω κ)
    (text : CStr) (s : ParseState ω) (first second : Nat) : Prop :=
  ∃ s', handleOption next call o (some text) s = .ok (0, s') ∧
    getSlot next o.type s'.data o.off1 = first ∧ getSlot next o.type s'.data o.off2 = second

/-- An argument with a comma, whose parts were read as `r1` and `r2`. -/
theorem storesTwo_comma (call : κ → CbArg → Vars ω → Int × Vars ω) (hcb : o.cb = none) (htype : o.type.single = true)
    (hslots : TwoSlots next o) {s : ParseState ω} {pre post : CStr} (hpre : ',' ∉ pre)
    {r1 r2 : Option UInt64} {e1 e2 : Bool}
    (hread1 : readNumber o.type (pre ++ ',' :: post) s.erange = (r1, e1))
    (hread2 : readNumber o.type post e1 = (r2, e2)) (first second : Nat) :
    StoresTwo next call o (pre ++ ',' :: post) s first second ↔
      (r1.isSome = true ∨ r2.isSome = true) ∧
      r1.elim (getSlot next o.type s.data o.off1) (fun v => o.cut v.toNat % 2 ^ o.type.width) =
        first ∧
      r2.elim (getSlot next o.type s.data o.off2) (fun v => o.cut v.toNat % 2 ^ o.type.width) =
        second := by
  have hrun : handleOption next call o (some (pre ++ ',' :: post)) s =
      .ok (if r1.isSome = true ∨ r2.isSome = true then 0 else 1,
        ⟨afterPart next o false false r2 (afterPart next o true true r1 s.data), e2⟩) := by
    unfold handleOption
    rw [Option.bind_some, strchr_append hpre]
    dsimp only
    rw [handleOptionPart_read hcb htype hread1, ok_bind]
    dsimp only
    rw [handleOptionPart_read hcb htype hread2, ok_bind]
    cases r1 <;> cases r2 <;> rfl
  have hone := getSlot_afterPart_first hslots r1 s.data
  have htwo := getSlot_afterPart_last hslots r2 (afterPart next o true true r1 s.data)
  rw [hone.1, hone.2] at htwo
  unfold StoresTwo
  rw [hrun]
  constructor
  · rintro ⟨s', hs', hfirst, hsecond⟩
    by_cases hacc : r1.isSome = true ∨ r2.isSome = true
    · rw [if_pos hacc] at hs'
      cases hs'
      exact ⟨hacc, htwo.1.symm.trans hfirst, htwo.2.symm.trans hsecond⟩
    · rw [if_neg hacc] at hs'
      cases hs'
  · rintro ⟨hacc, hfirst, hsecond⟩
    exact ⟨_, by rw [if_pos hacc], htwo.1.trans hfirst, htwo.2.trans hsecond⟩

omit [DecidableEq ω] [Zero ω] in
/-- What an accepted number leaves in a slot. -/
theorem elim_landing (erange : Bool) (n m old : Nat) :
    (if Readable o.type erange n then some (UInt64.ofNat (readValue o.type n m)) else none).elim old
      (fun v => o.cut v.toNat % 2 ^ o.type.width) = o.landing erange n m old := by
  unfold FioOption.landing
  by_cases hread : Readable o.type erange n
  · rw [if_pos hread, if_pos hread, Option.elim_some,
      UInt64.toNat_ofNat_of_lt' (readValue_lt ..)]
    rfl
  · rw [if_neg hread, if_neg hread, Option.elim_none]

theorem isSome_ite {p : Prop} [Decidable p] {v : UInt64} :
    (if p then some v else none).isSome = true ↔ p := by
  split <;> simp_all

/-- An option with one number a part, without a callback and with two slots, accepts an argument and
stores its values exactly when the argument agrees with what is read. -/
theorem storesTwo_single (hcb : o.cb = none) (htype : o.type.single = true)
    (hslots : TwoSlots next o) (s : ParseState ω) (a : Arg (Number o.type.unit)) :
    StoresTwo next call o (a.text Number.text) s
        (a.first (fun x => o.cut x.value) (getSlot next o.type s.data o.off1))
        (a.second fun x => o.cut x.value) ↔
      o.SingleAgrees s.erange (getSlot next o.type s.data o.off1)
        (getSlot next o.type s.data o.off2) a := by
  cases a with
  | one x =>
    have hread := x.readNumber_text htype s.erange
    have hrun : handleOption next call o (some x.text) s =
        handleOptionPart next call o (some x.text) true false s := by
      unfold handleOption
      rw [Option.bind_some, strchr_eq_none x.comma_notMem]
    unfold StoresTwo Arg.text Arg.first Arg.second FioOption.SingleAgrees
    dsimp only
    rw [hrun, handleOptionPart_read hcb htype hread]
    by_cases hr : Readable o.type s.erange x.num
    · have hboth := getSlot_afterPart_both hslots
        (UInt64.ofNat (readValue o.type x.num x.mult)) s.data
      rw [UInt64.toNat_ofNat_of_lt' (readValue_lt ..)] at hboth
      rw [if_pos hr]
      constructor
      · rintro ⟨s', hs', hfirst, -⟩
        cases hs'
        exact ⟨hr, hboth.1.symm.trans hfirst⟩
      · rintro ⟨-, hstored⟩
        exact ⟨_, rfl, hboth.1.trans hstored, hboth.2.trans hstored⟩
    · rw [if_neg hr]
      constructor
      · rintro ⟨s', hs', -⟩
        cases hs'
      · rintro ⟨hr', -⟩
        exact absurd hr' hr
  | two x y =>
    cases x with
    | none =>
      have hread1 := readNumber_comma htype y.text s.erange
      have hread2 := y.readNumber_text htype s.erange
      have hiff := storesTwo_comma call hcb htype hslots List.not_mem_nil hread1 hread2
        (getSlot next o.type s.data o.off1) (o.cut y.value)
      rw [elim_landing, isSome_ite] at hiff
      refine hiff.trans ?_
      unfold FioOption.SingleAgrees
      dsimp only
      by_cases hint : o.type = .int
      · -- `sscanf` finds no number in front of the comma
        have hy : Readable o.type s.erange y.num := .inl hint
        rw [if_pos hint, Option.elim_none]
        exact ⟨fun h => ⟨.inl hint, h.2.2⟩, fun h => ⟨.inr hy, rfl, h.2⟩⟩
      · -- `strtoul` reads 0 there
        have hzero : o.cut (0 : UInt64).toNat % 2 ^ o.type.width = 0 := by
          unfold FioOption.cut
          split <;> simp
        rw [if_neg hint, Option.elim_some, hzero]
        constructor
        · rintro ⟨-, hfirst, hsecond⟩
          exact ⟨.inr hfirst.symm, hsecond⟩
        · rintro ⟨hold, hsecond⟩
          exact ⟨.inl rfl, (hold.resolve_left hint).symm, hsecond⟩
    | some x =>
      have hread1 := x.readNumber_text_comma htype y s.erange
      have hread2 := y.readNumber_text htype (s.erange || decide (2 ^ 64 ≤ x.num))
      have hiff := storesTwo_comma call hcb htype hslots x.comma_notMem hread1 hread2
        (o.cut x.value) (o.cut y.value)
      rw [elim_landing, elim_landing, isSome_ite, isSome_ite] at hiff
      exact hiff

end

/-! ## Ranges -/

/-- An end of a range as `check_range_bytes` reads it. -/
def Number.rangeEnd (x : Number (FioOptType.unit .range)) : UInt64 :=
  UInt64.ofNat (min x.num (2 ^ 64 - 1)) * UInt64.ofNat x.mult

/-- The ends of a range, in order. -/
def Range.ends (r : Range) : Nat × Nat := (min r.lo.value r.hi.value, max r.lo.value r.hi.value)

/-- The ends of a range as they are read, in order. -/
def Range.read (r : Range) : UInt64 × UInt64 :=
  if r.lo.rangeEnd > r.hi.rangeEnd then (r.hi.rangeEnd, r.lo.rangeEnd)
  else (r.lo.rangeEnd, r.hi.rangeEnd)

/-- Both ends of a range fit into an `unsigned int`. -/
def Range.Fits (r : Range) : Prop := r.lo.value < 2 ^ 32 ∧ r.hi.value < 2 ^ 32

theorem Number.mult_pos (x : Number (FioOptType.unit .range)) : 1 ≤ x.mult ∧ x.mult < 2 ^ 64 := by
  have hsuffix : ∀ c, (siUnit c).isSome = true → 1 ≤ (siUnit c).getD 1 ∧ (siUnit c).getD 1 < 2 ^ 64 := by
    intro c hc
    rcases siUnit_cases hc with rfl | rfl | rfl <;> decide
  unfold Number.mult
  cases hs : x.suffix with
  | none => exact ⟨le_rfl, show 1 < 2 ^ 64 by decide⟩
  | some c => exact hsuffix c (x.known c hs)

/-- `getMultBytes` of a suffix. -/
theorem getMultBytes_suffix {c : Char} (h : (FioOptType.unit .range c).isSome = true) :
    getMultBytes c = UInt64.ofNat ((FioOptType.unit .range c).getD 1) := by
  rcases siUnit_cases h with rfl | rfl | rfl <;> rfl

/-- A number in front of the end of the text or of a comma. -/
theorem checkRangeBytes_number (x : Number (FioOptType.unit .range)) {rest : CStr}
    (hrest : rest = [] ∨ ∃ t, rest = ',' :: t) :
    checkRangeBytes (x.text ++ rest) = (some x.rangeEnd, decide (2 ^ 64 ≤ x.num)) := by
  have hhead : NoDigitHead rest := by
    rcases hrest with rfl | ⟨t, rfl⟩
    · exact noDigitHead_nil
    · exact noDigitHead_cons rfl
  have hnum : scanUl (x.text ++ rest) = some (UInt64.ofNat (min x.num (2 ^ 64 - 1)),
      decide (2 ^ 64 ≤ x.num), x.suffix.toList ++ rest) := by
    rw [Number.text, List.append_assoc,
      scanUl_digits x.nonempty x.isDigits (x.noDigitHead_suffix rest hhead)]
    have hx : decimal x.digits = x.num := rfl
    rw [hx]
    by_cases hlt : x.num < 2 ^ 64
    · rw [if_pos hlt, Nat.min_eq_left (by omega), decide_eq_false (by omega)]
    · rw [if_neg hlt, Nat.min_eq_right (by omega), decide_eq_true (by omega),
        (ofNat_eq_ulongMax (by decide)).mpr rfl]
  unfold checkRangeBytes sscanfUlChar Number.rangeEnd Number.mult
  rw [hnum, Option.map_some]
  cases hs : x.suffix with
  | none =>
    rcases hrest with rfl | ⟨t, rfl⟩
    · simp
    · have hcomma : getMultBytes ',' = 1 := rfl
      simp [hcomma]
  | some c => simp [getMultBytes_suffix (x.known c hs)]

theorem readRange_text (r : Range) {rest : CStr} (hrest : rest = [] ∨ ∃ t, rest = ',' :: t)
    (hlen : (r.text ++ rest).length < 127) (e : Bool) :
    readRange (r.text ++ rest) e = .ok (some r.read,
      e || decide (2 ^ 64 ≤ r.lo.num) || decide (2 ^ 64 ≤ r.hi.num)) := by
  have hlo := checkRangeBytes_number r.lo (.inl rfl)
  have hhi := checkRangeBytes_number r.hi hrest
  rw [List.append_nil] at hlo
  unfold readRange strncpy
  rw [if_pos hlen, ok_bind, Range.text, List.append_assoc, List.cons_append,
    strchr_append r.lo.dash_notMem]
  simp only [hlo, hhi]
  rfl

theorem Range.read_eq_ends (r : Range) :
    (r.read.1.toNat % 2 ^ 32, r.read.2.toNat % 2 ^ 32) = r.ends ↔ r.Fits := by
  have hend : ∀ x : Number (FioOptType.unit .range), x.value < 2 ^ 32 → x.rangeEnd.toNat = x.value := by
    intro x hx
    have hm := x.mult_pos
    have hle : x.num ≤ x.value := Nat.le_mul_of_pos_right _ hm.1
    have hn : x.num < 2 ^ 64 := by omega
    rw [Number.rangeEnd, Nat.min_eq_left (by omega), UInt64.toNat_mul,
      UInt64.toNat_ofNat_of_lt' hn, UInt64.toNat_ofNat_of_lt' hm.2]
    exact Nat.mod_eq_of_lt (by unfold Number.value at hx; omega)
  rw [Prod.ext_iff]
  constructor
  · rintro ⟨hfirst, hsecond⟩
    dsimp only at hfirst hsecond
    have h1 := Nat.mod_lt r.read.1.toNat (show 0 < 2 ^ 32 by decide)
    have h2 := Nat.mod_lt r.read.2.toNat (show 0 < 2 ^ 32 by decide)
    rw [hfirst] at h1
    rw [hsecond] at h2
    unfold Range.ends at h2
    exact ⟨by omega, by omega⟩
  · rintro ⟨hlo, hhi⟩
    have hl := hend r.lo hlo
    have hh := hend r.hi hhi
    unfold Range.read Range.ends
    split
    · next hgt =>
      rw [gt_iff_lt, UInt64.lt_iff_toNat_lt, hl, hh] at hgt
      dsimp only
      rw [hl, hh]
      omega
    · next hle =>
      rw [gt_iff_lt, UInt64.lt_iff_toNat_lt, hl, hh] at hle
      dsimp only
      rw [hl, hh]
      omega

section

variable {ω κ : Type} [DecidableEq ω] [Zero ω] {next : ω → ω} {o : FioOption ω κ}

/-- A range option with two slots of two words each. -/
structure FourWords (o : FioOption ω κ) : Prop where
  given : o.off3 ≠ 0 ∧ o.off4 ≠ 0
  apart : [o.off1, o.off2, o.off3, o.off4].Nodup

/-- `handle_option` accepts the text and leaves these ranges in the two slots. -/
def StoresRanges (next : ω → ω) (call : κ → CbArg → Vars ω → Int × Vars ω) (o : FioOption ω κ)
    (text : CStr) (s : ParseState ω) (first second : Nat × Nat) : Prop :=
  ∃ s', handleOption next call o (some text) s = .ok (0, s') ∧
    (getWord s'.data o.off1, getWord s'.data o.off2) = first ∧
    (getWord s'.data o.off3, getWord s'.data o.off4) = second

/-- The ranges `x` and `x,y` that are short enough for the buffer of the parser and whose ends fit
into the slots. -/
def RangeAgrees (a : Arg Range) : Prop :=
  (a.text Range.text).length < 127 ∧
    match a with
    | .one x => x.Fits
    | .two x y => (∀ r ∈ x, r.Fits) ∧ y.Fits

/-- The words of both slots after a range was stored to the first, the second or both. -/
theorem getWord_storeRange (hslots : FourWords o) (first more : Bool) (ul1 ul2 : UInt64)
    (data : Vars ω) :
    (getWord (storeRange o first more ul1 ul2 data) o.off1,
      getWord (storeRange o first more ul1 ul2 data) o.off2) =
        (if first then (ul1.toNat % 2 ^ 32, ul2.toNat % 2 ^ 32)
          else (getWord data o.off1, getWord data o.off2)) ∧
    (getWord (storeRange o first more ul1 ul2 data) o.off3,
      getWord (storeRange o first more ul1 ul2 data) o.off4) =
        (if more then (getWord data o.off3, getWord data o.off4)
          else (ul1.toNat % 2 ^ 32, ul2.toNat % 2 ^ 32)) := by
  have h := hslots.apart
  simp only [List.nodup_cons, List.mem_cons, List.not_mem_nil, or_false, not_or] at h
  obtain ⟨⟨h12, h13, h14⟩, ⟨h23, h24⟩, h34, -⟩ := h
  have hpair : ∀ (p q : ω) (d : Vars ω), p ≠ q →
      (getWord (store32 q ul2.toUInt32 (store32 p ul1.toUInt32 d)) p,
        getWord (store32 q ul2.toUInt32 (store32 p ul1.toUInt32 d)) q) =
          (ul1.toNat % 2 ^ 32, ul2.toNat % 2 ^ 32) := by
    intro p q d hpq
    rw [getWord_store32_of_ne _ hpq.symm, getWord_store32, getWord_store32,
      UInt64.toNat_toUInt32, UInt64.toNat_toUInt32]
  have hother : ∀ (p q r : ω) (d : Vars ω), p ≠ r → q ≠ r →
      getWord (store32 q ul2.toUInt32 (store32 p ul1.toUInt32 d)) r = getWord d r := by
    intro p q r d hpr hqr
    rw [getWord_store32_of_ne _ hqr, getWord_store32_of_ne _ hpr]
  unfold storeRange
  cases first <;> cases more <;>
    simp only [hslots.given.1, hslots.given.2, Bool.false_eq_true, if_false, if_true, Bool.not_true,
      Bool.not_false, ne_eq, not_false_eq_true, and_self, and_true]
  · rw [hother _ _ _ _ (Ne.symm h13) (Ne.symm h14), hother _ _ _ _ (Ne.symm h23) (Ne.symm h24)]
    exact ⟨rfl, hpair _ _ _ h34⟩
  · rw [hother _ _ _ _ (Ne.symm h13) (Ne.symm h14), hother _ _ _ _ (Ne.symm h23) (Ne.symm h24)]
    exact ⟨hpair _ _ _ h12, hpair _ _ _ h34⟩
  · rw [hother _ _ _ _ h13 h23, hother _ _ _ _ h14 h24]
    exact ⟨hpair _ _ _ h12, rfl⟩

theorem Range.comma_notMem (r : Range) : ',' ∉ r.text := by
  intro h
  rcases List.mem_append.mp h with h | h
  · exact r.lo.comma_notMem h
  · rcases List.mem_cons.mp h with h | h
    · exact absurd h (by decide)
    · exact r.hi.comma_notMem h

/-- The data after a part with the range `ends`, or with none. -/
def afterRange (o : FioOption ω κ) (first more : Bool) (ends : Option (UInt64 × UInt64))
    (data : Vars ω) : Vars ω :=
  match ends with
  | none => data
  | some (ul1, ul2) => storeRange o first more ul1 ul2 data

/-- `__handle_option` on a range. -/
theorem handleOptionPart_range (call : κ → CbArg → Vars ω → Int × Vars ω) (htype : o.type = .range)
    {ptr : CStr} {e : Bool} {ends : Option (UInt64 × UInt64)} (first more : Bool) {s : ParseState ω}
    (hread : readRange ptr s.erange = .ok (ends, e)) :
    handleOptionPart next call o (some ptr) first more s =
      .ok (if ends.isSome then 0 else 1, ⟨afterRange o first more ends s.data, e⟩) := by
  unfold handleOptionPart
  rw [htype]
  dsimp only
  rw [hread]
  cases ends <;> rfl

/-- The slots after a range that is read in order. -/
theorem getWord_afterRange (hslots : FourWords o) (first more : Bool) (r : Range) (data : Vars ω) :
    (getWord (afterRange o first more (some r.read) data) o.off1,
      getWord (afterRange o first more (some r.read) data) o.off2) =
        (if first then (r.read.1.toNat % 2 ^ 32, r.read.2.toNat % 2 ^ 32)
          else (getWord data o.off1, getWord data o.off2)) ∧
    (getWord (afterRange o first more (some r.read) data) o.off3,
      getWord (afterRange o first more (some r.read) data) o.off4) =
        (if more then (getWord data o.off3, getWord data o.off4)
          else (r.read.1.toNat % 2 ^ 32, r.read.2.toNat % 2 ^ 32)) :=
  getWord_storeRange hslots first more r.read.1 r.read.2 data

/-- A text that does not fit into the buffer has no value. -/
theorem readRange_tooLong {ptr : CStr} (h : ¬ ptr.length < 127) (e : Bool) :
    readRange ptr e = .error .unterminated := by
  unfold readRange strncpy
  rw [if_neg h]
  rfl

/-- In front of a leading comma there is no range. -/
theorem readRange_comma (r : Range) (h : (',' :: r.text).length < 127) (e : Bool) :
    readRange (',' :: r.text) e = .ok (none, e) := by
  have hscan : scanUl (',' :: r.lo.text) = none := scanUl_eq_none rfl ⟨by decide, by decide⟩ rfl
  have hdash : '-' ∉ ',' :: r.lo.text := by
    rw [List.mem_cons, not_or]
    exact ⟨by decide, r.lo.dash_notMem⟩
  have hcheck : checkRangeBytes (',' :: r.lo.text) = (none, false) := by
    unfold checkRangeBytes sscanfUlChar
    rw [hscan]
    rfl
  unfold readRange strncpy
  rw [if_pos h, ok_bind, Range.text, ← List.cons_append, strchr_append hdash]
  simp only [hcheck, Bool.or_false]
  rfl

/-- A text that is too long for the buffer is not read. -/
theorem handleOption_tooLong (call : κ → CbArg → Vars ω → Int × Vars ω) (htype : o.type = .range)
    {ptr : CStr} (h : ¬ ptr.length < 127) (s : ParseState ω) :
    handleOption next call o (some ptr) s = .error .unterminated := by
  have hpart : ∀ first more, handleOptionPart next call o (some ptr) first more s =
      .error .unterminated := by
    intro first more
    unfold handleOptionPart
    rw [htype]
    dsimp only
    rw [readRange_tooLong h]
    rfl
  unfold handleOption
  rw [Option.bind_some]
  cases strchr ptr ',' with
  | none => exact hpart true false
  | some parts =>
    dsimp only
    rw [hpart]
    rfl

/-- An argument with a comma, whose second part is a range. -/
theorem handleOption_rangeComma (next : ω → ω) (call : κ → CbArg → Vars ω → Int × Vars ω) (htype : o.type = .range)
    {s : ParseState ω} {pre post : CStr} (hpre : ',' ∉ pre) {ends1 : Option (UInt64 × UInt64)}
    {ul : UInt64 × UInt64} {e1 e2 : Bool}
    (hread1 : readRange (pre ++ ',' :: post) s.erange = .ok (ends1, e1))
    (hread2 : readRange post e1 = .ok (some ul, e2)) :
    handleOption next call o (some (pre ++ ',' :: post)) s =
      .ok (0, ⟨afterRange o false false (some ul) (afterRange o true true ends1 s.data), e2⟩) := by
  unfold handleOption
  rw [Option.bind_some, strchr_append hpre]
  dsimp only
  rw [handleOptionPart_range call htype true true hread1, ok_bind]
  dsimp only
  rw [handleOptionPart_range call htype false false hread2]
  cases ends1 <;> rfl

/-- A range option with two slots accepts an argument and stores its ranges exactly when the text is
short enough and the ends fit. -/
theorem storesRanges_iff (call : κ → CbArg → Vars ω → Int × Vars ω) (htype : o.type = .range)
    (hslots : FourWords o) (s : ParseState ω) (a : Arg Range) :
    StoresRanges next call o (a.text Range.text) s
        (a.first Range.ends (getWord s.data o.off1, getWord s.data o.off2))
        (a.second Range.ends) ↔
      RangeAgrees a := by
  unfold StoresRanges RangeAgrees
  by_cases hlen : (a.text Range.text).length < 127
  · rw [and_iff_right hlen]
    cases a with
    | one x =>
      dsimp only [Arg.text, Arg.first, Arg.second] at hlen ⊢
      have hread := readRange_text x (.inl rfl) (by rw [List.append_nil]; exact hlen) s.erange
      rw [List.append_nil] at hread
      have hrun : handleOption next call o (some x.text) s =
          handleOptionPart next call o (some x.text) true false s := by
        unfold handleOption
        rw [Option.bind_some, strchr_eq_none x.comma_notMem]
      have hafter := getWord_afterRange hslots true false x s.data
      rw [hrun, handleOptionPart_range call htype true false hread, ← x.read_eq_ends]
      constructor
      · rintro ⟨s', hs', hfirst, -⟩
        cases hs'
        exact hafter.1.symm.trans hfirst
      · intro hends
        exact ⟨_, rfl, hafter.1.trans hends, hafter.2.trans hends⟩
    | two x y =>
      dsimp only [Arg.text, Arg.first, Arg.second] at hlen ⊢
      have hylen : (y.text ++ []).length < 127 := by
        simp only [List.length_append, List.length_cons] at hlen
        simp only [List.append_nil]
        omega
      cases x with
      | none =>
        have hread1 := readRange_comma y hlen s.erange
        have hread2 := readRange_text y (.inl rfl) hylen s.erange
        rw [List.append_nil] at hread2
        have hrun := handleOption_rangeComma next call htype List.not_mem_nil hread1 hread2
        have hafter := getWord_afterRange hslots false false y s.data
        rw [← y.read_eq_ends]
        constructor
        · rintro ⟨s', hs', -, hsecond⟩
          rw [show (Option.map Range.text none).getD [] = ([] : CStr) from rfl, hrun] at hs'
          cases hs'
          exact ⟨nofun, hafter.2.symm.trans hsecond⟩
        · rintro ⟨-, hends⟩
          exact ⟨_, hrun, hafter.1, hafter.2.trans hends⟩
      | some x =>
        have hread1 := readRange_text x (.inr ⟨y.text, rfl⟩) hlen s.erange
        have hread2 := readRange_text y (.inl rfl) hylen
          (s.erange || decide (2 ^ 64 ≤ x.lo.num) || decide (2 ^ 64 ≤ x.hi.num))
        rw [List.append_nil] at hread2
        have hrun := handleOption_rangeComma next call htype x.comma_notMem hread1 hread2
        have hone := getWord_afterRange hslots true true x s.data
        have htwo := getWord_afterRange hslots false false y
          (afterRange o true true (some x.read) s.data)
        have hfirst := htwo.1.trans hone.1
        rw [← y.read_eq_ends]
        constructor
        · rintro ⟨s', hs', hfst, hsnd⟩
          rw [show (Option.map Range.text (some x)).getD [] = x.text from rfl, hrun] at hs'
          cases hs'
          refine ⟨?_, htwo.2.symm.trans hsnd⟩
          rintro r ⟨⟩
          exact x.read_eq_ends.mp (hfirst.symm.trans hfst)
        · rintro ⟨hx, hends⟩
          exact ⟨_, hrun, hfirst.trans (x.read_eq_ends.mpr (hx x rfl)), htwo.2.trans hends⟩
  · rw [handleOption_tooLong call htype hlen]
    constructor
    · rintro ⟨s', hs', -⟩
      cases hs'
    · exact fun h => absurd h.1 hlen

end

/-! ## Block sizes for reads and writes -/

/-- `bs`, with `bs[DDIR_READ]` and `bs[DDIR_WRITE]` as the words 1 and 2. -/
def exampleBs : FioOption Nat Empty where
  name := "bs".toList
  type := .strValInt
  off1 := 1
  off2 := 2
  off3 := 0
  off4 := 0
  maxVal := 0
  cb := none

/-- Cleared memory. -/
def exampleState : ParseState Nat := ⟨fun _ => .word 0, false⟩

/-- A digit with a suffix or none. -/
def exampleNumber (digit : Char) (suffix : Option Char) (hdigit : digit.isDigit = true)
    (hsuffix : ∀ c, suffix = some c → (siUnit c).isSome = true) : Number exampleBs.type.unit where
  digits := [digit]
  suffix := suffix
  nonempty := List.cons_ne_nil _ _
  isDigits := by
    intro c hc
    rw [List.mem_singleton] at hc
    rw [hc]
    exact hdigit
  known := hsuffix

/-- `4k`, `8k` and `8`. -/
def exampleFourK : Number exampleBs.type.unit :=
  exampleNumber '4' (some 'k') rfl fun c hc => by cases hc; rfl

def exampleEightK : Number exampleBs.type.unit :=
  exampleNumber '8' (some 'k') rfl fun c hc => by cases hc; rfl

def exampleEight : Number exampleBs.type.unit := exampleNumber '8' none rfl nofun

theorem exampleBs_twoSlots : TwoSlots (· + 1) exampleBs :=
  ⟨by decide, nofun, ⟨by decide, nofun⟩⟩

end Rtfsc.Fio
