import Rtfsc.Machine.Outcome
import Mathlib.Data.List.TakeWhile

/-!
# C strings and the number readers of the C library

A C string is the list of its characters without the terminating NUL; a `Char` stands for a byte.
`strtoul` and the conversions of `sscanf` read the same numbers, white space, a sign and decimal
digits, and differ in what they do when there is none.
-/

namespace Rtfsc.Machine

/-- A C string without its NUL. -/
abbrev CStr := List Char

/-- `isspace(c)`. -/
def isspace (c : Char) : Bool := c == ' ' || (9 ≤ c.toNat && c.toNat ≤ 13)

/-- `iscntrl(c)`. -/
def iscntrl (c : Char) : Bool := c.toNat < 32 || c.toNat == 127

/-- `!strncmp(s, t, strlen(t))`. -/
def startsWith (s t : CStr) : Bool := t.isPrefixOf s

/-- `strchr(s, c)`: the text in front of the character and the text behind it. -/
def strchr (s : CStr) (c : Char) : Option (CStr × CStr) :=
  match s.dropWhile (· != c) with
  | [] => none
  | _ :: post => some (s.takeWhile (· != c), post)

/-- `strncpy(tmp, s, n)` into an array of `n + 1` characters that nothing has been written to. When
`s` does not fit, `tmp` is not a C string, and the string functions have no value on it. -/
def strncpy (s : CStr) (n : Nat) : Outcome CStr :=
  if s.length < n then .ok s else .error .unterminated

/-- The value of decimal digits. -/
def decimal (ds : CStr) : Nat := ds.foldl (fun n c => 10 * n + (c.toNat - 48)) 0

/-- `ULONG_MAX`. -/
def ulongMax : UInt64 := 0xffffffffffffffff

theorem ofNat_eq_ulongMax {n : Nat} (h : n < 2 ^ 64) :
    UInt64.ofNat n = ulongMax ↔ n = 2 ^ 64 - 1 := by
  rw [← UInt64.toNat_inj, UInt64.toNat_ofNat_of_lt' h]
  exact Iff.rfl

/-- An optional sign. -/
def scanSign : CStr → Bool × CStr
  | '-' :: s => (true, s)
  | '+' :: s => (false, s)
  | s => (false, s)

/-- An `unsigned long` in base 10 at the front of a string, as `strtoul` and `sscanf` read it: the
number, whether it was out of range, and the text behind it. -/
def scanUl (s : CStr) : Option (UInt64 × Bool × CStr) :=
  let (neg, s) := scanSign (s.dropWhile isspace)
  let ds := s.takeWhile Char.isDigit
  let rest := s.dropWhile Char.isDigit
  if ds = [] then none
  else if decimal ds < 2 ^ 64 then
    some (if neg then -(UInt64.ofNat (decimal ds)) else UInt64.ofNat (decimal ds), false, rest)
  else some (ulongMax, true, rest)

/-- `strtoul(s, NULL, 10)`: the number, and whether `errno` is set to `ERANGE`. -/
def strtoul (s : CStr) : UInt64 × Bool :=
  match scanUl s with
  | none => (0, false)
  | some (v, e, _) => (v, e)

/-- `sscanf(s, "%lu%c", ..)`: the number, the character behind it, and `ERANGE`. -/
def sscanfUlChar (s : CStr) : Option (UInt64 × Option Char × Bool) :=
  (scanUl s).map fun (v, e, rest) => (v, rest.head?, e)

/-- `sscanf(s, "%u", ..)`: the number, and `ERANGE`. -/
def sscanfUint (s : CStr) : Option (UInt32 × Bool) :=
  (scanUl s).map fun (v, e, _) => (v.toUInt32, e)

/-! ## Reading digits -/

/-- Text that does not go on with a digit. -/
def NoDigitHead (s : CStr) : Prop := ∀ c rest, s = c :: rest → c.isDigit = false

theorem noDigitHead_nil : NoDigitHead [] := nofun

theorem noDigitHead_cons {c : Char} {rest : CStr} (h : c.isDigit = false) :
    NoDigitHead (c :: rest) := by
  rintro c' rest' ⟨⟩
  exact h

/-- Digits up to the first character that is none. -/
theorem takeWhile_digits {ds rest : CStr} (hd : ∀ c ∈ ds, c.isDigit = true)
    (hr : NoDigitHead rest) :
    (ds ++ rest).takeWhile Char.isDigit = ds ∧ (ds ++ rest).dropWhile Char.isDigit = rest := by
  rw [List.takeWhile_append_of_pos hd, List.dropWhile_append_of_pos hd]
  cases rest with
  | nil => simp
  | cons c r =>
    have hc := hr c r rfl
    rw [List.takeWhile_cons_of_neg (by rw [hc]; decide),
      List.dropWhile_cons_of_neg (by rw [hc]; decide), List.append_nil]
    exact ⟨rfl, rfl⟩

theorem decimal_toDigits (n : Nat) : decimal (Nat.toDigits 10 n) = n := by
  have h := Nat.ofDigitChars_ten_toDigits (n := n)
  rw [Nat.ofDigitChars_eq_foldl] at h
  exact h

theorem isDigit_of_mem_toDigits {n : Nat} : ∀ c ∈ Nat.toDigits 10 n, c.isDigit = true := by
  intro c hc
  exact Nat.isDigit_of_mem_toDigits (by decide) (by decide) hc

theorem strchr_append {c : Char} {pre post : CStr} (h : c ∉ pre) :
    strchr (pre ++ c :: post) c = some (pre, post) := by
  have hpre : ∀ x ∈ pre, (x != c) = true := by
    intro x hx
    rw [bne_iff_ne]
    rintro rfl
    exact h hx
  rw [strchr, List.takeWhile_append_of_pos hpre, List.dropWhile_append_of_pos hpre,
    List.takeWhile_cons_of_neg (by simp), List.dropWhile_cons_of_neg (by simp), List.append_nil]

theorem strchr_eq_none {c : Char} {s : CStr} (h : c ∉ s) : strchr s c = none := by
  have hnil : s.dropWhile (· != c) = [] := by
    rw [List.dropWhile_eq_nil_iff]
    intro x hx
    rw [bne_iff_ne]
    rintro rfl
    exact h hx
  rw [strchr, hnil]

/-- A string without the character, or the text around its first occurrence. -/
theorem strchr_cases (s : CStr) (c : Char) :
    (strchr s c = none ∧ c ∉ s) ∨
      ∃ pre post, strchr s c = some (pre, post) ∧ s = pre ++ c :: post ∧ c ∉ pre := by
  by_cases hc : c ∈ s
  · obtain ⟨pre, post, hs, hpre⟩ := List.eq_append_cons_of_mem hc
    exact .inr ⟨pre, post, by rw [hs]; exact strchr_append hpre, hs, hpre⟩
  · exact .inl ⟨strchr_eq_none hc, hc⟩

theorem toNat_of_isDigit {c : Char} (h : c.isDigit = true) : 48 ≤ c.toNat ∧ c.toNat ≤ 57 := by
  simp only [Char.isDigit, Bool.and_eq_true, decide_eq_true_eq, ge_iff_le, UInt32.le_iff_toNat_le]
    at h
  exact h

/-- A digit is neither white space nor a sign. -/
theorem not_isspace_of_isDigit {c : Char} (h : c.isDigit = true) :
    isspace c = false ∧ c ≠ '-' ∧ c ≠ '+' := by
  have hc := toNat_of_isDigit h
  refine ⟨?_, ?_, ?_⟩
  · have hne : c ≠ ' ' := by
      rintro rfl
      exact absurd h (by decide)
    simp [isspace, hne]
    omega
  · rintro rfl
    exact absurd h (by decide)
  · rintro rfl
    exact absurd h (by decide)

/-- No sign in front of a character that is none. -/
theorem scanSign_cons {c : Char} {s : CStr} (h : c ≠ '-' ∧ c ≠ '+') :
    scanSign (c :: s) = (false, c :: s) := by
  unfold scanSign
  split
  · next heq =>
    cases heq
    exact absurd rfl h.1
  · next heq =>
    cases heq
    exact absurd rfl h.2
  · rfl

/-- Digits followed by something else are read as their value. -/
theorem scanUl_digits {ds rest : CStr} (hne : ds ≠ []) (hd : ∀ c ∈ ds, c.isDigit = true)
    (hr : NoDigitHead rest) :
    scanUl (ds ++ rest) =
      if decimal ds < 2 ^ 64 then some (UInt64.ofNat (decimal ds), false, rest)
      else some (ulongMax, true, rest) := by
  obtain ⟨htake, hdrop⟩ := takeWhile_digits hd hr
  obtain ⟨c, ds', rfl⟩ := List.exists_cons_of_ne_nil hne
  have hc := not_isspace_of_isDigit (hd c (List.mem_cons_self ..))
  unfold scanUl
  rw [List.cons_append, List.dropWhile_cons_of_neg (by rw [hc.1]; decide), scanSign_cons hc.2,
    ← List.cons_append]
  dsimp only
  rw [htake, hdrop, if_neg hne]
  rfl

/-- There is no number where the text starts with neither space, sign nor digit. -/
theorem scanUl_eq_none {c : Char} {s : CStr} (hspace : isspace c = false) (hsign : c ≠ '-' ∧ c ≠ '+')
    (hdigit : c.isDigit = false) : scanUl (c :: s) = none := by
  unfold scanUl
  rw [List.dropWhile_cons_of_neg (by rw [hspace]; decide), scanSign_cons hsign]
  dsimp only
  rw [List.takeWhile_cons_of_neg (by rw [hdigit]; decide)]
  rfl

end Rtfsc.Machine
