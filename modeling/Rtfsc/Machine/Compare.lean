import Rtfsc.Machine.CString
import Mathlib.Data.Char
import Mathlib.Data.List.Lex

/-!
# Comparing byte strings, and signed decimal numbers

A byte string may hold NULs; the C functions that take a `char *` see only the part in front of the
first one. `memcmp` and `strcmp` are compared with the lexicographic order of the whole strings, and
`strtoll` with the canonical text of a number.
-/

namespace Rtfsc.Machine

/-- The byte that ends a C string. -/
def nul : Char := Char.ofNat 0

/-- What a `char *` to the bytes points to: the C string in front of the first NUL. -/
def cstr (s : CStr) : CStr := s.takeWhile (· != nul)

/-- `strcmp(s, t)`. -/
def strcmp : CStr → CStr → Int
  | [], [] => 0
  | [], d :: _ => -d.toNat
  | c :: _, [] => c.toNat
  | c :: s, d :: t => if c = d then strcmp s t else (c.toNat : Int) - d.toNat

/-- `memcmp(s, t, n)` of at least `n` bytes each. -/
def memcmp : CStr → CStr → Nat → Int
  | c :: s, d :: t, n + 1 => if c = d then memcmp s t n else (c.toNat : Int) - d.toNat
  | _, _, _ => 0

/-! ## The order they decide -/

/-- The sign of `r` is the result of comparing `s` with `t` byte by byte. -/
structure Orders (r : Int) (s t : CStr) : Prop where
  lt : r < 0 ↔ s < t
  gt : 0 < r ↔ t < s

theorem Orders.eq_zero {r : Int} {s t : CStr} (h : Orders r s t) : r = 0 ↔ s = t := by
  constructor
  · rintro rfl
    rcases lt_trichotomy s t with hlt | heq | hgt
    · exact absurd (h.lt.mpr hlt) (Int.lt_irrefl _)
    · exact heq
    · exact absurd (h.gt.mpr hgt) (Int.lt_irrefl _)
  · rintro rfl
    have hlt : ¬ r < 0 := fun hr => lt_irrefl s (h.lt.mp hr)
    have hgt : ¬ 0 < r := fun hr => lt_irrefl s (h.gt.mp hr)
    omega

theorem orders_of_eq {r : Int} {s : CStr} (h : r = 0) : Orders r s s := by
  subst h
  exact ⟨by simp, by simp⟩

theorem orders_of_lt {r : Int} {s t : CStr} (hr : r < 0) (h : s < t) : Orders r s t :=
  ⟨by simp [hr, h], by simp [Int.not_lt.mpr (Int.le_of_lt hr), h.le]⟩

theorem orders_of_gt {r : Int} {s t : CStr} (hr : 0 < r) (h : t < s) : Orders r s t :=
  ⟨by simp [Int.not_lt.mpr (Int.le_of_lt hr), h.le], by simp [hr, h]⟩

theorem toNat_lt_toNat {c d : Char} : c.toNat < d.toNat ↔ c < d := by
  rw [Char.lt_def, UInt32.lt_iff_toNat_lt]
  exact Iff.rfl

/-- Two strings that differ in their first byte. -/
theorem orders_head {c d : Char} (s t : CStr) (h : c ≠ d) :
    Orders ((c.toNat : Int) - d.toNat) (c :: s) (d :: t) := by
  rcases lt_or_gt_of_ne h with hlt | hgt
  · have := toNat_lt_toNat.mpr hlt
    exact orders_of_lt (by omega) (List.cons_lt_cons_iff.mpr (.inl hlt))
  · have := toNat_lt_toNat.mpr hgt
    exact orders_of_gt (by omega) (List.cons_lt_cons_iff.mpr (.inl hgt))

theorem Orders.cons {r : Int} {s t : CStr} (h : Orders r s t) (c : Char) :
    Orders r (c :: s) (c :: t) :=
  ⟨by simp [h.lt], by simp [h.gt]⟩

theorem toNat_pos {c : Char} (h : c ≠ nul) : 0 < c.toNat := by
  rcases Nat.eq_zero_or_pos c.toNat with h0 | hpos
  · exact absurd (Char.toNat_inj.mp (h0.trans (by decide))) h
  · exact hpos

/-- On strings without NUL `strcmp` decides the byte-wise order. -/
theorem strcmp_orders {s t : CStr} (hs : nul ∉ s) (ht : nul ∉ t) : Orders (strcmp s t) s t := by
  induction s generalizing t with
  | nil =>
    cases t with
    | nil => exact orders_of_eq rfl
    | cons d t =>
      have hd := toNat_pos (c := d) (by rintro rfl; exact ht (List.mem_cons_self ..))
      exact orders_of_lt (by simp only [strcmp]; omega) (List.nil_lt_cons _ _)
  | cons c s ih =>
    cases t with
    | nil =>
      have hc := toNat_pos (c := c) (by rintro rfl; exact hs (List.mem_cons_self ..))
      exact orders_of_gt (by simp only [strcmp]; omega) (List.nil_lt_cons _ _)
    | cons d t =>
      rw [strcmp]
      split
      · next hcd =>
        subst hcd
        exact (ih (List.not_mem_of_not_mem_cons hs) (List.not_mem_of_not_mem_cons ht)).cons c
      · next hcd => exact orders_head s t hcd

/-- Comparing the common length first and the lengths after it decides the byte-wise order. -/
theorem memcmp_orders (s t : CStr) :
    Orders (if memcmp s t (min s.length t.length) ≠ 0 then memcmp s t (min s.length t.length)
      else (s.length : Int) - t.length) s t := by
  induction s generalizing t with
  | nil =>
    cases t with
    | nil => exact orders_of_eq rfl
    | cons d t =>
      refine orders_of_lt ?_ (List.nil_lt_cons _ _)
      rw [List.length_nil, Nat.zero_min, memcmp, if_neg (by simp)]
      · simp only [List.length_cons]
        omega
      · intro _ _ _ _ _ h
        cases h
  | cons c s ih =>
    cases t with
    | nil =>
      refine orders_of_gt ?_ (List.nil_lt_cons _ _)
      rw [List.length_nil, Nat.min_zero, memcmp, if_neg (by simp)]
      · simp only [List.length_cons]
        omega
      · intro _ _ _ _ _ _ h
        cases h
    | cons d t =>
      rw [List.length_cons, List.length_cons, Nat.succ_min_succ, memcmp]
      by_cases hcd : c = d
      · subst hcd
        have h := (ih t).cons c
        simp only [↓reduceIte]
        have hlen : ((s.length + 1 : Nat) : Int) - (t.length + 1 : Nat) = s.length - t.length := by
          omega
        rwa [hlen]
      · have hne : (c.toNat : Int) - d.toNat ≠ 0 := by
          intro h0
          exact hcd (Char.toNat_inj.mp (by omega))
        rw [if_neg hcd, if_pos hne]
        exact orders_head s t hcd

/-! ## Behind the first NUL -/

theorem nul_notMem_cstr (s : CStr) : nul ∉ cstr s := by
  intro h
  have := List.mem_takeWhile_imp h
  simp at this

/-- A byte string without NUL is its own C string. -/
theorem cstr_eq_self {s : CStr} (h : nul ∉ s) : cstr s = s := by
  rw [cstr, List.takeWhile_eq_self_iff]
  intro c hc
  rw [bne_iff_ne]
  rintro rfl
  exact h hc

theorem cstr_append {s : CStr} (h : nul ∉ s) (t : CStr) : cstr (s ++ nul :: t) = s := by
  have hs : ∀ c ∈ s, (c != nul) = true := by
    intro c hc
    rw [bne_iff_ne]
    rintro rfl
    exact h hc
  rw [cstr, List.takeWhile_append_of_pos hs, List.takeWhile_cons_of_neg (by simp), List.append_nil]

/-- A byte string is its C string, or goes on behind a NUL. -/
theorem cstr_cases (s : CStr) : (nul ∉ s ∧ cstr s = s) ∨ ∃ t, s = cstr s ++ nul :: t := by
  by_cases h : nul ∈ s
  · obtain ⟨a, t, hs, ha⟩ := List.eq_append_cons_of_mem h
    refine .inr ⟨t, ?_⟩
    rw [hs, cstr_append ha]
  · exact .inl ⟨h, cstr_eq_self h⟩

/-- A string that stays below another one before that ends stays below whatever follows it. -/
theorem lt_append {s t : CStr} (h : s < t) (x : CStr) : s < t ++ x := by
  induction s generalizing t with
  | nil =>
    cases t with
    | nil => exact absurd h (lt_irrefl _)
    | cons d t => exact List.nil_lt_cons _ _
  | cons c s ih =>
    cases t with
    | nil => exact absurd h (List.not_lt_nil _)
    | cons d t =>
      rw [List.cons_append, List.cons_lt_cons_iff]
      rcases List.cons_lt_cons_iff.mp h with hcd | ⟨hcd, hst⟩
      · exact .inl hcd
      · exact .inr ⟨hcd, ih hst⟩

/-- A NUL and what follows it do not lift a string over one without NUL. -/
theorem append_nul_lt {s t : CStr} (h : t < s) (hs : nul ∉ s) (x : CStr) : t ++ nul :: x < s := by
  induction t generalizing s with
  | nil =>
    cases s with
    | nil => exact absurd h (lt_irrefl _)
    | cons c s =>
      have hc : nul < c := by
        rw [← toNat_lt_toNat]
        exact toNat_pos (by rintro rfl; exact hs (List.mem_cons_self ..))
      exact List.cons_lt_cons_iff.mpr (.inl hc)
  | cons d t ih =>
    cases s with
    | nil => exact absurd h (List.not_lt_nil _)
    | cons c s =>
      rw [List.cons_append, List.cons_lt_cons_iff]
      rcases List.cons_lt_cons_iff.mp h with hdc | ⟨hdc, hts⟩
      · exact .inl hdc
      · exact .inr ⟨hdc, ih hts (List.not_mem_of_not_mem_cons hs)⟩

/-- `strcmp` of a string without NUL and a byte string decides the byte-wise order unless the bytes
are that string with a NUL and possibly more behind it. -/
theorem strcmp_cstr_orders {s t : CStr} (hs : nul ∉ s) :
    Orders (strcmp s (cstr t)) s t ↔ ¬ (s ++ [nul]) <+: t := by
  have ho := strcmp_orders hs (nul_notMem_cstr t)
  rcases cstr_cases t with ⟨ht, hcstr⟩ | ⟨x, hx⟩
  · rw [hcstr] at ho ⊢
    refine ⟨fun _ hp => ht (hp.subset (by simp)), fun _ => ho⟩
  · constructor
    · rintro h ⟨y, rfl⟩
      rw [List.append_assoc, List.singleton_append, cstr_append hs] at h
      have h0 : strcmp s s = 0 := (strcmp_orders hs hs).eq_zero.mpr rfl
      have heq := h.eq_zero.mp h0
      have hlen := congrArg List.length heq
      simp at hlen
    · intro hp
      rcases lt_trichotomy s (cstr t) with hlt | heq | hgt
      · refine orders_of_lt (ho.lt.mpr hlt) ?_
        rw [hx]
        exact lt_append hlt _
      · refine absurd ⟨x, ?_⟩ hp
        rw [List.append_assoc, List.singleton_append, heq]
        exact hx.symm
      · refine orders_of_gt (ho.gt.mpr hgt) ?_
        rw [hx]
        exact append_nul_lt hgt hs x

theorem strcmp_comm (s t : CStr) : strcmp s t = -strcmp t s := by
  induction s generalizing t with
  | nil => cases t <;> simp [strcmp]
  | cons c s ih =>
    cases t with
    | nil => simp [strcmp]
    | cons d t =>
      rw [strcmp, strcmp]
      by_cases hcd : c = d
      · rw [if_pos hcd, if_pos hcd.symm]
        exact ih t
      · rw [if_neg hcd, if_neg (Ne.symm hcd)]
        omega

theorem Orders.swap {r : Int} {s t : CStr} (h : Orders r s t) : Orders (-r) t s :=
  ⟨by rw [← h.gt]; omega, by rw [← h.lt]; omega⟩

/-- The same with the byte string on the left. -/
theorem strcmp_cstr_orders_left {s t : CStr} (ht : nul ∉ t) :
    Orders (strcmp (cstr s) t) s t ↔ ¬ (t ++ [nul]) <+: s := by
  rw [← strcmp_cstr_orders ht, strcmp_comm]
  exact ⟨fun h => by simpa using h.swap, fun h => h.swap⟩

/-! ## Signed numbers -/

/-- `ERANGE`. -/
def erange : Int := 34

/-- `strtoll(s, &eptr, 10)`: the number, the text at `eptr`, and `errno` after the call. -/
def strtoll (s : CStr) (errno : Int) : Int64 × CStr × Int :=
  let (neg, u) := scanSign (s.dropWhile isspace)
  let ds := u.takeWhile Char.isDigit
  let rest := u.dropWhile Char.isDigit
  let n : Int := if neg then -(decimal ds : Int) else decimal ds
  if ds = [] then (0, s, errno)
  else if n < Int64.minValue.toInt then (Int64.minValue, rest, erange)
  else if Int64.maxValue.toInt < n then (Int64.maxValue, rest, erange)
  else (Int64.ofInt n, rest, errno)

/-- The canonical decimal text of a number: no leading zero, and a sign only when it is negative. -/
def decimalText (v : Int64) : CStr :=
  if v.toInt < 0 then '-' :: Nat.toDigits 10 v.toInt.natAbs else Nat.toDigits 10 v.toInt.natAbs

theorem nul_notMem_decimalText (v : Int64) : nul ∉ decimalText v := by
  have hdigits : nul ∉ Nat.toDigits 10 v.toInt.natAbs := by
    intro h
    exact absurd (isDigit_of_mem_toDigits _ h) (by decide)
  unfold decimalText
  split
  · rw [List.mem_cons]
    rintro (h | h)
    · exact absurd h (by decide)
    · exact hdigits h
  · exact hdigits

/-- What `strtoll` makes of an optional minus sign and digits. -/
theorem strtoll_digits (neg : Bool) {ds : CStr} (errno : Int) (hne : ds ≠ [])
    (hd : ∀ c ∈ ds, c.isDigit = true) {n : Int}
    (hn : n = if neg then -(decimal ds : Int) else decimal ds)
    (hlo : Int64.minValue.toInt ≤ n) (hhi : n ≤ Int64.maxValue.toInt) :
    strtoll (if neg then '-' :: ds else ds) errno = (Int64.ofInt n, [], errno) := by
  obtain ⟨htake, hdrop⟩ := takeWhile_digits hd noDigitHead_nil
  rw [List.append_nil] at htake hdrop
  obtain ⟨c, ds', rfl⟩ := List.exists_cons_of_ne_nil hne
  have hc := not_isspace_of_isDigit (hd c (List.mem_cons_self ..))
  have hscan : scanSign ((if neg = true then '-' :: c :: ds' else c :: ds').dropWhile isspace) =
      (neg, c :: ds') := by
    cases neg with
    | true => rfl
    | false =>
      rw [if_neg (by decide), List.dropWhile_cons_of_neg (by rw [hc.1]; decide)]
      exact scanSign_cons hc.2
  unfold strtoll
  rw [hscan]
  dsimp only
  rw [htake, hdrop, ← hn, if_neg hne, if_neg (Int.not_lt.mpr hlo),
    if_neg (Int.not_lt.mpr hhi)]

/-- In range `strtoll` leaves `errno` alone, out of range it sets it. -/
theorem strtoll_cases (s : CStr) :
    (∃ v rest, ∀ e, strtoll s e = (v, rest, e)) ∨
      ∃ v rest, (v = Int64.minValue ∨ v = Int64.maxValue) ∧ ∀ e, strtoll s e = (v, rest, erange) := by
  unfold strtoll
  generalize scanSign (s.dropWhile isspace) = p
  obtain ⟨neg, u⟩ := p
  dsimp only
  generalize (if neg = true then -(decimal (u.takeWhile Char.isDigit) : Int)
    else decimal (u.takeWhile Char.isDigit)) = n
  by_cases hds : u.takeWhile Char.isDigit = []
  · exact .inl ⟨0, s, fun e => by rw [if_pos hds]⟩
  by_cases hlo : n < Int64.minValue.toInt
  · exact .inr ⟨_, _, .inl rfl, fun e => by rw [if_neg hds, if_pos hlo]⟩
  by_cases hhi : Int64.maxValue.toInt < n
  · exact .inr ⟨_, _, .inr rfl, fun e => by rw [if_neg hds, if_neg hlo, if_pos hhi]⟩
  · exact .inl ⟨_, _, fun e => by rw [if_neg hds, if_neg hlo, if_neg hhi]⟩

/-- `strtoll` reads the canonical text of a number back and leaves `errno` alone. -/
theorem strtoll_decimalText (v : Int64) (errno : Int) :
    strtoll (decimalText v) errno = (v, [], errno) := by
  have hlo : Int64.minValue.toInt ≤ v.toInt := Int64.minValue_le_toInt v
  have hhi : v.toInt ≤ Int64.maxValue.toInt := Int64.toInt_le v
  have hsigned : v.toInt =
      if decide (v.toInt < 0) = true then -(v.toInt.natAbs : Int) else (v.toInt.natAbs : Int) := by
    split
    · next hneg => rw [Int.ofNat_natAbs_of_nonpos (Int.le_of_lt (of_decide_eq_true hneg)), Int.neg_neg]
    · next hpos =>
      rw [Int.natAbs_of_nonneg (Int.not_lt.mp fun hneg => hpos (decide_eq_true hneg))]
  have h := strtoll_digits (decide (v.toInt < 0)) errno
    (Nat.toDigits_ne_nil (n := v.toInt.natAbs) (b := 10)) isDigit_of_mem_toDigits (n := v.toInt)
    (by rw [decimal_toDigits]; exact hsigned) hlo hhi
  rw [Int64.ofInt_toInt] at h
  rw [← h, decimalText]
  simp only [decide_eq_true_eq]

/-- Different numbers have different texts. -/
theorem decimalText_inj {v w : Int64} (h : decimalText v = decimalText w) : v = w := by
  have hv := strtoll_decimalText v 0
  rw [h, strtoll_decimalText w 0] at hv
  exact (congrArg Prod.fst hv).symm

end Rtfsc.Machine
