import Rtfsc.Machine.Outcome

/-!
# Searches in a string

`find` and `rfind` of `basic_string` for a pattern. Positions are of type `size_type`; a position in the
memory of the string is the distance from `data()`. What is read outside of the characters of the string
or of the pattern is a fault.
-/

namespace Rtfsc.Stl

open Rtfsc.Machine

/-- Characters in memory. A string is at most `max_size()` long. -/
structure CharRange (α : Type) where
  chars : List α
  length_lt : chars.length < 2 ^ 63

variable {α : Type}

/-- `npos` -/
def npos : UInt64 := -1

namespace CharRange

/-- `size()` -/
def size (s : CharRange α) : UInt64 := UInt64.ofNat s.chars.length

/-- The pattern is at position `i`. -/
def OccursAt (s p : CharRange α) (i : Nat) : Prop :=
  i + p.chars.length ≤ s.chars.length ∧ (s.chars.drop i).take p.chars.length = p.chars

variable {s p : CharRange α}

@[simp] theorem toNat_size : s.size.toNat = s.chars.length :=
  UInt64.toNat_ofNat_of_lt' (Nat.lt_trans s.length_lt (by decide))

/-- The least position from `pos` on, or `npos`. -/
def FirstFrom (s p : CharRange α) (pos : Nat) (r : UInt64) : Prop :=
  (r = npos ∧ ∀ i, pos ≤ i → ¬s.OccursAt p i) ∨
    s.OccursAt p r.toNat ∧ pos ≤ r.toNat ∧ ∀ i, pos ≤ i → s.OccursAt p i → r.toNat ≤ i

/-- The greatest position up to `pos`, or `npos`. -/
def LastUpTo (s p : CharRange α) (pos : Nat) (r : UInt64) : Prop :=
  (r = npos ∧ ∀ i, i ≤ pos → ¬s.OccursAt p i) ∨
    s.OccursAt p r.toNat ∧ r.toNat ≤ pos ∧ ∀ i, i ≤ pos → s.OccursAt p i → i ≤ r.toNat

/-- A position is not `npos`. -/
theorem OccursAt.ne_npos {r : UInt64} (h : s.OccursAt p r.toNat) : r ≠ npos := by
  rintro rfl
  have hlen := h.1
  have := s.length_lt
  have hnpos : npos.toNat = 2 ^ 64 - 1 := rfl
  omega

/-- The search may start later when the pattern is not at the positions before. -/
theorem FirstFrom.extend {pos pos' : Nat} {r : UInt64} (h : FirstFrom s p pos' r) (hle : pos ≤ pos')
    (hnone : ∀ i, pos ≤ i → i < pos' → ¬s.OccursAt p i) : FirstFrom s p pos r := by
  rcases h with ⟨rfl, h⟩ | ⟨hocc, hge, hleast⟩
  · refine .inl ⟨rfl, fun i hi => ?_⟩
    rcases Nat.lt_or_ge i pos' with hlt | hge
    · exact hnone i hi hlt
    · exact h i hge
  · refine .inr ⟨hocc, by omega, fun i hi hi' => ?_⟩
    rcases Nat.lt_or_ge i pos' with hlt | hge'
    · exact absurd hi' (hnone i hi hlt)
    · exact hleast i hge' hi'

/-- It may end earlier when the pattern is not at the positions behind. -/
theorem LastUpTo.extend {pos pos' : Nat} {r : UInt64} (h : LastUpTo s p pos' r) (hle : pos' ≤ pos)
    (hnone : ∀ i, pos' < i → i ≤ pos → ¬s.OccursAt p i) : LastUpTo s p pos r := by
  rcases h with ⟨rfl, h⟩ | ⟨hocc, hge, hmost⟩
  · refine .inl ⟨rfl, fun i hi => ?_⟩
    rcases Nat.lt_or_ge pos' i with hlt | hge
    · exact hnone i hlt hi
    · exact h i hge
  · refine .inr ⟨hocc, by omega, fun i hi hi' => ?_⟩
    rcases Nat.lt_or_ge pos' i with hlt | hge'
    · exact absurd hi' (hnone i hlt hi)
    · exact hmost i hge' hi'

/-- Where the pattern is, its first character is. -/
theorem OccursAt.head {i : Nat} {a : α} (h : s.OccursAt p i) (ha : p.chars[0]? = some a) :
    s.chars[i]? = some a := by
  have hpos : 0 < p.chars.length := (List.getElem?_eq_some_iff.mp ha).1
  rw [← h.2, List.getElem?_take_of_lt hpos, List.getElem?_drop, Nat.add_zero] at ha
  exact ha

end CharRange

/-! ## The code -/

/-- The characters from `i` on are looked at, `n` of them. -/
def readChars (s : List α) (i n : Nat) : Outcome (List α) :=
  if i + n ≤ s.length then .ok ((s.drop i).take n) else .error (.outOfBounds (i + n))

theorem readChars_of_le {s : List α} {i n : Nat} (h : i + n ≤ s.length) :
    readChars s i n = .ok ((s.drop i).take n) :=
  if_pos h

variable [DecidableEq α]

/-- `traits_type::find` -/
def traitsFind (s : List α) (first : Nat) (n : UInt64) (a : α) : Outcome (Option Nat) := do
  let chars ← readChars s first n.toNat
  return (chars.idxOf? a).map (first + ·)

/-- `traits_type::compare`, as far as it is 0 or not -/
def traitsCompare (s : List α) (i : Nat) (p : List α) (n : UInt64) : Outcome Bool := do
  let chars ← readChars s i n.toNat
  let pattern ← readChars p 0 n.toNat
  return chars == pattern

theorem traitsFind_eq_some {s : List α} {first q : Nat} {n : UInt64} {a : α}
    (h : traitsFind s first n a = .ok (some q)) : first ≤ q ∧ q < s.length := by
  unfold traitsFind readChars at h
  split at h
  next hin =>
    obtain ⟨i, hi, rfl⟩ := Option.map_eq_some_iff.mp (Except.ok.inj h)
    have hlt : i < ((s.drop first).take n.toNat).length :=
      (List.findIdx?_eq_some_iff_findIdx_eq.mp hi).1
    rw [List.length_take, List.length_drop] at hlt
    omega
  next => cases h

/-- The loop of `find`. -/
def findLoop (s p : CharRange α) (elem0 : α) (first : Nat) (len : UInt64) : Outcome UInt64 :=
  if len ≥ p.size then
    match _hfind : traitsFind s.chars first (len - p.size + 1) elem0 with
    | .error e => .error e
    | .ok none => .ok npos
    | .ok (some first') =>
      match traitsCompare s.chars first' p.chars p.size with
      | .error e => .error e
      | .ok true => .ok (UInt64.ofNat first')
      | .ok false => findLoop s p elem0 (first' + 1) (s.size - UInt64.ofNat (first' + 1))
  else .ok npos
termination_by s.chars.length - first
decreasing_by
  have hbounds := traitsFind_eq_some _hfind
  omega

/-- `find(__s, __pos, __n)` -/
def stringFind (s p : CharRange α) (pos : UInt64) : Outcome UInt64 :=
  if p.size = 0 then .ok (if pos ≤ s.size then pos else npos)
  else if pos ≥ s.size then .ok npos
  else
    match p.chars[0]? with
    | none => .error (.outOfBounds 0)
    | some elem0 => findLoop s p elem0 pos.toNat (s.size - pos)

/-- The loop of `rfind`. -/
def rfindLoop (s p : CharRange α) (pos : UInt64) : Outcome UInt64 :=
  match traitsCompare s.chars pos.toNat p.chars p.size with
  | .error e => .error e
  | .ok true => .ok pos
  | .ok false => if pos > 0 then rfindLoop s p (pos - 1) else .ok npos
termination_by pos.toNat
decreasing_by
  have hpos : 0 < pos.toNat := by
    have := UInt64.lt_iff_toNat_lt.mp ‹pos > 0›
    simpa using this
  rw [UInt64.toNat_sub_of_le _ _ (by rw [UInt64.le_iff_toNat_le]; exact hpos)]
  exact Nat.sub_lt hpos Nat.one_pos

/-- `rfind(__s, __pos, __n)` -/
def stringRfind (s p : CharRange α) (pos : UInt64) : Outcome UInt64 :=
  if p.size ≤ s.size then rfindLoop s p (min (s.size - p.size) pos) else .ok npos

/-! ## What is found -/

section Traits

variable {s : List α} {p : List α} {first i : Nat} {n : UInt64} {a : α}

theorem traitsCompare_of_le (h : i + p.length ≤ s.length) (hn : n.toNat = p.length) :
    traitsCompare s i p n = .ok ((s.drop i).take p.length == p) := by
  have hp : readChars p 0 n.toNat = .ok p := by
    rw [readChars_of_le (by omega), hn, List.drop_zero, List.take_length]
  rw [traitsCompare, hp, hn, readChars_of_le h]
  rfl

/-- The first place of a character among some, if there is one. -/
theorem traitsFind_of_le (h : first + n.toNat ≤ s.length) :
    (traitsFind s first n a = .ok none ∧ ∀ k, k < n.toNat → s[first + k]? ≠ some a) ∨
      ∃ k < n.toNat, traitsFind s first n a = .ok (some (first + k)) ∧
        ∀ j < k, s[first + j]? ≠ some a := by
  have hread : ∀ k < n.toNat, ((s.drop first).take n.toNat)[k]? = s[first + k]? := by
    intro k hk
    rw [List.getElem?_take_of_lt hk, List.getElem?_drop]
  have hlen : ((s.drop first).take n.toNat).length = n.toNat := by
    rw [List.length_take, List.length_drop]
    omega
  have hfind : traitsFind s first n a =
      .ok ((((s.drop first).take n.toNat).idxOf? a).map (first + ·)) := by
    rw [traitsFind, readChars_of_le h]
    rfl
  rw [hfind]
  cases hidx : ((s.drop first).take n.toNat).idxOf? a with
  | none =>
    refine .inl ⟨rfl, fun k hk hsome => ?_⟩
    rw [← hread k hk] at hsome
    exact List.idxOf?_eq_none_iff.mp hidx (List.mem_of_getElem? hsome)
  | some k =>
    obtain ⟨hlt, hk, hbefore⟩ := List.findIdx?_eq_some_iff_getElem.mp hidx
    rw [hlen] at hlt
    refine .inr ⟨k, hlt, rfl, fun j hj hsome => ?_⟩
    rw [← hread j (by omega)] at hsome
    have hne := hbefore j hj
    rw [List.getElem?_eq_some_iff] at hsome
    obtain ⟨hj', heq⟩ := hsome
    exact hne (beq_iff_eq.mpr heq)

end Traits

variable {s p : CharRange α} {pos : UInt64}

/-- The loop of `find`: from `first` on the whole rest of the string is searched. -/
theorem findLoop_spec {elem0 : α} (helem : p.chars[0]? = some elem0) {first : Nat} {len : UInt64}
    (hfirst : first ≤ s.chars.length) (hlen : len.toNat = s.chars.length - first) :
    ∃ r, findLoop s p elem0 first len = .ok r ∧ s.FirstFrom p first r := by
  have hs := s.length_lt
  have hpos : 0 < p.chars.length := (List.getElem?_eq_some_iff.mp helem).1
  induction hrest : s.chars.length - first using Nat.strong_induction_on generalizing first len with
  | _ rest ih =>
    unfold findLoop
    by_cases hlong : len ≥ p.size
    · rw [if_pos hlong]
      have hfits : p.chars.length ≤ s.chars.length - first := by
        have := UInt64.le_iff_toNat_le.mp hlong
        rwa [CharRange.toNat_size, hlen] at this
      have hwindow : (len - p.size + 1).toNat = s.chars.length - first - p.chars.length + 1 := by
        rw [UInt64.toNat_add, UInt64.toNat_sub_of_le _ _ hlong, CharRange.toNat_size, hlen]
        exact Nat.mod_eq_of_lt (by simp only [UInt64.toNat_one]; omega)
      have hread : first + (len - p.size + 1).toNat ≤ s.chars.length := by omega
      rcases traitsFind_of_le (a := elem0) hread with ⟨hfind, hnone⟩ | ⟨k, hk, hfind, hbefore⟩
      · -- the first character of the pattern is nowhere in the window
        refine ⟨npos, ?_, .inl ⟨rfl, fun i hi hocc => ?_⟩⟩
        · split <;> simp_all
        · have hin := hocc.1
          refine hnone (i - first) (by omega) ?_
          rw [Nat.add_sub_cancel' hi]
          exact hocc.head helem
      · have hskipped : ∀ i, first ≤ i → i < first + k → ¬s.OccursAt p i := by
          intro i hi hlt hocc
          refine hbefore (i - first) (by omega) ?_
          rw [Nat.add_sub_cancel' hi]
          exact hocc.head helem
        have hin : first + k + p.chars.length ≤ s.chars.length := by omega
        have hcmp := traitsCompare_of_le hin (CharRange.toNat_size (s := p))
        split
        next e he => simp [hfind] at he
        next he => simp [hfind] at he
        next first' he =>
          obtain rfl : first + k = first' := by simpa [hfind] using he
          rw [hcmp]
          by_cases heq : (s.chars.drop (first + k)).take p.chars.length = p.chars
          · rw [beq_iff_eq.mpr heq]
            have hnat : (UInt64.ofNat (first + k)).toNat = first + k :=
              UInt64.toNat_ofNat_of_lt' (Nat.lt_of_le_of_lt (by omega) (Nat.lt_trans hs (by decide)))
            refine ⟨_, rfl, .inr ?_⟩
            rw [hnat]
            refine ⟨⟨hin, heq⟩, Nat.le_add_right _ _, fun i hi hocc => ?_⟩
            by_contra hlt
            exact hskipped i hi (Nat.not_le.mp hlt) hocc
          · rw [beq_eq_false_iff_ne.mpr heq]
            have hnat : (UInt64.ofNat (first + k + 1)).toNat = first + k + 1 :=
              UInt64.toNat_ofNat_of_lt' (Nat.lt_of_le_of_lt (by omega) (Nat.lt_trans hs (by decide)))
            have hnext : (s.size - UInt64.ofNat (first + k + 1)).toNat =
                s.chars.length - (first + k + 1) := by
              rw [UInt64.toNat_sub_of_le _ _ (UInt64.le_iff_toNat_le.mpr ?_), hnat,
                CharRange.toNat_size]
              rw [hnat, CharRange.toNat_size]
              omega
            obtain ⟨r, hr, hspec⟩ := ih _ (by omega) (by omega) hnext rfl
            refine ⟨r, hr, hspec.extend (by omega) fun i hi hlt hocc => ?_⟩
            rcases Nat.lt_or_ge i (first + k) with hi' | hi'
            · exact hskipped i hi hi' hocc
            · obtain rfl : i = first + k := by omega
              exact heq hocc.2
    · rw [if_neg hlong]
      refine ⟨npos, rfl, .inl ⟨rfl, fun i hi hocc => hlong ?_⟩⟩
      have hin := hocc.1
      rw [ge_iff_le, UInt64.le_iff_toNat_le, CharRange.toNat_size, hlen]
      omega

theorem stringFind_spec (s p : CharRange α) (pos : UInt64) :
    ∃ r, stringFind s p pos = .ok r ∧ s.FirstFrom p pos.toNat r := by
  unfold stringFind
  have hle : pos ≤ s.size ↔ pos.toNat ≤ s.chars.length := by
    rw [UInt64.le_iff_toNat_le, CharRange.toNat_size]
  split
  next hzero =>
    have hnil : p.chars.length = 0 := by
      rw [← CharRange.toNat_size, hzero]
      rfl
    refine ⟨_, rfl, ?_⟩
    split
    next hpos =>
      refine .inr ⟨⟨?_, ?_⟩, Nat.le_refl _, fun i hi _ => hi⟩
      · rw [hnil]
        exact hle.mp hpos
      · rw [hnil, List.take_zero, List.eq_nil_of_length_eq_zero hnil]
    next hpos =>
      refine .inl ⟨rfl, fun i hi hocc => hpos (hle.mpr ?_)⟩
      have hin := hocc.1
      omega
  next hne =>
    have hpat : 0 < p.chars.length := by
      refine Nat.pos_of_ne_zero fun hzero => hne ?_
      rw [← UInt64.toNat_inj, CharRange.toNat_size, hzero]
      rfl
    split
    next hpos =>
      refine ⟨npos, rfl, .inl ⟨rfl, fun i hi hocc => ?_⟩⟩
      have hin := hocc.1
      have := UInt64.le_iff_toNat_le.mp hpos
      rw [CharRange.toNat_size] at this
      omega
    next hpos =>
      have hlt : pos.toNat < s.chars.length := by
        rw [← CharRange.toNat_size, ← UInt64.lt_iff_toNat_lt]
        exact UInt64.not_le.mp hpos
      have hlen : (s.size - pos).toNat = s.chars.length - pos.toNat := by
        rw [UInt64.toNat_sub_of_le _ _ (hle.mpr (Nat.le_of_lt hlt)), CharRange.toNat_size]
      have helem : p.chars[0]? = some p.chars[0] := List.getElem?_eq_getElem hpat
      rw [helem]
      exact findLoop_spec helem (Nat.le_of_lt hlt) hlen

/-- The loop of `rfind`. -/
theorem rfindLoop_spec (hin : pos.toNat + p.chars.length ≤ s.chars.length) :
    ∃ r, rfindLoop s p pos = .ok r ∧ s.LastUpTo p pos.toNat r := by
  induction hk : pos.toNat generalizing pos with
  | zero =>
    unfold rfindLoop
    rw [traitsCompare_of_le hin CharRange.toNat_size]
    by_cases heq : (s.chars.drop pos.toNat).take p.chars.length = p.chars
    · rw [beq_iff_eq.mpr heq]
      refine ⟨pos, rfl, .inr ⟨⟨hin, heq⟩, by omega, fun i hi _ => by omega⟩⟩
    · rw [beq_eq_false_iff_ne.mpr heq]
      have hzero : ¬pos > 0 := by
        rw [gt_iff_lt, UInt64.lt_iff_toNat_lt, hk]
        exact Nat.lt_irrefl _
      refine ⟨npos, if_neg hzero, .inl ⟨rfl, fun i hi hocc => heq ?_⟩⟩
      obtain rfl : i = pos.toNat := by omega
      exact hocc.2
  | succ k ih =>
    unfold rfindLoop
    rw [traitsCompare_of_le hin CharRange.toNat_size]
    by_cases heq : (s.chars.drop pos.toNat).take p.chars.length = p.chars
    · rw [beq_iff_eq.mpr heq]
      refine ⟨pos, rfl, .inr ⟨⟨hin, heq⟩, by omega, fun i hi _ => by omega⟩⟩
    · rw [beq_eq_false_iff_ne.mpr heq]
      have hpos : pos > 0 := by
        rw [gt_iff_lt, UInt64.lt_iff_toNat_lt, hk]
        exact Nat.succ_pos _
      have hprev : (pos - 1).toNat = k := by
        rw [UInt64.toNat_sub_of_le _ _ (UInt64.le_iff_toNat_le.mpr ?_), hk]
        · rfl
        · rw [hk]
          exact Nat.succ_le_succ (Nat.zero_le _)
      obtain ⟨r, hr, hspec⟩ := ih (by omega) hprev
      refine ⟨r, ?_, hspec.extend (Nat.le_succ k) fun i hi hi' hocc => heq ?_⟩
      · rw [← hr]
        exact if_pos hpos
      · obtain rfl : i = pos.toNat := by omega
        exact hocc.2

theorem stringRfind_spec (s p : CharRange α) (pos : UInt64) :
    ∃ r, stringRfind s p pos = .ok r ∧ s.LastUpTo p pos.toNat r := by
  unfold stringRfind
  split
  next hle =>
    have hfits : p.chars.length ≤ s.chars.length := by
      have := UInt64.le_iff_toNat_le.mp hle
      rwa [CharRange.toNat_size, CharRange.toNat_size] at this
    have hmin : (min (s.size - p.size) pos).toNat =
        min (s.chars.length - p.chars.length) pos.toNat := by
      have hsub : (s.size - p.size).toNat = s.chars.length - p.chars.length := by
        rw [UInt64.toNat_sub_of_le _ _ hle, CharRange.toNat_size, CharRange.toNat_size]
      by_cases hpos : s.size - p.size ≤ pos
      · have hnat := UInt64.le_iff_toNat_le.mp hpos
        rw [show min (s.size - p.size) pos = s.size - p.size from if_pos hpos, hsub,
          Nat.min_eq_left (by omega)]
      · have hnat := UInt64.lt_iff_toNat_lt.mp (UInt64.not_le.mp hpos)
        rw [show min (s.size - p.size) pos = pos from if_neg hpos, Nat.min_eq_right (by omega)]
    have hin : (min (s.size - p.size) pos).toNat + p.chars.length ≤ s.chars.length := by
      rw [hmin]
      omega
    obtain ⟨r, hr, hspec⟩ := rfindLoop_spec hin
    rw [hmin] at hspec
    refine ⟨r, hr, hspec.extend (Nat.min_le_right _ _) fun i hi hi' hocc => ?_⟩
    have hin := hocc.1
    omega
  next hlt =>
    refine ⟨npos, rfl, .inl ⟨rfl, fun i _ hocc => hlt ?_⟩⟩
    have hin := hocc.1
    rw [UInt64.le_iff_toNat_le, CharRange.toNat_size, CharRange.toNat_size]
    omega

/-- `find` and `rfind` have the least position from `pos` on and the greatest one up to `pos`, `npos`
exactly when there is none, and read nothing but the string and the pattern. -/
theorem stringFind_stringRfind (s p : CharRange α) (pos : UInt64) :
    (∃ r, stringFind s p pos = .ok r ∧ s.FirstFrom p pos.toNat r ∧
      (r = npos ↔ ∀ i, pos.toNat ≤ i → ¬s.OccursAt p i)) ∧
    ∃ r, stringRfind s p pos = .ok r ∧ s.LastUpTo p pos.toNat r ∧
      (r = npos ↔ ∀ i, i ≤ pos.toNat → ¬s.OccursAt p i) := by
  obtain ⟨r, hr, hfirst⟩ := stringFind_spec s p pos
  obtain ⟨r', hr', hlast⟩ := stringRfind_spec s p pos
  refine ⟨⟨r, hr, hfirst, ?_⟩, r', hr', hlast, ?_⟩
  · rcases hfirst with ⟨rfl, hnone⟩ | ⟨hocc, hge, -⟩
    · exact iff_of_true rfl hnone
    · exact iff_of_false hocc.ne_npos fun hnone => hnone _ hge hocc
  · rcases hlast with ⟨rfl, hnone⟩ | ⟨hocc, hle, -⟩
    · exact iff_of_true rfl hnone
    · exact iff_of_false hocc.ne_npos fun hnone => hnone _ hle hocc

end Rtfsc.Stl
