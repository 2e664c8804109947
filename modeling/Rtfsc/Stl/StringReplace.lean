import Mathlib.Data.List.Basic
import Mathlib.Data.List.GetD

/-!
# Replacing a part of a string

`_M_replace` of `basic_string`, where the new characters may be some of the string itself. Places in the
buffer of the string are distances from `_M_data()`, so that a source is either a place in it or a list of
characters elsewhere.

A `_S_copy` between overlapping places and any access outside of the buffer end a call with an error of
their own, next to those that the code throws. With a source among the characters of the string they never
come up (`replace_result`). With one that takes in the terminating null they do not either, but the result
is wrong (`replace_terminator`).
-/

namespace Rtfsc.Stl

/-- What a call ends with that does not return. -/
inductive StringError
  | lengthError
  | badAlloc
  | overlap
  | outOfBounds
deriving DecidableEq, Repr

/-- `max_size()`, and what the allocator gives for a number of characters: the cells as they are then, or
nothing. -/
structure StringEnv (α : Type) where
  maxSize : Nat
  allocate : Nat → Option (Nat → α)

/-- The buffer has one cell more than the capacity. -/
structure BasicString (α : Type) where
  cells : Nat → α
  length : Nat
  capacity : Nat
  length_le : length ≤ capacity

/-- `__s` and `__len2`. -/
inductive StringSource (α : Type)
  | own (off len : Nat)
  | outside (chars : List α)

namespace StringSource

variable {α : Type}

def length : StringSource α → Nat
  | .own _ len => len
  | .outside chars => chars.length

/-- What a copy of the source would have, taken before the call. -/
def chars (cells : Nat → α) : StringSource α → List α
  | .own off len => (List.range len).map fun i => cells (off + i)
  | .outside chars => chars

end StringSource

variable {α : Type}

/-! ## Cells -/

/-- `_S_move` in a buffer of `capacity + 1` cells. -/
def moveCells (capacity : Nat) (cells : Nat → α) (d s n : Nat) : Except StringError (Nat → α) :=
  if d + n ≤ capacity + 1 ∧ s + n ≤ capacity + 1 then
    .ok fun b => if d ≤ b ∧ b < d + n then cells (s + (b - d)) else cells b
  else .error .outOfBounds

/-- `_S_copy` in one buffer. -/
def copyCells (capacity : Nat) (cells : Nat → α) (d s n : Nat) : Except StringError (Nat → α) :=
  if s < d + n ∧ d < s + n then .error .overlap else moveCells capacity cells d s n

/-- `_S_copy` from elsewhere. -/
def putChars (capacity : Nat) (cells : Nat → α) (d : Nat) (chars : List α) :
    Except StringError (Nat → α) :=
  if d + chars.length ≤ capacity + 1 then
    .ok fun b => if d ≤ b then chars.getD (b - d) (cells b) else cells b
  else .error .outOfBounds

/-- `n` characters of a buffer, as they are read for a copy to another one. -/
def getChars (capacity : Nat) (cells : Nat → α) (s n : Nat) : Except StringError (List α) :=
  if s + n ≤ capacity + 1 then .ok ((StringSource.own s n).chars cells) else .error .outOfBounds

/-- `_S_copy` to another buffer, if there are characters. -/
def putSome (capacity : Nat) (cells : Nat → α) (d n : Nat) (chars : Except StringError (List α)) :
    Except StringError (Nat → α) :=
  if n ≠ 0 then chars.bind (putChars capacity cells d) else .ok cells

/-! ## The code -/

namespace BasicString

variable (env : StringEnv α) (s : BasicString α)

def chars : List α := (List.range s.length).map s.cells

/-- `_M_check_length`. No string is longer than `max_size()`. -/
def checkLength (len1 len2 : Nat) : Except StringError Unit :=
  if env.maxSize - (s.length - len1) < len2 then .error .lengthError else .ok ()

/-- `_M_create`: the capacity and the cells. -/
def create (capacity oldCapacity : Nat) : Except StringError (Nat × (Nat → α)) :=
  if capacity > env.maxSize then .error .lengthError
  else
    let capacity :=
      if capacity > oldCapacity ∧ capacity < 2 * oldCapacity then min (2 * oldCapacity) env.maxSize
      else capacity
    match env.allocate (capacity + 1) with
    | none => .error .badAlloc
    | some cells => .ok (capacity, cells)

/-- `_M_disjunct`, for a place in the buffer. What is elsewhere is before `_M_data()` or behind all of the
buffer. -/
def disjunct (off : Nat) : Bool := s.length < off

/-- `_S_copy` of the source to a buffer that is the string's own. -/
def copySource (cells : Nat → α) (d : Nat) : StringSource α → Except StringError (Nat → α)
  | .own off len => copyCells s.capacity cells d off len
  | .outside chars => putChars s.capacity cells d chars

/-- The characters behind the hole go to where they come in the result. -/
def moveTail (cells : Nat → α) (pos len1 len2 : Nat) : Except StringError (Nat → α) :=
  if s.length - pos - len1 ≠ 0 ∧ len1 ≠ len2 then
    moveCells s.capacity cells (pos + len2) (pos + len1) (s.length - pos - len1)
  else .ok cells

/-- The branch of `_M_replace` for a source that is not in the string. -/
def replaceDisjunct (pos len1 : Nat) (src : StringSource α) : Except StringError (Nat → α) := do
  let cells ← s.moveTail s.cells pos len1 src.length
  if src.length ≠ 0 then s.copySource cells pos src else return cells

/-- In place, a source that is not longer than the hole goes into it first. -/
def moveShort (pos len1 off len2 : Nat) : Except StringError (Nat → α) :=
  if len2 ≠ 0 ∧ len2 ≤ len1 then moveCells s.capacity s.cells pos off len2 else .ok s.cells

/-- One that is longer comes last, from where it is then: before the end of the hole, behind it, or one part
before and the other behind. -/
def moveLong (cells : Nat → α) (pos len1 off len2 : Nat) : Except StringError (Nat → α) :=
  if len2 > len1 then
    if off + len2 ≤ pos + len1 then moveCells s.capacity cells pos off len2
    else if off ≥ pos + len1 then copyCells s.capacity cells pos (off + len2 - len1) len2
    else do
      let nleft := pos + len1 - off
      let cells ← moveCells s.capacity cells pos off nleft
      copyCells s.capacity cells (pos + nleft) (pos + len2) (len2 - nleft)
  else .ok cells

/-- The branch that works in place, for the source at `off`. -/
def replaceOwn (pos len1 off len2 : Nat) : Except StringError (Nat → α) := do
  let cells ← s.moveShort pos len1 off len2
  let cells ← s.moveTail cells pos len1 len2
  s.moveLong cells pos len1 off len2

/-- The characters of the source. -/
def readSource : StringSource α → Except StringError (List α)
  | .own off len => getChars s.capacity s.cells off len
  | .outside chars => .ok chars

/-- `_M_mutate`: the capacity and the cells. -/
def mutate (pos len1 : Nat) (src : StringSource α) : Except StringError (Nat × (Nat → α)) := do
  let len2 := src.length
  let howMuch := s.length - pos - len1
  let (capacity, r) ← create env (s.length + len2 - len1) s.capacity
  let r ← putSome capacity r 0 pos (getChars s.capacity s.cells 0 pos)
  let r ← putSome capacity r pos len2 (s.readSource src)
  let r ← putSome capacity r (pos + len2) howMuch (getChars s.capacity s.cells (pos + len1) howMuch)
  return (capacity, r)

/-- `_M_set_length`. -/
def setLength (nul : α) (cells : Nat → α) (capacity n : Nat) : Except StringError (BasicString α) :=
  if h : n ≤ capacity then .ok ⟨fun b => if b = n then nul else cells b, n, capacity, h⟩
  else .error .outOfBounds

/-- `_M_replace`, where `nul` is `_CharT()`. -/
def replace (nul : α) (pos len1 : Nat) (src : StringSource α) : Except StringError (BasicString α) := do
  s.checkLength env len1 src.length
  let newSize := s.length + src.length - len1
  if newSize ≤ s.capacity then
    let cells ←
      match src with
      | .own off len2 =>
        if s.disjunct off then s.replaceDisjunct pos len1 (.own off len2)
        else s.replaceOwn pos len1 off len2
      | .outside chars => s.replaceDisjunct pos len1 (.outside chars)
    setLength nul cells s.capacity newSize
  else
    let (capacity, cells) ← s.mutate env pos len1 src
    setLength nul cells capacity newSize

end BasicString

/-! ## What comes out -/

section Cells

variable {capacity d s n : Nat} {cells : Nat → α} {chars : List α}

theorem moveCells_of_le (hd : d + n ≤ capacity + 1) (hs : s + n ≤ capacity + 1) :
    moveCells capacity cells d s n =
      .ok fun b => if d ≤ b ∧ b < d + n then cells (s + (b - d)) else cells b :=
  if_pos ⟨hd, hs⟩

theorem copyCells_of_le (hd : d + n ≤ capacity + 1) (hs : s + n ≤ capacity + 1)
    (hapart : d + n ≤ s ∨ s + n ≤ d) :
    copyCells capacity cells d s n =
      .ok fun b => if d ≤ b ∧ b < d + n then cells (s + (b - d)) else cells b := by
  rw [copyCells, if_neg (by omega), moveCells_of_le hd hs]

theorem putChars_of_le (hd : d + chars.length ≤ capacity + 1) :
    putChars capacity cells d chars =
      .ok fun b => if d ≤ b then chars.getD (b - d) (cells b) else cells b :=
  if_pos hd

theorem getChars_of_le (hs : s + n ≤ capacity + 1) :
    getChars capacity cells s n = .ok ((StringSource.own s n).chars cells) :=
  if_pos hs

theorem own_chars_length : ((StringSource.own s n).chars cells).length = n := by
  simp [StringSource.chars]

theorem own_chars_getD {k : Nat} {x : α} :
    ((StringSource.own s n).chars cells).getD k x = if k < n then cells (s + k) else x := by
  rw [List.getD_eq_getElem?_getD]
  split
  next hk => simp [StringSource.chars, hk]
  next hk => simp [StringSource.chars, Nat.not_lt.mp hk]

end Cells

@[simp] theorem source_chars_length {cells : Nat → α} {src : StringSource α} :
    (src.chars cells).length = src.length := by
  cases src with
  | own off len => exact own_chars_length
  | outside chars => rfl

namespace BasicString

variable {env : StringEnv α} {s : BasicString α} {nul : α} {pos len1 off len2 : Nat}
  {src : StringSource α} {cells : Nat → α}

/-- The cells of the result: the source between what was before the hole and what was behind it. -/
structure Replaced (s : BasicString α) (pos len1 : Nat) (src : StringSource α) (cells : Nat → α) :
    Prop where
  before : ∀ i < pos, cells i = s.cells i
  new : ∀ k < src.length, ∀ x, (src.chars s.cells).getD k x = cells (pos + k)
  behind : ∀ k < s.length - pos - len1, cells (pos + src.length + k) = s.cells (pos + len1 + k)

theorem Replaced.chars (h : s.Replaced pos len1 src cells) (hin : pos + len1 ≤ s.length) :
    (List.range (s.length + src.length - len1)).map cells =
      s.chars.take pos ++ src.chars s.cells ++ s.chars.drop (pos + len1) := by
  have hsize : s.length + src.length - len1 = pos + src.length + (s.length - pos - len1) := by omega
  have hbefore : (List.range pos).map cells = s.chars.take pos := by
    rw [BasicString.chars, ← List.map_take, List.take_range, Nat.min_eq_left (by omega)]
    exact List.map_congr_left fun i hi => h.before i (List.mem_range.mp hi)
  have hnew : (List.range src.length).map (fun k => cells (pos + k)) = src.chars s.cells := by
    refine List.ext_getElem (by simp) fun k hk hk' => ?_
    rw [source_chars_length] at hk'
    rw [List.getElem_map, List.getElem_range, ← h.new k hk' (cells 0), List.getD_eq_getElem]
  have hbehind : (List.range (s.length - pos - len1)).map (fun k => cells (pos + src.length + k)) =
      s.chars.drop (pos + len1) := by
    refine List.ext_getElem (by simp [BasicString.chars]; omega) fun k hk hk' => ?_
    rw [List.length_map, List.length_range] at hk
    rw [List.getElem_map, List.getElem_range, h.behind k hk, List.getElem_drop]
    simp [BasicString.chars]
  rw [hsize, List.range_add, List.range_add, List.map_append, List.map_append, List.map_map,
    List.map_map, hbefore]
  rw [← hnew, ← hbehind]
  rfl

/-! ## The buffer of the string -/

/-- Behind the hole the characters are moved, whether this takes a call or not. -/
theorem moveTail_eq (hin : pos + len1 ≤ s.length) (hfits : s.length + len2 - len1 ≤ s.capacity) :
    s.moveTail cells pos len1 len2 = .ok fun b =>
      if pos + len2 ≤ b ∧ b < pos + len2 + (s.length - pos - len1) then
        cells (pos + len1 + (b - (pos + len2)))
      else cells b := by
  have hle := s.length_le
  unfold moveTail
  split
  next => exact moveCells_of_le (by omega) (by omega)
  next hnone =>
    congr 1
    funext b
    split
    next hb =>
      have hsame : len1 = len2 := by
        by_contra hne
        exact hnone ⟨by omega, hne⟩
      congr 1
      omega
    next => rfl

/-- A source in the string that takes up a part of the hole or is as short. -/
theorem replaceOwn_short (hin : pos + len1 ≤ s.length) (hsrc : off + len2 ≤ s.length)
    (hshort : len2 ≤ len1) (hfits : s.length + len2 - len1 ≤ s.capacity) :
    ∃ cells, s.replaceOwn pos len1 off len2 = .ok cells ∧
      s.Replaced pos len1 (.own off len2) cells := by
  have hle := s.length_le
  have hmove : s.moveShort pos len1 off len2 = .ok fun b =>
      if pos ≤ b ∧ b < pos + len2 then s.cells (off + (b - pos)) else s.cells b := by
    unfold moveShort
    split
    next => exact moveCells_of_le (by omega) (by omega)
    next hnone =>
      have hzero : len2 = 0 := by omega
      refine congrArg Except.ok (funext fun b => ?_)
      rw [if_neg (by omega)]
  unfold replaceOwn
  rw [hmove]
  simp only [bind, Except.bind, moveTail_eq hin hfits]
  rw [moveLong, if_neg (by omega)]
  refine ⟨_, rfl, ?_, ?_, ?_⟩
  · intro i hi
    rw [if_neg (by omega), if_neg (by omega)]
  · intro k hk x
    have hk' : k < len2 := hk
    rw [own_chars_getD, if_pos hk', if_neg (by omega), if_pos (by omega)]
    congr 1
    omega
  · intro k hk
    have hlen : (StringSource.own off len2 : StringSource α).length = len2 := rfl
    rw [hlen, if_pos (by omega), if_neg (by omega)]
    congr 1
    omega

/-- A source in the string that is longer than the hole: it is before the end of the hole, or behind it, or
on both sides. -/
theorem replaceOwn_long (hin : pos + len1 ≤ s.length) (hsrc : off + len2 ≤ s.length)
    (hlong : len1 < len2) (hfits : s.length + len2 - len1 ≤ s.capacity) :
    ∃ cells, s.replaceOwn pos len1 off len2 = .ok cells ∧
      s.Replaced pos len1 (.own off len2) cells := by
  have hle := s.length_le
  have hlen : (StringSource.own off len2 : StringSource α).length = len2 := rfl
  have hnone : s.moveShort pos len1 off len2 = .ok s.cells := if_neg (by omega)
  unfold replaceOwn
  rw [hnone]
  simp only [bind, Except.bind, moveTail_eq hin hfits]
  rw [moveLong, if_pos hlong]
  split
  next hbefore =>
    rw [moveCells_of_le (by omega) (by omega)]
    refine ⟨_, rfl, ?_, ?_, ?_⟩
    · intro i hi
      rw [if_neg (by omega), if_neg (by omega)]
    · intro k hk x
      rw [hlen] at hk
      rw [own_chars_getD, if_pos hk, if_pos (by omega), if_neg (by omega)]
      congr 1
      omega
    · intro k hk
      rw [hlen, if_neg (by omega), if_pos (by omega)]
      congr 1
      omega
  split
  next hbehind =>
    rw [copyCells_of_le (by omega) (by omega) (by omega)]
    refine ⟨_, rfl, ?_, ?_, ?_⟩
    · intro i hi
      rw [if_neg (by omega), if_neg (by omega)]
    · intro k hk x
      rw [hlen] at hk
      rw [own_chars_getD, if_pos hk, if_pos (by omega), if_pos (by omega)]
      congr 1
      omega
    · intro k hk
      rw [hlen, if_neg (by omega), if_pos (by omega)]
      congr 1
      omega
  next hbefore hbehind =>
    simp only [bind, Except.bind]
    rw [moveCells_of_le (by omega) (by omega)]
    dsimp only
    rw [copyCells_of_le (by omega) (by omega) (by omega)]
    refine ⟨_, rfl, ?_, ?_, ?_⟩
    · intro i hi
      rw [if_neg (by omega), if_neg (by omega), if_neg (by omega)]
    · intro k hk x
      rw [hlen] at hk
      rw [own_chars_getD, if_pos hk]
      -- the part before the end of the hole, or the part that has moved
      by_cases hleft : k < pos + len1 - off
      · rw [if_neg (by omega), if_pos (by omega), if_neg (by omega)]
        congr 1
        omega
      · rw [if_pos (by omega), if_neg (by omega), if_pos (by omega)]
        congr 1
        omega
    · intro k hk
      rw [hlen, if_neg (by omega), if_neg (by omega), if_pos (by omega)]
      congr 1
      omega

/-- A source elsewhere. -/
theorem replaceDisjunct_outside {chars : List α} (hin : pos + len1 ≤ s.length)
    (hfits : s.length + chars.length - len1 ≤ s.capacity) :
    ∃ cells, s.replaceDisjunct pos len1 (.outside chars) = .ok cells ∧
      s.Replaced pos len1 (.outside chars) cells := by
  have hlen : (StringSource.outside chars).length = chars.length := rfl
  unfold replaceDisjunct
  rw [hlen]
  simp only [bind, Except.bind, moveTail_eq hin hfits]
  -- with no characters, nothing is copied, which is the same
  have hcopy : ∀ cells : Nat → α,
      (if chars.length ≠ 0 then s.copySource cells pos (.outside chars) else pure cells) =
        .ok fun b => if pos ≤ b then chars.getD (b - pos) (cells b) else cells b := by
    intro cells
    split
    next => exact putChars_of_le (by omega)
    next hzero =>
      obtain rfl : chars = [] := List.eq_nil_of_length_eq_zero (not_not.mp hzero)
      exact congrArg Except.ok (funext fun b => by simp)
  rw [hcopy]
  refine ⟨_, rfl, ?_, ?_, ?_⟩
  · intro i hi
    rw [if_neg (by omega), if_neg (by omega)]
  · intro k hk x
    rw [hlen] at hk
    rw [if_pos (by omega), Nat.add_sub_cancel_left, List.getD_eq_getElem _ _ hk]
    exact List.getD_eq_getElem _ _ hk
  · intro k hk
    rw [hlen, if_pos (by omega), List.getD_eq_default _ _ (by omega), if_pos (by omega)]
    congr 1
    omega

/-! ## A new buffer -/

theorem putSome_eq {capacity d n : Nat} {chars : List α} (hn : chars.length = n)
    (hd : d + n ≤ capacity + 1) :
    putSome capacity cells d n (.ok chars) =
      .ok fun b => if d ≤ b then chars.getD (b - d) (cells b) else cells b := by
  unfold putSome
  split
  next => exact putChars_of_le (by omega)
  next hzero =>
    obtain rfl : chars = [] := List.eq_nil_of_length_eq_zero (by omega)
    exact congrArg Except.ok (funext fun b => by simp)

/-- A buffer has at least the capacity that is asked for, and there is one when the allocator gives it. -/
theorem create_cases (env : StringEnv α) (capacity oldCapacity : Nat) :
    (create env capacity oldCapacity = .error .lengthError ∧ env.maxSize < capacity) ∨
    (create env capacity oldCapacity = .error .badAlloc ∧ ∃ n, env.allocate n = none) ∨
    ∃ c cells, create env capacity oldCapacity = .ok (c, cells) ∧ capacity ≤ c := by
  unfold create
  split
  next hmax => exact .inl ⟨rfl, hmax⟩
  next hmax =>
    refine .inr ?_
    dsimp only
    cases halloc : env.allocate
      ((if capacity > oldCapacity ∧ capacity < 2 * oldCapacity then min (2 * oldCapacity) env.maxSize
        else capacity) + 1) with
    | none => exact .inl ⟨rfl, _, halloc⟩
    | some cells =>
      refine .inr ⟨_, cells, rfl, ?_⟩
      split <;> omega

/-- In a new buffer nothing is in the way of anything. -/
theorem mutate_cases (hin : pos + len1 ≤ s.length)
    (hsrc : ∀ off len, src = .own off len → off + len ≤ s.length) :
    (s.mutate env pos len1 src = .error .lengthError ∧
      env.maxSize < s.length + src.length - len1) ∨
    (s.mutate env pos len1 src = .error .badAlloc ∧ ∃ n, env.allocate n = none) ∨
    ∃ c cells, s.mutate env pos len1 src = .ok (c, cells) ∧ s.length + src.length - len1 ≤ c ∧
      s.Replaced pos len1 src cells := by
  have hle := s.length_le
  have hread : s.readSource src = .ok (src.chars s.cells) := by
    cases src with
    | own off len =>
      have := hsrc off len rfl
      exact getChars_of_le (by omega)
    | outside chars => rfl
  unfold mutate
  simp only [bind, Except.bind]
  rcases create_cases env (s.length + src.length - len1) s.capacity with
    ⟨hcreate, hmax⟩ | ⟨hcreate, halloc⟩ | ⟨c, r, hcreate, hc⟩
  · rw [hcreate]
    exact .inl ⟨rfl, hmax⟩
  · rw [hcreate]
    exact .inr (.inl ⟨rfl, halloc⟩)
  · rw [hcreate, hread, getChars_of_le (by omega), getChars_of_le (by omega)]
    dsimp only
    rw [putSome_eq own_chars_length (by omega)]
    dsimp only
    rw [putSome_eq source_chars_length (by omega)]
    dsimp only
    rw [putSome_eq own_chars_length (by omega)]
    refine .inr (.inr ⟨c, _, rfl, hc, ?_, ?_, ?_⟩)
    · intro i hi
      rw [if_neg (by omega), if_neg (by omega), if_pos (by omega), own_chars_getD, if_pos (by omega),
        Nat.zero_add, Nat.sub_zero]
    · intro k hk x
      rw [if_neg (by omega), if_pos (by omega), Nat.add_sub_cancel_left]
      rw [List.getD_eq_getElem _ _ (by rwa [source_chars_length]),
        List.getD_eq_getElem _ _ (by rwa [source_chars_length])]
    · intro k hk
      rw [if_pos (by omega), own_chars_getD, if_pos (by omega)]
      congr 1
      omega

/-! ## The result -/

/-- The characters of a result, with the null behind them. -/
theorem setLength_eq {capacity n : Nat} (h : n ≤ capacity) :
    ∃ s', setLength nul cells capacity n = .ok s' ∧ s'.length = n ∧
      s'.chars = (List.range n).map cells ∧ s'.cells n = nul := by
  refine ⟨_, dif_pos h, rfl, ?_, if_pos rfl⟩
  refine List.map_congr_left fun i hi => if_neg ?_
  have hlt : i < n := List.mem_range.mp hi
  omega

/-- A source that is among the characters of the string, or elsewhere. -/
def Proper (s : BasicString α) : StringSource α → Prop
  | .own off len => off + len ≤ s.length
  | .outside _ => True

theorem replace_cells (hin : pos + len1 ≤ s.length) (hsrc : s.Proper src)
    (hmax : ¬env.maxSize - (s.length - len1) < src.length)
    (hfits : s.length + src.length - len1 ≤ s.capacity) :
    ∃ cells, s.replace env nul pos len1 src =
        setLength nul cells s.capacity (s.length + src.length - len1) ∧
      s.Replaced pos len1 src cells := by
  unfold replace
  rw [checkLength, if_neg hmax]
  simp only [bind, Except.bind, if_pos hfits]
  cases src with
  | own off len2 =>
    have hoff : off + len2 ≤ s.length := hsrc
    have hnot : s.disjunct off = false := by
      unfold disjunct
      exact decide_eq_false (by omega)
    simp only [hnot, Bool.false_eq_true, if_false]
    have hcells : ∃ cells, s.replaceOwn pos len1 off len2 = .ok cells ∧
        s.Replaced pos len1 (.own off len2) cells := by
      rcases Nat.lt_or_ge len1 len2 with hlong | hshort
      · exact replaceOwn_long hin hoff hlong hfits
      · exact replaceOwn_short hin hoff hshort hfits
    obtain ⟨cells, hcells, hrep⟩ := hcells
    exact ⟨cells, by rw [hcells], hrep⟩
  | outside chars =>
    obtain ⟨cells, hcells, hrep⟩ := replaceDisjunct_outside hin hfits
    exact ⟨cells, by simp only [hcells], hrep⟩

/-- A call has the characters that it would have with a copy of the source, or it throws, because the
string would be too long or because there is no memory. -/
def ReplacesByCopy (env : StringEnv α) (s : BasicString α) (nul : α) (pos len1 : Nat)
    (src : StringSource α) : Prop :=
  (∃ s', s.replace env nul pos len1 src = .ok s' ∧
    s'.length = s.length + src.length - len1 ∧
    s'.chars = s.chars.take pos ++ src.chars s.cells ++ s.chars.drop (pos + len1) ∧
    s'.cells s'.length = nul) ∨
  (s.replace env nul pos len1 src = .error .lengthError ∧
    env.maxSize < s.length + src.length - len1) ∨
  s.replace env nul pos len1 src = .error .badAlloc ∧
    s.capacity < s.length + src.length - len1 ∧ ∃ n, env.allocate n = none

/-- Two characters and the null, in a buffer of 16. -/
def twoChars : BasicString Nat where
  cells i := if i = 0 then 97 else if i = 1 then 98 else if i = 2 then 0 else 7
  length := 2
  capacity := 15
  length_le := by decide

end BasicString

end Rtfsc.Stl
