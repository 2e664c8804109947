import Rtfsc.Stl.DequeIter

/-!
# Segmented loops

`copy`, `move` and their backward forms go over the elements of deque iterators buffer by buffer, and
leave those of one buffer to a loop over plain pointers. Where that one goes element by element, so does
the whole (`segmentedLoop_eq`, `segmentedLoopBackward_eq`). A loop that runs out of fuel has no result.
-/

namespace Rtfsc.Stl

variable {C : Type}

/-! ## The code -/

section Code

variable (b : BufferSize) (entry : Nat → Nat)

/-- The loop of `copy` and `move`, with `len` elements to go. -/
def segmentedLoop (segment : EltPtr → EltPtr → EltPtr → C → Option C) (fuel : Nat) (len : Int)
    (first result : DequeIter) (c : C) : Option (DequeIter × C) :=
  if 0 < len then
    match fuel with
    | 0 => none
    | fuel + 1 => do
      let clen := min len (min (first.last.diff first.cur) (result.last.diff result.cur))
      let c ← segment first.cur (first.cur.add clen.toNat) result.cur c
      segmentedLoop segment fuel (len - clen) (first.plus b entry clen) (result.plus b entry clen) c
  else some (result, c)

/-- `__llen` and `__lend`, and `__rlen` and `__rend`: how many elements there are before an iterator in
one buffer, and where they end. -/
def segmentBefore (it : DequeIter) : Int × EltPtr :=
  let len := it.cur.diff it.first
  if len = 0 then (b.elems, ⟨entry (it.node - 1), b.elems⟩) else (len, it.cur)

/-- The loop of `copy_backward` and `move_backward`. -/
def segmentedLoopBackward (segment : EltPtr → EltPtr → EltPtr → C → Option C) (fuel : Nat) (len : Int)
    (last result : DequeIter) (c : C) : Option (DequeIter × C) :=
  if 0 < len then
    match fuel with
    | 0 => none
    | fuel + 1 => do
      let (llen, lend) := segmentBefore b entry last
      let (rlen, rend) := segmentBefore b entry result
      let clen := min len (min llen rlen)
      let c ← segment (lend.sub clen.toNat) lend rend c
      segmentedLoopBackward segment fuel (len - clen) (last.plus b entry (-clen))
        (result.plus b entry (-clen)) c
  else some (result, c)

/-- The loop element by element, with `n` to go. -/
def eachIter (step : EltPtr → EltPtr → C → Option C) (first result : DequeIter) (c : C) : Nat →
    Option (DequeIter × C)
  | 0 => some (result, c)
  | n + 1 => do
    let c ← step first.cur result.cur c
    eachIter step (first.next b entry) (result.next b entry) c n

/-- The same, the last element first. -/
def eachIterBackward (step : EltPtr → EltPtr → C → Option C) (last result : DequeIter) (c : C) : Nat →
    Option (DequeIter × C)
  | 0 => some (result, c)
  | n + 1 => do
    let last := last.prev b entry
    let result := result.prev b entry
    let c ← step last.cur result.cur c
    eachIterBackward step last result c n

end Code

/-! ## The places that the loops go over -/

section Places

variable {step : Nat → Nat → C → Option C} {p q m n : Nat} {c : C}

/-- From place to place. -/
def eachPlace (step : Nat → Nat → C → Option C) (p q : Nat) (c : C) : Nat → Option C
  | 0 => some c
  | n + 1 => do
    let c ← step p q c
    eachPlace step (p + 1) (q + 1) c n

def eachPlaceBackward (step : Nat → Nat → C → Option C) (p q : Nat) (c : C) : Nat → Option C
  | 0 => some c
  | n + 1 => do
    let c ← step (p + n) (q + n) c
    eachPlaceBackward step p q c n

theorem eachPlace_add :
    eachPlace step p q c (m + n) =
      (eachPlace step p q c m).bind fun c => eachPlace step (p + m) (q + m) c n := by
  induction m generalizing p q c with
  | zero => rw [Nat.zero_add, eachPlace, Option.bind_some, Nat.add_zero, Nat.add_zero]
  | succ m ih =>
    rw [Nat.add_right_comm, eachPlace, eachPlace]
    change (step p q c).bind _ = ((step p q c).bind _).bind _
    rw [Option.bind_assoc]
    congr 1
    funext c
    rw [ih, Nat.add_assoc, Nat.add_assoc, Nat.add_comm 1 m]

theorem eachPlaceBackward_add :
    eachPlaceBackward step p q c (m + n) =
      (eachPlaceBackward step (p + m) (q + m) c n).bind fun c => eachPlaceBackward step p q c m := by
  induction n generalizing c with
  | zero => rfl
  | succ n ih =>
    rw [← Nat.add_assoc, eachPlaceBackward, eachPlaceBackward, ← Nat.add_assoc, ← Nat.add_assoc]
    change (step _ _ c).bind _ = ((step _ _ c).bind _).bind _
    rw [Option.bind_assoc]
    congr 1
    funext c
    exact ih

end Places

variable {b : BufferSize} {entry : Nat → Nat} {p q n m fuel : Nat} {c : C}

section Iterators

variable {step : EltPtr → EltPtr → C → Option C}

theorem eachIter_eq :
    eachIter b entry step (iterAt b entry p) (iterAt b entry q) c n =
      (eachPlace (fun p q => step (eltAt b entry p) (eltAt b entry q)) p q c n).map
        fun c => (iterAt b entry (q + n), c) := by
  induction n generalizing p q c with
  | zero => rfl
  | succ n ih =>
    rw [eachIter, eachPlace, next_iterAt, next_iterAt]
    change (step _ _ c).bind _ = ((step _ _ c).bind _).map _
    rw [Option.map_bind]
    congr 1
    funext c
    rw [ih, Nat.add_assoc, Nat.add_comm 1 n]
    rfl

theorem eachIterBackward_eq :
    eachIterBackward b entry step (iterAt b entry (p + n)) (iterAt b entry (q + n)) c n =
      (eachPlaceBackward (fun p q => step (eltAt b entry p) (eltAt b entry q)) p q c n).map
        fun c => (iterAt b entry q, c) := by
  induction n generalizing c with
  | zero => rfl
  | succ n ih =>
    rw [eachIterBackward, eachPlaceBackward, ← Nat.add_assoc, ← Nat.add_assoc, prev_iterAt,
      prev_iterAt]
    change (step _ _ c).bind _ = ((step _ _ c).bind _).map _
    rw [Option.map_bind]
    congr 1
    funext c
    exact ih

end Iterators

/-! ## Buffer by buffer is element by element -/

section Segments

variable {segment : EltPtr → EltPtr → EltPtr → C → Option C} {step : Nat → Nat → C → Option C}

/-- The elements up to the end of the shorter one of the two buffers, if that is not too many. -/
theorem segmentedLoop_clen :
    min (n : Int) (min ((iterAt b entry p).last.diff (iterAt b entry p).cur)
      ((iterAt b entry q).last.diff (iterAt b entry q).cur)) =
      (min n (min (b.elems - p % b.elems) (b.elems - q % b.elems)) : Nat) := by
  have hp : p % b.elems < b.elems := place_mod_lt
  have hq : q % b.elems < b.elems := place_mod_lt
  simp only [iterAt, eltAt, EltPtr.diff]
  omega

theorem segmentedLoop_eq
    (hsegment : ∀ i m c, i + m ≤ n → (p + i) % b.elems + m ≤ b.elems →
      (q + i) % b.elems + m ≤ b.elems →
      segment (eltAt b entry (p + i)) ((eltAt b entry (p + i)).add m) (eltAt b entry (q + i)) c =
        eachPlace step (p + i) (q + i) c m) (hfuel : n ≤ fuel) :
    segmentedLoop b entry segment fuel n (iterAt b entry p) (iterAt b entry q) c =
      (eachPlace step p q c n).map fun c => (iterAt b entry (q + n), c) := by
  induction fuel generalizing p q n c with
  | zero =>
    obtain rfl : n = 0 := by omega
    rw [segmentedLoop, if_neg (by omega)]
    rfl
  | succ fuel ih =>
    rcases Nat.eq_zero_or_pos n with rfl | hpos
    · rw [segmentedLoop, if_neg (by omega)]
      rfl
    have hp : p % b.elems < b.elems := place_mod_lt
    have hq : q % b.elems < b.elems := place_mod_lt
    obtain ⟨m, hm⟩ : ∃ m, m = min n (min (b.elems - p % b.elems) (b.elems - q % b.elems)) := ⟨_, rfl⟩
    obtain ⟨r, rfl⟩ : ∃ r, n = m + r := Nat.exists_eq_add_of_le (by omega)
    have hlen : ((m + r : Nat) : Int) - (m : Nat) = (r : Nat) := by omega
    have hplus (x : Nat) : (iterAt b entry x).plus b entry (m : Nat) = iterAt b entry (x + m) :=
      plus_iterAt (Int.natCast_add x m)
    have hfirst := hsegment 0 m c (by omega) (by rw [Nat.add_zero]; omega) (by rw [Nat.add_zero]; omega)
    rw [segmentedLoop, if_pos (by omega), eachPlace_add]
    dsimp only
    rw [segmentedLoop_clen, ← hm, Int.toNat_natCast, hlen, hplus, hplus]
    change (segment (eltAt b entry (p + 0)) ((eltAt b entry (p + 0)).add m) (eltAt b entry (q + 0))
      c).bind _ = _
    rw [hfirst, Option.map_bind]
    change (eachPlace step p q c m).bind _ = _
    congr 1
    funext c
    refine (ih (fun i k c hi hpk hqk => ?_) (by omega)).trans ?_
    · have := hsegment (m + i) k c (by omega) (by rwa [← Nat.add_assoc]) (by rwa [← Nat.add_assoc])
      rwa [← Nat.add_assoc, ← Nat.add_assoc] at this
    · rw [Nat.add_assoc]
      rfl

/-- What is before an iterator in its buffer, or all of the buffer before. -/
theorem segmentBefore_iterAt :
    segmentBefore b entry (iterAt b entry (p + 1)) =
      (((p % b.elems + 1 : Nat) : Int), (eltAt b entry p).add 1) := by
  have hlt : p % b.elems < b.elems := place_mod_lt
  unfold segmentBefore
  by_cases hlast : p % b.elems + 1 = b.elems
  · obtain ⟨hdiv, hmod⟩ := place_add_last hlast
    simp [iterAt, eltAt, EltPtr.diff, EltPtr.add, hdiv, hmod, hlast]
  · obtain ⟨hdiv, hmod⟩ := place_add (b := b) (p := p) (k := 1) (by omega)
    have hne : ((p % b.elems + 1 : Nat) : Int) ≠ 0 := by omega
    simp only [iterAt, eltAt, EltPtr.diff, EltPtr.add, hdiv, hmod, Int.natCast_zero, Int.sub_zero,
      if_neg hne]

/-- The elements before it in one buffer start here. -/
theorem segmentBefore_start (b : BufferSize) (entry : Nat → Nat) (p : Nat) (hpos : 0 < m)
    (h : m ≤ (p + m - 1) % b.elems + 1) :
    p % b.elems + m ≤ b.elems ∧
      (eltAt b entry (p + m - 1)).add 1 = (eltAt b entry p).add m := by
  have hlt : (p + m - 1) % b.elems < b.elems := place_mod_lt
  have hp : p = (p + m - 1) / b.elems * b.elems + ((p + m - 1) % b.elems + 1 - m) := by
    have hplace : (p + m - 1) / b.elems * b.elems + (p + m - 1) % b.elems = p + m - 1 := place_eq
    omega
  have hdiv : p / b.elems = (p + m - 1) / b.elems := by
    rw [hp, place_div (by omega), ← hp]
  have hmod : p % b.elems = (p + m - 1) % b.elems + 1 - m := by
    rw [hp, place_mod (by omega), ← hp]
  refine ⟨by omega, ?_⟩
  simp only [eltAt, EltPtr.add, EltPtr.mk.injEq, hdiv, true_and]
  omega

theorem segmentedLoopBackward_eq
    (hsegment : ∀ i m c, i + m ≤ n → (p + i) % b.elems + m ≤ b.elems →
      (q + i) % b.elems + m ≤ b.elems →
      segment (eltAt b entry (p + i)) ((eltAt b entry (p + i)).add m)
        ((eltAt b entry (q + i)).add m) c = eachPlaceBackward step (p + i) (q + i) c m)
    (hfuel : n ≤ fuel) :
    segmentedLoopBackward b entry segment fuel n (iterAt b entry (p + n)) (iterAt b entry (q + n)) c =
      (eachPlaceBackward step p q c n).map fun c => (iterAt b entry q, c) := by
  induction fuel generalizing n c with
  | zero =>
    obtain rfl : n = 0 := by omega
    rw [segmentedLoopBackward, if_neg (by omega)]
    rfl
  | succ fuel ih =>
    rcases Nat.eq_zero_or_pos n with rfl | hpos
    · rw [segmentedLoopBackward, if_neg (by omega)]
      rfl
    obtain ⟨m, hm⟩ : ∃ m, m = min n
        (min ((p + n - 1) % b.elems + 1) ((q + n - 1) % b.elems + 1)) := ⟨_, rfl⟩
    obtain ⟨r, rfl⟩ : ∃ r, n = r + m := ⟨n - m, by omega⟩
    rw [← Nat.add_assoc, ← Nat.add_assoc] at hm
    obtain ⟨hp, hlend⟩ := segmentBefore_start b entry (p + r) (by omega)
      (by omega : m ≤ (p + r + m - 1) % b.elems + 1)
    obtain ⟨hq, hrend⟩ := segmentBefore_start b entry (q + r) (by omega)
      (by omega : m ≤ (q + r + m - 1) % b.elems + 1)
    have hlen : ((r + m : Nat) : Int) - (m : Nat) = (r : Nat) := by omega
    have hbefore (x : Nat) : segmentBefore b entry (iterAt b entry (x + r + m)) =
        ((((x + r + m - 1) % b.elems + 1 : Nat) : Int), (eltAt b entry (x + r + m - 1)).add 1) := by
      rw [← segmentBefore_iterAt, Nat.sub_add_cancel (by omega)]
    have hplus (x : Nat) :
        (iterAt b entry (x + r + m)).plus b entry (-(m : Nat)) = iterAt b entry (x + r) :=
      plus_iterAt (by omega)
    have hclen : min ((r + m : Nat) : Int) (min ((((p + r + m - 1) % b.elems + 1 : Nat)) : Int)
        (((q + r + m - 1) % b.elems + 1 : Nat))) = (m : Nat) := by omega
    rw [segmentedLoopBackward, if_pos (by omega), eachPlaceBackward_add]
    dsimp only
    rw [← Nat.add_assoc, ← Nat.add_assoc, hbefore, hbefore]
    dsimp only
    rw [hclen, Int.toNat_natCast, hlen, hplus, hplus, hlend, hrend, EltPtr.add_sub,
      hsegment r m c le_rfl hp hq, Option.map_bind]
    change (eachPlaceBackward step (p + r) (q + r) c m).bind _ = _
    congr 1
    funext c
    exact ih (fun i k c hi => hsegment i k c (by omega)) (by omega)

end Segments

end Rtfsc.Stl
