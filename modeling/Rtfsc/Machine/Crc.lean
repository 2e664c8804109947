import Mathlib.Data.List.Basic

/-!
# Cyclic redundancy checks

The remainder of a message, bit by bit with the most significant bit first, for any width and any
polynomial. A shift of the remainder is linear. When the polynomial has its constant term, a shift
also loses nothing, and so a change of the message that fits into a window as wide as the remainder
always changes the remainder.
-/

namespace Rtfsc.Machine

variable {w : Nat} (poly : BitVec w)

/-- One shift of the remainder. -/
def crcShift (s : BitVec w) : BitVec w := (s <<< 1) ^^^ (if s.msb then poly else 0)

/-- The remainder with nothing but its top bit. -/
def topBit (b : Bool) : BitVec w := if b then BitVec.twoPow w (w - 1) else 0

/-- The remainder after one more bit of the message. -/
def crcBit (s : BitVec w) (b : Bool) : BitVec w := crcShift poly (s ^^^ topBit b)

/-- The remainder after a message. -/
def crcBits (s : BitVec w) (bits : List Bool) : BitVec w := bits.foldl (crcBit poly) s

/-- Some shifts of the remainder. -/
def crcShifts : Nat → BitVec w → BitVec w
  | 0, s => s
  | n + 1, s => crcShifts n (crcShift poly s)

/-- The bits of a message at the top of a remainder. -/
def packTop : List Bool → BitVec w
  | [] => 0
  | b :: bits => topBit b ^^^ (packTop bits >>> 1)

variable {poly} {s t : BitVec w} {bits m m' : List Bool}

/-! ## Shifts -/

theorem crcShift_xor (s t : BitVec w) :
    crcShift poly (s ^^^ t) = crcShift poly s ^^^ crcShift poly t := by
  unfold crcShift
  rw [BitVec.shiftLeft_xor_distrib, BitVec.msb_xor]
  have htwice (x : BitVec w) : poly ^^^ (poly ^^^ x) = x := by
    rw [← BitVec.xor_assoc, BitVec.xor_self, BitVec.zero_xor]
  cases s.msb <;> cases t.msb <;> simp <;> ac_nf
  exact (htwice _).symm

theorem crcShifts_xor (n : Nat) (s t : BitVec w) :
    crcShifts poly n (s ^^^ t) = crcShifts poly n s ^^^ crcShifts poly n t := by
  induction n generalizing s t with
  | zero => rfl
  | succ n ih => rw [crcShifts, crcShifts, crcShifts, crcShift_xor, ih]

theorem crcShift_of_msb (h : s.msb = false) : crcShift poly s = s <<< 1 := by
  unfold crcShift
  rw [h]
  simp

/-- Shifts that only move clear bits out are shifts of the bits. -/
theorem crcShifts_of_clear {n : Nat} (h : ∀ i < n, s.getMsbD i = false) :
    crcShifts poly n s = s <<< n := by
  induction n generalizing s with
  | zero => simp [crcShifts]
  | succ n ih =>
    have hmsb : s.msb = false := h 0 (Nat.succ_pos n)
    have hrest : ∀ i < n, (s <<< 1).getMsbD i = false := by
      intro i hi
      rw [BitVec.getMsbD_shiftLeft]
      exact h (i + 1) (Nat.succ_lt_succ hi)
    rw [crcShifts, crcShift_of_msb hmsb, ih hrest, ← BitVec.shiftLeft_add, Nat.add_comm]

/-- The constant term tells whether the top bit was set. -/
theorem getLsbD_crcShift (hpoly : poly.getLsbD 0 = true) : (crcShift poly s).getLsbD 0 = s.msb := by
  unfold crcShift
  cases s.msb <;> simp [hpoly]

theorem crcShift_inj (hpoly : poly.getLsbD 0 = true) (h : crcShift poly s = crcShift poly t) :
    s = t := by
  have hmsb : s.msb = t.msb := by
    rw [← getLsbD_crcShift hpoly, h, getLsbD_crcShift hpoly]
  have hshift : s <<< 1 = t <<< 1 := by
    unfold crcShift at h
    rw [hmsb] at h
    exact BitVec.xor_left_inj _ |>.mp h
  apply BitVec.eq_of_getMsbD_eq
  intro i hi
  cases i with
  | zero => exact hmsb
  | succ i =>
    have hbit := congrArg (fun x => x.getMsbD i) hshift
    simpa only [BitVec.getMsbD_shiftLeft] using hbit

theorem crcShifts_inj (hpoly : poly.getLsbD 0 = true) {n : Nat}
    (h : crcShifts poly n s = crcShifts poly n t) : s = t := by
  induction n generalizing s t with
  | zero => exact h
  | succ n ih => exact crcShift_inj hpoly (ih h)

/-! ## A message shorter than the remainder -/

theorem getMsbD_topBit (b : Bool) (i : Nat) :
    (topBit b : BitVec w).getMsbD i = (decide (i = 0 ∧ 0 < w) && b) := by
  cases b with
  | false => simp [topBit]
  | true =>
    simp only [topBit, if_true, BitVec.getMsbD_twoPow, Bool.and_true]
    rw [← Bool.decide_and, decide_eq_decide]
    omega

theorem getMsbD_packTop (i : Nat) :
    (packTop bits : BitVec w).getMsbD i = (decide (i < w) && bits.getD i false) := by
  induction bits generalizing i with
  | nil => simp [packTop]
  | cons b bits ih =>
    rw [packTop, BitVec.getMsbD_xor, getMsbD_topBit, BitVec.getMsbD_ushiftRight, ih]
    cases i with
    | zero => simp
    | succ i =>
      by_cases hi : i + 1 < w
      · simp [hi, Nat.lt_of_succ_lt hi]
      · simp [hi]

theorem packTop_inj (hlen : m.length = m'.length) (hw : m.length ≤ w)
    (h : (packTop m : BitVec w) = packTop m') : m = m' := by
  apply List.ext_getElem hlen
  intro i hi hi'
  have hbit := congrArg (fun x => x.getMsbD i) h
  simp only [getMsbD_packTop] at hbit
  simpa [show i < w by omega, hi, hi'] using hbit

/-- Packed bits that leave the last place clear come back when they are shifted. -/
theorem crcShift_packTop (h : bits.length < w) :
    crcShift poly (packTop bits >>> 1) = packTop bits := by
  rw [crcShift_of_msb (by simp)]
  apply BitVec.eq_of_getMsbD_eq
  intro i hi
  simp only [BitVec.getMsbD_shiftLeft, BitVec.getMsbD_ushiftRight, getMsbD_packTop]
  rcases Nat.lt_or_ge (i + 1) w with hlt | hge
  · simp [hlt, hi]
  · have hout : bits.length ≤ i := by omega
    simp [List.getElem?_eq_none hout]

/-- A short message may be put into the remainder first and shifted then. -/
theorem crcBits_eq_crcShifts (h : bits.length ≤ w) :
    crcBits poly s bits = crcShifts poly bits.length (s ^^^ packTop bits) := by
  induction bits generalizing s with
  | nil => simp [crcBits, crcShifts, packTop]
  | cons b bits ih =>
    have hlen : bits.length < w := h
    show crcBits poly (crcShift poly (s ^^^ topBit b)) bits = _
    rw [ih (Nat.le_of_lt hlen), packTop, List.length_cons, crcShifts, ← BitVec.xor_assoc,
      crcShift_xor (s ^^^ topBit b), crcShift_packTop hlen]

/-! ## Bursts -/

theorem crcBits_append : crcBits poly s (m ++ m') = crcBits poly (crcBits poly s m) m' :=
  List.foldl_append

theorem crcBits_inj (hpoly : poly.getLsbD 0 = true) (h : crcBits poly s m = crcBits poly t m) :
    s = t := by
  induction m generalizing s t with
  | nil => exact h
  | cons b m ih => exact BitVec.xor_left_inj _ |>.mp (crcShift_inj hpoly (ih h))

/-- Two messages that differ, and only inside a window of `w` bits. -/
structure Burst (w i : Nat) (m m' : List Bool) : Prop where
  length_eq : m.length = m'.length
  ne : m ≠ m'
  before : m.take i = m'.take i
  after : m.drop (i + w) = m'.drop (i + w)

/-- A burst no wider than the remainder changes the remainder. -/
theorem Burst.crcBits_ne {i : Nat} (burst : Burst w i m m') (hpoly : poly.getLsbD 0 = true) :
    crcBits poly s m ≠ crcBits poly s m' := by
  intro h
  have hsplit (m : List Bool) : m = m.take i ++ ((m.drop i).take w ++ m.drop (i + w)) := by
    rw [← List.drop_drop, List.take_append_drop, List.take_append_drop]
  rw [hsplit m, hsplit m', burst.before, burst.after] at h
  simp only [crcBits_append] at h
  have hmid := crcBits_inj hpoly h
  have hshort (m : List Bool) : ((m.drop i).take w).length ≤ w := List.length_take_le ..
  have hlen : ((m.drop i).take w).length = ((m'.drop i).take w).length := by
    simp [burst.length_eq]
  rw [crcBits_eq_crcShifts (hshort m), crcBits_eq_crcShifts (hshort m'), hlen] at hmid
  have hpack := BitVec.xor_right_inj _ |>.mp (crcShifts_inj hpoly hmid)
  apply burst.ne
  rw [hsplit m, hsplit m', packTop_inj hlen (hshort m) hpack, burst.before, burst.after]

end Rtfsc.Machine
