import Mathlib.Algebra.Order.Group.Unbundled.Int
import Mathlib.Data.Int.Basic

/-!
# Deque iterators

A map entry points to a buffer, and a node is the number of an entry; the entries of all maps are numbered
together. Where the elements of the buffers are numbered through, one buffer after the other, an iterator
stands at a number (`iterAt`), and its operators are those of the numbers.
-/

namespace Rtfsc.Stl

/-- `_S_buffer_size()`: how many elements a buffer has. -/
structure BufferSize where
  elems : Nat
  pos : 0 < elems

/-- `__deque_buf_size` -/
def dequeBufSize (size : Nat) (hsize : 0 < size) : BufferSize where
  elems := if size < 512 then 512 / size else 1
  pos := by
    split
    next hlt => exact Nat.div_pos hlt.le hsize
    next => exact Nat.one_pos

/-- `_Elt_pointer`: a buffer and a place in it. -/
@[ext] structure EltPtr where
  buf : Nat
  off : Nat
deriving DecidableEq

namespace EltPtr

def add (p : EltPtr) (n : Nat) : EltPtr := { p with off := p.off + n }

def sub (p : EltPtr) (n : Nat) : EltPtr := { p with off := p.off - n }

/-- The difference of two pointers into one buffer. -/
def diff (p q : EltPtr) : Int := (p.off : Int) - q.off

variable {p q : EltPtr} {n i j : Nat}

@[simp] theorem add_buf : (p.add n).buf = p.buf := rfl

@[simp] theorem add_off : (p.add n).off = p.off + n := rfl

@[simp] theorem add_sub : (p.add n).sub n = p := by
  simp [add, sub]

theorem add_add : (p.add i).add j = p.add (i + j) := by
  simp only [add, Nat.add_assoc]

theorem add_inj (h : p.add i = p.add j) : i = j := Nat.add_left_cancel (congrArg off h)

/-- Pointers that meet are some elements apart. -/
theorem eq_add_of_add_eq (h : p.add i = q.add j) (hle : i ≤ j) : p = q.add (j - i) := by
  obtain ⟨hbuf, hoff⟩ := EltPtr.ext_iff.mp h
  rw [add_off, add_off] at hoff
  refine EltPtr.ext hbuf ?_
  rw [add_off]
  omega

end EltPtr

/-- `_Deque_iterator` -/
structure DequeIter where
  cur : EltPtr
  first : EltPtr
  last : EltPtr
  node : Nat
deriving DecidableEq

namespace DequeIter

variable (b : BufferSize) (entry : Nat → Nat)

/-- `_M_set_node` -/
def setNode (it : DequeIter) (newNode : Nat) : DequeIter :=
  let first : EltPtr := ⟨entry newNode, 0⟩
  { it with node := newNode, first := first, last := first.add b.elems }

/-- `operator++` -/
def next (it : DequeIter) : DequeIter :=
  let it := { it with cur := it.cur.add 1 }
  if it.cur = it.last then
    let it := it.setNode b entry (it.node + 1)
    { it with cur := it.first }
  else it

/-- `operator--` -/
def prev (it : DequeIter) : DequeIter :=
  let it :=
    if it.cur = it.first then
      let it := it.setNode b entry (it.node - 1)
      { it with cur := it.last }
    else it
  { it with cur := it.cur.sub 1 }

/-- `operator+=` -/
def plus (it : DequeIter) (n : Int) : DequeIter :=
  let offset := n + it.cur.diff it.first
  if 0 ≤ offset ∧ offset < b.elems then
    { it with cur := { it.cur with off := (it.cur.off + n).toNat } }
  else
    let nodeOffset :=
      if 0 < offset then offset / b.elems else -((-offset - 1) / b.elems) - 1
    let it := it.setNode b entry (it.node + nodeOffset).toNat
    { it with cur := it.first.add (offset - nodeOffset * b.elems).toNat }

/-- `operator-` of two iterators. -/
def minus (x y : DequeIter) : Int :=
  b.elems * ((x.node : Int) - y.node - 1) + x.cur.diff x.first + y.last.diff y.cur

/-- An iterator of a deque: it stands in the buffer of its node. -/
structure Valid (it : DequeIter) : Prop where
  first : it.first = ⟨entry it.node, 0⟩
  last : it.last = ⟨entry it.node, b.elems⟩
  cur_buf : it.cur.buf = entry it.node
  cur_lt : it.cur.off < b.elems

end DequeIter

/-! ## Places -/

section Place

variable {b : BufferSize} {p j k : Nat}

theorem place_div (hk : k < b.elems) : (j * b.elems + k) / b.elems = j := by
  rw [Nat.add_comm, Nat.add_mul_div_right _ _ b.pos, Nat.div_eq_of_lt hk, Nat.zero_add]

theorem place_mod (hk : k < b.elems) : (j * b.elems + k) % b.elems = k := by
  rw [Nat.add_comm, Nat.add_mul_mod_self_right, Nat.mod_eq_of_lt hk]

theorem place_eq : p / b.elems * b.elems + p % b.elems = p := Nat.div_add_mod' p b.elems

theorem place_mod_lt : p % b.elems < b.elems := Nat.mod_lt _ b.pos

/-- Some places further in the same buffer. -/
theorem place_add (h : p % b.elems + k < b.elems) :
    (p + k) / b.elems = p / b.elems ∧ (p + k) % b.elems = p % b.elems + k := by
  have hp : p + k = p / b.elems * b.elems + (p % b.elems + k) := by
    rw [← Nat.add_assoc, place_eq]
  constructor
  · rw [hp, place_div h]
  · rw [hp, place_mod h]

/-- The first place of the next one. -/
theorem place_add_last (h : p % b.elems + k = b.elems) :
    (p + k) / b.elems = p / b.elems + 1 ∧ (p + k) % b.elems = 0 := by
  have hp : p + k = (p / b.elems + 1) * b.elems + 0 := by
    calc p + k = p / b.elems * b.elems + (p % b.elems + k) := by rw [← Nat.add_assoc, place_eq]
      _ = (p / b.elems + 1) * b.elems + 0 := by rw [h, Nat.succ_mul, Nat.add_zero]
  constructor
  · rw [hp, place_div b.pos]
  · rw [hp, place_mod b.pos]

end Place

/-- The element at a place. -/
def eltAt (b : BufferSize) (entry : Nat → Nat) (p : Nat) : EltPtr :=
  ⟨entry (p / b.elems), p % b.elems⟩

/-- The iterator at a place. -/
def iterAt (b : BufferSize) (entry : Nat → Nat) (p : Nat) : DequeIter where
  cur := eltAt b entry p
  first := ⟨entry (p / b.elems), 0⟩
  last := ⟨entry (p / b.elems), b.elems⟩
  node := p / b.elems

variable {b : BufferSize} {entry : Nat → Nat} {p q j k : Nat} {it : DequeIter}

theorem eltAt_add (h : p % b.elems + k < b.elems) : eltAt b entry (p + k) = (eltAt b entry p).add k := by
  obtain ⟨hdiv, hmod⟩ := place_add h
  simp only [eltAt, EltPtr.add, hdiv, hmod]

/-- Every iterator of a deque stands at a place. -/
theorem DequeIter.Valid.eq_iterAt (h : it.Valid b entry) :
    it = iterAt b entry (it.node * b.elems + it.cur.off) := by
  obtain ⟨cur, first, last, node⟩ := it
  obtain ⟨hfirst, hlast, hbuf, hlt⟩ := h
  dsimp only at hfirst hlast hbuf hlt ⊢
  rw [iterAt, eltAt, place_div hlt, place_mod hlt, hfirst, hlast, ← hbuf]

/-! ## Operators -/

theorem next_iterAt : (iterAt b entry p).next b entry = iterAt b entry (p + 1) := by
  have hlt : p % b.elems < b.elems := place_mod_lt
  unfold DequeIter.next
  by_cases hlast : p % b.elems + 1 = b.elems
  · obtain ⟨hdiv, hmod⟩ := place_add_last hlast
    rw [if_pos (by simp [iterAt, eltAt, EltPtr.add, hlast])]
    simp [iterAt, eltAt, DequeIter.setNode, EltPtr.add, hdiv, hmod]
  · obtain ⟨hdiv, hmod⟩ := place_add (b := b) (p := p) (k := 1) (by omega)
    rw [if_neg (by simp [iterAt, eltAt, EltPtr.add, hlast])]
    simp [iterAt, eltAt, EltPtr.add, hdiv, hmod]

theorem prev_iterAt : (iterAt b entry (p + 1)).prev b entry = iterAt b entry p := by
  have hlt : p % b.elems < b.elems := place_mod_lt
  unfold DequeIter.prev
  by_cases hlast : p % b.elems + 1 = b.elems
  · obtain ⟨hdiv, hmod⟩ := place_add_last hlast
    have hoff : p % b.elems = b.elems - 1 := by omega
    rw [if_pos (by simp [iterAt, eltAt, hmod])]
    simp [iterAt, eltAt, DequeIter.setNode, EltPtr.add, EltPtr.sub, hdiv, hoff]
  · obtain ⟨hdiv, hmod⟩ := place_add (b := b) (p := p) (k := 1) (by omega)
    rw [if_neg (by simp [iterAt, eltAt, hmod])]
    simp [iterAt, eltAt, EltPtr.sub, hdiv, hmod]

theorem minus_iterAt : (iterAt b entry q).minus b (iterAt b entry p) = (q : Int) - p := by
  have hp : (b.elems : Int) * (p / b.elems : Nat) + (p % b.elems : Nat) = p := by
    exact_mod_cast Nat.div_add_mod p b.elems
  have hq : (b.elems : Int) * (q / b.elems : Nat) + (q % b.elems : Nat) = q := by
    exact_mod_cast Nat.div_add_mod q b.elems
  simp only [DequeIter.minus, iterAt, eltAt, EltPtr.diff]
  rw [Int.mul_sub, Int.mul_sub, Int.mul_one]
  generalize p / b.elems = pn, p % b.elems = po, q / b.elems = qn, q % b.elems = qo at *
  omega

/-- The number of nodes that `operator+=` goes is the quotient, rounded down. -/
theorem nodeOffset_eq {offset size : Int} (hsize : 0 < size) (hout : ¬(0 ≤ offset ∧ offset < size)) :
    (if 0 < offset then offset / size else -((-offset - 1) / size) - 1) = offset / size := by
  split
  next => rfl
  next hle =>
    have hneg : offset / size = -((-offset - 1) / size + 1) :=
      Int.ediv_of_neg_of_pos (by omega) hsize
    rw [hneg, Int.neg_add, Int.sub_eq_add_neg]

/-- Where a place some elements on is, by its distance from the first place of the node. -/
theorem place_offset {n offset : Int} (h : (q : Int) = p + n)
    (hoffset : n + ((p % b.elems : Nat) : Int) = offset) :
    ((q / b.elems : Nat) : Int) = (p / b.elems : Nat) + offset / b.elems ∧
      ((q % b.elems : Nat) : Int) = offset % b.elems := by
  have hb : (b.elems : Int) ≠ 0 := by exact_mod_cast b.pos.ne'
  have hp : ((p / b.elems : Nat) : Int) * b.elems + (p % b.elems : Nat) = p := by
    exact_mod_cast place_eq (b := b) (p := p)
  have hq : (q : Int) = offset + (p / b.elems : Nat) * (b.elems : Int) := by omega
  constructor
  · rw [Int.natCast_ediv, hq, Int.add_mul_ediv_right _ _ hb, Int.add_comm]
  · rw [Int.natCast_emod, hq, Int.add_mul_emod_self_right]

theorem plus_iterAt {n : Int} (h : (q : Int) = p + n) :
    (iterAt b entry p).plus b entry n = iterAt b entry q := by
  have hb : (0 : Int) < b.elems := by exact_mod_cast b.pos
  obtain ⟨offset, hoffset⟩ : ∃ offset : Int, n + ((p % b.elems : Nat) : Int) = offset := ⟨_, rfl⟩
  obtain ⟨hdiv, hmod⟩ := place_offset h hoffset
  have hsame : n + (iterAt b entry p).cur.diff (iterAt b entry p).first = offset := by
    rw [← hoffset]
    simp only [iterAt, eltAt, EltPtr.diff, Int.natCast_zero, Int.sub_zero]
  unfold DequeIter.plus
  simp only [hsame]
  split
  next hin =>
    rw [Int.ediv_eq_zero_of_lt hin.1 hin.2, Int.add_zero] at hdiv
    rw [Int.emod_eq_of_lt hin.1 hin.2] at hmod
    have hd : q / b.elems = p / b.elems := by exact_mod_cast hdiv
    have hm : (((p % b.elems : Nat) : Int) + n).toNat = q % b.elems := by
      rw [Int.add_comm, hoffset, ← hmod, Int.toNat_natCast]
    simp only [iterAt, eltAt, hd, hm]
  next hout =>
    rw [nodeOffset_eq hb hout]
    have hd : (((p / b.elems : Nat) : Int) + offset / b.elems).toNat = q / b.elems := by
      rw [← hdiv, Int.toNat_natCast]
    have hm : (offset - offset / (b.elems : Int) * b.elems).toNat = q % b.elems := by
      rw [Int.mul_comm, ← Int.emod_def, ← hmod, Int.toNat_natCast]
    simp only [iterAt, eltAt, DequeIter.setNode, EltPtr.add, hd, hm, Nat.zero_add]

end Rtfsc.Stl
