import Rtfsc.Machine.Extents
import Rtfsc.Stl.DequeIter

/-!
# Deque iterators in machine arithmetic

The operators of an iterator, with pointers into buffers that have addresses and numbers of the types of the
source: an operation of `difference_type` whose result is not one of the type has no value, a conversion to
`size_t` or from it is one modulo `2 ^ 64`, and a pointer has no value outside its buffer. At every slot of
the map they are the operators of the slots' numbers.
-/

namespace Rtfsc.Stl

open Rtfsc.Machine

/-! ## Numbers -/

/-- The result of an operation of `difference_type`, if it is one of the type. -/
def difference (v : Int) : Option Int :=
  if -0x8000000000000000 ≤ v ∧ v < 0x8000000000000000 then some v else none

/-- A `size_t` as a `difference_type`. -/
def toDifference (n : Nat) : Int := Int.bmod n 0x10000000000000000

/-- A `difference_type` as a `size_t`. -/
def toSize (v : Int) : Nat := (v % 0x10000000000000000).toNat

theorem difference_eq {v : Int} (hlo : -0x8000000000000000 ≤ v) (hhi : v < 0x8000000000000000) :
    difference v = some v := if_pos ⟨hlo, hhi⟩

theorem toDifference_eq {n : Nat} (h : n < 0x8000000000000000) : toDifference n = n :=
  Int.bmod_eq_of_le (by omega) (by omega)

theorem toSize_eq {v : Int} (hlo : 0 ≤ v) (hhi : v < 0x8000000000000000) : toSize v = v.toNat := by
  rw [toSize, Int.emod_eq_of_lt hlo (by omega)]

/-! ## The map and its buffers -/

/-- The difference of two pointers into one buffer. -/
def ptrDiff (p q : EltPtr) : Option Int := if p.buf = q.buf then difference (p.diff q) else none

/-- The entries of a map that have buffers, from the first one on. The buffers are objects apart from one
another, at addresses that a `difference_type` can tell. -/
structure NodeMap where
  /-- `sizeof(_Tp)` -/
  eltSize : Nat
  buffer : BufferSize
  entries : List Nat
  eltSize_pos : 0 < eltSize
  apart : (entries.map fun a => Extent.mk a (buffer.elems * eltSize)).Pairwise Extent.Apart
  inside : ∀ a ∈ entries, 0 < a ∧ a + buffer.elems * eltSize ≤ 0x8000000000000000

namespace NodeMap

variable (m : NodeMap)

/-- The buffer of a node. -/
def entry (k : Nat) : Nat := m.entries[k]?.getD 0

/-- How many elements all the buffers have. -/
def slots : Nat := m.entries.length * m.buffer.elems

/-- The address in a pointer. -/
def addr (p : EltPtr) : Nat := p.buf + p.off * m.eltSize

/-- A pointer some elements further in its buffer. -/
def move (p : EltPtr) (n : Int) : Option EltPtr :=
  if 0 ≤ p.off + n ∧ p.off + n ≤ m.buffer.elems then some { p with off := (p.off + n).toNat } else none

/-! ## The operators -/

/-- `_M_set_node` -/
def setNode (it : DequeIter) (newNode : Int) : Option DequeIter := do
  let buf ← if 0 ≤ newNode then m.entries[newNode.toNat]? else none
  let first : EltPtr := ⟨buf, 0⟩
  let last ← m.move first (toDifference m.buffer.elems)
  return { it with node := newNode.toNat, first := first, last := last }

/-- `operator++` -/
def next (it : DequeIter) : Option DequeIter := do
  let cur ← m.move it.cur 1
  if m.addr cur = m.addr it.last then
    let it ← m.setNode it (it.node + 1)
    return { it with cur := it.first }
  else return { it with cur := cur }

/-- `operator--` -/
def prev (it : DequeIter) : Option DequeIter := do
  let it ←
    if m.addr it.cur = m.addr it.first then do
      let it ← m.setNode it (it.node - 1)
      pure { it with cur := it.last }
    else pure it
  let cur ← m.move it.cur (-1)
  return { it with cur := cur }

/-- `__node_offset` of `operator+=`. The division of the second branch is one of `size_t`. -/
def nodeOffset (offset : Int) : Option Int :=
  if 0 < offset then difference (offset.tdiv (toDifference m.buffer.elems))
  else do
    let negated ← difference (-offset)
    let negated ← difference (negated - 1)
    let nodes ← difference (-toDifference (toSize negated / m.buffer.elems))
    difference (nodes - 1)

/-- `operator+=` -/
def plusAssign (it : DequeIter) (n : Int) : Option DequeIter := do
  let offset ← difference (n + (← ptrDiff it.cur it.first))
  if 0 ≤ offset ∧ offset < toDifference m.buffer.elems then
    let cur ← m.move it.cur n
    return { it with cur := cur }
  else
    let nodeOffset ← m.nodeOffset offset
    let it ← m.setNode it (it.node + nodeOffset)
    let before ← difference (nodeOffset * toDifference m.buffer.elems)
    let cur ← m.move it.first (← difference (offset - before))
    return { it with cur := cur }

/-- `operator+` -/
def plus (it : DequeIter) (n : Int) : Option DequeIter :=
  let tmp := it
  m.plusAssign tmp n

/-- `operator-` of two iterators. -/
def minus (x y : DequeIter) : Option Int := do
  let nodes ← difference ((← difference ((x.node : Int) - y.node)) - 1)
  let whole ← difference (toDifference m.buffer.elems * nodes)
  let sum ← difference (whole + (← ptrDiff x.cur x.first))
  difference (sum + (← ptrDiff y.last y.cur))

/-- `operator<` -/
def lt (x y : DequeIter) : Bool :=
  if x.node = y.node then m.addr x.cur < m.addr y.cur else x.node < y.node

/-- `operator==` -/
def eq (x y : DequeIter) : Bool := m.addr x.cur = m.addr y.cur

/-- So many applications of `++` or `--`. -/
def apply (f : DequeIter → Option DequeIter) : Nat → DequeIter → Option DequeIter
  | 0, it => some it
  | n + 1, it => (f it).bind (apply f n)

/-! ## The slots -/

/-- An iterator at a slot of a buffer. -/
structure Valid (it : DequeIter) : Prop where
  here : it.Valid m.buffer m.entry
  node_lt : it.node < m.entries.length

/-- The number of the slot that an iterator is at. -/
def slot (it : DequeIter) : Nat := it.node * m.buffer.elems + it.cur.off

/-- The iterator at a slot. -/
def iterAt (p : Nat) : DequeIter := Stl.iterAt m.buffer m.entry p

variable {m : NodeMap} {it : DequeIter} {p q k : Nat} {n : Int}

theorem slots_lt : m.slots < 0x8000000000000000 := by
  have hsum := sum_len_le 1 0x8000000000000000 (fun e he => by
    obtain ⟨a, ha, rfl⟩ := List.mem_map.mp he
    exact m.inside a ha) m.apart
  rw [List.map_map] at hsum
  change (m.entries.map fun _ => m.buffer.elems * m.eltSize).sum ≤ _ at hsum
  rw [List.map_const', List.sum_replicate_nat, ← Nat.mul_assoc] at hsum
  have hle : m.slots ≤ m.slots * m.eltSize := Nat.le_mul_of_pos_right _ m.eltSize_pos
  exact Nat.lt_of_le_of_lt (hle.trans hsum) (by decide)

theorem elems_le (h : p < m.slots) : m.buffer.elems ≤ m.slots :=
  Nat.le_mul_of_pos_left _ (Nat.pos_of_mul_pos_right (Nat.zero_lt_of_lt h))

theorem toDifference_elems (h : p < m.slots) : toDifference m.buffer.elems = m.buffer.elems :=
  toDifference_eq (Nat.lt_of_le_of_lt (elems_le h) slots_lt)

theorem div_lt (h : p < m.slots) : p / m.buffer.elems < m.entries.length :=
  (Nat.div_lt_iff_lt_mul m.buffer.pos).mpr h

theorem entries_div (h : p < m.slots) :
    m.entries[p / m.buffer.elems]? = some (m.entry (p / m.buffer.elems)) := by
  rw [entry, List.getElem?_eq_getElem (div_lt h), Option.getD_some]

theorem Valid.eq_iterAt (h : m.Valid it) : it = m.iterAt (m.slot it) := h.here.eq_iterAt

theorem Valid.slot_lt (h : m.Valid it) : m.slot it < m.slots := by
  calc m.slot it < (it.node + 1) * m.buffer.elems := by
        rw [slot, Nat.succ_mul]
        exact Nat.add_lt_add_left h.here.cur_lt _
    _ ≤ m.slots := Nat.mul_le_mul_right _ h.node_lt

theorem iterAt_valid (h : p < m.slots) : m.Valid (m.iterAt p) :=
  ⟨⟨rfl, rfl, rfl, place_mod_lt⟩, div_lt h⟩

/-! ## The operators at the slots -/

theorem move_eq {r : EltPtr} {j : Nat} (h : (r.off : Int) + n = j) (hle : j ≤ m.buffer.elems) :
    m.move r n = some { r with off := j } := by
  rw [move, h, if_pos ⟨by omega, by omega⟩, Int.toNat_natCast]

theorem ptrDiff_eq {a i j : Nat} (hi : i ≤ m.buffer.elems) (hj : j ≤ m.buffer.elems) (hp : p < m.slots) :
    ptrDiff ⟨a, i⟩ ⟨a, j⟩ = some ((i : Int) - j) := by
  have hle := elems_le hp
  have hlt : m.slots < 0x8000000000000000 := slots_lt
  rw [ptrDiff, if_pos rfl]
  exact difference_eq (show -_ ≤ (i : Int) - j by omega) (show (i : Int) - j < _ by omega)

theorem ptrDiff_cur (hp : p < m.slots) :
    ptrDiff (m.iterAt q).cur (m.iterAt q).first = some ((q % m.buffer.elems : Nat) : Int) :=
  (ptrDiff_eq place_mod_lt.le (Nat.zero_le _) hp).trans (congrArg some (Int.sub_zero _))

theorem setNode_eq (h : p < m.slots) {j : Int} (hj : j = ((p / m.buffer.elems : Nat) : Int)) :
    m.setNode it j = some { it with
      node := p / m.buffer.elems
      first := ⟨m.entry (p / m.buffer.elems), 0⟩
      last := ⟨m.entry (p / m.buffer.elems), m.buffer.elems⟩ } := by
  subst hj
  have hlast : m.move ⟨m.entry (p / m.buffer.elems), 0⟩ m.buffer.elems =
      some ⟨m.entry (p / m.buffer.elems), m.buffer.elems⟩ := move_eq (Int.zero_add _) le_rfl
  simp only [setNode, if_pos (Int.natCast_nonneg _), Int.toNat_natCast, entries_div h, toDifference_elems h,
    hlast, Option.bind_eq_bind, Option.bind_some, Option.pure_def]

/-- Pointers into one buffer are told apart by their addresses. -/
theorem addr_inj {a i j : Nat} : m.addr ⟨a, i⟩ = m.addr ⟨a, j⟩ ↔ i = j := by
  rw [addr, addr, Nat.add_left_cancel_iff, Nat.mul_left_inj m.eltSize_pos.ne']

/-- `++` goes to the next slot, in the buffer or to the next one. -/
theorem next_slot (h : p + 1 < m.slots) : m.next (m.iterAt p) = some (m.iterAt (p + 1)) := by
  have hlt : p % m.buffer.elems < m.buffer.elems := place_mod_lt
  have hmove : m.move (m.iterAt p).cur 1 = some ⟨m.entry (p / m.buffer.elems), p % m.buffer.elems + 1⟩ :=
    move_eq (by simp [iterAt, Stl.iterAt, eltAt]) hlt
  have hlast : (m.iterAt p).last = ⟨m.entry (p / m.buffer.elems), m.buffer.elems⟩ := rfl
  rw [next, hmove, hlast, Option.bind_eq_bind, Option.bind_some]
  by_cases hend : p % m.buffer.elems + 1 = m.buffer.elems
  · obtain ⟨hdiv, hmod⟩ := place_add_last hend
    rw [if_pos (addr_inj.mpr hend), setNode_eq h (by rw [hdiv]; rfl)]
    simp [iterAt, Stl.iterAt, eltAt, hmod]
  · obtain ⟨hdiv, hmod⟩ := place_add (b := m.buffer) (p := p) (k := 1) (by omega)
    rw [if_neg (fun heq => hend (addr_inj.mp heq))]
    simp [iterAt, Stl.iterAt, eltAt, hdiv, hmod]

theorem prev_slot (h : p + 1 < m.slots) : m.prev (m.iterAt (p + 1)) = some (m.iterAt p) := by
  have hlt : p % m.buffer.elems < m.buffer.elems := place_mod_lt
  have hcur : (m.iterAt (p + 1)).cur = ⟨m.entry ((p + 1) / m.buffer.elems), (p + 1) % m.buffer.elems⟩ := rfl
  have hfirst : (m.iterAt (p + 1)).first = ⟨m.entry ((p + 1) / m.buffer.elems), 0⟩ := rfl
  rw [prev, hcur, hfirst]
  by_cases hend : p % m.buffer.elems + 1 = m.buffer.elems
  · obtain ⟨hdiv, hmod⟩ := place_add_last hend
    have hnode : ((m.iterAt (p + 1)).node : Int) - 1 = ((p / m.buffer.elems : Nat) : Int) := by
      show (((p + 1) / m.buffer.elems : Nat) : Int) - 1 = _
      omega
    have hmove : m.move ⟨m.entry (p / m.buffer.elems), m.buffer.elems⟩ (-1) =
        some ⟨m.entry (p / m.buffer.elems), p % m.buffer.elems⟩ := move_eq (by dsimp only; omega) hlt.le
    rw [if_pos (addr_inj.mpr hmod), setNode_eq (Nat.lt_of_succ_lt h) hnode]
    simp only [Option.bind_eq_bind, Option.bind_some, Option.pure_def, hmove]
    rfl
  · obtain ⟨hdiv, hmod⟩ := place_add (b := m.buffer) (p := p) (k := 1) (by omega)
    have hmove : m.move (m.iterAt (p + 1)).cur (-1) = some ⟨m.entry (p / m.buffer.elems), p % m.buffer.elems⟩ := by
      rw [hcur, hdiv, hmod]
      exact move_eq (by dsimp only; omega) hlt.le
    rw [if_neg (fun heq => Nat.succ_ne_zero _ (hmod.symm.trans (addr_inj.mp heq)))]
    simp only [Option.bind_eq_bind, Option.bind_some, Option.pure_def, hmove]
    simp [iterAt, Stl.iterAt, eltAt, hdiv]

/-- The conversions to `size_t` and back lose nothing, and the quotient is the one that is rounded down. -/
theorem nodeOffset_some {offset : Int} (hp : p < m.slots) (hlo : -0x8000000000000000 < offset)
    (hhi : offset < 0x8000000000000000) (hout : ¬(0 ≤ offset ∧ offset < m.buffer.elems)) :
    m.nodeOffset offset = some (offset / m.buffer.elems) := by
  have hb : (0 : Int) < m.buffer.elems := by exact_mod_cast m.buffer.pos
  rw [← nodeOffset_eq hb hout, nodeOffset, toDifference_elems hp]
  split
  next hpos =>
    rw [Int.tdiv_eq_ediv_of_nonneg hpos.le]
    have hle : offset / m.buffer.elems ≤ offset := Int.ediv_le_self _ hpos.le
    have hnn : 0 ≤ offset / m.buffer.elems := Int.ediv_nonneg hpos.le hb.le
    exact difference_eq (by omega) (by omega)
  next hpos =>
    obtain ⟨k, hk⟩ : ∃ k : Nat, -offset - 1 = k := ⟨(-offset - 1).toNat, by omega⟩
    obtain ⟨nodes, hnodes⟩ : ∃ nodes, k / m.buffer.elems = nodes := ⟨_, rfl⟩
    have hle : nodes ≤ k := hnodes ▸ Nat.div_le_self _ _
    rw [hk, ← Int.natCast_ediv, hnodes, difference_eq (by omega) (by omega), Option.bind_eq_bind,
      Option.bind_some, hk, difference_eq (by omega) (by omega), Option.bind_some,
      toSize_eq (by omega) (by omega), Int.toNat_natCast, hnodes, toDifference_eq (by omega),
      difference_eq (by omega) (by omega), Option.bind_some]
    exact difference_eq (by omega) (by omega)

/-- `+=` goes to the slot that many further on. -/
theorem plusAssign_slot (hp : p < m.slots) (hq : q < m.slots) (h : (q : Int) = p + n) :
    m.plusAssign (m.iterAt p) n = some (m.iterAt q) := by
  have hqlt : q % m.buffer.elems < m.buffer.elems := place_mod_lt
  have hlt : m.slots < 0x8000000000000000 := slots_lt
  have hple : p % m.buffer.elems ≤ p := Nat.mod_le _ _
  obtain ⟨offset, hoffset⟩ : ∃ offset : Int, n + ((p % m.buffer.elems : Nat) : Int) = offset := ⟨_, rfl⟩
  obtain ⟨hdiv, hmod⟩ := place_offset h hoffset
  have hsplit : offset / m.buffer.elems * m.buffer.elems + offset % m.buffer.elems = offset :=
    Int.ediv_mul_add_emod offset _
  simp only [plusAssign, ptrDiff_cur hp, Option.bind_eq_bind, Option.bind_some, hoffset]
  rw [difference_eq (by omega) (by omega), Option.bind_some, toDifference_elems hp]
  split
  next hin =>
    rw [Int.ediv_eq_zero_of_lt hin.1 hin.2, Int.add_zero] at hdiv
    rw [Int.emod_eq_of_lt hin.1 hin.2] at hmod
    have hnode : q / m.buffer.elems = p / m.buffer.elems := by exact_mod_cast hdiv
    have hmove : m.move (m.iterAt p).cur n = some ⟨m.entry (p / m.buffer.elems), q % m.buffer.elems⟩ := by
      refine move_eq ?_ hqlt.le
      show ((p % m.buffer.elems : Nat) : Int) + n = _
      omega
    rw [hmove, Option.bind_some]
    simp [iterAt, Stl.iterAt, eltAt, hnode]
  next hout =>
    have hnode : ((m.iterAt p).node : Int) + offset / m.buffer.elems = ((q / m.buffer.elems : Nat) : Int) :=
      hdiv.symm
    have hmove : m.move ⟨m.entry (q / m.buffer.elems), 0⟩ ((q % m.buffer.elems : Nat) : Int) =
        some ⟨m.entry (q / m.buffer.elems), q % m.buffer.elems⟩ := move_eq (Int.zero_add _) hqlt.le
    -- the first places of the two nodes
    have hbefore : offset / m.buffer.elems * m.buffer.elems =
        ((q / m.buffer.elems * m.buffer.elems : Nat) : Int) - (p / m.buffer.elems * m.buffer.elems : Nat) := by
      rw [Int.natCast_mul, Int.natCast_mul, ← Int.sub_mul, hdiv, Int.add_comm, Int.add_sub_cancel]
    have hpnode : p / m.buffer.elems * m.buffer.elems ≤ p := Nat.div_mul_le_self _ _
    have hqnode : q / m.buffer.elems * m.buffer.elems ≤ q := Nat.div_mul_le_self _ _
    rw [nodeOffset_some hp (by omega) (by omega) hout, Option.bind_some, setNode_eq hq hnode, Option.bind_some,
      difference_eq (by omega) (by omega), Option.bind_some]
    have hahead : offset - offset / m.buffer.elems * m.buffer.elems = ((q % m.buffer.elems : Nat) : Int) := by omega
    rw [hahead, difference_eq (by omega) (by omega), Option.bind_some, hmove]
    rfl

/-- `-` is the difference of the slots. -/
theorem minus_slot (hp : p < m.slots) (hq : q < m.slots) :
    m.minus (m.iterAt q) (m.iterAt p) = some ((q : Int) - p) := by
  have hplt : p % m.buffer.elems < m.buffer.elems := place_mod_lt
  have hpe : p / m.buffer.elems * m.buffer.elems + p % m.buffer.elems = p := place_eq
  have hqe : q / m.buffer.elems * m.buffer.elems + q % m.buffer.elems = q := place_eq
  have hlt : m.slots < 0x8000000000000000 := slots_lt
  have hpn := div_lt hp
  have hqn := div_lt hq
  have hlen : m.entries.length ≤ m.slots := Nat.le_mul_of_pos_right _ m.buffer.pos
  have hpb : (p / m.buffer.elems + 1) * m.buffer.elems ≤ m.slots := Nat.mul_le_mul_right _ hpn
  rw [Nat.succ_mul] at hpb
  have hbehind : ptrDiff (m.iterAt p).last (m.iterAt p).cur =
      some ((m.buffer.elems : Int) - (p % m.buffer.elems : Nat)) := ptrDiff_eq le_rfl hplt.le hp
  have hnodes : ((m.iterAt q).node : Int) - (m.iterAt p).node =
      ((q / m.buffer.elems : Nat) : Int) - (p / m.buffer.elems : Nat) := rfl
  have hwhole : (m.buffer.elems : Int) * (((q / m.buffer.elems : Nat) : Int) - (p / m.buffer.elems : Nat) - 1) =
      ((q / m.buffer.elems * m.buffer.elems : Nat) : Int) - (p / m.buffer.elems * m.buffer.elems : Nat) -
        m.buffer.elems := by
    rw [Int.mul_sub, Int.mul_sub, Int.mul_one, Int.natCast_mul, Int.natCast_mul, Int.mul_comm,
      Int.mul_comm (m.buffer.elems : Int)]
  simp only [minus, hnodes, Option.bind_eq_bind, ptrDiff_cur hp, hbehind, toDifference_elems hp]
  clear hnodes hbehind
  generalize p / m.buffer.elems = i, p % m.buffer.elems = po, q / m.buffer.elems = j, q % m.buffer.elems = qo at *
  rw [difference_eq (by omega) (by omega), Option.bind_some, difference_eq (by omega) (by omega),
    Option.bind_some, hwhole, difference_eq (by omega) (by omega), Option.bind_some, Option.bind_some,
    difference_eq (by omega) (by omega), Option.bind_some, Option.bind_some, difference_eq (by omega) (by omega)]
  congr 1
  omega

theorem apply_next (h : p + k < m.slots) : apply m.next k (m.iterAt p) = some (m.iterAt (p + k)) := by
  induction k generalizing p with
  | zero => rfl
  | succ k ih =>
    rw [apply, next_slot (by omega), Option.bind_some, ih (by omega), Nat.add_assoc, Nat.add_comm 1]

theorem apply_prev (h : p + k < m.slots) : apply m.prev k (m.iterAt (p + k)) = some (m.iterAt p) := by
  induction k with
  | zero => rfl
  | succ k ih => rw [apply, ← Nat.add_assoc, prev_slot (by omega), Option.bind_some, ih (by omega)]

theorem plus_eq_apply (hp : p < m.slots) (hq : q < m.slots) (h : (q : Int) = p + n) :
    apply (if 0 ≤ n then m.next else m.prev) n.natAbs (m.iterAt p) = some (m.iterAt q) := by
  split
  next hn =>
    obtain rfl : q = p + n.natAbs := by omega
    exact apply_next hq
  next hn =>
    obtain rfl : p = q + n.natAbs := by omega
    exact apply_prev hp

/-- The buffers of two nodes are apart. -/
theorem entry_apart {i j : Nat} (hi : i < m.entries.length) (hj : j < m.entries.length) (hne : i ≠ j) :
    (Extent.mk (m.entry i) (m.buffer.elems * m.eltSize)).Apart
      (Extent.mk (m.entry j) (m.buffer.elems * m.eltSize)) := by
  have hentry {k : Nat} (hk : k < m.entries.length) : m.entry k = m.entries[k] := by
    rw [entry, List.getElem?_eq_getElem hk, Option.getD_some]
  have hpair := List.pairwise_iff_getElem.mp (List.pairwise_map.mp m.apart)
  rw [hentry hi, hentry hj]
  rcases Nat.lt_or_gt_of_ne hne with hlt | hgt
  · exact hpair i j hi hj hlt
  · exact (hpair j i hj hi hgt).symm

theorem addr_has (p : Nat) :
    (Extent.mk (m.entry (p / m.buffer.elems)) (m.buffer.elems * m.eltSize)).Has (m.addr (m.iterAt p).cur) :=
  ⟨Nat.le_add_right _ _, Nat.add_lt_add_left (Nat.mul_lt_mul_of_pos_right place_mod_lt m.eltSize_pos) _⟩

theorem eq_slot (hp : p < m.slots) (hq : q < m.slots) : m.eq (m.iterAt p) (m.iterAt q) = true ↔ p = q := by
  rw [eq, decide_eq_true_iff]
  constructor
  · intro haddr
    have hdiv : p / m.buffer.elems = q / m.buffer.elems := by
      by_contra hne
      exact entry_apart (div_lt hp) (div_lt hq) hne _ (addr_has p) (haddr ▸ addr_has q)
    have hmod : p % m.buffer.elems = q % m.buffer.elems := by
      have h : m.addr ⟨m.entry (p / m.buffer.elems), p % m.buffer.elems⟩ =
          m.addr ⟨m.entry (q / m.buffer.elems), q % m.buffer.elems⟩ := haddr
      rw [hdiv] at h
      exact addr_inj.mp h
    rw [← place_eq (b := m.buffer) (p := p), hdiv, hmod, place_eq]
  · rintro rfl
    rfl

theorem lt_slot : m.lt (m.iterAt p) (m.iterAt q) = true ↔ p < q := by
  have hpe : p / m.buffer.elems * m.buffer.elems + p % m.buffer.elems = p := place_eq
  have hqe : q / m.buffer.elems * m.buffer.elems + q % m.buffer.elems = q := place_eq
  rw [lt]
  split
  next hnode =>
    have hdiv : p / m.buffer.elems = q / m.buffer.elems := hnode
    have haddr : m.addr (m.iterAt p).cur < m.addr (m.iterAt q).cur ↔ p % m.buffer.elems < q % m.buffer.elems := by
      show m.entry (p / m.buffer.elems) + _ < m.entry (q / m.buffer.elems) + _ ↔ _
      rw [hdiv, Nat.add_lt_add_iff_left]
      exact Nat.mul_lt_mul_right m.eltSize_pos
    rw [decide_eq_true_iff, haddr]
    rw [hdiv] at hpe
    omega
  next hnode =>
    have hne : p / m.buffer.elems ≠ q / m.buffer.elems := hnode
    rw [decide_eq_true_iff]
    constructor
    · exact Nat.lt_of_div_lt_div
    · intro hlt
      exact Nat.lt_of_le_of_ne (Nat.div_le_div_right hlt.le) hne

/-! ## Iterators of one deque -/

/-- `first <= cur < last`, and the two are the bounds of the buffer of the node. -/
structure Between (m : NodeMap) (it : DequeIter) : Prop where
  valid : m.Valid it
  first_le : m.addr it.first ≤ m.addr it.cur
  lt_last : m.addr it.cur < m.addr it.last

theorem iterAt_between (h : p < m.slots) : m.Between (m.iterAt p) :=
  ⟨iterAt_valid h, Nat.add_le_add_left (Nat.mul_le_mul_right _ (Nat.zero_le _)) _,
    Nat.add_lt_add_left (Nat.mul_lt_mul_of_pos_right place_mod_lt m.eltSize_pos) _⟩

/-- An iterator and a distance whose slot has a map entry. -/
def CanMove (m : NodeMap) (it : DequeIter) (n : Int) : Prop :=
  m.Valid it ∧ 0 ≤ m.slot it + n ∧ m.slot it + n < m.slots

theorem CanMove.plus (h : m.CanMove it n) :
    ∃ q : Nat, q < m.slots ∧ (q : Int) = m.slot it + n ∧ m.plus it n = some (m.iterAt q) := by
  obtain ⟨hit, hlo, hhi⟩ := h
  obtain ⟨q, hq⟩ : ∃ q : Nat, (q : Int) = m.slot it + n := ⟨(m.slot it + n).toNat, by omega⟩
  have hplus := plusAssign_slot hit.slot_lt (by omega) hq
  rw [← hit.eq_iterAt] at hplus
  exact ⟨q, by omega, hq, hplus⟩

/-- Within the map, nothing overflows: the operators are those without the bounds of the machine's types. -/
theorem CanMove.plus_eq (h : m.CanMove it n) : m.plus it n = some (it.plus m.buffer m.entry n) := by
  obtain ⟨q, -, hq, hplus⟩ := h.plus
  have hsame : (m.iterAt (m.slot it)).plus m.buffer m.entry n = m.iterAt q := plus_iterAt hq
  rw [hplus, ← hsame, ← h.1.eq_iterAt]

theorem Valid.minus_eq {x y : DequeIter} (hx : m.Valid x) (hy : m.Valid y) :
    m.minus x y = some (x.minus m.buffer y) := by
  have hsame : (m.iterAt (m.slot x)).minus m.buffer (m.iterAt (m.slot y)) = (m.slot x : Int) - m.slot y :=
    minus_iterAt
  have hminus := minus_slot hy.slot_lt hx.slot_lt
  rwa [← hsame, ← hx.eq_iterAt, ← hy.eq_iterAt] at hminus

/-- What `+` promises: the difference gives the distance back, distances add up, `+=` goes as far as that
many `++` or `--`, and the result is in its buffer. -/
def PlusRight (m : NodeMap) : Prop :=
  ∀ (it : DequeIter) (n k : Int), m.CanMove it n → m.CanMove it (n + k) →
    ∃ it' it'', m.plus it n = some it' ∧ m.minus it' it = some n ∧
      m.plus it' k = some it'' ∧ (difference (n + k)).bind (m.plus it) = some it'' ∧
      apply (if 0 ≤ n then m.next else m.prev) n.natAbs it = m.plusAssign it n ∧ m.Between it'

/-- What the comparisons promise. -/
def OrderRight (m : NodeMap) : Prop :=
  ∀ x y : DequeIter, m.Valid x → m.Valid y →
    ∃ d, m.minus y x = some d ∧ (m.lt x y = true ↔ 0 < d) ∧ (m.eq x y = true ↔ d = 0)

theorem plusRight : m.PlusRight := by
  intro it n k hn hk
  obtain ⟨q, hqlt, hq, hplus⟩ := hn.plus
  obtain ⟨r, hrlt, hr, hplus'⟩ := hk.plus
  have hit := hn.1.slot_lt
  have hlt : m.slots < 0x8000000000000000 := slots_lt
  have hminus := minus_slot hit hqlt
  have happly := plus_eq_apply hit hqlt hq
  rw [← hn.1.eq_iterAt] at hminus happly
  refine ⟨m.iterAt q, m.iterAt r, hplus, ?_, plusAssign_slot hqlt hrlt (by omega), ?_, ?_,
    iterAt_between hqlt⟩
  · rw [hminus, hq, Int.add_comm, Int.add_sub_cancel]
  · rw [difference_eq (by omega) (by omega), Option.bind_some, hplus']
  · rw [happly]
    exact hplus.symm

theorem orderRight : m.OrderRight := by
  intro x y hx hy
  rw [hx.eq_iterAt, hy.eq_iterAt]
  refine ⟨_, minus_slot hx.slot_lt hy.slot_lt, ?_, ?_⟩
  · rw [lt_slot]
    omega
  · rw [eq_slot hx.slot_lt hy.slot_lt]
    omega

/-- The arithmetic of iterators is that of the slots. -/
theorem iterators_right (m : NodeMap) : m.PlusRight ∧ m.OrderRight := ⟨plusRight, orderRight⟩

end NodeMap

end Rtfsc.Stl
