import Mathlib.Data.Set.Function
import Rtfsc.Machine.Moved
import Rtfsc.Stl.DequeLoops

/-!
# Segmented copy

`copy` and `copy_backward` of deque iterators leave the elements of one buffer to `std::copy` and
`std::copy_backward` of plain pointers, of which only the documented result is assumed (`StdCopy`). Every
read and every write is checked against what may be read and written (`Access`); an access to anything
else ends the computation. With this the two functions do what the loops element by element do
(`segmented_copy`).
-/

namespace Rtfsc.Stl

open Rtfsc.Machine

variable {T : Type}

/-- The elements that may be read, and those that may be written. -/
structure Access where
  reads : EltPtr → Bool
  writes : EltPtr → Bool

/-- `std::copy` and `std::copy_backward` of plain pointers. The result of the first must not be in
`[first, last)`, that of the second not in `(first, last]`. -/
structure StdCopy (T : Type) where
  copy : EltPtr → EltPtr → EltPtr → (EltPtr → T) → EltPtr → T
  copyBackward : EltPtr → EltPtr → EltPtr → (EltPtr → T) → EltPtr → T
  copy_moved : ∀ (first result : EltPtr) (n : Nat) (cells : EltPtr → T),
    (∀ k < n, first.add k ≠ result) →
      Moved first.add result.add n cells (copy first (first.add n) result cells)
  copyBackward_moved : ∀ (first result : EltPtr) (n : Nat) (cells : EltPtr → T),
    (∀ k < n, first.add (k + 1) ≠ result.add n) →
      Moved first.add result.add n cells
        (copyBackward first (first.add n) (result.add n) cells)

/-- One element after the other. -/
def StdCopy.byElement : StdCopy T where
  copy first last result cells := moveForward first.add result.add cells (last.off - first.off)
  copyBackward first last result cells :=
    let n := last.off - first.off
    moveBackward first.add (result.sub n).add cells n
  copy_moved first result n cells happart := by
    rw [EltPtr.add_off, Nat.add_sub_cancel_left]
    refine moveForward_moved cells ⟨fun i j hij hj heq => ?_, fun i j hij _ heq => ?_⟩
    · exact happart (j - i) (by omega) (EltPtr.eq_add_of_add_eq heq hij).symm
    · exact hij.ne (EltPtr.add_inj heq)
  copyBackward_moved first result n cells happart := by
    dsimp only
    rw [EltPtr.add_off, Nat.add_sub_cancel_left, EltPtr.add_sub]
    refine moveBackward_moved cells ⟨fun i j hij hj heq => ?_, fun i j hij _ heq => ?_⟩
    · refine happart (i + (n - 1 - j)) (by omega) ?_
      calc first.add (i + (n - 1 - j) + 1) = (first.add i).add (n - j) := by
            rw [EltPtr.add_add]
            congr 1
            omega
        _ = result.add n := by rw [← heq, EltPtr.add_add, Nat.add_sub_cancel' hj.le]
    · exact hij.ne (EltPtr.add_inj heq)

/-! ## The code -/

section Code

variable (b : BufferSize) (entry : Nat → Nat) (std : StdCopy T) (acc : Access)

/-- `std::copy` in one buffer. -/
def copySegment (first last result : EltPtr) (cells : EltPtr → T) : Option (EltPtr → T) :=
  if ∀ k < last.off - first.off, acc.reads (first.add k) ∧ acc.writes (result.add k) then
    some (std.copy first last result cells)
  else none

/-- `std::copy_backward` in one buffer. -/
def copySegmentBackward (first last result : EltPtr) (cells : EltPtr → T) : Option (EltPtr → T) :=
  let n := last.off - first.off
  if n ≤ result.off ∧ ∀ k < n, acc.reads (first.add k) ∧ acc.writes ((result.sub n).add k) then
    some (std.copyBackward first last result cells)
  else none

/-- `copy` -/
def copy (fuel : Nat) (first last result : DequeIter) (cells : EltPtr → T) :
    Option (DequeIter × (EltPtr → T)) :=
  segmentedLoop b entry (copySegment std acc) fuel (last.minus b first) first result cells

/-- `copy_backward` -/
def copyBackward (fuel : Nat) (first last result : DequeIter) (cells : EltPtr → T) :
    Option (DequeIter × (EltPtr → T)) :=
  segmentedLoopBackward b entry (copySegmentBackward std acc) fuel (last.minus b first) last result
    cells

/-- One element is assigned to another. -/
def assign (src dst : EltPtr) (cells : EltPtr → T) : Option (EltPtr → T) :=
  if acc.reads src ∧ acc.writes dst then some (Function.update cells dst (cells src)) else none

/-- What `copy` stands for: element by element. -/
def copyEach (first last result : DequeIter) (cells : EltPtr → T) :
    Option (DequeIter × (EltPtr → T)) :=
  eachIter b entry (assign acc) first result cells (last.minus b first).toNat

/-- What `copy_backward` stands for. -/
def copyEachBackward (first last result : DequeIter) (cells : EltPtr → T) :
    Option (DequeIter × (EltPtr → T)) :=
  eachIterBackward b entry (assign acc) last result cells (last.minus b first).toNat

end Code

/-! ## Element by element -/

/-- The elements from a place on. -/
def eltsFrom (b : BufferSize) (entry : Nat → Nat) (p k : Nat) : EltPtr := eltAt b entry (p + k)

variable {b : BufferSize} {entry : Nat → Nat} {acc : Access} {p q n m i fuel : Nat}
  {cells : EltPtr → T}

theorem eltsFrom_add : (fun k => eltsFrom b entry p (m + k)) = eltsFrom b entry (p + m) := by
  funext k
  rw [eltsFrom, eltsFrom, Nat.add_assoc]

/-- Where the accesses of a move are to. -/
structure Access.Allows (acc : Access) (src dst : Nat → EltPtr) (n : Nat) : Prop where
  reads : ∀ k < n, acc.reads (src k)
  writes : ∀ k < n, acc.writes (dst k)

theorem Access.Allows.left {src dst : Nat → EltPtr} (h : acc.Allows src dst (m + n)) :
    acc.Allows src dst m :=
  ⟨fun k hk => h.reads k (by omega), fun k hk => h.writes k (by omega)⟩

theorem Access.Allows.right {src dst : Nat → EltPtr} (h : acc.Allows src dst (m + n)) :
    acc.Allows (fun k => src (m + k)) (fun k => dst (m + k)) n :=
  ⟨fun k hk => h.reads (m + k) (by omega), fun k hk => h.writes (m + k) (by omega)⟩

/-- The elements from place `p` on are assigned to those from place `q` on. -/
abbrev assignPlace (b : BufferSize) (entry : Nat → Nat) (acc : Access) (p q : Nat)
    (cells : EltPtr → T) : Option (EltPtr → T) :=
  assign acc (eltAt b entry p) (eltAt b entry q) cells

theorem assign_holds (cells : EltPtr → T)
    (hallows : acc.Allows (eltsFrom b entry p) (eltsFrom b entry q) 1) :
    ∃ cells', Moved (eltsFrom b entry p) (eltsFrom b entry q) 1 cells cells' ∧
      assignPlace b entry acc p q cells = some cells' :=
  ⟨_, .one, if_pos ⟨hallows.reads 0 Nat.one_pos, hallows.writes 0 Nat.one_pos⟩⟩

theorem eachPlace_assign (cells : EltPtr → T)
    (hallows : acc.Allows (eltsFrom b entry p) (eltsFrom b entry q) n)
    (hahead : Ahead (eltsFrom b entry p) (eltsFrom b entry q) n) :
    ∃ cells', Moved (eltsFrom b entry p) (eltsFrom b entry q) n cells cells' ∧
      eachPlace (assignPlace b entry acc) p q cells n = some cells' := by
  induction n generalizing p q cells with
  | zero => exact ⟨cells, .zero, rfl⟩
  | succ n ih =>
    rw [Nat.add_comm n 1] at hallows hahead ⊢
    have hallows' := hallows.right
    have hahead' := hahead.right
    rw [eltsFrom_add, eltsFrom_add] at hallows' hahead'
    obtain ⟨cells₁, hmoved₁, hrun₁⟩ := assign_holds cells hallows.left
    obtain ⟨cells₂, hmoved₂, hrun₂⟩ := ih cells₁ hallows' hahead'
    refine ⟨cells₂, hmoved₁.append ?_ hahead, ?_⟩
    · rwa [eltsFrom_add, eltsFrom_add]
    · rw [Nat.add_comm 1 n, eachPlace, hrun₁]
      exact hrun₂

theorem eachPlaceBackward_assign (cells : EltPtr → T)
    (hallows : acc.Allows (eltsFrom b entry p) (eltsFrom b entry q) n)
    (hbehind : Behind (eltsFrom b entry p) (eltsFrom b entry q) n) :
    ∃ cells', Moved (eltsFrom b entry p) (eltsFrom b entry q) n cells cells' ∧
      eachPlaceBackward (assignPlace b entry acc) p q cells n = some cells' := by
  induction n generalizing cells with
  | zero => exact ⟨cells, .zero, rfl⟩
  | succ n ih =>
    have hallows' := hallows.right
    rw [eltsFrom_add, eltsFrom_add] at hallows'
    obtain ⟨cells₁, hmoved₁, hrun₁⟩ := assign_holds cells hallows'
    obtain ⟨cells₂, hmoved₂, hrun₂⟩ := ih cells₁ hallows.left hbehind.left
    refine ⟨cells₂, .prepend ?_ hmoved₂ hbehind, ?_⟩
    · rwa [eltsFrom_add, eltsFrom_add]
    · rw [eachPlaceBackward, hrun₁]
      exact hrun₂

/-! ## One segment -/

/-- In one buffer these are the elements that a pointer goes over. -/
theorem eltsFrom_eq (h : p % b.elems + m ≤ b.elems) {k : Nat} (hk : k < m) :
    eltsFrom b entry p k = (eltAt b entry p).add k :=
  eltAt_add (by omega)

theorem copySegment_eq (std : StdCopy T) (cells : EltPtr → T) (hp : p % b.elems + m ≤ b.elems)
    (hq : q % b.elems + m ≤ b.elems)
    (hallows : acc.Allows (eltsFrom b entry p) (eltsFrom b entry q) m)
    (hahead : Ahead (eltsFrom b entry p) (eltsFrom b entry q) m) :
    copySegment std acc (eltAt b entry p) ((eltAt b entry p).add m) (eltAt b entry q) cells =
      eachPlace (assignPlace b entry acc) p q cells m := by
  have hapart : ∀ k < m, (eltAt b entry p).add k ≠ eltAt b entry q := by
    intro k hk heq
    rw [← eltsFrom_eq hp hk] at heq
    exact hahead.src 0 k (Nat.zero_le k) hk heq.symm
  have hmoved : Moved (eltsFrom b entry p) (eltsFrom b entry q) m cells _ :=
    (std.copy_moved _ _ m cells hapart).congr (fun k hk => eltsFrom_eq hp hk)
      fun k hk => eltsFrom_eq hq hk
  obtain ⟨cells', hmoved', hrun⟩ := eachPlace_assign cells hallows hahead
  rw [hrun, ← hmoved.unique hmoved']
  refine if_pos fun k hk => ?_
  rw [EltPtr.add_off, Nat.add_sub_cancel_left] at hk
  rw [← eltsFrom_eq hp hk, ← eltsFrom_eq hq hk]
  exact ⟨hallows.reads k hk, hallows.writes k hk⟩

theorem copySegmentBackward_eq (std : StdCopy T) (cells : EltPtr → T)
    (hp : p % b.elems + m ≤ b.elems) (hq : q % b.elems + m ≤ b.elems)
    (hallows : acc.Allows (eltsFrom b entry p) (eltsFrom b entry q) m)
    (hbehind : Behind (eltsFrom b entry p) (eltsFrom b entry q) m) :
    copySegmentBackward std acc (eltAt b entry p) ((eltAt b entry p).add m)
      ((eltAt b entry q).add m) cells =
      eachPlaceBackward (assignPlace b entry acc) p q cells m := by
  have hapart : ∀ k < m, (eltAt b entry p).add (k + 1) ≠ (eltAt b entry q).add m := by
    intro k hk heq
    -- then the last element that is written is this one
    have hlast : (eltAt b entry p).add k = (eltAt b entry q).add (m - 1) := by
      simp only [EltPtr.add, EltPtr.mk.injEq] at heq ⊢
      omega
    rw [← eltsFrom_eq hp hk, ← eltsFrom_eq hq (by omega)] at hlast
    exact hbehind.src k (m - 1) (by omega) (by omega) hlast.symm
  have hmoved : Moved (eltsFrom b entry p) (eltsFrom b entry q) m cells _ :=
    (std.copyBackward_moved _ _ m cells hapart).congr (fun k hk => eltsFrom_eq hp hk)
      fun k hk => eltsFrom_eq hq hk
  obtain ⟨cells', hmoved', hrun⟩ := eachPlaceBackward_assign cells hallows hbehind
  rw [hrun, ← hmoved.unique hmoved']
  refine if_pos ⟨?_, fun k hk => ?_⟩
  · rw [EltPtr.add_off, EltPtr.add_off]
    omega
  · rw [EltPtr.add_off, Nat.add_sub_cancel_left] at hk ⊢
    rw [EltPtr.add_sub, ← eltsFrom_eq hp hk, ← eltsFrom_eq hq hk]
    exact ⟨hallows.reads k hk, hallows.writes k hk⟩

/-! ## Two ranges -/

/-- The source may be read, and the destination written. -/
def Access.ranges (b : BufferSize) (entry : Nat → Nat) (p q n : Nat) : Access where
  reads x := decide (∃ k < n, eltsFrom b entry p k = x)
  writes x := decide (∃ k < n, eltsFrom b entry q k = x)

theorem Access.ranges_allows :
    (Access.ranges b entry p q n).Allows (eltsFrom b entry p) (eltsFrom b entry q) n :=
  ⟨fun k hk => decide_eq_true ⟨k, hk, rfl⟩, fun k hk => decide_eq_true ⟨k, hk, rfl⟩⟩

/-- The nodes in which there are elements of a range. -/
def rangeNodes (b : BufferSize) (p n : Nat) : Set Nat := {j | ∃ k < n, (p + k) / b.elems = j}

section Overlap

variable (hinj : Set.InjOn entry (rangeNodes b p n ∪ rangeNodes b q n))
include hinj

/-- Two places of the ranges have one element only if they are the same. -/
theorem eltAt_inj {x y : Nat} (hx : (p ≤ x ∧ x < p + n) ∨ (q ≤ x ∧ x < q + n))
    (hy : (p ≤ y ∧ y < p + n) ∨ (q ≤ y ∧ y < q + n)) (h : eltAt b entry x = eltAt b entry y) :
    x = y := by
  have hmem : ∀ z, (p ≤ z ∧ z < p + n) ∨ (q ≤ z ∧ z < q + n) →
      z / b.elems ∈ rangeNodes b p n ∪ rangeNodes b q n := by
    rintro z (⟨hle, hlt⟩ | ⟨hle, hlt⟩)
    · exact .inl ⟨z - p, by omega, by rw [Nat.add_sub_cancel' hle]⟩
    · exact .inr ⟨z - q, by omega, by rw [Nat.add_sub_cancel' hle]⟩
  obtain ⟨hbuf, hoff⟩ := EltPtr.mk.inj h
  rw [← place_eq (b := b) (p := x), hinj (hmem x hx) (hmem y hy) hbuf, hoff, place_eq]

theorem ahead_of_before (hq : q < p ∨ p + n ≤ q) :
    Ahead (eltsFrom b entry p) (eltsFrom b entry q) n := by
  refine ⟨fun i j hij hj heq => ?_, fun i j hij hj heq => ?_⟩
  · have := eltAt_inj hinj (by omega) (by omega) heq
    omega
  · have := eltAt_inj hinj (by omega) (by omega) heq
    omega

theorem behind_of_after (hq : p < q ∨ q + n ≤ p) :
    Behind (eltsFrom b entry p) (eltsFrom b entry q) n := by
  refine ⟨fun i j hij hj heq => ?_, fun i j hij hj heq => ?_⟩
  · have := eltAt_inj hinj (by omega) (by omega) heq
    omega
  · have := eltAt_inj hinj (by omega) (by omega) heq
    omega

end Overlap

/-- `copy` and `copy_backward` read only the source and write only the destination, come to an end, and
do what the loops element by element do. The nodes of the two ranges have different buffers. -/
theorem segmented_copy (b : BufferSize) (entry : Nat → Nat) (std : StdCopy T) (p q n fuel : Nat)
    (cells : EltPtr → T) (hinj : Set.InjOn entry (rangeNodes b p n ∪ rangeNodes b q n))
    (hfuel : n ≤ fuel) :
    (q < p ∨ p + n ≤ q → ∃ cells',
      Moved (eltsFrom b entry p) (eltsFrom b entry q) n cells cells' ∧
      copy b entry std (.ranges b entry p q n) fuel (iterAt b entry p) (iterAt b entry (p + n))
        (iterAt b entry q) cells = some (iterAt b entry (q + n), cells') ∧
      copyEach b entry (.ranges b entry p q n) (iterAt b entry p) (iterAt b entry (p + n))
        (iterAt b entry q) cells = some (iterAt b entry (q + n), cells')) ∧
    (p < q ∨ q + n ≤ p → ∃ cells',
      Moved (eltsFrom b entry p) (eltsFrom b entry q) n cells cells' ∧
      copyBackward b entry std (.ranges b entry p q n) fuel (iterAt b entry p)
        (iterAt b entry (p + n)) (iterAt b entry (q + n)) cells = some (iterAt b entry q, cells') ∧
      copyEachBackward b entry (.ranges b entry p q n) (iterAt b entry p) (iterAt b entry (p + n))
        (iterAt b entry (q + n)) cells = some (iterAt b entry q, cells')) := by
  have hlen : (iterAt b entry (p + n)).minus b (iterAt b entry p) = (n : Nat) := by
    rw [minus_iterAt]
    omega
  have hallows : (Access.ranges b entry p q n).Allows (eltsFrom b entry p) (eltsFrom b entry q) n :=
    Access.ranges_allows
  constructor
  · intro hside
    have hahead := ahead_of_before hinj hside
    obtain ⟨cells', hmoved, hrun⟩ := eachPlace_assign cells hallows hahead
    refine ⟨cells', hmoved, ?_, ?_⟩
    · rw [copy, hlen]
      refine (segmentedLoop_eq (fun i m c hi hp hq => ?_) hfuel).trans (by rw [hrun]; rfl)
      obtain ⟨r, rfl⟩ := Nat.exists_eq_add_of_le hi
      have hallows' := hallows.left.right
      have hahead' := hahead.left.right
      rw [eltsFrom_add, eltsFrom_add] at hallows' hahead'
      exact copySegment_eq std c hp hq hallows' hahead'
    · rw [copyEach, hlen, Int.toNat_natCast, eachIter_eq, hrun]
      rfl
  · intro hside
    have hbehind := behind_of_after hinj hside
    obtain ⟨cells', hmoved, hrun⟩ := eachPlaceBackward_assign cells hallows hbehind
    refine ⟨cells', hmoved, ?_, ?_⟩
    · rw [copyBackward, hlen]
      refine (segmentedLoopBackward_eq (fun i m c hi hp hq => ?_) hfuel).trans (by rw [hrun]; rfl)
      obtain ⟨r, rfl⟩ := Nat.exists_eq_add_of_le hi
      have hallows' := hallows.left.right
      have hbehind' := hbehind.left.right
      rw [eltsFrom_add, eltsFrom_add] at hallows' hbehind'
      exact copySegmentBackward_eq std c hp hq hallows' hbehind'
    · rw [copyEachBackward, hlen, Int.toNat_natCast, eachIterBackward_eq, hrun]
      rfl

/-- With two elements in each buffer, five are moved one place to the front, and five one to the back. -/
theorem segmented_copy_five :
    (∃ cells', copy (dequeBufSize 200 (by decide)) id .byElement
      (.ranges (dequeBufSize 200 (by decide)) id 1 0 5) 5 (iterAt (dequeBufSize 200 (by decide)) id 1)
      (iterAt (dequeBufSize 200 (by decide)) id 6) (iterAt (dequeBufSize 200 (by decide)) id 0)
      EltPtr.off = some (iterAt (dequeBufSize 200 (by decide)) id 5, cells')) ∧
    ∃ cells', copyBackward (dequeBufSize 200 (by decide)) id .byElement
      (.ranges (dequeBufSize 200 (by decide)) id 0 1 5) 5 (iterAt (dequeBufSize 200 (by decide)) id 0)
      (iterAt (dequeBufSize 200 (by decide)) id 5) (iterAt (dequeBufSize 200 (by decide)) id 6)
      EltPtr.off = some (iterAt (dequeBufSize 200 (by decide)) id 1, cells') := by
  obtain ⟨cells₁, -, hcopy, -⟩ := (segmented_copy (dequeBufSize 200 (by decide)) id .byElement 1 0 5 5
    EltPtr.off (Set.injOn_id _) le_rfl).1 (.inl (by decide))
  obtain ⟨cells₂, -, hback, -⟩ := (segmented_copy (dequeBufSize 200 (by decide)) id .byElement 0 1 5 5
    EltPtr.off (Set.injOn_id _) le_rfl).2 (.inl (by decide))
  exact ⟨⟨cells₁, hcopy⟩, cells₂, hback⟩

end Rtfsc.Stl
