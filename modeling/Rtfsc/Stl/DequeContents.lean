import Rtfsc.Stl.DequeRanges
import Rtfsc.Stl.DequeReserve
import Rtfsc.Stl.DequeSplice

/-!
# What a call leaves in a deque

A deque has one content (`Holds.unique`). Where a call leaves a tape with a list on it between the two
iterators, the deque holds that list (`Held.holds`).
-/

namespace Rtfsc.Stl

open Rtfsc.Machine

theorem iterAt_inj {b : BufferSize} {entry : Nat → Nat} {p q : Nat}
    (h : iterAt b entry p = iterAt b entry q) : p = q := by
  have hdiv : p / b.elems = q / b.elems := congrArg DequeIter.node h
  have hmod : p % b.elems = q % b.elems := congrArg (fun it => it.cur.off) h
  rw [← place_eq (b := b) (p := p), hdiv, hmod, place_eq]

namespace Deque

variable {T : Type} {env : DequeEnv} {d d' : Deque T} {lo hi s s' i j n : Nat} {xs ys zs : List T}
  {t : Nat → Option T} {v : T} {x : Maker T}

/-! ## Contents -/

/-- What a call returns if it comes to an end: a deque that holds the list, and an iterator to an
index of it. -/
def Returns (env : DequeEnv) (result : Option (DequeIter × Deque T)) (i : Nat) (zs : List T) : Prop :=
  ∃ d' s', result = some (iterAt env.buffer d'.entry (s' + i), d') ∧ d'.Holds env s' zs

/-- The same for an insertion of `n` elements. It may throw instead, for lack of room. -/
def Inserts (env : DequeEnv) (xs : List T) (n : Nat) (result : Option (DequeIter × Deque T)) (i : Nat)
    (zs : List T) : Prop :=
  Returns env result i zs ∨ result = none ∧ 0 < n ∧ NoRoom env xs n

/-- The same for one that returns no iterator. -/
def Leaves (env : DequeEnv) (xs : List T) (n : Nat) (result : Option (Deque T)) (zs : List T) : Prop :=
  (∃ d' s', result = some d' ∧ d'.Holds env s' zs) ∨ result = none ∧ 0 < n ∧ NoRoom env xs n

theorem Holds.unique (h : d.Holds env s xs) (h' : d.Holds env s' zs) : s = s' ∧ xs = zs := by
  obtain rfl : s = s' := iterAt_inj (h.start.symm.trans h'.start)
  have hlen : s + xs.length = s + zs.length := iterAt_inj (h.finish.symm.trans h'.finish)
  refine ⟨rfl, List.ext_getElem? fun k => ?_⟩
  rcases Nat.lt_or_ge k xs.length with hlt | hge
  · have hmem : s + k ∈ nodePlaces env.buffer (s / env.buffer.elems)
        ((s + xs.length) / env.buffer.elems) :=
      mem_nodePlaces le_rfl (Nat.le_add_right s k) (Nat.add_le_add_left hlt.le s) le_rfl
    have hmem' := hlen ▸ hmem
    calc xs[k]?
      _ = laidFrom s xs (s + k) := laidFrom_add.symm
      _ = d.cells (eltAt env.buffer d.entry (s + k)) := (h.held.laid.at_cell _ hmem).symm
      _ = laidFrom s zs (s + k) := h'.held.laid.at_cell _ hmem'
      _ = zs[k]? := laidFrom_add
  · rw [List.getElem?_eq_none hge, List.getElem?_eq_none (by omega)]

theorem Returns.unique {result : Option (DequeIter × Deque T)} (h : Returns env result i xs)
    (h' : Returns env result i zs) : xs = zs := by
  obtain ⟨d, s, hrun, hholds⟩ := h
  obtain ⟨d', s', hrun', hholds'⟩ := h'
  obtain ⟨-, rfl⟩ := Prod.mk.inj (Option.some.inj (hrun.symm.trans hrun'))
  exact (hholds.unique hholds').2

/-- The tape holds the list, and the iterators are where it begins and ends. -/
theorem Held.holds (h : d.Held env (s / env.buffer.elems) (n / env.buffer.elems) t)
    (ht : t = laidFrom s zs) (hn : s + zs.length = n) (hstart : d.start = iterAt env.buffer d.entry s)
    (hfinish : d.finish = iterAt env.buffer d.entry n) : d.Holds env s zs := by
  subst ht hn
  exact ⟨h, le_rfl, le_rfl, hstart, hfinish⟩

/-! ## Elements -/

/-- The index of an iterator. -/
theorem Rep.offset (h : d.Rep env lo hi s xs) (i : Nat) :
    (iterAt env.buffer d.entry (s + i)).minus env.buffer d.start = (i : Nat) := by
  rw [h.start, minus_iterAt_add]

theorem Rep.plus_start (h : d.Rep env lo hi s xs) (i : Nat) :
    d.plus env d.start (i : Nat) = iterAt env.buffer d.entry (s + i) := by
  rw [plus, h.start, plus_iterAt_add]

/-- Two iterators into the deque, or to its end, are the same only at the same index. -/
theorem Rep.cur_inj (h : d.Rep env lo hi s xs) (hi : i ≤ xs.length) (hj : j ≤ xs.length) :
    (iterAt env.buffer d.entry (s + i)).cur = (iterAt env.buffer d.entry (s + j)).cur ↔ i = j := by
  refine ⟨fun heq => ?_, fun heq => by rw [heq]⟩
  have hmem : ∀ k ≤ xs.length, s + k ∈ nodePlaces env.buffer lo _ := fun k hk =>
    mem_nodePlaces h.lo_le (Nat.le_add_right s k) (Nat.add_le_add_left hk s) h.le_hi
  exact Nat.add_left_cancel (h.held.laid.inj (hmem i hi) (hmem j hj) heq)

theorem Rep.cur_eq_start (h : d.Rep env lo hi s xs) (hi : i ≤ xs.length) :
    (iterAt env.buffer d.entry (s + i)).cur = d.start.cur ↔ i = 0 := by
  rw [h.start]
  exact h.cur_inj hi (Nat.zero_le _)

theorem Rep.cur_eq_finish (h : d.Rep env lo hi s xs) (hi : i ≤ xs.length) :
    (iterAt env.buffer d.entry (s + i)).cur = d.finish.cur ↔ i = xs.length := by
  rw [h.finish]
  exact h.cur_inj hi le_rfl

/-- The value of a parameter: it comes from elsewhere, or it is an element. -/
inductive ValueRef (T : Type)
  | given (x : T)
  | element (p : EltPtr)

/-- What is read there. -/
def ValueRef.read : ValueRef T → Maker T
  | given x, _ => some x
  | element p, cells => cells p

theorem ValueRef.reads {x : ValueRef T} {cells : EltPtr → Option T} (h : x.read cells = some v) :
    Reads x.read cells v := by
  intro cells' hkept
  cases x with
  | given x => exact h
  | element p => exact hkept p v h

end Deque

/-!
## How an insertion makes room in the middle

The shorter side is moved. Where it has more elements than there are new ones, some go to places where
there were none and the others to places where there were, and then it is enough to write the new ones
(`Shift`). With nothing to insert the elements stay where they are, each moved to itself.
-/

namespace Deque

variable {T : Type} {env : DequeEnv} {d : Deque T} {lo hi s s' i n : Nat} {xs : List T}

/-! ## Room -/

/-- The places behind the last element. -/
theorem Rep.room_back (h : d.Rep env lo ((s + xs.length + n) / env.buffer.elems) s xs) :
    Room env lo ((s + xs.length + n) / env.buffer.elems) (laidFrom s xs) (s + xs.length) n :=
  fun _ hlo hhi => ⟨mem_nodePlaces h.lo_node hlo hhi.le le_rfl, laidFrom_eq_none (.inr hlo)⟩

/-- The places before the first one. -/
theorem Rep.room_front (h : d.Rep env (s / env.buffer.elems) hi (s + n) xs) :
    Room env (s / env.buffer.elems) hi (laidFrom (s + n) xs) s n :=
  fun _ hlo hhi => ⟨mem_nodePlaces le_rfl hlo hhi.le h.hi_node, laidFrom_eq_none (.inl hhi)⟩

/-! ## Both sides -/

/-- There are elements on `n` places from `s + i` on, and once the new ones are there instead the
insertion is complete. -/
def Awaits (ms : MoveSem T) (s i n : Nat) (xs : List T) (t : Nat → Option T) : Prop :=
  (∀ y, s + i ≤ y → y < s + i + n → (t y).isSome) ∧
    ∀ ys t', ys.length = n → Written (s + i) n (ys[·]?) t t' → t' = laidFrom s (insertedBy ms i ys xs)

theorem insertedBy_of_pos {ms : MoveSem T} {ys : List T} (hpos : 0 < ys.length) :
    insertedBy ms i ys xs = inserted i ys xs :=
  if_neg hpos.ne'

theorem insertedBy_of_zero {ms : MoveSem T} {ys : List T} (hzero : ys.length = 0) :
    insertedBy ms i ys xs = selfMoved ms i xs :=
  if_pos hzero

/-- The elements before the new ones. -/
theorem shift_front (h : d.Rep env (s / env.buffer.elems) hi (s + n) xs) (ms : MoveSem T) (hn : n ≤ i)
    (hfront : i < xs.length / 2) :
    ∃ cells₁ cells₂ t,
      d.uninitializedMove env ms (iterAt env.buffer d.entry (s + n))
        (iterAt env.buffer d.entry (s + n + n)) (iterAt env.buffer d.entry s) =
          some (iterAt env.buffer d.entry (s + n), d.withCells cells₁) ∧
      ((d.withCells cells₁).withStart (iterAt env.buffer d.entry s)).moveRange env ms
        (iterAt env.buffer d.entry (s + n + n)) (iterAt env.buffer d.entry (s + n + i))
        (iterAt env.buffer d.entry (s + n)) =
          some (((d.withCells cells₁).withStart (iterAt env.buffer d.entry s)).withCells cells₂) ∧
      (((d.withCells cells₁).withStart (iterAt env.buffer d.entry s)).withCells cells₂).Held env
        (s / env.buffer.elems) hi t ∧ Awaits ms s i n xs t := by
  have hsome : ∀ y, s + n ≤ y → y < s + n + xs.length → (laidFrom (s + n) xs y).isSome :=
    fun _ => laidFrom_isSome
  obtain ⟨cells₁, t₁, hrun₁, hheld₁, hshift₁⟩ := h.held.uninitializedMove ms (p := s + n) (n := n)
    (fun y hlo hhi => hsome y hlo (by omega)) h.room_front (.inl le_rfl)
  have hsome₁ : ∀ y, s + n ≤ y → y < s + n + xs.length → (t₁ y).isSome := fun y hlo hhi =>
    hshift₁.isSome (fun y hlo hhi => hsome y hlo (by omega)) (hsome y hlo hhi)
  have hheld₁' : ((d.withCells cells₁).withStart (iterAt env.buffer d.entry s)).Held env
      (s / env.buffer.elems) hi t₁ := ⟨hheld₁.hi_lt, hheld₁.owns, hheld₁.laid⟩
  have hend : s + n + n + (i - n) = s + n + i := by omega
  rcases Nat.eq_zero_or_pos n with rfl | hpos
  · -- each element is moved to where it is
    obtain ⟨cells₂, t₂, hrun₂, hheld₂, hself⟩ := hheld₁'.moveRange_self ms (p := s) (n := i)
      fun y hlo hhi => hsome₁ y hlo (by omega)
    refine ⟨cells₁, cells₂, t₂, hrun₁, hrun₂, hheld₂, fun y hlo hhi => by omega, ?_⟩
    intro ys t' hys hwritten
    have hsame : t₁ = laidFrom s xs := funext fun y => hshift₁.kept y (by omega) (by omega)
    have hsame' : t' = t₂ := funext fun y => hwritten.kept y (by omega)
    rw [insertedBy_of_zero hys, hsame']
    exact selfMoved_front hfront (hsame ▸ hself)
  · obtain ⟨cells₂, t₂, hrun₂, hheld₂, hshift₂⟩ := hheld₁'.moveRange ms (p := s + n + n) (q := s + n)
      (n := i - n) (fun y hlo hhi => hsome₁ y (by omega) (by omega))
      (fun y hlo hhi => hsome₁ y (by omega) (by omega)) (.inl (by omega))
    rw [hend] at hrun₂
    refine ⟨cells₁, cells₂, t₂, hrun₁, hrun₂, hheld₂, fun y hlo hhi => ?_, ?_⟩
    · refine hshift₂.isSome (fun y hlo hhi => hsome₁ y (by omega) (by omega)) (hsome₁ y ?_ (by omega))
      omega
    · intro ys t' hys hwritten
      rw [insertedBy_of_pos (by omega)]
      exact inserted_front_many (by omega) hys hn hshift₁ hshift₂ hwritten

/-- The elements behind the new ones. -/
theorem shift_back (h : d.Rep env lo ((s + xs.length + n) / env.buffer.elems) s xs) (ms : MoveSem T)
    (hn : i + n < xs.length) (hback : ¬i < xs.length / 2) :
    ∃ cells₁ cells₂ t,
      d.uninitializedMove env ms (iterAt env.buffer d.entry (s + (xs.length - n)))
        (iterAt env.buffer d.entry (s + xs.length)) (iterAt env.buffer d.entry (s + xs.length)) =
          some (iterAt env.buffer d.entry (s + xs.length + n), d.withCells cells₁) ∧
      ((d.withCells cells₁).withFinish
        (iterAt env.buffer d.entry (s + xs.length + n))).moveRangeBackward env ms
        (iterAt env.buffer d.entry (s + i)) (iterAt env.buffer d.entry (s + (xs.length - n)))
        (iterAt env.buffer d.entry (s + xs.length)) =
          some (((d.withCells cells₁).withFinish
            (iterAt env.buffer d.entry (s + xs.length + n))).withCells cells₂) ∧
      (((d.withCells cells₁).withFinish (iterAt env.buffer d.entry (s + xs.length + n))).withCells
        cells₂).Held env lo ((s + xs.length + n) / env.buffer.elems) t ∧ Awaits ms s i n xs t := by
  have hsome : ∀ y, s ≤ y → y < s + xs.length → (laidFrom s xs y).isSome := fun _ => laidFrom_isSome
  have hend₁ : s + (xs.length - n) + n = s + xs.length := by omega
  have hend₂ : s + i + (xs.length - n - i) = s + (xs.length - n) := by omega
  have hend₃ : s + i + n + (xs.length - n - i) = s + xs.length := by omega
  obtain ⟨cells₁, t₁, hrun₁, hheld₁, hshift₁⟩ := h.held.uninitializedMove ms (p := s + (xs.length - n))
    (n := n) (fun y hlo hhi => hsome y (by omega) (by omega)) h.room_back (.inr hend₁.le)
  have hsome₁ : ∀ y, s ≤ y → y < s + xs.length → (t₁ y).isSome := fun y hlo hhi =>
    hshift₁.isSome (fun y hlo hhi => hsome y (by omega) (by omega)) (hsome y hlo hhi)
  have hheld₁' : ((d.withCells cells₁).withFinish (iterAt env.buffer d.entry (s + xs.length + n))).Held
      env lo ((s + xs.length + n) / env.buffer.elems) t₁ := ⟨hheld₁.hi_lt, hheld₁.owns, hheld₁.laid⟩
  rw [hend₁] at hrun₁
  rcases Nat.eq_zero_or_pos n with rfl | hpos
  · -- each element is moved to where it is
    obtain ⟨cells₂, t₂, hrun₂, hheld₂, hself⟩ := hheld₁'.moveRangeBackward_self ms (p := s + i)
      (n := xs.length - i) fun y hlo hhi => hsome₁ y (by omega) (by omega)
    rw [show s + i + (xs.length - i) = s + xs.length by omega] at hrun₂
    refine ⟨cells₁, cells₂, t₂, hrun₁, hrun₂, hheld₂, fun y hlo hhi => by omega, ?_⟩
    intro ys t' hys hwritten
    have hsame : t₁ = laidFrom s xs := funext fun y => hshift₁.kept y (by omega) (by omega)
    have hsame' : t' = t₂ := funext fun y => hwritten.kept y (by omega)
    rw [insertedBy_of_zero hys, hsame']
    exact selfMoved_back hback (by omega) (hsame ▸ hself)
  · obtain ⟨cells₂, t₂, hrun₂, hheld₂, hshift₂⟩ := hheld₁'.moveRangeBackward ms (p := s + i)
      (q := s + i + n) (n := xs.length - n - i) (fun y hlo hhi => hsome₁ y (by omega) (by omega))
      (fun y hlo hhi => hsome₁ y (by omega) (by omega)) (.inl (by omega))
    rw [hend₂, hend₃] at hrun₂
    refine ⟨cells₁, cells₂, t₂, hrun₁, hrun₂, hheld₂, fun y hlo hhi => ?_, ?_⟩
    · exact hshift₂.isSome (fun y hlo hhi => hsome₁ y (by omega) (by omega))
        (hsome₁ y (by omega) (by omega))
    · intro ys t' hys hwritten
      rw [insertedBy_of_pos (by omega)]
      exact inserted_back_many (by omega) hys hn.le hshift₁ hshift₂ hwritten

/-! ## New elements on both kinds of places -/

/-- All elements before go to new places. There is room for some of the new ones behind them. -/
theorem shift_front_all (h : d.Rep env (s / env.buffer.elems) hi (s + n) xs) (ms : MoveSem T)
    (hn : i ≤ n) (hle : i ≤ xs.length) :
    ∃ cells' t,
      d.uninitializedMove env ms (iterAt env.buffer d.entry (s + n))
        (iterAt env.buffer d.entry (s + n + i)) (iterAt env.buffer d.entry s) =
          some (iterAt env.buffer d.entry (s + i), d.withCells cells') ∧
      (d.withCells cells').Held env (s / env.buffer.elems) hi t ∧
      Shifted (s + n) s i (laidFrom (s + n) xs) t ∧
      Room env (s / env.buffer.elems) hi t (s + i) (n - i) ∧
      ∀ y, s + n ≤ y → y < s + n + i → (t y).isSome := by
  have hsome : ∀ y, s + n ≤ y → y < s + n + i → (laidFrom (s + n) xs y).isSome :=
    fun _ hlo hhi => laidFrom_isSome hlo (by omega)
  obtain ⟨cells', t, hrun, hheld, hshift⟩ := h.held.uninitializedMove ms (p := s + n) (n := i) hsome
    (fun y hlo hhi => h.room_front y hlo (by omega)) (.inl (by omega))
  refine ⟨cells', t, hrun, hheld, hshift, fun y hlo hhi => ?_, fun y hlo hhi => ?_⟩
  · rw [hshift.kept y (by omega) (by omega)]
    exact h.room_front y (by omega) (by omega)
  · exact hshift.isSome hsome (hsome y hlo hhi)

/-- All elements behind go to new places, after some of the new ones have been written before these. -/
theorem shift_back_all {t : Nat → Option T} {vals : Nat → Option T} {d' : Deque T}
    (h : d.Rep env lo ((s + xs.length + n) / env.buffer.elems) s xs)
    (hheld : d'.Held env lo ((s + xs.length + n) / env.buffer.elems) t) (ms : MoveSem T)
    (hn : xs.length ≤ i + n) (hi : i ≤ xs.length)
    (hwritten : Written (s + xs.length) (i + n - xs.length) vals (laidFrom s xs) t) :
    ∃ cells' t',
      d'.uninitializedMove env ms (iterAt env.buffer d'.entry (s + i))
        (iterAt env.buffer d'.entry (s + xs.length)) (iterAt env.buffer d'.entry (s + i + n)) =
          some (iterAt env.buffer d'.entry (s + xs.length + n), d'.withCells cells') ∧
      (d'.withCells cells').Held env lo ((s + xs.length + n) / env.buffer.elems) t' ∧
      Shifted (s + i) (s + i + n) (xs.length - i) t t' ∧
      ∀ y, s + i ≤ y → y < s + xs.length → (t' y).isSome := by
  have hsome : ∀ y, s + i ≤ y → y < s + i + (xs.length - i) → (t y).isSome := fun y hlo hhi => by
    rw [hwritten.kept y (by omega)]
    exact laidFrom_isSome (by omega) (by omega)
  have hend : s + i + (xs.length - i) = s + xs.length := by omega
  have hend' : s + i + n + (xs.length - i) = s + xs.length + n := by omega
  obtain ⟨cells', t', hrun, hheld', hshift⟩ := hheld.uninitializedMove ms (p := s + i) (q := s + i + n)
    (n := xs.length - i) hsome
    (fun y hlo hhi => by
      rw [hwritten.kept y (by omega)]
      exact h.room_back y (by omega) (by omega)) (.inr (by omega))
  rw [hend, hend'] at hrun
  exact ⟨cells', t', hrun, hheld', hshift, fun y hlo hhi => hshift.isSome hsome (hsome y hlo (by omega))⟩

end Deque

end Rtfsc.Stl
