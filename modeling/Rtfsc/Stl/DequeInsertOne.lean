import Rtfsc.Stl.DequeContents

/-!
# What the insertion of one element does

It moves the first or the last element to a new place, by a push, and the others of that side each to the
place of its neighbour.
-/

namespace Rtfsc.Stl.Deque

open Rtfsc.Machine

variable {T : Type} {env : DequeEnv} {d : Deque T} {lo hi s i : Nat} {xs : List T} {v : T} {x : Maker T}

/-- There is something to construct the element from, so it is the room that lacks. -/
theorem Throws.noRoom (h : Throws env d x xs) (hx : x d.cells = some v) :
    0 < 1 ∧ NoRoom env xs 1 := by
  refine ⟨Nat.one_pos, ?_⟩
  rcases h with hnone | hrefused | hmax
  · rw [hx] at hnone
    cases hnone
  · exact .inl hrefused
  · exact .inr (by omega)

theorem Holds.pushFront (h : d.Holds env s xs) (hx : x d.cells = some v) :
    (∃ d' s', d.pushFront env x = (true, d') ∧ d'.Holds env s' (v :: xs) ∧
      StayAt env d d' s (s' + 1) xs.length) ∨
    (∃ d', d.pushFront env x = (false, d')) ∧ 0 < 1 ∧ NoRoom env xs 1 := by
  rcases pushFront_cases h x with ⟨d', s', w, hrun, hw, hholds, hstay⟩ | ⟨d', -, hrun, -, hthrows⟩
  · obtain rfl := Option.some.inj (hx.symm.trans hw)
    exact .inl ⟨d', s', hrun, hholds, hstay⟩
  · exact .inr ⟨⟨d', hrun⟩, hthrows.noRoom hx⟩

theorem Holds.pushBack (h : d.Holds env s xs) (hx : x d.cells = some v) :
    (∃ d' s', d.pushBack env x = (true, d') ∧ d'.Holds env s' (xs ++ [v]) ∧
      StayAt env d d' s s' xs.length) ∨
    (∃ d', d.pushBack env x = (false, d')) ∧ 0 < 1 ∧ NoRoom env xs 1 := by
  rcases pushBack_cases h x with ⟨d', s', w, hrun, hw, hholds, hstay⟩ | ⟨d', -, hrun, -, hthrows⟩
  · obtain rfl := Option.some.inj (hx.symm.trans hw)
    exact .inl ⟨d', s', hrun, hholds, hstay⟩
  · exact .inr ⟨⟨d', hrun⟩, hthrows.noRoom hx⟩

theorem Holds.cell (h : d.Holds env s xs) (hi : i < xs.length) :
    d.cells (eltAt env.buffer d.entry (s + i)) = some xs[i] := by
  refine h.held.laid.read ?_
  rw [laidFrom_add, List.getElem?_eq_getElem hi]

/-- The first element is moved to a new place before it. -/
theorem pushFrontMoved_shifted (h : d.Holds env s xs) (ms : MoveSem T) (hpos : 0 < xs.length) :
    (∃ d' s' t, d.pushFrontMoved env ms d.start.cur = some d' ∧
      d'.start = iterAt env.buffer d'.entry s' ∧
      d'.finish = iterAt env.buffer d'.entry (s' + 1 + xs.length) ∧
      d'.Held env (s' / env.buffer.elems) ((s' + 1 + xs.length) / env.buffer.elems) t ∧
      Shifted (s' + 1) s' 1 (laidFrom (s' + 1) xs) t) ∨
    d.pushFrontMoved env ms d.start.cur = none ∧ 0 < 1 ∧ NoRoom env xs 1 := by
  have hcur : d.start.cur = eltAt env.buffer d.entry s := congrArg DequeIter.cur h.start
  have hread : d.cells d.start.cur = some xs[0] := by
    rw [hcur]
    exact h.cell hpos
  obtain ⟨d₁, s', hrun, hholds, hstay⟩ | ⟨⟨d₁, hrun⟩, hno⟩ :=
    h.pushFront (x := fun cells => cells d.start.cur) hread
  swap
  · rw [pushFrontMoved, hrun]
    exact .inr ⟨rfl, hno⟩
  have hplace : d.start.cur = eltAt env.buffer d₁.entry (s' + 1) := hcur.trans (hstay 0 hpos).symm
  have hcell : d₁.cells d.start.cur = some xs[0] := by
    rw [hplace, hholds.cell (i := 1) (by rw [List.length_cons]; omega)]
    rfl
  have hlen : s' + (xs[0] :: xs).length = s' + 1 + xs.length := by
    rw [List.length_cons]
    omega
  have hheld := hholds.held.store (p := s' + 1)
    (mem_nodePlaces le_rfl (Nat.le_succ s') (by omega) (Nat.div_le_div_right hlen.ge))
    (some (ms.movedFrom xs[0]))
  rw [hlen, laidFrom_cons] at hheld
  have hfirst : laidFrom (s' + 1) xs (s' + 1) = some xs[0] := by
    rw [laidFrom_of_le le_rfl, Nat.sub_self, List.getElem?_eq_getElem hpos]
  refine .inl ⟨d₁.withCells (Function.update d₁.cells d.start.cur (some (ms.movedFrom xs[0]))), s', _, ?_,
    hholds.start, hlen ▸ hholds.finish, ?_,
    .one (z := ms.movedFrom xs[0]) hfirst (Nat.succ_ne_self s')⟩
  · rw [pushFrontMoved, hrun]
    dsimp only
    rw [hcell]
    rfl
  · rw [hplace]
    exact hheld

/-- The last element is moved to a new place behind it. -/
theorem pushBackMoved_shifted (h : d.Holds env s xs) (ms : MoveSem T) (hpos : 0 < xs.length) :
    (∃ d' s' t, d.pushBackMoved env ms (d.prev env d.finish).cur = some d' ∧
      d'.start = iterAt env.buffer d'.entry s' ∧
      d'.finish = iterAt env.buffer d'.entry (s' + xs.length + 1) ∧
      d'.Held env (s' / env.buffer.elems) ((s' + xs.length + 1) / env.buffer.elems) t ∧
      Shifted (s' + (xs.length - 1)) (s' + xs.length) 1 (laidFrom s' xs) t) ∨
    d.pushBackMoved env ms (d.prev env d.finish).cur = none ∧ 0 < 1 ∧ NoRoom env xs 1 := by
  have hlt : xs.length - 1 < xs.length := Nat.sub_lt hpos Nat.one_pos
  have hcur : (d.prev env d.finish).cur = eltAt env.buffer d.entry (s + (xs.length - 1)) := by
    rw [prev, h.finish, show s + xs.length = s + (xs.length - 1) + 1 by omega, prev_iterAt]
    rfl
  generalize (d.prev env d.finish).cur = p at hcur ⊢
  have hread : d.cells p = some xs[xs.length - 1] := by
    rw [hcur]
    exact h.cell hlt
  obtain ⟨d₁, s', hrun, hholds, hstay⟩ | ⟨⟨d₁, hrun⟩, hno⟩ :=
    h.pushBack (x := fun cells => cells p) hread
  swap
  · rw [pushBackMoved, hrun]
    exact .inr ⟨rfl, hno⟩
  have hplace : p = eltAt env.buffer d₁.entry (s' + (xs.length - 1)) :=
    hcur.trans (hstay _ hlt).symm
  have hcell : d₁.cells p = some xs[xs.length - 1] := by
    rw [hplace, hholds.cell (i := xs.length - 1) (by rw [List.length_append]; omega),
      List.getElem_append_left hlt]
  have hlen : s' + (xs ++ [xs[xs.length - 1]]).length = s' + xs.length + 1 := by
    rw [List.length_append, List.length_singleton, Nat.add_assoc]
  have hheld := hholds.held.store (p := s' + (xs.length - 1))
    (mem_nodePlaces le_rfl (Nat.le_add_right _ _) (by omega) (Nat.div_le_div_right hlen.ge))
    (some (ms.movedFrom xs[xs.length - 1]))
  rw [hlen, laidFrom_snoc] at hheld
  have hlast : laidFrom s' xs (s' + (xs.length - 1)) = some xs[xs.length - 1] := by
    rw [laidFrom_add, List.getElem?_eq_getElem hlt]
  refine .inl ⟨d₁.withCells (Function.update d₁.cells p (some (ms.movedFrom xs[xs.length - 1]))), s', _, ?_,
    hholds.start, hlen ▸ hholds.finish, ?_,
    .one (z := ms.movedFrom xs[xs.length - 1]) hlast (by omega)⟩
  · rw [pushBackMoved, hrun]
    dsimp only
    rw [hcell]
    rfl
  · rw [hplace]
    exact hheld

/-! ## In the middle -/

theorem insertAux_front (h : d.Holds env s xs) (ms : MoveSem T) (hx : x d.cells = some v)
    (hpos : 0 < i) (hfront : i < xs.length / 2) :
    Inserts env xs 1 (d.insertAux env ms (iterAt env.buffer d.entry (s + i)) x) i
      (inserted i [v] xs) := by
  have hi : i ≤ xs.length := by omega
  rw [insertAux, hx, h.offset, h.size_eq]
  change Inserts env xs 1 (if ((i : Nat) : Int).toNat < xs.length / 2 then _ else _) _ _
  rw [if_pos (by rwa [Int.toNat_natCast])]
  obtain ⟨d₁, s', t₁, hrun₁, hstart, hfinish, hheld₁, hshift₁⟩ | ⟨hrun₁, hno⟩ :=
    pushFrontMoved_shifted h ms (by omega)
  swap
  · rw [hrun₁]
    exact .inr ⟨rfl, hno⟩
  have hsome₁ : ∀ y, s' ≤ y → y < s' + 1 + xs.length → (t₁ y).isSome := fun y hlo hhi => by
    have hsome : ∀ y, s' + 1 ≤ y → y < s' + 1 + xs.length → (laidFrom (s' + 1) xs y).isSome :=
      fun _ => laidFrom_isSome
    rcases Nat.eq_or_lt_of_le hlo with rfl | hlt
    · rw [hshift₁.dst s' le_rfl (Nat.lt_succ_self s')]
      exact hsome _ (by omega) (by omega)
    · exact hshift₁.isSome (fun y hlo hhi => hsome y hlo (by omega)) (hsome y hlt hhi)
  obtain ⟨cells₂, t₂, hrun₂, hheld₂, hshift₂⟩ := hheld₁.moveRange ms (p := s' + 1 + 1) (q := s' + 1)
    (n := i - 1) (fun y hlo hhi => hsome₁ y (by omega) (by omega))
    (fun y hlo hhi => hsome₁ y (by omega) (by omega)) (.inl (Nat.lt_succ_self _))
  obtain ⟨hrun₃, hlaid₃⟩ := assignAt_laid (x := v) hheld₂.laid (p := s' + i)
    (hshift₂.isSome (fun y hlo hhi => hsome₁ y (by omega) (by omega))
      (hsome₁ _ (by omega) (by omega)))
  have hheld₃ := hheld₂.withCells hlaid₃
  have hplus : d₁.plus env d₁.start (i : Nat) = iterAt env.buffer d₁.entry (s' + i) := by
    rw [plus, hstart, plus_iterAt_add]
  have hnext (p : Nat) : d₁.next env (iterAt env.buffer d₁.entry p) =
      iterAt env.buffer d₁.entry (p + 1) := next_iterAt
  rw [show s' + 1 + 1 + (i - 1) = s' + i + 1 by omega] at hrun₂
  refine .inl ⟨_, s', ?_, Held.holds ⟨hheld₃.hi_lt, hheld₃.owns, hheld₃.laid⟩
    (inserted_front_many hi rfl hpos hshift₁ hshift₂ .one) ?_ hstart hfinish⟩
  · refine Option.bind_eq_some_iff.mpr ⟨d₁, hrun₁, ?_⟩
    dsimp only
    rw [hplus, hstart, hnext, hnext, hnext]
    exact Option.bind_eq_some_iff.mpr ⟨_, hrun₂, Option.bind_eq_some_iff.mpr ⟨_, hrun₃, rfl⟩⟩
  · rw [length_inserted hi, List.length_singleton, Nat.add_assoc]

theorem insertAux_back (h : d.Holds env s xs) (ms : MoveSem T) (hx : x d.cells = some v)
    (hi : i < xs.length) (hback : ¬i < xs.length / 2) :
    Inserts env xs 1 (d.insertAux env ms (iterAt env.buffer d.entry (s + i)) x) i
      (inserted i [v] xs) := by
  rw [insertAux, hx, h.offset, h.size_eq]
  change Inserts env xs 1 (if ((i : Nat) : Int).toNat < xs.length / 2 then _ else _) _ _
  rw [if_neg (by rwa [Int.toNat_natCast])]
  obtain ⟨d₁, s', t₁, hrun₁, hstart, hfinish, hheld₁, hshift₁⟩ | ⟨hrun₁, hno⟩ :=
    pushBackMoved_shifted h ms (by omega)
  swap
  · rw [hrun₁]
    exact .inr ⟨rfl, hno⟩
  have hsome₁ : ∀ y, s' ≤ y → y < s' + xs.length + 1 → (t₁ y).isSome := fun y hlo hhi => by
    have hsome : ∀ y, s' ≤ y → y < s' + xs.length → (laidFrom s' xs y).isSome :=
      fun _ => laidFrom_isSome
    rcases Nat.eq_or_lt_of_le (Nat.le_of_lt_succ hhi) with rfl | hlt
    · rw [hshift₁.dst _ le_rfl (Nat.lt_succ_self _)]
      exact hsome _ (by omega) (by omega)
    · exact hshift₁.isSome (fun y hlo hhi => hsome y (by omega) (by omega)) (hsome y hlo hlt)
  obtain ⟨cells₂, t₂, hrun₂, hheld₂, hshift₂⟩ := hheld₁.moveRangeBackward ms (p := s' + i)
    (q := s' + i + 1) (n := xs.length - 1 - i) (fun y hlo hhi => hsome₁ y (by omega) (by omega))
    (fun y hlo hhi => hsome₁ y (by omega) (by omega)) (.inl (Nat.lt_succ_self _))
  obtain ⟨hrun₃, hlaid₃⟩ := assignAt_laid (x := v) hheld₂.laid (p := s' + i)
    (hshift₂.isSome (fun y hlo hhi => hsome₁ y (by omega) (by omega))
      (hsome₁ _ (by omega) (by omega)))
  have hheld₃ := hheld₂.withCells hlaid₃
  have hplus : d₁.plus env d₁.start (i : Nat) = iterAt env.buffer d₁.entry (s' + i) := by
    rw [plus, hstart, plus_iterAt_add]
  have hprev (p : Nat) : d₁.prev env (iterAt env.buffer d₁.entry (p + 1)) =
      iterAt env.buffer d₁.entry p := prev_iterAt
  have hback1 : s' + i + 1 + (xs.length - 1 - i) = s' + xs.length := by omega
  have hback2 : s' + xs.length = s' + i + (xs.length - 1 - i) + 1 := by omega
  rw [hback1] at hrun₂
  refine .inl ⟨_, s', ?_, Held.holds ⟨hheld₃.hi_lt, hheld₃.owns, hheld₃.laid⟩
    (inserted_back_many hi.le rfl hi hshift₁ hshift₂ .one) ?_ hstart hfinish⟩
  · refine Option.bind_eq_some_iff.mpr ⟨d₁, hrun₁, ?_⟩
    dsimp only
    rw [hplus, hfinish, hprev]
    refine Option.bind_eq_some_iff.mpr ⟨_, ?_, Option.bind_eq_some_iff.mpr ⟨_, hrun₃, rfl⟩⟩
    rw [hback2] at hrun₂ ⊢
    rw [hprev]
    exact hrun₂
  · rw [length_inserted hi.le, List.length_singleton, Nat.add_assoc, Nat.add_comm 1]

end Rtfsc.Stl.Deque
