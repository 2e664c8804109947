import Rtfsc.Stl.DequeContents

/-!
# What the insertion of many elements does

At an end the new elements are constructed on new places. In the middle the shorter side is moved first,
and what the new ones are written on depends on whether that side has more elements or fewer.
-/

namespace Rtfsc.Stl.Deque

open Rtfsc.Machine

variable {T : Type} {env : DequeEnv} {ms : MoveSem T} {d d₁ : Deque T} {lo hi s s' i j n : Nat}
  {xs ys zs : List T} {t t₁ : Nat → Option T} {v : T} {x : Maker T} {it : DequeIter}

/-! ## At the ends -/

theorem written_replicate {p : Nat} (h : Written p n (fun _ => some v) t t₁) :
    Written p n ((List.replicate n v)[·]?) t t₁ :=
  h.congr fun _ hk => (List.getElem?_replicate_of_lt hk).symm

theorem fillInsert_front (h : d.Holds env s xs) (hx : Reads x d.cells v) :
    Leaves env xs n (d.fillInsert env ms (iterAt env.buffer d.entry s) n x)
      (inserted 0 (List.replicate n v) xs) := by
  rw [fillInsert, if_pos (congrArg DequeIter.cur h.start.symm)]
  obtain ⟨d₁, s', hres, hrep, -, hcells⟩ | ⟨d₁, s', hres, -, hno⟩ := reserveElementsAtFront_cases h n
  swap
  · rw [hres]
    exact .inr ⟨rfl, hno⟩
  rw [hres]
  obtain ⟨cells', t', hrun, hheld, hwritten⟩ :=
    hrep.held.uninitializedFill (hcells ▸ hx) hrep.room_front
  dsimp only
  rw [hrep.start, hrun]
  refine .inl ⟨_, s', rfl, Held.holds ⟨hheld.hi_lt, hheld.owns, hheld.laid⟩
    (inserted_front_all List.length_replicate (written_replicate hwritten)) ?_ rfl hrep.finish⟩
  rw [length_inserted (Nat.zero_le _), List.length_replicate, Nat.add_assoc]

theorem fillInsert_back (h : d.Holds env s xs) (hne : xs ≠ []) (hx : Reads x d.cells v) :
    Leaves env xs n (d.fillInsert env ms (iterAt env.buffer d.entry (s + xs.length)) n x)
      (inserted xs.length (List.replicate n v) xs) := by
  have hstart : (iterAt env.buffer d.entry (s + xs.length)).cur ≠ d.start.cur := fun heq =>
    hne (List.length_eq_zero_iff.mp ((h.cur_eq_start le_rfl).mp heq))
  rw [fillInsert, if_neg hstart, if_pos (congrArg DequeIter.cur h.finish.symm)]
  obtain ⟨d₁, s', hres, hrep, -, hcells⟩ | ⟨d₁, s', hres, -, hno⟩ := reserveElementsAtBack_cases h n
  swap
  · rw [hres]
    exact .inr ⟨rfl, hno⟩
  rw [hres]
  obtain ⟨cells', t', hrun, hheld, hwritten⟩ :=
    hrep.held.uninitializedFill (hcells ▸ hx) hrep.room_back
  dsimp only
  rw [hrep.finish, hrun]
  refine .inl ⟨_, s', rfl, Held.holds ⟨hheld.hi_lt, hheld.owns, hheld.laid⟩
    (inserted_back_all List.length_replicate (written_replicate hwritten)) ?_ hrep.start rfl⟩
  rw [length_inserted le_rfl, List.length_replicate]
  omega

theorem rangeInsertAux_front (h : d.Holds env s xs) :
    Leaves env xs ys.length (d.rangeInsertAux env ms (iterAt env.buffer d.entry s) ys)
      (inserted 0 ys xs) := by
  rw [rangeInsertAux, if_pos (congrArg DequeIter.cur h.start.symm)]
  obtain ⟨d₁, s', hres, hrep, -, -⟩ | ⟨d₁, s', hres, -, hno⟩ := reserveElementsAtFront_cases h ys.length
  swap
  · rw [hres]
    exact .inr ⟨rfl, hno⟩
  rw [hres]
  obtain ⟨cells', t', hrun, hheld, hwritten⟩ := hrep.held.uninitializedCopy ys hrep.room_front
  dsimp only
  rw [hrun]
  refine .inl ⟨_, s', rfl, Held.holds ⟨hheld.hi_lt, hheld.owns, hheld.laid⟩
    (inserted_front_all rfl hwritten) ?_ rfl hrep.finish⟩
  rw [length_inserted (Nat.zero_le _), Nat.add_assoc]

theorem rangeInsertAux_back (h : d.Holds env s xs) (hne : xs ≠ []) :
    Leaves env xs ys.length (d.rangeInsertAux env ms (iterAt env.buffer d.entry (s + xs.length)) ys)
      (inserted xs.length ys xs) := by
  have hstart : (iterAt env.buffer d.entry (s + xs.length)).cur ≠ d.start.cur := fun heq =>
    hne (List.length_eq_zero_iff.mp ((h.cur_eq_start le_rfl).mp heq))
  rw [rangeInsertAux, if_neg hstart, if_pos (congrArg DequeIter.cur h.finish.symm)]
  obtain ⟨d₁, s', hres, hrep, -, -⟩ | ⟨d₁, s', hres, -, hno⟩ := reserveElementsAtBack_cases h ys.length
  swap
  · rw [hres]
    exact .inr ⟨rfl, hno⟩
  rw [hres]
  obtain ⟨cells', t', hrun, hheld, hwritten⟩ := hrep.held.uninitializedCopy ys hrep.room_back
  dsimp only
  rw [hrep.finish, hrun]
  refine .inl ⟨_, s', rfl, Held.holds ⟨hheld.hi_lt, hheld.owns, hheld.laid⟩
    (inserted_back_all rfl hwritten) ?_ hrep.start rfl⟩
  rw [length_inserted le_rfl]
  omega

/-! ## In the middle -/

theorem insertAuxFill_front (h : d.Holds env s xs) (hx : x d.cells = some v)
    (hfront : i < xs.length / 2) :
    Leaves env xs n (d.insertAuxFill env ms (iterAt env.buffer d.entry (s + i)) n x)
      (insertedBy ms i (List.replicate n v) xs) := by
  have hi : i ≤ xs.length := by omega
  rw [insertAuxFill, h.offset, h.size_eq, hx]
  change Leaves env xs n (if (i : Int) < (xs.length / 2 : Nat) then _ else _) _
  rw [if_pos (by omega)]
  obtain ⟨d₁, s', hres, hrep, -, -⟩ | ⟨d₁, s', hres, -, hno⟩ := reserveElementsAtFront_cases h n
  swap
  · rw [hres]
    exact .inr ⟨rfl, hno⟩
  rw [hres]
  have hlen : s' + (insertedBy ms i (List.replicate n v) xs).length = s' + n + xs.length := by
    rw [length_insertedBy hi, List.length_replicate, Nat.add_assoc]
  dsimp only [plus]
  rw [hrep.start, plus_iterAt_add, plus_iterAt_add]
  by_cases hn : n ≤ i
  · obtain ⟨cells₁, cells₂, t₂, hrun₁, hrun₂, hheld₂, hsome, hdone⟩ := shift_front hrep ms hn hfront
    obtain ⟨cells₃, t₃, hrun₃, hheld₃, hwritten⟩ := hheld₂.fill v hsome
    have hback : (iterAt env.buffer d₁.entry (s' + n + i)).plus env.buffer d₁.entry (-(n : Int)) =
        iterAt env.buffer d₁.entry (s' + i) := plus_iterAt (by omega)
    rw [Nat.add_right_comm] at hrun₃
    rw [if_pos (by omega)]
    refine .inl ⟨_, s', Option.bind_eq_some_iff.mpr ⟨_, hrun₁, Option.bind_eq_some_iff.mpr ⟨_, hrun₂, ?_⟩⟩,
      Held.holds ⟨hheld₃.hi_lt, hheld₃.owns, hheld₃.laid⟩
        (hdone _ _ List.length_replicate (written_replicate hwritten)) hlen rfl hrep.finish⟩
    exact (congrArg (fun it => fill env _ it _ v) hback).trans hrun₃
  · obtain ⟨cells₁, t₁, hrun₁, hheld₁, hshift, hroom, hsome⟩ := shift_front_all hrep ms (by omega) hi
    obtain ⟨cells₂, t₂, hrun₂, hheld₂, hwritten₂⟩ :=
      hheld₁.uninitializedFill (x := fun _ => some v) (fun _ _ => rfl) hroom
    have hheld₂' : (((d₁.withCells cells₁).withCells cells₂).withStart
        (iterAt env.buffer d₁.entry s')).Held env (s' / env.buffer.elems)
        ((s' + n + xs.length) / env.buffer.elems) t₂ := ⟨hheld₂.hi_lt, hheld₂.owns, hheld₂.laid⟩
    obtain ⟨cells₃, t₃, hrun₃, hheld₃, hwritten₃⟩ := hheld₂'.fill v (p := s' + n) (n := i)
      fun y hlo hhi => by
        rw [hwritten₂.kept y (by omega)]
        exact hsome y hlo hhi
    rw [show s' + i + (n - i) = s' + n by omega] at hrun₂
    rw [if_neg (by omega)]
    refine .inl ⟨_, s', Option.bind_eq_some_iff.mpr ⟨_, hrun₁, Option.bind_eq_some_iff.mpr ⟨_, ?_, hrun₃⟩⟩,
      Held.holds ⟨hheld₃.hi_lt, hheld₃.owns, hheld₃.laid⟩ ?_ hlen rfl hrep.finish⟩
    · exact (congrArg (fun it => uninitializedFill env _ _ it _) hrep.start).trans hrun₂
    · rw [insertedBy_of_pos (by rw [List.length_replicate]; omega)]
      exact inserted_front_few hi List.length_replicate (by omega) hshift
        ((written_replicate hwritten₂).congr fun k hk => by
          rw [List.getElem?_replicate_of_lt hk, List.getElem?_replicate_of_lt (by omega)])
        (hwritten₃.congr fun k hk => (List.getElem?_replicate_of_lt (by omega)).symm)

theorem insertAuxFill_back (h : d.Holds env s xs) (hx : x d.cells = some v)
    (hi : i < xs.length) (hback : ¬i < xs.length / 2) :
    Leaves env xs n (d.insertAuxFill env ms (iterAt env.buffer d.entry (s + i)) n x)
      (insertedBy ms i (List.replicate n v) xs) := by
  rw [insertAuxFill, h.offset, h.size_eq, hx]
  change Leaves env xs n (if (i : Int) < (xs.length / 2 : Nat) then _ else _) _
  rw [if_neg (by omega)]
  obtain ⟨d₁, s', hres, hrep, -, -⟩ | ⟨d₁, s', hres, -, hno⟩ := reserveElementsAtBack_cases h n
  swap
  · rw [hres]
    exact .inr ⟨rfl, hno⟩
  rw [hres]
  have hpos : (iterAt env.buffer d₁.entry (s' + xs.length)).plus env.buffer d₁.entry
      (-((xs.length : Int) - (i : Nat))) = iterAt env.buffer d₁.entry (s' + i) := plus_iterAt (by omega)
  have hlen : s' + (insertedBy ms i (List.replicate n v) xs).length = s' + xs.length + n := by
    rw [length_insertedBy hi.le, List.length_replicate, Nat.add_assoc, Nat.add_comm n]
  dsimp only [plus]
  rw [hrep.finish, hpos, plus_iterAt_add]
  by_cases hn : i + n < xs.length
  · obtain ⟨cells₁, cells₂, t₂, hrun₁, hrun₂, hheld₂, hsome, hdone⟩ := shift_back hrep ms hn hback
    obtain ⟨cells₃, t₃, hrun₃, hheld₃, hwritten⟩ := hheld₂.fill v hsome
    have hfinish : (iterAt env.buffer d₁.entry (s' + xs.length)).plus env.buffer d₁.entry (-(n : Int)) =
        iterAt env.buffer d₁.entry (s' + (xs.length - n)) := plus_iterAt (by omega)
    rw [if_pos (by omega), hfinish]
    refine .inl ⟨_, s', Option.bind_eq_some_iff.mpr ⟨_, hrun₁, Option.bind_eq_some_iff.mpr ⟨_, hrun₂, ?_⟩⟩,
      Held.holds ⟨hheld₃.hi_lt, hheld₃.owns, hheld₃.laid⟩
        (hdone _ _ List.length_replicate (written_replicate hwritten)) hlen hrep.start rfl⟩
    exact (congrArg (fun it => fill env _ _ it v) plus_iterAt_add).trans hrun₃
  · have hmid : s' + xs.length + (i + n - xs.length) = s' + i + n := by omega
    have hend : s' + i + (xs.length - i) = s' + xs.length := by omega
    obtain ⟨cells₁, t₁, hrun₁, hheld₁, hwritten₁⟩ := hrep.held.uninitializedFill
      (x := fun _ => some v) (p := s' + xs.length) (n := i + n - xs.length) (fun _ _ => rfl)
      fun y hlo hhi => hrep.room_back y hlo (by omega)
    obtain ⟨cells₂, t₂, hrun₂, hheld₂, hshift, hsome⟩ :=
      shift_back_all hrep hheld₁ ms (by omega) hi.le hwritten₁
    have hheld₂' : (((d₁.withCells cells₁).withCells cells₂).withFinish
        (iterAt env.buffer d₁.entry (s' + xs.length + n))).Held env (s' / env.buffer.elems)
        ((s' + xs.length + n) / env.buffer.elems) t₂ := ⟨hheld₂.hi_lt, hheld₂.owns, hheld₂.laid⟩
    obtain ⟨cells₃, t₃, hrun₃, hheld₃, hwritten₃⟩ := hheld₂'.fill v (p := s' + i) (n := xs.length - i)
      fun y hlo hhi => hsome y hlo (by omega)
    rw [hmid] at hrun₁
    rw [hend] at hrun₃
    rw [if_neg (by omega)]
    have hrun₂' := (congrArg (fun it => uninitializedMove env ms ((d₁.withCells cells₁)) _ it _)
      hrep.finish).trans hrun₂
    refine .inl ⟨_, s', Option.bind_eq_some_iff.mpr ⟨_, hrun₁, Option.bind_eq_some_iff.mpr
        ⟨_, hrun₂', hrun₃⟩⟩,
      Held.holds ⟨hheld₃.hi_lt, hheld₃.owns, hheld₃.laid⟩ ?_ hlen hrep.start rfl⟩
    rw [insertedBy_of_pos (by rw [List.length_replicate]; omega)]
    exact inserted_back_few hi.le List.length_replicate (by omega)
      (hwritten₁.congr fun k hk => (List.getElem?_replicate_of_lt (by omega)).symm) hshift
      (hwritten₃.congr fun k hk => (List.getElem?_replicate_of_lt (by omega)).symm)

theorem written_take {p m : Nat} (hm : m ≤ ys.length)
    (h : Written p (ys.take m).length ((ys.take m)[·]?) t t₁) : Written p m (ys[·]?) t t₁ := by
  rw [List.length_take_of_le hm] at h
  exact h.congr fun k hk => List.getElem?_take_of_lt hk

theorem written_drop {p m : Nat} (h : Written p (ys.drop m).length ((ys.drop m)[·]?) t t₁) :
    Written p (ys.length - m) (fun k => ys[m + k]?) t t₁ := by
  rw [List.length_drop] at h
  exact h.congr fun k _ => List.getElem?_drop

theorem insertAuxRange_front (h : d.Holds env s xs)
    (hfront : i < xs.length / 2) :
    Leaves env xs ys.length (d.insertAuxRange env ms (iterAt env.buffer d.entry (s + i)) ys)
      (insertedBy ms i ys xs) := by
  have hi : i ≤ xs.length := by omega
  unfold insertAuxRange
  rw [h.offset, h.size_eq]
  dsimp only [plus]
  rw [if_pos (by omega)]
  obtain ⟨d₁, s', hres, hrep, -, -⟩ | ⟨d₁, s', hres, -, hno⟩ := reserveElementsAtFront_cases h ys.length
  swap
  · rw [hres]
    exact .inr ⟨rfl, hno⟩
  rw [hres]
  have hlen : s' + (insertedBy ms i ys xs).length = s' + ys.length + xs.length := by
    rw [length_insertedBy hi, Nat.add_assoc]
  have hmid : ((ys.length : Int) - (i : Nat)).toNat = ys.length - i := by omega
  dsimp only
  rw [hrep.start, plus_iterAt_add, plus_iterAt_add, hmid]
  by_cases hn : ys.length ≤ i
  · obtain ⟨cells₁, cells₂, t₂, hrun₁, hrun₂, hheld₂, hsome, hdone⟩ := shift_front hrep ms hn hfront
    obtain ⟨cells₃, t₃, hrun₃, hheld₃, hwritten⟩ := hheld₂.copyList ys hsome
    have hback : (iterAt env.buffer d₁.entry (s' + ys.length + i)).plus env.buffer d₁.entry
        (-(ys.length : Int)) = iterAt env.buffer d₁.entry (s' + i) := plus_iterAt (by omega)
    rw [if_pos (by omega)]
    refine .inl ⟨_, s', Option.bind_eq_some_iff.mpr ⟨_, hrun₁, Option.bind_eq_some_iff.mpr ⟨_, hrun₂, ?_⟩⟩,
      Held.holds ⟨hheld₃.hi_lt, hheld₃.owns, hheld₃.laid⟩ (hdone _ _ rfl hwritten) hlen rfl hrep.finish⟩
    exact (congrArg (fun it => copyList env _ it ys) hback).trans hrun₃
  · obtain ⟨cells₁, t₁, hrun₁, hheld₁, hshift, hroom, hsome⟩ := shift_front_all hrep ms (by omega) hi
    have htake : (ys.take (ys.length - i)).length = ys.length - i := List.length_take_of_le (by omega)
    have hdrop : (ys.drop (ys.length - i)).length = i := by
      rw [List.length_drop]
      omega
    obtain ⟨cells₂, t₂, hrun₂, hheld₂, hwritten₂⟩ :=
      hheld₁.uninitializedCopy (ys.take (ys.length - i)) (htake.symm ▸ hroom)
    have hheld₂' : (((d₁.withCells cells₁).withCells cells₂).withStart
        (iterAt env.buffer d₁.entry s')).Held env (s' / env.buffer.elems)
        ((s' + ys.length + xs.length) / env.buffer.elems) t₂ :=
      ⟨hheld₂.hi_lt, hheld₂.owns, hheld₂.laid⟩
    obtain ⟨cells₃, t₃, hrun₃, hheld₃, hwritten₃⟩ := hheld₂'.copyList (p := s' + ys.length)
      (ys.drop (ys.length - i)) fun y hlo hhi => by
        rw [hwritten₂.kept y (by omega)]
        exact hsome y hlo (by omega)
    rw [if_neg (by omega)]
    refine .inl ⟨_, s', Option.bind_eq_some_iff.mpr ⟨_, hrun₁, Option.bind_eq_some_iff.mpr
        ⟨_, hrun₂, hrun₃⟩⟩,
      Held.holds ⟨hheld₃.hi_lt, hheld₃.owns, hheld₃.laid⟩ ?_ hlen rfl hrep.finish⟩
    have hwritten := written_drop hwritten₃
    rw [Nat.sub_sub_self (by omega)] at hwritten
    rw [insertedBy_of_pos (by omega)]
    exact inserted_front_few hi rfl (by omega) hshift (written_take (by omega) hwritten₂) hwritten

theorem insertAuxRange_back (h : d.Holds env s xs)
    (hi : i < xs.length) (hback : ¬i < xs.length / 2) :
    Leaves env xs ys.length (d.insertAuxRange env ms (iterAt env.buffer d.entry (s + i)) ys)
      (insertedBy ms i ys xs) := by
  unfold insertAuxRange
  rw [h.offset, h.size_eq]
  dsimp only [plus]
  rw [if_neg (by omega)]
  obtain ⟨d₁, s', hres, hrep, -, -⟩ | ⟨d₁, s', hres, -, hno⟩ := reserveElementsAtBack_cases h ys.length
  swap
  · rw [hres]
    exact .inr ⟨rfl, hno⟩
  rw [hres]
  have hpos : (iterAt env.buffer d₁.entry (s' + xs.length)).plus env.buffer d₁.entry
      (-((xs.length : Int) - (i : Nat))) = iterAt env.buffer d₁.entry (s' + i) := plus_iterAt (by omega)
  have hlen : s' + (insertedBy ms i ys xs).length = s' + xs.length + ys.length := by
    rw [length_insertedBy hi.le, Nat.add_assoc, Nat.add_comm ys.length]
  have hmid : ((xs.length : Int) - (i : Nat)).toNat = xs.length - i := by omega
  dsimp only
  rw [hrep.finish, hpos, hmid]
  by_cases hn : i + ys.length < xs.length
  · obtain ⟨cells₁, cells₂, t₂, hrun₁, hrun₂, hheld₂, hsome, hdone⟩ := shift_back hrep ms hn hback
    obtain ⟨cells₃, t₃, hrun₃, hheld₃, hwritten⟩ := hheld₂.copyList ys hsome
    have hfinish : (iterAt env.buffer d₁.entry (s' + xs.length)).plus env.buffer d₁.entry
        (-(ys.length : Int)) = iterAt env.buffer d₁.entry (s' + (xs.length - ys.length)) :=
      plus_iterAt (by omega)
    rw [if_pos (by omega), hfinish]
    exact .inl ⟨_, s', Option.bind_eq_some_iff.mpr ⟨_, hrun₁, Option.bind_eq_some_iff.mpr
        ⟨_, hrun₂, hrun₃⟩⟩,
      Held.holds ⟨hheld₃.hi_lt, hheld₃.owns, hheld₃.laid⟩ (hdone _ _ rfl hwritten) hlen hrep.start rfl⟩
  · have hdrop : (ys.drop (xs.length - i)).length = i + ys.length - xs.length := by
      rw [List.length_drop]
      omega
    have htake : (ys.take (xs.length - i)).length = xs.length - i := List.length_take_of_le (by omega)
    obtain ⟨cells₁, t₁, hrun₁, hheld₁, hwritten₁⟩ := hrep.held.uninitializedCopy
      (p := s' + xs.length) (ys.drop (xs.length - i))
      fun y hlo hhi => hrep.room_back y hlo (by omega)
    have hbehind := written_drop hwritten₁
    rw [show ys.length - (xs.length - i) = i + ys.length - xs.length by omega] at hbehind
    obtain ⟨cells₂, t₂, hrun₂, hheld₂, hshift, hsome⟩ :=
      shift_back_all hrep hheld₁ ms (by omega) hi.le hbehind
    have hheld₂' : (((d₁.withCells cells₁).withCells cells₂).withFinish
        (iterAt env.buffer d₁.entry (s' + xs.length + ys.length))).Held env (s' / env.buffer.elems)
        ((s' + xs.length + ys.length) / env.buffer.elems) t₂ :=
      ⟨hheld₂.hi_lt, hheld₂.owns, hheld₂.laid⟩
    obtain ⟨cells₃, t₃, hrun₃, hheld₃, hwritten₃⟩ := hheld₂'.copyList (p := s' + i)
      (ys.take (xs.length - i)) fun y hlo hhi => hsome y hlo (by omega)
    rw [hdrop, show s' + xs.length + (i + ys.length - xs.length) = s' + i + ys.length by omega] at hrun₁
    have hrun₂' := (congrArg (fun it => uninitializedMove env ms (d₁.withCells cells₁) _ it _)
      hrep.finish).trans hrun₂
    rw [if_neg (by omega)]
    refine .inl ⟨_, s', Option.bind_eq_some_iff.mpr ⟨_, hrun₁, Option.bind_eq_some_iff.mpr
        ⟨_, hrun₂', hrun₃⟩⟩,
      Held.holds ⟨hheld₃.hi_lt, hheld₃.owns, hheld₃.laid⟩ ?_ hlen hrep.start rfl⟩
    rw [insertedBy_of_pos (by omega)]
    exact inserted_back_few hi.le rfl (by omega) hbehind hshift (written_take (by omega) hwritten₃)

end Rtfsc.Stl.Deque
