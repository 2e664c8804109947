import Rtfsc.Stl.DequeContents

/-!
# What an erasure does

The elements of the shorter side are moved over those that go, and as many at that end are destroyed. The
buffers that have none of the others go back.
-/

namespace Rtfsc.Stl.Deque

open Rtfsc.Machine

variable {T : Type} {env : DequeEnv} {ms : MoveSem T} {d : Deque T} {s i j m n : Nat} {xs zs : List T}
  {t : Nat → Option T} {it : DequeIter}

/-! ## The elements that are moved -/

/-- Those before, to the back. -/
theorem moved_front (h : d.Holds env s xs) (ms : MoveSem T) (hij : i < j) (hj : j ≤ xs.length) :
    ∃ cells' t,
      (∀ {β : Type} (next : Deque T → Option β),
        (if (iterAt env.buffer d.entry (s + i)).cur ≠ d.start.cur then
          (d.moveRangeBackward env ms d.start (iterAt env.buffer d.entry (s + i))
            (iterAt env.buffer d.entry (s + j))).bind next
        else next d) = next (d.withCells cells')) ∧
      (d.withCells cells').Held env (s / env.buffer.elems) ((s + xs.length) / env.buffer.elems) t ∧
      Shifted s (s + (j - i)) i (laidFrom s xs) t := by
  by_cases hzero : i = 0
  · refine ⟨d.cells, laidFrom s xs, fun next => ?_, h.held, hzero ▸ .zero⟩
    exact if_neg (not_not_intro ((h.cur_eq_start (by omega)).mpr hzero))
  · have hend : s + (j - i) + i = s + j := by omega
    obtain ⟨cells', t, hrun, hheld, hshift⟩ := h.held.moveRangeBackward ms (p := s) (q := s + (j - i))
      (n := i) (fun _ hlo hhi => laidFrom_isSome hlo (by omega))
      (fun _ hlo hhi => laidFrom_isSome (by omega) (by omega)) (.inl (by omega))
    rw [hend, ← h.start] at hrun
    refine ⟨cells', t, fun next => ?_, hheld, hshift⟩
    rw [if_pos (mt (h.cur_eq_start (by omega)).mp hzero), hrun, Option.bind_some]

/-- Those behind, to the front. -/
theorem moved_back (h : d.Holds env s xs) (ms : MoveSem T) (hij : i < j) (hj : j ≤ xs.length) :
    ∃ cells' t,
      (∀ {β : Type} (next : Deque T → Option β),
        (if (iterAt env.buffer d.entry (s + j)).cur ≠ d.finish.cur then
          (d.moveRange env ms (iterAt env.buffer d.entry (s + j)) d.finish
            (iterAt env.buffer d.entry (s + i))).bind next
        else next d) = next (d.withCells cells')) ∧
      (d.withCells cells').Held env (s / env.buffer.elems) ((s + xs.length) / env.buffer.elems) t ∧
      Shifted (s + j) (s + i) (xs.length - j) (laidFrom s xs) t := by
  by_cases hlast : j = xs.length
  · refine ⟨d.cells, laidFrom s xs, fun next => ?_, h.held, ?_⟩
    · exact if_neg (not_not_intro ((h.cur_eq_finish hj).mpr hlast))
    · rw [hlast, Nat.sub_self]
      exact .zero
  · have hend : s + j + (xs.length - j) = s + xs.length := by omega
    obtain ⟨cells', t, hrun, hheld, hshift⟩ := h.held.moveRange ms (p := s + j) (q := s + i)
      (n := xs.length - j) (fun _ hlo hhi => laidFrom_isSome (by omega) (by omega))
      (fun _ hlo hhi => laidFrom_isSome (by omega) (by omega)) (.inl (by omega))
    rw [hend, ← h.finish] at hrun
    refine ⟨cells', t, fun next => ?_, hheld, hshift⟩
    rw [if_pos (mt (h.cur_eq_finish hj).mp hlast), hrun, Option.bind_some]

/-! ## The ends -/

theorem destroyNodesFrom_withStart :
    (d.destroyNodesFrom j n).withStart it = (d.withStart it).destroyNodesFrom j n := by
  induction n generalizing d j with
  | zero => rfl
  | succ n ih => exact ih

theorem destroyNodesFrom_withFinish :
    (d.destroyNodesFrom j n).withFinish it = (d.withFinish it).destroyNodesFrom j n := by
  induction n generalizing d j with
  | zero => rfl
  | succ n ih => exact ih

theorem eraseAtBegin_holds (zs : List T)
    (h : d.Held env (s / env.buffer.elems) ((s + m + zs.length) / env.buffer.elems) t)
    (hstart : d.start = iterAt env.buffer d.entry s)
    (hfinish : d.finish = iterAt env.buffer d.entry (s + m + zs.length))
    (hsome : ∀ y, s ≤ y → y < s + m → (t y).isSome)
    (htape : ∀ t', Written s m (fun _ => none) t t' → t' = laidFrom (s + m) zs) :
    ∃ d', d.eraseAtBegin env (iterAt env.buffer d.entry (s + m)) = some d' ∧ d'.Holds env (s + m) zs := by
  obtain ⟨cells', t', hrun, hheld, hwritten⟩ := h.destroyData hsome
  have hle : s / env.buffer.elems ≤ (s + m) / env.buffer.elems :=
    Nat.div_le_div_right (Nat.le_add_right _ _)
  have hrep : ((d.withCells cells').withStart (iterAt env.buffer d.entry (s + m))).Rep env
      (s / env.buffer.elems) ((s + m + zs.length) / env.buffer.elems) (s + m) zs :=
    ⟨htape t' hwritten ▸ ⟨hheld.hi_lt, hheld.owns, hheld.laid⟩, hle, le_rfl, rfl, hfinish⟩
  have hnode : d.start.node = s / env.buffer.elems := congrArg DequeIter.node hstart
  rw [eraseAtBegin, hstart]
  refine ⟨_, Option.bind_eq_some_iff.mpr ⟨_, hrun, rfl⟩, ?_⟩
  change (((d.withCells cells').destroyNodesFrom d.start.node
    ((s + m) / env.buffer.elems - d.start.node)).withStart _).Holds env (s + m) zs
  rw [destroyNodesFrom_withStart, hnode]
  have hfewer := hrep.destroyFront (n := (s + m) / env.buffer.elems - s / env.buffer.elems) (by omega)
  rw [Nat.add_sub_cancel' hle] at hfewer
  exact hfewer

theorem eraseAtEnd_holds (zs : List T)
    (h : d.Held env (s / env.buffer.elems) ((s + n) / env.buffer.elems) t)
    (hstart : d.start = iterAt env.buffer d.entry s)
    (hfinish : d.finish = iterAt env.buffer d.entry (s + n)) (hn : zs.length ≤ n)
    (hsome : ∀ y, s + zs.length ≤ y → y < s + n → (t y).isSome)
    (htape : ∀ t', Written (s + zs.length) (n - zs.length) (fun _ => none) t t' → t' = laidFrom s zs) :
    ∃ d', d.eraseAtEnd env (iterAt env.buffer d.entry (s + zs.length)) = some d' ∧
      d'.Holds env s zs := by
  have hend : s + zs.length + (n - zs.length) = s + n := by omega
  obtain ⟨cells', t', hrun, hheld, hwritten⟩ := h.destroyData (p := s + zs.length)
    (n := n - zs.length) fun y hlo hhi => hsome y hlo (by omega)
  have hle : (s + zs.length) / env.buffer.elems ≤ (s + n) / env.buffer.elems :=
    Nat.div_le_div_right (Nat.add_le_add_left hn s)
  have hrep : ((d.withCells cells').withFinish (iterAt env.buffer d.entry (s + zs.length))).Rep env
      (s / env.buffer.elems) ((s + n) / env.buffer.elems) s zs :=
    ⟨htape t' hwritten ▸ ⟨hheld.hi_lt, hheld.owns, hheld.laid⟩, le_rfl, hle, hstart, rfl⟩
  have hnode : d.finish.node = (s + n) / env.buffer.elems := congrArg DequeIter.node hfinish
  rw [hend] at hrun
  rw [eraseAtEnd, hfinish]
  refine ⟨_, Option.bind_eq_some_iff.mpr ⟨_, hrun, rfl⟩, ?_⟩
  change (((d.withCells cells').destroyNodesFrom ((s + zs.length) / env.buffer.elems + 1)
    (d.finish.node + 1 - ((s + zs.length) / env.buffer.elems + 1))).withFinish _).Holds env s zs
  rw [destroyNodesFrom_withFinish, hnode, Nat.add_sub_add_right]
  rw [← Nat.add_sub_cancel' hle] at hrep
  exact hrep.destroyBack le_rfl

/-! ## Erasure -/

/-- A tape with one element more in front. -/
theorem laidFrom_of_first (zs : List T) (h : (t s).isSome)
    (htape : ∀ t', Written s 1 (fun _ => none) t t' → t' = laidFrom (s + 1) zs) :
    ∃ w, t = laidFrom s (w :: zs) := by
  obtain ⟨w, hw⟩ := Option.isSome_iff_exists.mp h
  refine ⟨w, ?_⟩
  rw [laidFrom_cons, ← htape _ (.cons rfl .zero), Function.update_idem, ← hw,
    Function.update_eq_self]

/-- One more at the end. -/
theorem laidFrom_of_last (s : Nat) (zs : List T) (h : (t (s + zs.length)).isSome)
    (htape : ∀ t', Written (s + zs.length) 1 (fun _ => none) t t' → t' = laidFrom s zs) :
    ∃ w, t = laidFrom s (zs ++ [w]) := by
  obtain ⟨w, hw⟩ := Option.isSome_iff_exists.mp h
  refine ⟨w, ?_⟩
  rw [laidFrom_snoc, ← htape _ (.cons rfl .zero), Function.update_idem, ← hw,
    Function.update_eq_self]

theorem erase_returns (h : d.Holds env s xs) (ms : MoveSem T) (hi : i < xs.length) :
    Returns env (d.erase env ms (iterAt env.buffer d.entry (s + i))) i (erased i (i + 1) xs) := by
  have hnext : d.next env (iterAt env.buffer d.entry (s + i)) =
      iterAt env.buffer d.entry (s + (i + 1)) := next_iterAt
  have hone : i + 1 - i = 1 := Nat.add_sub_cancel_left i 1
  have hlen : (erased i (i + 1) xs).length + 1 = xs.length := by
    have := length_erased (i := i) (j := i + 1) (Nat.le_succ i) hi
    omega
  have hsome : ∀ y, s ≤ y → y < s + xs.length → (laidFrom s xs y).isSome := fun _ => laidFrom_isSome
  unfold erase
  dsimp only
  rw [hnext, h.offset, h.size_eq, Int.toNat_natCast]
  by_cases hfront : i < xs.length / 2
  · obtain ⟨cells', t, hrun, hheld, hshift⟩ := moved_front (j := i + 1) h ms (Nat.lt_succ_self i) hi
    obtain ⟨w, rfl⟩ := laidFrom_of_first (erased i (i + 1) xs)
      (hshift.isSome (fun y hlo hhi => hsome y hlo (by omega)) (hsome s le_rfl (by omega)))
      (fun t' hwritten => by
        have htape := erased_front (j := i + 1) (Nat.le_succ i) hi hshift (hone.symm ▸ hwritten)
        rwa [hone] at htape)
    have hholds := popFront_holds (hheld.holds rfl (by rw [List.length_cons, hlen]) h.start h.finish)
    rw [if_pos hfront]
    refine ⟨_, s + 1, (hrun _).trans ?_, hholds⟩
    change some (plus env _ _ _, _) = _
    rw [hholds.plus_start]
  · obtain ⟨cells', t, hrun, hheld, hshift⟩ := moved_back (j := i + 1) h ms (Nat.lt_succ_self i) hi
    have hlast : s + (erased i (i + 1) xs).length = s + (xs.length - 1) := by omega
    obtain ⟨w, rfl⟩ := laidFrom_of_last s (erased i (i + 1) xs)
      (hshift.isSome (fun y hlo hhi => hsome y (by omega) (by omega))
        (hsome _ (by omega) (by omega)))
      (fun t' hwritten => by
        rw [hlast] at hwritten
        exact erased_back (j := i + 1) (Nat.le_succ i) hi hshift (hone.symm ▸ hwritten))
    have hholds := popBack_holds (hheld.holds rfl
      (by rw [List.length_append, List.length_singleton, hlen]) h.start h.finish)
    rw [if_neg hfront]
    refine ⟨_, s, (hrun _).trans ?_, hholds⟩
    change some (plus env _ _ _, _) = _
    rw [hholds.plus_start]

theorem eraseRange_returns (h : d.Holds env s xs) (ms : MoveSem T) (hij : i ≤ j) (hj : j ≤ xs.length) :
    Returns env (d.eraseRange env ms (iterAt env.buffer d.entry (s + i))
      (iterAt env.buffer d.entry (s + j))) i (erased i j xs) := by
  unfold eraseRange
  have hstart := h.cur_eq_start (hij.trans hj)
  have hfinish := h.cur_eq_finish hj
  by_cases hsame : i = j
  · subst hsame
    rw [if_pos rfl]
    refine ⟨d, s, rfl, ?_⟩
    rwa [erased, List.take_append_drop]
  rw [if_neg (mt (h.cur_inj (hij.trans hj) hj).mp hsame)]
  have hlen : (erased i j xs).length + (j - i) = xs.length := length_erased hij hj
  have hsome : ∀ y, s ≤ y → y < s + xs.length → (laidFrom s xs y).isSome := fun _ => laidFrom_isSome
  have hlt : i < j := Nat.lt_of_le_of_ne hij hsame
  by_cases hall : i = 0 ∧ j = xs.length
  · -- `clear()`
    obtain ⟨rfl, rfl⟩ := hall
    have hempty : erased 0 xs.length xs = [] := by rw [erased, List.take_zero, List.drop_length]; rfl
    obtain ⟨d', hrun, hholds⟩ := eraseAtEnd_holds [] h.held h.start h.finish (Nat.zero_le _)
      (fun y hlo hhi => hsome y hlo hhi) fun t' hwritten => by
        have hshift : Shifted (s + xs.length) (s + 0) (xs.length - xs.length) (laidFrom s xs)
            (laidFrom s xs) := (Nat.sub_self _).symm ▸ .zero
        refine hempty ▸ erased_back hij hj hshift ?_
        rwa [Nat.sub_zero, Nat.sub_self]
    rw [if_pos ⟨hstart.mpr rfl, hfinish.mpr rfl⟩, h.start]
    refine ⟨d', s, Option.bind_eq_some_iff.mpr ⟨_, hrun, ?_⟩, hempty ▸ hholds⟩
    rw [hholds.finish]
    rfl
  rw [if_neg fun hcur => hall ⟨hstart.mp hcur.1, hfinish.mp hcur.2⟩]
  have hn : (iterAt env.buffer d.entry (s + j)).minus env.buffer
      (iterAt env.buffer d.entry (s + i)) = ((j - i : Nat) : Int) := by
    rw [minus_iterAt]
    omega
  dsimp only
  rw [hn, h.offset, h.size_eq, Int.toNat_natCast, Int.toNat_natCast]
  by_cases hfront : i ≤ (xs.length - (j - i)) / 2
  · obtain ⟨cells', t, hrun, hheld, hshift⟩ := moved_front h ms hlt hj
    have hend : s + (j - i) + (erased i j xs).length = s + xs.length := by omega
    obtain ⟨d', hrun', hholds⟩ := eraseAtBegin_holds (d := d.withCells cells') (t := t)
      (s := s) (m := j - i) (erased i j xs)
      (hend.symm ▸ hheld) h.start (hend.symm ▸ h.finish)
      (fun y hlo hhi => hshift.isSome (fun y hlo hhi => hsome y hlo (by omega))
        (hsome y hlo (by omega)))
      fun t' hwritten => erased_front hij hj hshift hwritten
    have hplus : (d.withCells cells').plus env d.start ((j - i : Nat) : Int) =
        iterAt env.buffer d.entry (s + (j - i)) := by
      rw [plus, h.start]
      exact plus_iterAt (Int.natCast_add _ _)
    rw [if_pos hfront]
    refine ⟨d', s + (j - i), (hrun _).trans ?_, hholds⟩
    change ((d.withCells cells').eraseAtBegin env
      ((d.withCells cells').plus env d.start ((j - i : Nat) : Int))).bind _ = _
    rw [hplus]
    refine Option.bind_eq_some_iff.mpr ⟨_, hrun', ?_⟩
    change some (plus env _ _ _, _) = _
    rw [hholds.plus_start]
  · obtain ⟨cells', t, hrun, hheld, hshift⟩ := moved_back h ms hlt hj
    have hcount : xs.length - (erased i j xs).length = j - i := by omega
    have hlast : s + (erased i j xs).length = s + (xs.length - (j - i)) := by omega
    obtain ⟨d', hrun', hholds⟩ := eraseAtEnd_holds (erased i j xs) hheld h.start h.finish
      (by omega)
      (fun y hlo hhi => hshift.isSome (fun y hlo hhi => hsome y (by omega) (by omega))
        (hsome y (by omega) hhi))
      fun t' hwritten => by
        rw [hcount, hlast] at hwritten
        exact erased_back hij hj hshift hwritten
    have hplus : (d.withCells cells').plus env d.finish (-((j - i : Nat) : Int)) =
        iterAt env.buffer d.entry (s + (erased i j xs).length) := by
      rw [plus, h.finish]
      exact plus_iterAt (by omega)
    rw [if_neg hfront]
    refine ⟨d', s, (hrun _).trans ?_, hholds⟩
    change ((d.withCells cells').eraseAtEnd env
      ((d.withCells cells').plus env d.finish (-((j - i : Nat) : Int)))).bind _ = _
    rw [hplus]
    refine Option.bind_eq_some_iff.mpr ⟨_, hrun', ?_⟩
    change some (plus env _ _ _, _) = _
    rw [hholds.plus_start]

end Rtfsc.Stl.Deque
