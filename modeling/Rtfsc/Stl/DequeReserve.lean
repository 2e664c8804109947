import Rtfsc.Stl.DequeEnds

/-!
# Room for many elements

`_M_reserve_elements_at_front` and `_M_reserve_elements_at_back` add nodes until there is room for so many
elements, and return the iterator from where on, or up to where, there is. Until that becomes the start or
the finish of the deque, there are nodes with buffers that are not between the two. When a call throws,
the new nodes have been given back.
-/

namespace Rtfsc.Stl.Deque

open Rtfsc.Machine

variable {T : Type} {env : DequeEnv} {d d' : Deque T} {lo hi s s' n i j : Nat} {xs : List T}
  {place : Nat → Nat}

/-! ## Nodes that go back -/

/-- The buffers may go back in any order. -/
theorem deallocateNode_comm (c c' : Nat) :
    (d.deallocateNode c).deallocateNode c' = (d.deallocateNode c').deallocateNode c := by
  simp only [deallocateNode, Finset.erase_right_comm]

theorem giveBack_entry : (giveBack place d n).entry = d.entry := by
  induction n with
  | zero => rfl
  | succ n ih => exact ih

theorem giveBack_deallocateNode (c : Nat) :
    (giveBack place d n).deallocateNode c = giveBack place (d.deallocateNode c) n := by
  induction n with
  | zero => rfl
  | succ n ih =>
    rw [giveBack, giveBack, deallocateNode_comm, ih, giveBack_entry, giveBack_entry]
    rfl

/-- The last one may go first. -/
theorem giveBack_succ :
    giveBack place d (n + 1) = giveBack place (d.deallocateNode (d.entry (place (n + 1)))) n := by
  rw [← giveBack_deallocateNode, giveBack, giveBack_entry]

theorem destroyNodesFrom_succ :
    d.destroyNodesFrom j (n + 1) =
      (d.deallocateNode (d.entry (j + n))).destroyNodesFrom j n := by
  induction n generalizing d j with
  | zero => rfl
  | succ n ih =>
    rw [destroyNodesFrom, ih, destroyNodesFrom, deallocateNode_comm, Nat.add_right_comm]
    rfl

/-- The nodes behind the last one that is needed. -/
theorem Rep.destroyBack (h : d.Rep env lo (hi + n) s xs)
    (hle : (s + xs.length) / env.buffer.elems ≤ hi) :
    (d.destroyNodesFrom (hi + 1) n).Rep env lo hi s xs := by
  induction n generalizing d with
  | zero => exact h
  | succ n ih =>
    rw [destroyNodesFrom_succ, Nat.add_right_comm]
    exact ih (h.shrinkBack (hle.trans (Nat.le_add_right _ _)))

/-- The nodes before the first one that is needed. -/
theorem Rep.destroyFront (h : d.Rep env lo hi s xs) (hle : lo + n ≤ s / env.buffer.elems) :
    (d.destroyNodesFrom lo n).Rep env (lo + n) hi s xs := by
  induction n generalizing d lo with
  | zero => exact h
  | succ n ih =>
    rw [destroyNodesFrom, Nat.add_comm n 1, ← Nat.add_assoc]
    exact ih (h.shrinkFront (by omega)) (by omega)

theorem Rep.giveBackBack (h : d.Rep env lo (hi + n) s xs)
    (hle : (s + xs.length) / env.buffer.elems ≤ hi) : (giveBack (hi + ·) d n).Rep env lo hi s xs := by
  induction n generalizing d with
  | zero => exact h
  | succ n ih =>
    rw [giveBack_succ]
    exact ih (h.shrinkBack (hle.trans (Nat.le_add_right _ _)))

theorem Rep.giveBackFront (h : d.Rep env (lo - n) hi s xs) (hn : n ≤ lo)
    (hle : lo ≤ s / env.buffer.elems) : (giveBack (lo - ·) d n).Rep env lo hi s xs := by
  induction n generalizing d with
  | zero => exact h
  | succ n ih =>
    rw [giveBack_succ]
    have hshrunk := h.shrinkFront (by omega)
    rw [show lo - (n + 1) + 1 = lo - n by omega] at hshrunk
    exact ih hshrunk (by omega)

/-! ## Nodes that are added -/

/-- At the back, after `i` nodes and with `n` to go. -/
theorem addNodesBack_cases (h : d.Rep env lo (hi + i) s xs)
    (hle : (s + xs.length) / env.buffer.elems ≤ hi) (hroom : hi + i + n < d.mapSize) :
    (∃ d', addNodes env (hi + ·) d i n = (true, d') ∧ d'.Rep env lo (hi + i + n) s xs ∧
      d'.cells = d.cells) ∨
    (∃ d', addNodes env (hi + ·) d i n = (false, d') ∧ d'.Rep env lo hi s xs ∧ ¬env.Grants) := by
  induction n generalizing d i with
  | zero => exact .inl ⟨d, rfl, h, rfl⟩
  | succ n ih =>
    rw [addNodes]
    rcases allocateNode_cases env d with ⟨c, d₁, hfresh, hc, -, -, hset⟩ | ⟨hc, hrefused⟩
    · have hroom' : hi + (i + 1) + n < (d.withNode (hi + (i + 1)) c).mapSize := by
        change _ < d.mapSize
        omega
      rw [hc]
      dsimp only
      rw [hset]
      rcases ih (h.growBack (by omega) hfresh) hroom' with
        ⟨d', hrun, hrep, hcells⟩ | ⟨d', hrun, hrep, hrefused⟩
      · refine .inl ⟨d', hrun, ?_, hcells⟩
        rwa [show hi + i + (n + 1) = hi + (i + 1) + n by omega]
      · exact .inr ⟨d', hrun, hrep, hrefused⟩
    · rw [hc]
      exact .inr ⟨_, rfl, (h.calls _).giveBackBack hle, hrefused⟩

/-- At the front. -/
theorem addNodesFront_cases (h : d.Rep env (lo - i) hi s xs) (hle : lo ≤ s / env.buffer.elems)
    (hroom : i + n ≤ lo) :
    (∃ d', addNodes env (lo - ·) d i n = (true, d') ∧ d'.Rep env (lo - (i + n)) hi s xs ∧
      d'.cells = d.cells) ∨
    (∃ d', addNodes env (lo - ·) d i n = (false, d') ∧ d'.Rep env lo hi s xs ∧ ¬env.Grants) := by
  induction n generalizing d i with
  | zero => exact .inl ⟨d, rfl, h, rfl⟩
  | succ n ih =>
    rw [addNodes]
    rcases allocateNode_cases env d with ⟨c, d₁, hfresh, hc, -, -, hset⟩ | ⟨hc, hrefused⟩
    · rw [hc]
      dsimp only
      rw [hset]
      have hrep : d.Rep env (lo - (i + 1) + 1) hi s xs := by
        rwa [show lo - (i + 1) + 1 = lo - i by omega]
      rcases ih (hrep.growFront hfresh) (by omega) with
        ⟨d', hrun, hrep, hcells⟩ | ⟨d', hrun, hrep, hrefused⟩
      · refine .inl ⟨d', hrun, ?_, hcells⟩
        rwa [show i + (n + 1) = i + 1 + n by omega]
      · exact .inr ⟨d', hrun, hrep, hrefused⟩
    · rw [hc]
      exact .inr ⟨_, rfl, (h.calls _).giveBackFront (by omega) hle, hrefused⟩

/-! ## The reserving functions -/

/-- Why a call throws that is to make room for `n` elements. -/
def NoRoom (env : DequeEnv) (xs : List T) (n : Nat) : Prop :=
  ¬env.Grants ∨ env.maxSize < xs.length + n

theorem newElementsAtBack_cases (h : d.Holds env s xs) :
    (∃ d' s', d.newElementsAtBack env n = (true, d') ∧
      d'.Rep env (s' / env.buffer.elems) ((s' + xs.length) / env.buffer.elems + newNodes env n) s' xs ∧
      s' % env.buffer.elems = s % env.buffer.elems ∧ d'.cells = d.cells) ∨
    (∃ d' s', d.newElementsAtBack env n = (false, d') ∧ d'.Holds env s' xs ∧ NoRoom env xs n) := by
  unfold newElementsAtBack
  rw [h.size_eq]
  by_cases hmax : env.maxSize - xs.length < n
  · rw [if_pos hmax]
    exact .inr ⟨d, s, rfl, h, .inr (by omega)⟩
  rw [if_neg hmax]
  rcases hres : d.reserveMapAtBack env (newNodes env n) with ⟨_ | _, d₁⟩
  · obtain ⟨hholds, hrefused⟩ := reserveMapAtBack_false h hres
    exact .inr ⟨d₁, s, rfl, hholds, .inl hrefused⟩
  obtain ⟨s', hremap, hroom⟩ := reserveMapAtBack_true h hres
  have hholds := hremap.holds
  dsimp only
  rw [hholds.finish_node] at hroom ⊢
  rcases addNodesBack_cases (i := 0) hholds le_rfl hroom with
    ⟨d', hrun, hrep, hcells⟩ | ⟨d', hrun, hrep, hrefused⟩
  · exact .inl ⟨d', s', hrun, hrep, hremap.mod_eq, hcells.trans hremap.cells⟩
  · exact .inr ⟨d', s', hrun, hrep, .inl hrefused⟩

theorem newElementsAtFront_cases (h : d.Holds env s xs) :
    (∃ d' s', d.newElementsAtFront env n = (true, d') ∧
      d'.Rep env (s' / env.buffer.elems - newNodes env n) ((s' + xs.length) / env.buffer.elems) s' xs ∧
      newNodes env n ≤ s' / env.buffer.elems ∧
      s' % env.buffer.elems = s % env.buffer.elems ∧ d'.cells = d.cells) ∨
    (∃ d' s', d.newElementsAtFront env n = (false, d') ∧ d'.Holds env s' xs ∧ NoRoom env xs n) := by
  unfold newElementsAtFront
  rw [h.size_eq]
  by_cases hmax : env.maxSize - xs.length < n
  · rw [if_pos hmax]
    exact .inr ⟨d, s, rfl, h, .inr (by omega)⟩
  rw [if_neg hmax]
  rcases hres : d.reserveMapAtFront env (newNodes env n) with ⟨_ | _, d₁⟩
  · obtain ⟨hholds, hrefused⟩ := reserveMapAtFront_false h hres
    exact .inr ⟨d₁, s, rfl, hholds, .inl hrefused⟩
  obtain ⟨s', hremap, hroom⟩ := reserveMapAtFront_true h hres
  have hholds := hremap.holds
  dsimp only
  rw [hholds.start_node] at hroom ⊢
  rcases addNodesFront_cases (i := 0) hholds le_rfl
      (by omega : 0 + newNodes env n ≤ s' / env.buffer.elems) with
    ⟨d', hrun, hrep, hcells⟩ | ⟨d', hrun, hrep, hrefused⟩
  · rw [Nat.zero_add] at hrep
    exact .inl ⟨d', s', hrun, hrep, hroom, hremap.mod_eq, hcells.trans hremap.cells⟩
  · exact .inr ⟨d', s', hrun, hrep, .inl hrefused⟩

/-- The new nodes at the back are as many as are needed. -/
theorem newNodes_back {p : Nat} (hmany : n > env.buffer.elems - p % env.buffer.elems - 1) :
    (p + n) / env.buffer.elems = p / env.buffer.elems +
      newNodes env (n - (env.buffer.elems - p % env.buffer.elems - 1)) := by
  have hlt : p % env.buffer.elems < env.buffer.elems := place_mod_lt
  have hp : p / env.buffer.elems * env.buffer.elems + p % env.buffer.elems = p := place_eq
  have hsum : p + n = n - (env.buffer.elems - p % env.buffer.elems - 1) + env.buffer.elems - 1 +
      p / env.buffer.elems * env.buffer.elems := by omega
  rw [hsum, Nat.add_mul_div_right _ _ env.buffer.pos, Nat.add_comm, newNodes]

/-- And those at the front. -/
theorem newNodes_front {p : Nat} (hmany : n > p % env.buffer.elems)
    (hroom : newNodes env (n - p % env.buffer.elems) ≤ p / env.buffer.elems) :
    n ≤ p ∧ (p - n) / env.buffer.elems =
      p / env.buffer.elems - newNodes env (n - p % env.buffer.elems) := by
  have hp : p / env.buffer.elems * env.buffer.elems + p % env.buffer.elems = p := place_eq
  have hnodes : newNodes env (n - p % env.buffer.elems) * env.buffer.elems +
      (n - p % env.buffer.elems + env.buffer.elems - 1) % env.buffer.elems =
      n - p % env.buffer.elems + env.buffer.elems - 1 := place_eq
  have hlt : (n - p % env.buffer.elems + env.buffer.elems - 1) % env.buffer.elems <
      env.buffer.elems := place_mod_lt
  have hle : newNodes env (n - p % env.buffer.elems) * env.buffer.elems ≤
      p / env.buffer.elems * env.buffer.elems := Nat.mul_le_mul_right _ hroom
  have hsum : p - n = (p / env.buffer.elems - newNodes env (n - p % env.buffer.elems)) *
      env.buffer.elems + (env.buffer.elems - 1 -
        (n - p % env.buffer.elems + env.buffer.elems - 1) % env.buffer.elems) := by
    rw [Nat.sub_mul]
    omega
  refine ⟨by omega, ?_⟩
  rw [hsum, place_div (by omega)]

theorem reserveElementsAtBack_cases (h : d.Holds env s xs) (n : Nat) :
    (∃ d' s', d.reserveElementsAtBack env n =
        (some (iterAt env.buffer d'.entry (s' + xs.length + n)), d') ∧
      d'.Rep env (s' / env.buffer.elems) ((s' + xs.length + n) / env.buffer.elems) s' xs ∧
      s' % env.buffer.elems = s % env.buffer.elems ∧ d'.cells = d.cells) ∨
    (∃ d' s', d.reserveElementsAtBack env n = (none, d') ∧ d'.Holds env s' xs ∧ 0 < n ∧
      NoRoom env xs n) := by
  have hlt : (s + xs.length) % env.buffer.elems < env.buffer.elems := place_mod_lt
  have hvacancies : d.finish.last.off - d.finish.cur.off - 1 =
      env.buffer.elems - (s + xs.length) % env.buffer.elems - 1 := by
    rw [h.finish]
    rfl
  unfold reserveElementsAtBack
  rw [hvacancies]
  dsimp only
  by_cases hmany : n > env.buffer.elems - (s + xs.length) % env.buffer.elems - 1
  · rw [if_pos hmany]
    rcases newElementsAtBack_cases h
        (n := n - (env.buffer.elems - (s + xs.length) % env.buffer.elems - 1)) with
      ⟨d', s', hrun, hrep, hmod, hcells⟩ | ⟨d', s', hrun, hholds, hroom⟩
    · have hmod' : (s' + xs.length) % env.buffer.elems = (s + xs.length) % env.buffer.elems := by
        rw [Nat.add_mod, hmod, ← Nat.add_mod]
      rw [← hmod'] at hmany hrep
      rw [← newNodes_back hmany] at hrep
      refine .inl ⟨d', s', ?_, hrep, hmod, hcells⟩
      rw [hrun]
      dsimp only
      rw [plus, hrep.finish, plus_iterAt (Int.natCast_add _ _)]
    · refine .inr ⟨d', s', ?_, hholds, by omega, hroom.imp_right fun hmax => by omega⟩
      rw [hrun]
  · rw [if_neg hmany]
    have hdiv := (place_add (b := env.buffer) (p := s + xs.length) (k := n) (by omega)).1
    refine .inl ⟨d, s, ?_, hdiv ▸ h, rfl, rfl⟩
    dsimp only
    rw [plus, h.finish, plus_iterAt (Int.natCast_add _ _)]

theorem reserveElementsAtFront_cases (h : d.Holds env s xs) (n : Nat) :
    (∃ d' s', d.reserveElementsAtFront env n = (some (iterAt env.buffer d'.entry s'), d') ∧
      d'.Rep env (s' / env.buffer.elems) ((s' + n + xs.length) / env.buffer.elems) (s' + n) xs ∧
      (s' + n) % env.buffer.elems = s % env.buffer.elems ∧ d'.cells = d.cells) ∨
    (∃ d' s', d.reserveElementsAtFront env n = (none, d') ∧ d'.Holds env s' xs ∧ 0 < n ∧
      NoRoom env xs n) := by
  have hvacancies : d.start.cur.off - d.start.first.off = s % env.buffer.elems := by
    rw [h.start]
    rfl
  unfold reserveElementsAtFront
  rw [hvacancies]
  dsimp only
  by_cases hmany : n > s % env.buffer.elems
  · rw [if_pos hmany]
    rcases newElementsAtFront_cases h (n := n - s % env.buffer.elems) with
      ⟨d', s', hrun, hrep, hnodes, hmod, hcells⟩ | ⟨d', s', hrun, hholds, hroom⟩
    · rw [← hmod] at hmany hrep hnodes
      obtain ⟨hle, hdiv⟩ := newNodes_front hmany hnodes
      rw [← hdiv] at hrep
      obtain ⟨t, rfl⟩ := Nat.exists_eq_add_of_le' hle
      rw [Nat.add_sub_cancel] at hrep
      refine .inl ⟨d', t, ?_, hrep, hmod, hcells⟩
      rw [hrun]
      dsimp only
      have ht : (t : Int) = (t + n : Nat) + -(n : Int) := by omega
      rw [plus, hrep.start, plus_iterAt ht]
    · refine .inr ⟨d', s', ?_, hholds, by omega, hroom.imp_right fun hmax => by omega⟩
      rw [hrun]
  · rw [if_neg hmany]
    have hp : s / env.buffer.elems * env.buffer.elems + s % env.buffer.elems = s := place_eq
    have hlt : s % env.buffer.elems < env.buffer.elems := place_mod_lt
    obtain ⟨t, rfl⟩ : ∃ t, s = t + n := ⟨s - n, by omega⟩
    have hdiv : t / env.buffer.elems = (t + n) / env.buffer.elems := by
      have ht : t = (t + n) / env.buffer.elems * env.buffer.elems +
          ((t + n) % env.buffer.elems - n) := by omega
      rw [ht, place_div (by omega), ← ht]
    refine .inl ⟨d, t, ?_, hdiv ▸ h, rfl, rfl⟩
    have ht : (t : Int) = (t + n : Nat) + -(n : Int) := by omega
    dsimp only
    rw [plus, h.start, plus_iterAt ht]

end Rtfsc.Stl.Deque
