import Rtfsc.Stl.DequeMap

/-!
# Both ends of a deque

One element more or less at an end (`Rep.snoc`, `Rep.cons`, `Rep.dropLast`, `Rep.tail`) and one node more
or less (`Rep.growBack`, `Rep.growFront`, `Rep.shrinkBack`, `Rep.shrinkFront`). The functions that push and
pop are put together from these.
-/

namespace Rtfsc.Stl.Deque

open Rtfsc.Machine

variable {T : Type} {env : DequeEnv} {d d' : Deque T} {lo hi s s' n c : Nat} {xs : List T} {x : T}
  {mk : Maker T} {p : EltPtr} {it : DequeIter}

/-! ## One element -/

namespace Rep

theorem hi_node (h : d.Rep env lo hi s xs) : s / env.buffer.elems ≤ hi :=
  (Nat.div_le_div_right (Nat.le_add_right _ _)).trans h.le_hi

theorem lo_node (h : d.Rep env lo hi s xs) : lo ≤ (s + xs.length) / env.buffer.elems :=
  h.lo_le.trans (Nat.div_le_div_right (Nat.le_add_right _ _))

theorem snoc (h : d.Rep env lo hi s xs) (x : T)
    (hroom : (s + xs.length + 1) / env.buffer.elems ≤ hi)
    (hp : p = eltAt env.buffer d.entry (s + xs.length))
    (hit : it = iterAt env.buffer d.entry (s + xs.length + 1)) :
    Rep env { d with cells := Function.update d.cells p (some x), finish := it } lo hi s
      (xs ++ [x]) := by
  subst hp hit
  have hlen : s + (xs ++ [x]).length = s + xs.length + 1 := by
    rw [List.length_append, List.length_singleton, Nat.add_assoc]
  have hheld := h.held.store (p := s + xs.length) ⟨h.lo_node, h.le_hi⟩ (some x)
  rw [← laidFrom_snoc] at hheld
  refine ⟨⟨hheld.hi_lt, hheld.owns, hheld.laid⟩, h.lo_le, ?_, h.start, ?_⟩
  · rwa [hlen]
  · rw [hlen]

theorem cons (h : d.Rep env lo hi (s + 1) xs) (x : T) (hroom : lo ≤ s / env.buffer.elems)
    (hp : p = eltAt env.buffer d.entry s) (hit : it = iterAt env.buffer d.entry s) :
    Rep env { d with cells := Function.update d.cells p (some x), start := it } lo hi s (x :: xs) := by
  subst hp hit
  have hlen : s + (x :: xs).length = s + 1 + xs.length := by
    rw [List.length_cons]
    omega
  have hle : s / env.buffer.elems ≤ hi := (Nat.div_le_div_right (Nat.le_succ s)).trans h.hi_node
  have hheld := h.held.store (p := s) ⟨hroom, hle⟩ (some x)
  rw [← laidFrom_cons] at hheld
  refine ⟨⟨hheld.hi_lt, hheld.owns, hheld.laid⟩, hroom, ?_, rfl, ?_⟩
  · rw [hlen]
    exact h.le_hi
  · rw [hlen]
    exact h.finish

theorem dropLast (h : d.Rep env lo hi s (xs ++ [x]))
    (hp : p = eltAt env.buffer d.entry (s + xs.length))
    (hit : it = iterAt env.buffer d.entry (s + xs.length)) :
    Rep env { d with cells := Function.update d.cells p none, finish := it } lo hi s xs := by
  subst hp hit
  have hlen : s + (xs ++ [x]).length = s + xs.length + 1 := by
    rw [List.length_append, List.length_singleton, Nat.add_assoc]
  have hle : (s + xs.length) / env.buffer.elems ≤ hi := by
    refine le_trans (Nat.div_le_div_right ?_) h.le_hi
    omega
  have hheld := h.held.store (p := s + xs.length)
    ⟨h.lo_le.trans (Nat.div_le_div_right (Nat.le_add_right _ _)), hle⟩ none
  rw [← laidFrom_eq_update_snoc] at hheld
  exact ⟨⟨hheld.hi_lt, hheld.owns, hheld.laid⟩, h.lo_le, hle, h.start, rfl⟩

theorem tail (h : d.Rep env lo hi s (x :: xs)) (hp : p = eltAt env.buffer d.entry s)
    (hit : it = iterAt env.buffer d.entry (s + 1)) :
    Rep env { d with cells := Function.update d.cells p none, start := it } lo hi (s + 1) xs := by
  subst hp hit
  have hlen : s + (x :: xs).length = s + 1 + xs.length := by
    rw [List.length_cons]
    omega
  have hheld := h.held.store (p := s) ⟨h.lo_le, h.hi_node⟩ none
  rw [← laidFrom_eq_update_cons] at hheld
  refine ⟨⟨hheld.hi_lt, hheld.owns, hheld.laid⟩,
    h.lo_le.trans (Nat.div_le_div_right (Nat.le_succ s)), ?_, rfl, ?_⟩
  · rw [← hlen]
    exact h.le_hi
  · rw [← hlen]
    exact h.finish

/-! ## One node -/

/-- The node behind the last one gets a buffer. -/
theorem growBack (h : d.Rep env lo hi s xs) (hlt : hi + 1 < d.mapSize) (hfresh : c ∉ d.live) :
    (d.withNode (hi + 1) c).Rep env lo (hi + 1) s xs := by
  have hnode : s / env.buffer.elems ≤ hi := h.hi_node
  have hle := h.le_hi
  have hentry : ∀ p, p / env.buffer.elems ≤ hi →
      iterAt env.buffer (Function.update d.entry (hi + 1) c) p = iterAt env.buffer d.entry p :=
    fun p hp => iterAt_congr (Function.update_of_ne (by omega) _ _)
  refine ⟨h.held.pushBack ((h.lo_le.trans hnode).trans (Nat.le_succ hi)) hlt hfresh, h.lo_le,
    hle.trans (Nat.le_succ hi), ?_, ?_⟩
  · exact h.start.trans (hentry _ hnode).symm
  · exact h.finish.trans (hentry _ hle).symm

/-- The node before the first one gets a buffer. -/
theorem growFront (h : d.Rep env (lo + 1) hi s xs) (hfresh : c ∉ d.live) :
    (d.withNode lo c).Rep env lo hi s xs := by
  have hlo := h.lo_le
  have hlo' := h.lo_node
  have hle := h.le_hi
  have hentry : ∀ p, lo + 1 ≤ p / env.buffer.elems →
      iterAt env.buffer (Function.update d.entry lo c) p = iterAt env.buffer d.entry p :=
    fun p hp => iterAt_congr (Function.update_of_ne (by omega) _ _)
  refine ⟨h.held.pushFront (by omega) hfresh, (Nat.le_succ lo).trans hlo, hle, ?_, ?_⟩
  · exact h.start.trans (hentry _ hlo).symm
  · exact h.finish.trans (hentry _ hlo').symm

/-- The buffer of the last node goes back; no element is in it. -/
theorem shrinkBack (h : d.Rep env lo (hi + 1) s xs)
    (hle : (s + xs.length) / env.buffer.elems ≤ hi) :
    (d.deallocateNode (d.entry (hi + 1))).Rep env lo hi s xs := by
  refine ⟨h.held.popBack (h.lo_le.trans h.hi_node) fun p hp => laidFrom_eq_none ?_, h.lo_le, hle,
    h.start, h.finish⟩
  by_contra hin
  have hdiv : p / env.buffer.elems ≤ (s + xs.length) / env.buffer.elems :=
    Nat.div_le_div_right (by omega)
  omega

/-- The buffer of the first node goes back. -/
theorem shrinkFront (h : d.Rep env lo hi s xs) (hle : lo + 1 ≤ s / env.buffer.elems) :
    (d.deallocateNode (d.entry lo)).Rep env (lo + 1) hi s xs := by
  refine ⟨h.held.popFront (h.lo_le.trans h.hi_node) fun p hp => laidFrom_eq_none ?_, hle, h.le_hi,
    h.start, h.finish⟩
  by_contra hin
  have hdiv : s / env.buffer.elems ≤ p / env.buffer.elems := Nat.div_le_div_right (by omega)
  omega

theorem calls (h : d.Rep env lo hi s xs) (k : Nat) : Rep env { d with calls := k } lo hi s xs :=
  ⟨⟨h.held.hi_lt, h.held.owns, h.held.laid⟩, h.lo_le, h.le_hi, h.start, h.finish⟩

theorem size_eq (h : d.Rep env lo hi s xs) : d.size env = xs.length := by
  rw [size, h.start, h.finish, minus_iterAt]
  omega

end Rep

/-! ## Push -/

theorem Remapped.mod_add (h : Remapped env d d' s s' xs) (k : Nat) :
    (s' + k) % env.buffer.elems = (s + k) % env.buffer.elems := by
  rw [Nat.add_mod, h.mod_eq, ← Nat.add_mod]

theorem construct_some (h : mk d.cells = some x) :
    d.construct p mk = (true, { d with cells := Function.update d.cells p (some x) }) := by
  rw [construct, h]

theorem construct_none (h : mk d.cells = none) : d.construct p mk = (false, d) := by
  rw [construct, h]

/-- The allocator gives a buffer that is not in use, or throws. -/
theorem allocateNode_cases (env : DequeEnv) (d : Deque T) :
    (∃ c d', c ∉ d.live ∧ d.allocateNode env = (some c, d') ∧ d'.start = d.start ∧
      d'.finish = d.finish ∧ ∀ node, d'.setEntry node c = d.withNode node c) ∨
    (d.allocateNode env = (none, { d with calls := d.calls + 1 }) ∧ ¬env.Grants) := by
  unfold allocateNode
  cases hc : env.allocBuffer d.calls d.live with
  | none => exact .inr ⟨rfl, fun hgrants => hgrants.1 _ _ hc⟩
  | some c => exact .inl ⟨c.1, _, c.2, rfl, rfl, rfl, fun _ => rfl⟩

/-- Why a call throws: the constructor does, the allocator does, or there are `max_size()` elements. -/
def Throws (env : DequeEnv) (d : Deque T) (mk : Maker T) (xs : List T) : Prop :=
  mk d.cells = none ∨ ¬env.Grants ∨ xs.length = env.maxSize

theorem pushBackAux_cases (h : d.Holds env s xs) (mk : Maker T)
    (hlast : (s + xs.length) % env.buffer.elems + 1 = env.buffer.elems) :
    (∃ d' s' x, d.pushBackAux env mk = (true, d') ∧ mk d.cells = some x ∧
      d'.Holds env s' (xs ++ [x]) ∧ StayAt env d d' s s' xs.length) ∨
    (∃ d' s', d.pushBackAux env mk = (false, d') ∧ d'.Holds env s' xs ∧ d.Throws env mk xs) := by
  unfold pushBackAux
  rw [h.size_eq]
  by_cases hmax : xs.length = env.maxSize
  · rw [if_pos hmax]
    exact .inr ⟨d, s, rfl, h, .inr (.inr hmax)⟩
  rw [if_neg hmax]
  rcases hres : d.reserveMapAtBack env 1 with ⟨_ | _, d₁⟩
  · obtain ⟨hholds, hrefused⟩ := reserveMapAtBack_false h hres
    exact .inr ⟨d₁, s, rfl, hholds, .inr (.inl hrefused)⟩
  obtain ⟨s', hremap, hroom⟩ := reserveMapAtBack_true h hres
  have hholds := hremap.holds
  dsimp only
  rcases allocateNode_cases env d₁ with ⟨c, d₂, hfresh, hc, -, hfinish, hset⟩ | ⟨hc, hrefused⟩
  · rw [hc]
    dsimp only
    rw [hholds.finish_node] at hroom
    rw [hfinish, hholds.finish_node, hset]
    have hgrown := hholds.growBack hroom hfresh
    have hcells : mk (d₁.withNode ((s' + xs.length) / env.buffer.elems + 1) c).cells = mk d.cells := by
      rw [← hremap.cells]
      rfl
    have hnode : (d₁.withNode ((s' + xs.length) / env.buffer.elems + 1) c).finish.node =
        (s' + xs.length) / env.buffer.elems := hholds.finish_node
    obtain ⟨hdiv, hmod⟩ := place_add_last (b := env.buffer) (p := s' + xs.length) (k := 1)
      (by rw [hremap.mod_add, hlast])
    cases hmk : mk d.cells with
    | none =>
      rw [construct_none (hcells.trans hmk)]
      dsimp only
      rw [hnode]
      exact .inr ⟨_, s', rfl, hgrown.shrinkBack le_rfl, .inl hmk⟩
    | some x =>
      rw [construct_some (hcells.trans hmk)]
      have hstay := hremap.stay.withNode ((s' + xs.length) / env.buffer.elems + 1)
        (fun k hk => by
          have hle : (s' + k) / env.buffer.elems ≤ (s' + xs.length) / env.buffer.elems :=
            Nat.div_le_div_right (by omega)
          omega) c
      refine .inl ⟨_, s', x, rfl, rfl, ?_, hstay⟩
      rw [Holds, List.length_append, List.length_singleton, ← Nat.add_assoc, hdiv]
      exact hgrown.snoc x hdiv.le (by rw [hgrown.finish]; rfl)
        (setNode_first _ _ (by rw [hdiv]; exact congrArg (· + 1) hnode.symm) hmod)
  · rw [hc]
    exact .inr ⟨_, s', rfl, hholds.calls _, .inr (.inl hrefused)⟩

theorem pushBack_cases (h : d.Holds env s xs) (mk : Maker T) :
    (∃ d' s' x, d.pushBack env mk = (true, d') ∧ mk d.cells = some x ∧
      d'.Holds env s' (xs ++ [x]) ∧ StayAt env d d' s s' xs.length) ∨
    (∃ d' s', d.pushBack env mk = (false, d') ∧ d'.Holds env s' xs ∧ d.Throws env mk xs) := by
  have hlt : (s + xs.length) % env.buffer.elems < env.buffer.elems := place_mod_lt
  have hcur : d.finish.cur ≠ d.finish.last.sub 1 ↔
      (s + xs.length) % env.buffer.elems + 1 ≠ env.buffer.elems := by
    rw [h.finish]
    simp only [iterAt, eltAt, EltPtr.sub, ne_eq, EltPtr.mk.injEq, true_and]
    omega
  unfold pushBack
  split
  next hne =>
    obtain ⟨hdiv, hmod⟩ := place_add (b := env.buffer) (p := s + xs.length) (k := 1)
      (by have := hcur.mp hne; omega)
    cases hmk : mk d.cells with
    | none =>
      rw [construct_none hmk]
      exact .inr ⟨d, s, rfl, h, .inl hmk⟩
    | some x =>
      rw [construct_some hmk]
      refine .inl ⟨_, s, x, rfl, rfl, ?_, fun _ _ => rfl⟩
      rw [Holds, List.length_append, List.length_singleton, ← Nat.add_assoc, hdiv]
      refine h.snoc x hdiv.le (by rw [h.finish]; rfl) ?_
      rw [h.finish]
      simp only [iterAt, eltAt, EltPtr.add, hdiv, hmod]
  next heq =>
    exact pushBackAux_cases h mk (by by_contra hlast; exact heq (hcur.mpr hlast))

theorem pushFrontAux_cases (h : d.Holds env s xs) (mk : Maker T)
    (hfirst : s % env.buffer.elems = 0) :
    (∃ d' s' x, d.pushFrontAux env mk = (true, d') ∧ mk d.cells = some x ∧
      d'.Holds env s' (x :: xs) ∧ StayAt env d d' s (s' + 1) xs.length) ∨
    (∃ d' s', d.pushFrontAux env mk = (false, d') ∧ d'.Holds env s' xs ∧ d.Throws env mk xs) := by
  unfold pushFrontAux
  rw [h.size_eq]
  by_cases hmax : xs.length = env.maxSize
  · rw [if_pos hmax]
    exact .inr ⟨d, s, rfl, h, .inr (.inr hmax)⟩
  rw [if_neg hmax]
  rcases hres : d.reserveMapAtFront env 1 with ⟨_ | _, d₁⟩
  · obtain ⟨hholds, hrefused⟩ := reserveMapAtFront_false h hres
    exact .inr ⟨d₁, s, rfl, hholds, .inr (.inl hrefused)⟩
  obtain ⟨s', hremap, hroom⟩ := reserveMapAtFront_true h hres
  have hholds := hremap.holds
  rw [hholds.start_node] at hroom
  -- the place before the first one is the last one of the node before
  have hpos : 0 < s' := by
    by_contra hzero
    rw [show s' = 0 by omega, Nat.zero_div] at hroom
    omega
  obtain ⟨t, rfl⟩ : ∃ t, s' = t + 1 := ⟨s' - 1, by omega⟩
  have hlast : t % env.buffer.elems + 1 = env.buffer.elems := by
    have hlt : t % env.buffer.elems < env.buffer.elems := place_mod_lt
    by_contra hne
    have hmod := (place_add (b := env.buffer) (p := t) (k := 1) (by omega)).2
    rw [hremap.mod_eq, hfirst] at hmod
    omega
  obtain ⟨hdiv, hmod⟩ := place_add_last hlast
  dsimp only
  rcases allocateNode_cases env d₁ with ⟨c, d₂, hfresh, hc, hstart, -, hset⟩ | ⟨hc, hrefused⟩
  · rw [hc]
    dsimp only
    rw [hstart, hholds.start_node, hset, hdiv, Nat.add_sub_cancel]
    have hrep : d₁.Rep env (t / env.buffer.elems + 1)
        ((t + 1 + xs.length) / env.buffer.elems) (t + 1) xs := hdiv ▸ hholds
    have hgrown := hrep.growFront hfresh
    have hcells : mk (d₁.withNode (t / env.buffer.elems) c).cells = mk d.cells := by
      rw [← hremap.cells]
      rfl
    have hstay := hremap.stay.withNode (t / env.buffer.elems) (fun k _ => by
      have hle : (t + 1) / env.buffer.elems ≤ (t + 1 + k) / env.buffer.elems :=
        Nat.div_le_div_right (by omega)
      omega) c
    generalize d₁.withNode (t / env.buffer.elems) c = d₃ at hgrown hcells hstay ⊢
    have hnode : d₃.start.node - 1 = t / env.buffer.elems := by
      rw [hgrown.start, iterAt, hdiv, Nat.add_sub_cancel]
    rw [setNode, hnode, setNode_last d₃.entry d₃.start rfl hlast]
    -- the iterator is set before the element is constructed
    have hcells' : mk (d₃.withStart (iterAt env.buffer d₃.entry t)).cells = mk d.cells := hcells
    cases hmk : mk d.cells with
    | none =>
      rw [construct_none (hcells'.trans hmk)]
      have hnext : (d₃.withStart (iterAt env.buffer d₃.entry t)).next env
          (d₃.withStart (iterAt env.buffer d₃.entry t)).start = d₃.start :=
        next_iterAt.trans hgrown.start.symm
      dsimp only
      rw [hnext]
      refine .inr ⟨d₃.deallocateNode (d₃.entry (d₃.start.node - 1)), t + 1, rfl, ?_, .inl hmk⟩
      rw [hnode, Holds, hdiv]
      exact hgrown.shrinkFront hdiv.ge
    | some x =>
      rw [construct_some (hcells'.trans hmk)]
      refine .inl ⟨_, t, x, rfl, rfl, ?_, hstay⟩
      rw [Holds, List.length_cons, ← Nat.add_assoc, Nat.add_right_comm]
      exact hgrown.cons x le_rfl rfl rfl
  · rw [hc]
    exact .inr ⟨_, t + 1, rfl, hholds.calls _, .inr (.inl hrefused)⟩

theorem pushFront_cases (h : d.Holds env s xs) (mk : Maker T) :
    (∃ d' s' x, d.pushFront env mk = (true, d') ∧ mk d.cells = some x ∧
      d'.Holds env s' (x :: xs) ∧ StayAt env d d' s (s' + 1) xs.length) ∨
    (∃ d' s', d.pushFront env mk = (false, d') ∧ d'.Holds env s' xs ∧ d.Throws env mk xs) := by
  have hcur : d.start.cur ≠ d.start.first ↔ s % env.buffer.elems ≠ 0 := by
    rw [h.start]
    simp only [iterAt, eltAt, ne_eq, EltPtr.mk.injEq, true_and]
  unfold pushFront
  split
  next hne =>
    have hmod := hcur.mp hne
    have hpos : 0 < s := Nat.pos_of_ne_zero fun hzero => hmod (by rw [hzero, Nat.zero_mod])
    obtain ⟨t, rfl⟩ := Nat.exists_eq_add_of_le' hpos
    have hlt : t % env.buffer.elems < env.buffer.elems := place_mod_lt
    have hroom : t % env.buffer.elems + 1 < env.buffer.elems := by
      by_contra hlast
      exact hmod (place_add_last (by omega)).2
    obtain ⟨hdiv', hmod'⟩ := place_add hroom
    have hcur' : d.start.cur.sub 1 = eltAt env.buffer d.entry t := by
      rw [h.start]
      simp only [iterAt, eltAt, EltPtr.sub, Nat.succ_eq_add_one, Nat.zero_add, hdiv', hmod',
        Nat.add_sub_cancel]
    cases hmk : mk d.cells with
    | none =>
      rw [construct_none hmk]
      exact .inr ⟨d, t + 1, rfl, h, .inl hmk⟩
    | some x =>
      rw [construct_some hmk]
      refine .inl ⟨_, t, x, rfl, rfl, ?_, fun _ _ => rfl⟩
      have hrep : d.Rep env (t / env.buffer.elems) ((t + 1 + xs.length) / env.buffer.elems) (t + 1) xs :=
        hdiv' ▸ h
      rw [Holds, List.length_cons, ← Nat.add_assoc, Nat.add_right_comm]
      refine hrep.cons x le_rfl hcur' ?_
      dsimp only
      rw [hcur', h.start]
      simp only [iterAt, Nat.succ_eq_add_one, Nat.zero_add, hdiv']
  next heq =>
    exact pushFrontAux_cases h mk (by by_contra hne; exact heq (hcur.mpr hne))

/-! ## Pop -/

theorem popBack_holds (h : d.Holds env s (xs ++ [x])) : (d.popBack env).Holds env s xs := by
  have hlen : s + (xs ++ [x]).length = s + xs.length + 1 := by
    rw [List.length_append, List.length_singleton, Nat.add_assoc]
  have hfinish : d.finish = iterAt env.buffer d.entry (s + xs.length + 1) := hlen ▸ h.finish
  have hcur : d.finish.cur ≠ d.finish.first ↔ (s + xs.length + 1) % env.buffer.elems ≠ 0 := by
    rw [hfinish]
    simp only [iterAt, eltAt, ne_eq, EltPtr.mk.injEq, true_and]
  have hlt : (s + xs.length) % env.buffer.elems < env.buffer.elems := place_mod_lt
  unfold popBack
  split
  next hne =>
    have hroom : (s + xs.length) % env.buffer.elems + 1 < env.buffer.elems := by
      by_contra hlast
      exact hcur.mp hne (place_add_last (by omega)).2
    obtain ⟨hdiv, hmod⟩ := place_add hroom
    have hit : { d.finish with cur := d.finish.cur.sub 1 } =
        iterAt env.buffer d.entry (s + xs.length) := by
      rw [hfinish]
      simp only [iterAt, eltAt, EltPtr.sub, hdiv, hmod, Nat.add_sub_cancel]
    rw [hit]
    have hrep : d.Rep env (s / env.buffer.elems) ((s + xs.length) / env.buffer.elems) s (xs ++ [x]) := by
      rw [← hdiv, ← hlen]
      exact h
    exact hrep.dropLast rfl rfl
  next heq =>
    have hlast : (s + xs.length) % env.buffer.elems + 1 = env.buffer.elems := by
      by_contra hne
      have hmod := (place_add (b := env.buffer) (p := s + xs.length) (k := 1) (by omega)).2
      exact heq (hcur.mpr (by omega))
    have hdiv := (place_add_last hlast).1
    have hnode : d.finish.node - 1 = (s + xs.length) / env.buffer.elems := by
      rw [hfinish, iterAt, hdiv, Nat.add_sub_cancel]
    have hbuf : d.finish.first.buf = d.entry ((s + xs.length) / env.buffer.elems + 1) := by
      rw [hfinish, iterAt, hdiv]
    have hit := setNode_last d.entry d.finish hnode.symm hlast
    have hrep : d.Rep env (s / env.buffer.elems) ((s + xs.length) / env.buffer.elems + 1) s
        (xs ++ [x]) := by
      rw [← hdiv, ← hlen]
      exact h
    have hdrop := (hrep.dropLast (congrArg DequeIter.cur hit) hit).shrinkBack le_rfl
    rw [← hbuf] at hdrop
    exact hdrop

theorem popFront_holds (h : d.Holds env s (x :: xs)) : (d.popFront env).Holds env (s + 1) xs := by
  have hlen : s + (x :: xs).length = s + 1 + xs.length := by
    rw [List.length_cons]
    omega
  have hlt : s % env.buffer.elems < env.buffer.elems := place_mod_lt
  have hcur : d.start.cur ≠ d.start.last.sub 1 ↔ s % env.buffer.elems + 1 ≠ env.buffer.elems := by
    rw [h.start]
    simp only [iterAt, eltAt, EltPtr.sub, ne_eq, EltPtr.mk.injEq, true_and]
    omega
  have hrep : d.Rep env (s / env.buffer.elems) ((s + 1 + xs.length) / env.buffer.elems) s (x :: xs) := by
    rw [← hlen]
    exact h
  unfold popFront
  split
  next hne =>
    obtain ⟨hdiv, hmod⟩ := place_add (b := env.buffer) (p := s) (k := 1)
      (by have := hcur.mp hne; omega)
    have hit : { d.start with cur := d.start.cur.add 1 } = iterAt env.buffer d.entry (s + 1) := by
      rw [h.start]
      simp only [iterAt, eltAt, EltPtr.add, hdiv, hmod]
    rw [Holds, hdiv]
    exact hrep.tail (congrArg DequeIter.cur h.start) hit
  next heq =>
    have hlast : s % env.buffer.elems + 1 = env.buffer.elems := by
      by_contra hne
      exact heq (hcur.mpr hne)
    obtain ⟨hdiv, hmod⟩ := place_add_last hlast
    have hnode : d.start.node + 1 = s / env.buffer.elems + 1 := by rw [h.start_node]
    have hbuf : d.start.first.buf = d.entry (s / env.buffer.elems) := by
      rw [h.start]
      rfl
    have hit := setNode_first d.entry d.start (hdiv.trans hnode.symm) hmod
    have hcur' : d.start.cur = eltAt env.buffer d.entry s := congrArg DequeIter.cur h.start
    have htail := (hrep.tail hcur' hit).shrinkFront hdiv.ge
    rw [← hbuf, ← hdiv] at htail
    exact htail

end Rtfsc.Stl.Deque
