import Rtfsc.Stl.Deque

/-!
# The map of a deque

`_M_reallocate_map` moves the entries of the nodes within the map or to a larger one. After that the same
buffers are in the same order at other nodes (`Remapped`), and there is room on the side asked for.
-/

namespace Rtfsc.Stl

open Rtfsc.Machine

variable {T : Type}

/-! ## The same place of another node -/

section Shift

variable {b : BufferSize} {p q lo lo' hi hi' : Nat}

theorem place_shift (lo' : Nat) (hlo : lo ≤ p / b.elems) :
    (lo' * b.elems + (p - lo * b.elems)) / b.elems = lo' + (p / b.elems - lo) ∧
      (lo' * b.elems + (p - lo * b.elems)) % b.elems = p % b.elems := by
  have hp : p - lo * b.elems = (p / b.elems - lo) * b.elems + p % b.elems := by
    have hplace : p / b.elems * b.elems + p % b.elems = p := place_eq
    have hle : lo * b.elems ≤ p / b.elems * b.elems := Nat.mul_le_mul_right _ hlo
    rw [Nat.sub_mul]
    omega
  rw [hp, ← Nat.add_assoc, ← Nat.add_mul]
  exact ⟨place_div place_mod_lt, place_mod place_mod_lt⟩

/-- How many nodes further on a place is. -/
theorem place_add_div {k : Nat} : (p + k) / b.elems = p / b.elems + (p % b.elems + k) / b.elems := by
  calc (p + k) / b.elems
    _ = (p % b.elems + k + p / b.elems * b.elems) / b.elems := by
      congr 1
      have hp : p / b.elems * b.elems + p % b.elems = p := place_eq
      omega
    _ = p / b.elems + (p % b.elems + k) / b.elems := by
      rw [Nat.add_mul_div_right _ _ b.pos, Nat.add_comm]

theorem le_of_le_div (hlo : lo ≤ p / b.elems) : lo * b.elems ≤ p :=
  (Nat.le_div_iff_mul_le b.pos).mp hlo

theorem bijOn_shift (hlen : hi' + lo = hi + lo') :
    Set.BijOn (fun p => lo * b.elems + (p - lo' * b.elems)) (Deque.nodePlaces b lo' hi')
      (Deque.nodePlaces b lo hi) := by
  refine ⟨fun p hp => ?_, fun p hp q hq heq => ?_, fun p hp => ?_⟩
  · have hlo := hp.1
    have hhi := hp.2
    refine ⟨?_, ?_⟩
    · rw [(place_shift _ hlo).1]
      exact Nat.le_add_right _ _
    · rw [(place_shift _ hlo).1]
      omega
  · have hple := le_of_le_div hp.1
    have hqle := le_of_le_div hq.1
    dsimp only at heq
    omega
  · have hlo := hp.1
    have hhi := hp.2
    have hple := le_of_le_div hp.1
    refine ⟨lo' * b.elems + (p - lo * b.elems), ⟨?_, ?_⟩, ?_⟩
    · rw [(place_shift _ hlo).1]
      exact Nat.le_add_right _ _
    · rw [(place_shift _ hlo).1]
      omega
    · dsimp only
      omega

/-- An iterator is put to the node that has its buffer now. -/
theorem setNode_iterAt (entry entry' : Nat → Nat) {j : Nat} (hmod : q % b.elems = p % b.elems)
    (hj : q / b.elems = j) (hentry : entry' j = entry (p / b.elems)) :
    (iterAt b entry p).setNode b entry' j = iterAt b entry' q := by
  subst hj
  simp only [DequeIter.setNode, iterAt, eltAt, EltPtr.add, hmod, hentry, Nat.zero_add]

/-- The first place of a node. -/
theorem setNode_first (entry : Nat → Nat) (it : DequeIter) {j : Nat} (hj : q / b.elems = j)
    (hmod : q % b.elems = 0) :
    { it.setNode b entry j with cur := (it.setNode b entry j).first } = iterAt b entry q := by
  subst hj
  simp only [DequeIter.setNode, iterAt, eltAt, EltPtr.add, hmod, Nat.zero_add]

/-- The last place of a node. -/
theorem setNode_last (entry : Nat → Nat) (it : DequeIter) {j : Nat} (hj : q / b.elems = j)
    (hmod : q % b.elems + 1 = b.elems) :
    { it.setNode b entry j with cur := (it.setNode b entry j).last.sub 1 } = iterAt b entry q := by
  subst hj
  have hoff : q % b.elems = b.elems - 1 := by omega
  simp only [DequeIter.setNode, iterAt, eltAt, EltPtr.add, EltPtr.sub, hoff, Nat.zero_add]

end Shift

/-- The allocator does not throw. -/
def DequeEnv.Grants (env : DequeEnv) : Prop :=
  (∀ n live, env.allocBuffer n live ≠ none) ∧ ∀ n size, env.allocMap n size = true

namespace Deque

variable {env : DequeEnv} {d d' : Deque T} {lo hi lo' hi' s s' n : Nat} {xs : List T}
  {front : Bool}

/-- The entries of the nodes are elsewhere. -/
theorem Rep.renumber (h : d.Rep env lo hi s xs) (hlen : hi' + lo = hi + lo')
    (hs : s' = lo' * env.buffer.elems + (s - lo * env.buffer.elems)) (hlt : hi' < d'.mapSize)
    (hentry : ∀ j, lo' ≤ j → j ≤ hi' → d'.entry j = d.entry (lo + (j - lo')))
    (hlive : d'.live = d.live) (hcells : d'.cells = d.cells)
    (hstart : d'.start = iterAt env.buffer d'.entry s')
    (hfinish : d'.finish = iterAt env.buffer d'.entry (s' + xs.length)) :
    d'.Rep env lo' hi' s' xs := by
  have hsle := le_of_le_div h.lo_le
  have hend : s' + xs.length =
      lo' * env.buffer.elems + (s + xs.length - lo * env.buffer.elems) := by omega
  have hlo_end : lo ≤ (s + xs.length) / env.buffer.elems :=
    h.lo_le.trans (Nat.div_le_div_right (Nat.le_add_right _ _))
  have hle_hi := h.le_hi
  have howns : Owns d'.entry d'.live lo' hi' := hlive ▸ h.held.owns.move hlen hentry
  have hlaid : LaidOut (eltAt env.buffer d'.entry) (nodePlaces env.buffer lo' hi') d'.cells
      (laidFrom s' xs) := by
    rw [hcells]
    refine h.held.laid.place (bijOn_shift hlen) (fun p hp => ?_) (fun p hp => ?_) fun p hp => ?_
    · have hlo := hp.1
      rw [eltAt, eltAt, (place_shift _ hlo).1, (place_shift _ hlo).2, hentry _ hlo hp.2]
    · have hple := le_of_le_div hp.1
      unfold laidFrom
      by_cases hin : s' ≤ p
      · rw [if_pos hin, if_pos (by omega)]
        congr 1
        omega
      · rw [if_neg hin, if_neg (by omega)]
    · refine laidFrom_eq_none ?_
      by_contra hin
      refine hp ⟨?_, ?_⟩
      · have hs' : lo' ≤ s' / env.buffer.elems := by
          rw [hs, (place_shift _ h.lo_le).1]
          exact Nat.le_add_right _ _
        exact hs'.trans (Nat.div_le_div_right (by omega))
      · have hs' : (s' + xs.length) / env.buffer.elems ≤ hi' := by
          rw [hend, (place_shift _ hlo_end).1]
          omega
        exact (Nat.div_le_div_right (by omega)).trans hs'
  refine ⟨⟨hlt, howns, hlaid⟩, ?_, ?_, hstart, hfinish⟩
  · rw [hs, (place_shift _ h.lo_le).1]
    exact Nat.le_add_right _ _
  · rw [hend, (place_shift _ hlo_end).1]
    omega

/-- The deque is the same but for where its nodes are in the map. -/
structure Remapped (env : DequeEnv) (d d' : Deque T) (s s' : Nat) (xs : List T) : Prop where
  holds : d'.Holds env s' xs
  mod_eq : s' % env.buffer.elems = s % env.buffer.elems
  nodes : (s' + xs.length) / env.buffer.elems + s / env.buffer.elems =
    (s + xs.length) / env.buffer.elems + s' / env.buffer.elems
  entry : ∀ i, s / env.buffer.elems + i ≤ (s + xs.length) / env.buffer.elems →
    d'.entry (s' / env.buffer.elems + i) = d.entry (s / env.buffer.elems + i)
  live : d'.live = d.live
  cells : d'.cells = d.cells

theorem Remapped.refl (h : d.Holds env s xs) : Remapped env d d s s xs :=
  ⟨h, rfl, rfl, fun _ _ => rfl, rfl, rfl⟩

/-- The elements are where they were: pointers to them stay valid. -/
def StayAt (env : DequeEnv) (d d' : Deque T) (s s' n : Nat) : Prop :=
  ∀ k < n, eltAt env.buffer d'.entry (s' + k) = eltAt env.buffer d.entry (s + k)

theorem Remapped.stay (h : Remapped env d d' s s' xs) : StayAt env d d' s s' xs.length := by
  intro k hk
  have hentry := h.entry ((s % env.buffer.elems + k) / env.buffer.elems)
    (place_add_div (b := env.buffer) (p := s) ▸ Nat.div_le_div_right (Nat.add_le_add_left hk.le s))
  have hoff : (s' + k) % env.buffer.elems = (s + k) % env.buffer.elems := by
    rw [Nat.add_mod, h.mod_eq, ← Nat.add_mod]
  have hnode : d'.entry ((s' + k) / env.buffer.elems) = d.entry ((s + k) / env.buffer.elems) := by
    rw [place_add_div (p := s'), h.mod_eq, hentry, ← place_add_div]
  rw [eltAt, eltAt, hoff, hnode]

/-- A node that has none of the elements gets a buffer. -/
theorem StayAt.withNode (h : StayAt env d d' s s' n) (node : Nat)
    (hnode : ∀ k < n, (s' + k) / env.buffer.elems ≠ node) (c : Nat) :
    StayAt env d (d'.withNode node c) s s' n := by
  intro k hk
  exact (eltAt_congr (Function.update_of_ne (hnode k hk) _ _)).trans (h k hk)

theorem Holds.start_node (h : d.Holds env s xs) : d.start.node = s / env.buffer.elems := by
  rw [h.start]
  rfl

theorem Holds.finish_node (h : d.Holds env s xs) :
    d.finish.node = (s + xs.length) / env.buffer.elems := by
  rw [h.finish]
  rfl

theorem Holds.node_le (_h : d.Holds env s xs) :
    s / env.buffer.elems ≤ (s + xs.length) / env.buffer.elems :=
  Nat.div_le_div_right (Nat.le_add_right _ _)

/-- The nodes go to where `newNstart` is the first one. -/
theorem Holds.remap (h : d.Holds env s xs) {newNstart : Nat} {entry' : Nat → Nat} {mapSize' calls' : Nat}
    (hlt : newNstart + (d.finish.node - d.start.node + 1) ≤ mapSize')
    (hentry : ∀ i, i < d.finish.node - d.start.node + 1 →
      entry' (newNstart + i) = d.entry (d.start.node + i)) :
    Remapped env d
      ({ d with entry := entry', mapSize := mapSize', calls := calls' }.setNodes env newNstart
        (d.finish.node - d.start.node + 1))
      s (newNstart * env.buffer.elems + (s - s / env.buffer.elems * env.buffer.elems)) xs := by
  have hle := h.node_le
  rw [h.start_node, h.finish_node] at hlt hentry ⊢
  obtain ⟨hdiv, hmod⟩ := place_shift newNstart (le_refl (s / env.buffer.elems))
  obtain ⟨hdiv', hmod'⟩ := place_shift newNstart hle
  rw [Nat.sub_self, Nat.add_zero] at hdiv
  have hsle : s / env.buffer.elems * env.buffer.elems ≤ s := le_of_le_div le_rfl
  have hend : newNstart * env.buffer.elems + (s - s / env.buffer.elems * env.buffer.elems) +
      xs.length = newNstart * env.buffer.elems +
        (s + xs.length - s / env.buffer.elems * env.buffer.elems) := by omega
  have hstart : d.start.setNode env.buffer entry' newNstart = iterAt env.buffer entry'
      (newNstart * env.buffer.elems + (s - s / env.buffer.elems * env.buffer.elems)) := by
    rw [h.start]
    exact setNode_iterAt d.entry entry' hmod hdiv (hentry 0 (Nat.succ_pos _))
  have hfinish : d.finish.setNode env.buffer entry'
      (newNstart + ((s + xs.length) / env.buffer.elems - s / env.buffer.elems + 1) - 1) =
      iterAt env.buffer entry' (newNstart * env.buffer.elems +
        (s - s / env.buffer.elems * env.buffer.elems) + xs.length) := by
    rw [h.finish, hend, ← Nat.add_assoc, Nat.add_sub_cancel]
    refine setNode_iterAt d.entry entry' hmod' hdiv' ?_
    rw [hentry _ (by omega), Nat.add_sub_cancel' hle]
  refine ⟨?_, hmod, ?_, fun i hi => ?_, rfl, rfl⟩
  · unfold Holds
    rw [hend, hdiv, hdiv']
    refine h.renumber (by omega) rfl ?_ (fun j hlo hhi => ?_) rfl rfl hstart hfinish
    · dsimp only [setNodes, withStart, withFinish]
      omega
    · have hnew := hentry (j - newNstart) (by omega)
      rwa [Nat.add_sub_cancel' hlo] at hnew
  · rw [hend, hdiv, hdiv']
    omega
  · rw [hdiv]
    exact hentry i (by omega)

/-! ## `_M_reallocate_map` -/

/-- In the same map the entries are copied from the end that is not overwritten. -/
theorem moved_entries {entry : Nat → Nat} {i j : Nat} :
    Moved (i + ·) (j + ·) n entry
      (if j < i then moveForward (i + ·) (j + ·) entry n else moveBackward (i + ·) (j + ·) entry n) := by
  rcases Nat.lt_trichotomy j i with hlt | rfl | hlt
  · rw [if_pos hlt]
    exact moveForward_moved entry ⟨fun _ _ _ _ => by omega, fun _ _ _ _ => by omega⟩
  · rw [if_neg (Nat.lt_irrefl j), moveBackward_self]
    exact .self
  · rw [if_neg (by omega)]
    exact moveBackward_moved entry ⟨fun _ _ _ _ => by omega, fun _ _ _ _ => by omega⟩

/-- How often the allocator was called makes no difference. -/
theorem Holds.calls (h : d.Holds env s xs) (k : Nat) : Holds env { d with calls := k } s xs :=
  ⟨⟨h.held.hi_lt, h.held.owns, h.held.laid⟩, h.lo_le, h.le_hi, h.start, h.finish⟩

/-- The buffers are as before and in the same order, and there is room on the side asked for. -/
theorem reallocateMap_true (h : d.Holds env s xs) (hr : d.reallocateMap env n front = (true, d')) :
    ∃ s', Remapped env d d' s s' xs ∧ (front = true → n ≤ d'.start.node) ∧
      (front = false → d'.finish.node + n < d'.mapSize) := by
  have hlt : d.finish.node < d.mapSize := h.finish_node ▸ h.held.hi_lt
  have hle : d.start.node ≤ d.finish.node := by
    rw [h.start_node, h.finish_node]
    exact h.node_le
  obtain ⟨add, hadd⟩ : ∃ add, (if front then n else 0) = add := ⟨_, rfl⟩
  have hfront : (front = true → add = n) ∧ (front = false → add = 0) := by
    rw [← hadd]
    cases front <;> simp
  have haddle : add ≤ n := by
    rw [← hadd]
    split <;> omega
  unfold reallocateMap at hr
  simp only [hadd] at hr
  split at hr
  next hlarge =>
    obtain ⟨-, rfl⟩ := Prod.mk.inj hr
    refine ⟨_, h.remap (by omega) fun i hi => moved_entries.moved i hi, fun hf => ?_, fun hf => ?_⟩
    · have := hfront.1 hf
      dsimp only [setNodes, withStart, withFinish, setNode, DequeIter.setNode]
      omega
    · have := hfront.2 hf
      dsimp only [setNodes, withStart, withFinish, setNode, DequeIter.setNode]
      omega
  next hsmall =>
    split at hr
    · obtain ⟨-, rfl⟩ := Prod.mk.inj hr
      refine ⟨_, h.remap (by omega) fun i hi => ?_, fun hf => ?_, fun hf => ?_⟩
      · rw [if_pos (by omega), Nat.add_sub_cancel_left]
      · have := hfront.1 hf
        dsimp only [setNodes, withStart, withFinish, setNode, DequeIter.setNode]
        omega
      · have := hfront.2 hf
        dsimp only [setNodes, withStart, withFinish, setNode, DequeIter.setNode]
        omega
    · cases hr

theorem reallocateMap_false (h : d.Holds env s xs)
    (hr : d.reallocateMap env n front = (false, d')) : d'.Holds env s xs ∧ ¬env.Grants := by
  unfold reallocateMap at hr
  dsimp only at hr
  split at hr
  · cases hr
  · split at hr
    · cases hr
    next hrefused =>
      obtain ⟨-, rfl⟩ := Prod.mk.inj hr
      exact ⟨h.calls _, fun hgrants => hrefused (hgrants.2 _ _)⟩

theorem reserveMapAtBack_true (h : d.Holds env s xs) (hr : d.reserveMapAtBack env n = (true, d')) :
    ∃ s', Remapped env d d' s s' xs ∧ d'.finish.node + n < d'.mapSize := by
  unfold reserveMapAtBack at hr
  split at hr
  · obtain ⟨s', hremap, -, hroom⟩ := reallocateMap_true h hr
    exact ⟨s', hremap, hroom rfl⟩
  · obtain ⟨-, rfl⟩ := Prod.mk.inj hr
    exact ⟨s, .refl h, by omega⟩

theorem reserveMapAtBack_false (h : d.Holds env s xs) (hr : d.reserveMapAtBack env n = (false, d')) :
    d'.Holds env s xs ∧ ¬env.Grants := by
  unfold reserveMapAtBack at hr
  split at hr
  · exact reallocateMap_false h hr
  · cases hr

theorem reserveMapAtFront_true (h : d.Holds env s xs) (hr : d.reserveMapAtFront env n = (true, d')) :
    ∃ s', Remapped env d d' s s' xs ∧ n ≤ d'.start.node := by
  unfold reserveMapAtFront at hr
  split at hr
  · obtain ⟨s', hremap, hroom, -⟩ := reallocateMap_true h hr
    exact ⟨s', hremap, hroom rfl⟩
  · obtain ⟨-, rfl⟩ := Prod.mk.inj hr
    exact ⟨s, .refl h, by omega⟩

theorem reserveMapAtFront_false (h : d.Holds env s xs)
    (hr : d.reserveMapAtFront env n = (false, d')) : d'.Holds env s xs ∧ ¬env.Grants := by
  unfold reserveMapAtFront at hr
  split at hr
  · exact reallocateMap_false h hr
  · cases hr

end Deque

end Rtfsc.Stl
