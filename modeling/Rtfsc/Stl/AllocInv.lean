import Rtfsc.Stl.Alloc

/-!
# The pieces of the chunks

Every byte of a chunk belongs to one piece: a live block, a node of a free list or the pool. One lemma
for each thing that happens to a piece: it is pushed on a list, popped from one, cut from the pool or
becomes the pool.
-/

namespace Rtfsc.Stl

open Rtfsc.Machine

/-- The list threaded through memory from `a`, up to a null link. -/
def Chain (m : Memory) : Nat → List Nat → Prop
  | a, [] => a = 0
  | a, p :: l => a = p ∧ p ≠ 0 ∧ Chain m (m.load p 8) l

/-- The nodes of the free lists; a node of list `i` has `(i + 1) * 8` bytes. -/
def nodeExtents (nodes : Nat → List Nat) : List Extent :=
  (List.range nFreeLists).flatMap fun i => (nodes i).map fun p => ⟨p, align * (i + 1)⟩

/-- The pool. -/
def AllocState.pool (s : AllocState) : Extent := ⟨s.startFree, s.endFree - s.startFree⟩

/-- Blocks that are in use, the nodes and the pool. -/
def pieces (s : AllocState) (live : List Extent) (nodes : Nat → List Nat) : List Extent :=
  live ++ (nodeExtents nodes ++ [s.pool])

/-- The lists are threaded through their nodes, the pieces tile the chunks and each lies in one of
them, and the chunks are apart from each other and from what else `malloc` has given. -/
structure Holds (s : AllocState) (live others : List Extent) (nodes : Nat → List Nat) : Prop where
  chain : ∀ i, Chain s.mem (s.freeList i) (nodes i)
  only : ∀ i, nFreeLists ≤ i → nodes i = []
  pool_le : s.startFree ≤ s.endFree
  end_lt : s.endFree < 2 ^ 64
  pool_dvd : align ∣ s.endFree - s.startFree
  tiles : ∀ b, hits (pieces s live nodes) b = hits s.chunks b
  inside : ∀ e ∈ pieces s live nodes, 0 < e.len → ∃ c ∈ s.chunks, e.Inside c
  chunk : ∀ c ∈ s.chunks, 0 < c.addr ∧ c.addr + c.len < 2 ^ 64
  apart : (s.chunks ++ others).Pairwise Extent.Apart
  heap : s.heapSize = (s.chunks.map Extent.len).sum

variable {s : AllocState} {live live' others others' : List Extent} {nodes : Nat → List Nat}
variable {m m' : Memory} {e : Extent} {a i j k n p q size : Nat} {l : List Nat}

/-! ## Sizes -/

theorem roundUp_eq (h : n + 7 < 2 ^ 64) : roundUp n = (n + 7) / 8 * 8 := by
  unfold roundUp align
  rw [Nat.mod_eq_of_lt h]

theorem dvd_roundUp (n : Nat) : align ∣ roundUp n := Nat.dvd_mul_left ..

/-- A size of a small block: its list, and what a node of that list has. -/
theorem freelistIndex_small (hpos : 0 < n) (h : n ≤ maxBytes) :
    freelistIndex n < nFreeLists ∧ align * (freelistIndex n + 1) = roundUp n := by
  unfold maxBytes at h
  rw [roundUp_eq (by omega)]
  unfold freelistIndex nFreeLists align
  omega

theorem le_roundUp (h : n ≤ maxBytes) : n ≤ roundUp n ∧ roundUp n ≤ maxBytes := by
  unfold maxBytes at *
  rw [roundUp_eq (by omega)]
  omega

theorem roundUp_of_dvd (hdvd : align ∣ n) (h : n ≤ maxBytes) : roundUp n = n := by
  unfold maxBytes at h
  rw [roundUp_eq (by omega)]
  unfold align at hdvd
  omega

theorem freelistIndex_roundUp (hpos : 0 < n) (h : n ≤ maxBytes) :
    freelistIndex (roundUp n) = freelistIndex n := by
  obtain ⟨-, hindex⟩ := freelistIndex_small hpos h
  obtain ⟨hle, hmax⟩ := le_roundUp h
  obtain ⟨-, hindex'⟩ := freelistIndex_small (Nat.lt_of_lt_of_le hpos hle) hmax
  rw [roundUp_of_dvd (dvd_roundUp n) hmax] at hindex'
  unfold align at hindex hindex'
  omega

/-! ## Chains -/

/-- A link that is stored in a node can be loaded again. -/
theorem load_link (h : a < 2 ^ 64) : (m.store p a 8).load p 8 = a :=
  Memory.load_store (Nat.lt_of_lt_of_eq h (by decide))

theorem Chain.congr (h : Chain m a l) (hload : ∀ p ∈ l, m'.load p 8 = m.load p 8) :
    Chain m' a l := by
  induction l generalizing a with
  | nil => exact h
  | cons p l ih =>
    obtain ⟨ha, hp, hrest⟩ := h
    refine ⟨ha, hp, ?_⟩
    rw [hload p List.mem_cons_self]
    exact ih hrest fun q hq => hload q (List.mem_cons_of_mem p hq)

theorem Chain.eq_nil (h : Chain m 0 l) : l = [] := by
  cases l with
  | nil => rfl
  | cons p l => exact absurd h.1.symm h.2.1

theorem Chain.eq_cons (h : Chain m a l) (ha : a ≠ 0) :
    ∃ l', l = a :: l' ∧ Chain m (m.load a 8) l' := by
  cases l with
  | nil => exact absurd h ha
  | cons p l =>
    obtain ⟨rfl, -, hrest⟩ := h
    exact ⟨l, rfl, hrest⟩

theorem linkNodes_outside {b : Nat} (hsize : 8 ≤ size) (h : b < p ∨ p + size * (n + 1) ≤ b) :
    linkNodes m p size n b = m b := by
  induction n generalizing m p with
  | zero =>
    refine Memory.store_outside (h.imp_right fun hb => ?_)
    rw [Nat.zero_add, Nat.mul_one] at hb
    exact Nat.le_trans (Nat.add_le_add_left hsize p) hb
  | succ n ih =>
    rw [Nat.mul_succ size (n + 1)] at h
    have hge : size ≤ size * (n + 1) := Nat.le_mul_of_pos_right size (Nat.succ_pos n)
    rw [linkNodes, ih (by omega), Memory.store_outside (by omega)]

/-- `_S_refill` threads a list through the nodes. -/
theorem chain_linkNodes (hsize : 8 ≤ size) (hp : 0 < p) (hend : p + size * (n + 1) < 2 ^ 64) :
    Chain (linkNodes m p size n) p ((cells p size (n + 1)).map Extent.addr) := by
  induction n generalizing m p with
  | zero => exact ⟨rfl, Nat.ne_of_gt hp, load_link (by decide)⟩
  | succ n ih =>
    rw [Nat.mul_succ size (n + 1)] at hend
    refine ⟨rfl, Nat.ne_of_gt hp, ?_⟩
    have hlink : (linkNodes m p size (n + 1)).load p 8 = p + size := by
      rw [linkNodes]
      have hstored : (m.store p (p + size) 8).load p 8 = p + size := load_link (by omega)
      exact (Memory.load_congr fun b _ hlt => linkNodes_outside hsize (.inl (by omega))).trans
        hstored
    rw [hlink]
    exact ih (by omega) (by omega)

/-! ## Nodes and pieces -/

theorem mem_nodeExtents :
    e ∈ nodeExtents nodes ↔ ∃ i < nFreeLists, ∃ p ∈ nodes i, ⟨p, align * (i + 1)⟩ = e := by
  simp [nodeExtents, List.mem_flatMap]

/-- Nodes that join a free list join the nodes. -/
theorem nodeExtents_update (nodes : Nat → List Nat) (hi : i < nFreeLists) (l : List Nat) :
    (nodeExtents (Function.update nodes i (l ++ nodes i))).Perm
      (l.map (⟨·, align * (i + 1)⟩) ++ nodeExtents nodes) := by
  obtain ⟨before, behind, hsplit⟩ := List.append_of_mem (List.mem_range.mpr hi)
  have hnodup := hsplit ▸ List.nodup_range (n := nFreeLists)
  rw [List.nodup_middle, List.nodup_cons, List.mem_append, not_or] at hnodup
  have hothers : ∀ js : List Nat, i ∉ js →
      (js.flatMap fun j => (Function.update nodes i (l ++ nodes i) j).map
        fun p => (⟨p, align * (j + 1)⟩ : Extent)) =
      js.flatMap fun j => (nodes j).map fun p => ⟨p, align * (j + 1)⟩ := by
    intro js hjs
    refine List.flatMap_congr fun j hj => ?_
    rw [Function.update_of_ne]
    rintro rfl
    exact hjs hj
  unfold nodeExtents
  rw [hsplit, List.flatMap_append, List.flatMap_append, List.flatMap_cons, List.flatMap_cons,
    hothers _ hnodup.1.1, hothers _ hnodup.1.2, Function.update_self, List.map_append,
    List.append_assoc]
  refine List.Perm.trans (List.perm_append_comm_assoc ..) ?_
  exact List.Perm.refl _

theorem mem_pieces_node (hi : i < nFreeLists) (hp : p ∈ nodes i) :
    ⟨p, align * (i + 1)⟩ ∈ pieces s live nodes :=
  List.mem_append_right _ (List.mem_append_left _ (mem_nodeExtents.mpr ⟨i, hi, p, hp, rfl⟩))

namespace Holds

theorem lt_of_mem (h : Holds s live others nodes) (hp : p ∈ nodes i) : i < nFreeLists := by
  refine Nat.lt_of_not_le fun hle => ?_
  rw [h.only i hle] at hp
  cases hp

theorem separate (h : Holds s live others nodes) :
    (pieces s live nodes).Pairwise Extent.Apart :=
  (pairwise_apart_congr h.tiles).mpr (List.pairwise_append.mp h.apart).1

theorem bounds (h : Holds s live others nodes) (he : e ∈ pieces s live nodes) (hlen : 0 < e.len) :
    0 < e.addr ∧ e.addr + e.len < 2 ^ 64 := by
  obtain ⟨c, hc, hin⟩ := h.inside e he hlen
  obtain ⟨hlo, hhi⟩ := h.chunk c hc
  exact ⟨Nat.lt_of_lt_of_le hlo hin.1, Nat.lt_of_le_of_lt hin.2 hhi⟩

theorem node_bounds (h : Holds s live others nodes) (hp : p ∈ nodes i) :
    0 < p ∧ p + align * (i + 1) < 2 ^ 64 :=
  h.bounds (mem_pieces_node (h.lt_of_mem hp) hp) (Nat.mul_pos (by decide) (Nat.succ_pos i))

theorem head_lt (h : Holds s live others nodes) (i : Nat) : s.freeList i < 2 ^ 64 := by
  by_cases hzero : s.freeList i = 0
  · rw [hzero]
    decide
  · obtain ⟨l, hl, -⟩ := (h.chain i).eq_cons hzero
    have hp : s.freeList i ∈ nodes i := hl ▸ List.mem_cons_self
    exact Nat.lt_of_le_of_lt (Nat.le_add_right ..) (h.node_bounds hp).2

theorem bytesLeft_eq (h : Holds s live others nodes) : s.bytesLeft = s.endFree - s.startFree := by
  have hle := h.pool_le
  have hlt := h.end_lt
  unfold AllocState.bytesLeft
  omega

theorem heap_lt (h : Holds s live others nodes) : s.heapSize < 2 ^ 64 := by
  have hsum := sum_len_le 1 (2 ^ 64) (fun c hc => ⟨(h.chunk c hc).1,
    Nat.le_of_lt (h.chunk c hc).2⟩) (List.pairwise_append.mp h.apart).1
  rw [h.heap]
  omega

/-- What is asked of `malloc` is a multiple of 8 and more than what the call needs. -/
theorem bytesToGet_spec (h : Holds s live others nodes) (hn : n < 2 ^ 61) :
    2 * n ≤ s.bytesToGet n ∧ (align ∣ n → align ∣ s.bytesToGet n) := by
  have hheap := h.heap_lt
  have hround := roundUp_eq (n := s.heapSize >>> 4) (by rw [Nat.shiftRight_eq_div_pow]; omega)
  have hlt : 2 * n + roundUp (s.heapSize >>> 4) < 2 ^ 64 := by
    rw [hround, Nat.shiftRight_eq_div_pow]
    omega
  unfold AllocState.bytesToGet
  rw [Nat.mod_eq_of_lt hlt]
  exact ⟨Nat.le_add_right .., fun hdvd => Nat.dvd_add (Nat.dvd_mul_left_of_dvd hdvd 2) (dvd_roundUp _)⟩

/-! ## What happens to a piece -/

/-- The same pieces in another order. -/
theorem permute (h : Holds s live others nodes) (hlive : live.Perm live')
    (hothers : others.Perm others') : Holds s live' others' nodes := by
  have hpieces : (pieces s live nodes).Perm (pieces s live' nodes) := hlive.append_right _
  exact { h with
    tiles := fun b => (hits_perm hpieces b).symm.trans (h.tiles b)
    inside := fun e he => h.inside e (hpieces.mem_iff.mpr he)
    apart := (hothers.append_left _).pairwise h.apart fun hef => hef.symm }

/-- Bytes of blocks that are in use are written. -/
theorem setMem (h : Holds s live others nodes) (m : Memory)
    (hm : ∀ b, m b ≠ s.mem b → ∃ e ∈ live ++ others, e.Has b) :
    Holds { s with mem := m } live others nodes := by
  refine { h with chain := fun i => (h.chain i).congr fun p hp => ?_ }
  have hi := h.lt_of_mem hp
  refine Memory.load_congr fun b hle hlt => ?_
  have hb : (Extent.mk p (align * (i + 1))).Has b := ⟨hle, by show b < p + 8 * (i + 1); omega⟩
  by_contra hne
  obtain ⟨e, he, heb⟩ := hm b hne
  rcases List.mem_append.mp he with he | he
  · refine (List.pairwise_append.mp h.separate).2.2 e he _ ?_ b heb hb
    exact List.mem_append_left _ (mem_nodeExtents.mpr ⟨i, hi, p, hp, rfl⟩)
  · obtain ⟨c, hc, hin⟩ := h.inside _ (mem_pieces_node hi hp)
      (Nat.mul_pos (by decide) (Nat.succ_pos i))
    exact (List.pairwise_append.mp h.apart).2.2 c hc e he b (hin.has hb) heb

/-- Links are written in blocks that are taken out of use; the nodes keep theirs. -/
theorem load_outside (used : List Extent) (h : Holds s (used ++ live) others nodes)
    (hm : ∀ b, (∀ e ∈ used, ¬e.Has b) → m b = s.mem b) (hp : p ∈ nodes i) :
    m.load p 8 = s.mem.load p 8 := by
  refine Memory.load_congr fun b hle hlt => hm b fun e he heb => ?_
  have hnode : ⟨p, align * (i + 1)⟩ ∈ nodeExtents nodes ++ [s.pool] :=
    List.mem_append_left _ (mem_nodeExtents.mpr ⟨i, h.lt_of_mem hp, p, hp, rfl⟩)
  exact (List.pairwise_append.mp h.separate).2.2 e (List.mem_append_left _ he) _ hnode b heb
    ⟨hle, by show b < p + 8 * (i + 1); omega⟩

/-- A block of a list's size is pushed on it. -/
theorem push (h : Holds s (⟨p, align * (i + 1)⟩ :: live) others nodes) (hi : i < nFreeLists) :
    Holds (s.push i p) live others (Function.update nodes i (p :: nodes i)) := by
  have hperm : (pieces (s.push i p) live (Function.update nodes i (p :: nodes i))).Perm
      (pieces s (⟨p, align * (i + 1)⟩ :: live) nodes) := by
    refine (((nodeExtents_update nodes hi [p]).append_right [s.pool]).append_left live).trans ?_
    exact List.perm_middle
  have hlen : 0 < align * (i + 1) := Nat.mul_pos (by decide) (Nat.succ_pos i)
  obtain ⟨hpos, hend⟩ := h.bounds (e := ⟨p, align * (i + 1)⟩) List.mem_cons_self hlen
  have hload {j q : Nat} (hq : q ∈ nodes j) :
      (s.mem.store p (s.freeList i) 8).load q 8 = s.mem.load q 8 := by
    refine load_outside [⟨p, align * (i + 1)⟩] h (fun b hb => ?_) hq
    refine Memory.store_outside ?_
    by_contra hin
    exact hb _ List.mem_cons_self
      ⟨show p ≤ b by omega, show b < p + 8 * (i + 1) by omega⟩
  exact { h with
    chain := fun j => by
      show Chain _ (Function.update s.freeList i p j) (Function.update nodes i (p :: nodes i) j)
      by_cases hj : j = i
      · subst hj
        rw [Function.update_self, Function.update_self]
        refine ⟨rfl, Nat.ne_of_gt hpos, ?_⟩
        show Chain (s.mem.store p (s.freeList j) 8) ((s.mem.store p (s.freeList j) 8).load p 8) _
        rw [load_link (h.head_lt j)]
        exact (h.chain j).congr fun q hq => hload hq
      · rw [Function.update_of_ne hj, Function.update_of_ne hj]
        exact (h.chain j).congr fun q hq => hload hq
    only := fun j hj => by
      rw [Function.update_of_ne (Nat.ne_of_gt (Nat.lt_of_lt_of_le hi hj))]
      exact h.only j hj
    tiles := fun b => (hits_perm hperm b).trans (h.tiles b)
    inside := fun e he => h.inside e (hperm.mem_iff.mp he) }

/-- The first node of a list is a block. -/
theorem pop (h : Holds s live others nodes) (hne : s.freeList i ≠ 0) :
    i < nFreeLists ∧ Holds (s.pop i) (⟨s.freeList i, align * (i + 1)⟩ :: live) others
      (Function.update nodes i (nodes i).tail) := by
  obtain ⟨l, hl, hrest⟩ := (h.chain i).eq_cons hne
  have hi : i < nFreeLists := h.lt_of_mem (hl ▸ List.mem_cons_self : s.freeList i ∈ nodes i)
  refine ⟨hi, ?_⟩
  rw [hl, List.tail_cons]
  have hback : Function.update (Function.update nodes i l) i
      ([s.freeList i] ++ Function.update nodes i l i) = nodes := by
    rw [Function.update_idem, Function.update_self, List.singleton_append, ← hl,
      Function.update_eq_self]
  have hnodes := nodeExtents_update (Function.update nodes i l) hi [s.freeList i]
  rw [hback] at hnodes
  have hperm : (pieces s live nodes).Perm
      (pieces (s.pop i) (⟨s.freeList i, align * (i + 1)⟩ :: live) (Function.update nodes i l)) := by
    refine ((hnodes.append_right [s.pool]).append_left live).trans ?_
    exact List.perm_middle
  exact { h with
    chain := fun j => by
      show Chain _ (Function.update s.freeList i _ j) (Function.update nodes i l j)
      by_cases hj : j = i
      · subst hj
        rw [Function.update_self, Function.update_self]
        exact hrest
      · rw [Function.update_of_ne hj, Function.update_of_ne hj]
        exact h.chain j
    only := fun j hj => by
      rw [Function.update_of_ne (Nat.ne_of_gt (Nat.lt_of_lt_of_le hi hj))]
      exact h.only j hj
    tiles := fun b => (hits_perm hperm b).symm.trans (h.tiles b)
    inside := fun e he => h.inside e (hperm.mem_iff.mpr he) }

/-- Objects are cut from the front of the pool. -/
theorem take (h : Holds s live others nodes) (hk : size * k ≤ s.endFree - s.startFree)
    (hdvd : align ∣ size) : Holds { s with startFree := s.startFree + size * k }
      (cells s.startFree size k ++ live) others nodes := by
  have hle := h.pool_le
  have hcut : s.pool = ⟨s.startFree, size * k + (s.endFree - (s.startFree + size * k))⟩ := by
    unfold AllocState.pool
    congr 1
    omega
  exact { h with
    pool_le := by
      show s.startFree + size * k ≤ s.endFree
      omega
    pool_dvd := by
      show align ∣ s.endFree - (s.startFree + size * k)
      rw [Nat.sub_add_eq]
      exact Nat.dvd_sub h.pool_dvd (Nat.dvd_mul_right_of_dvd hdvd k)
    tiles := fun b => by
      have hsplit : hits [s.pool] b = hits [⟨s.startFree, size * k⟩] b +
          hits [AllocState.pool { s with startFree := s.startFree + size * k }] b := by
        rw [hcut, hits_split]
        rfl
      rw [← h.tiles b]
      simp only [pieces, hits_append, hsplit, hits_cells]
      omega
    inside := fun e he hlen => by
      have hpool (hsub : e.Inside s.pool) : ∃ c ∈ s.chunks, e.Inside c := by
        have hpos : 0 < s.pool.len := by
          have hlo := hsub.1
          have hhi := hsub.2
          omega
        have hmem : s.pool ∈ pieces s live nodes := by simp [pieces]
        obtain ⟨c, hc, hin⟩ := h.inside s.pool hmem hpos
        exact ⟨c, hc, hsub.trans hin⟩
      simp only [pieces, List.append_assoc, List.mem_append, List.mem_singleton] at he
      rcases he with he | he | he | rfl
      · refine hpool ((inside_of_mem_cells he).1.trans ?_)
        rw [hcut]
        exact ⟨Nat.le_refl _, Nat.add_le_add_left (Nat.le_add_right ..) _⟩
      · exact h.inside e (by simp [pieces, he]) hlen
      · exact h.inside e (by simp [pieces, he]) hlen
      · refine hpool ?_
        rw [hcut]
        exact ⟨Nat.le_add_right .., Nat.le_of_eq (Nat.add_assoc ..)⟩ }

/-- An empty pool can be anywhere. -/
theorem movePool (h : Holds s live others nodes) (hempty : s.startFree = s.endFree) (ha : a < 2 ^ 64) :
    Holds { s with startFree := a, endFree := a } live others nodes :=
  { h with
    pool_le := Nat.le_refl a
    end_lt := ha
    pool_dvd := by
      show align ∣ a - a
      rw [Nat.sub_self]
      exact Nat.dvd_zero align
    tiles := fun b => by
      rw [← h.tiles b]
      simp [pieces, AllocState.pool, hempty]
    inside := fun e he hlen => by
      simp only [pieces, List.mem_append, List.mem_singleton] at he
      rcases he with he | he | rfl
      · exact h.inside e (by simp [pieces, he]) hlen
      · exact h.inside e (by simp [pieces, he]) hlen
      · exact absurd hlen (by simp [AllocState.pool]) }

/-- A block becomes the pool, which was empty. -/
theorem setPool (h : Holds s (⟨p, n⟩ :: live) others nodes) (hempty : s.startFree = s.endFree)
    (hn : 0 < n) (hdvd : align ∣ n) :
    Holds { s with startFree := p, endFree := p + n } live others nodes := by
  have hpool : (AllocState.pool { s with startFree := p, endFree := p + n }) = ⟨p, n⟩ := by
    unfold AllocState.pool
    congr 1
    exact Nat.add_sub_cancel_left p n
  exact { h with
    pool_le := Nat.le_add_right p n
    end_lt := (h.bounds (e := ⟨p, n⟩) List.mem_cons_self hn).2
    pool_dvd := by
      show align ∣ p + n - p
      rwa [Nat.add_sub_cancel_left]
    tiles := fun b => by
      rw [← h.tiles b]
      have hnone : s.pool = ⟨s.startFree, 0⟩ := by simp [AllocState.pool, hempty]
      simp only [pieces, hits_append, hpool, hnone, hits_empty, hits_cons ⟨p, n⟩ live]
      omega
    inside := fun e he hlen => by
      simp only [pieces, hpool, List.mem_append, List.mem_singleton] at he
      rcases he with he | he | rfl
      · exact h.inside e (by simp [pieces, he]) hlen
      · exact h.inside e (by simp [pieces, he]) hlen
      · exact h.inside _ List.mem_cons_self hlen }

/-- A chunk from `malloc` becomes the pool, which was empty. -/
theorem grown (h : Holds s live others nodes) (hempty : s.startFree = s.endFree) (hp : 0 < p)
    (hend : p + n < 2 ^ 64) (hdvd : align ∣ n)
    (hfresh : ∀ e ∈ s.chunks ++ others, (Extent.mk p n).Apart e) :
    Holds (s.grown p n) live others nodes := by
  have hpool : (s.grown p n).pool = ⟨p, n⟩ := by
    unfold AllocState.pool
    congr 1
    exact Nat.add_sub_cancel_left p n
  have hchunk : ∀ c ∈ (s.grown p n).chunks, 0 < c.addr ∧ c.addr + c.len < 2 ^ 64 := by
    intro c hc
    rcases List.mem_cons.mp hc with rfl | hc
    · exact ⟨hp, hend⟩
    · exact h.chunk c hc
  have hapart : ((s.grown p n).chunks ++ others).Pairwise Extent.Apart :=
    List.pairwise_cons.mpr ⟨hfresh, h.apart⟩
  have hsum := sum_len_le 1 (2 ^ 64) (fun c hc => ⟨(hchunk c hc).1,
    Nat.le_of_lt (hchunk c hc).2⟩) (List.pairwise_append.mp hapart).1
  have hcons : ((s.grown p n).chunks.map Extent.len).sum = n + s.heapSize := by
    rw [h.heap]
    exact List.sum_cons
  exact {
    chain := h.chain
    only := h.only
    pool_le := Nat.le_add_right p n
    end_lt := hend
    pool_dvd := by
      show align ∣ p + n - p
      rwa [Nat.add_sub_cancel_left]
    tiles := fun b => by
      have hold := h.tiles b
      have hnone : s.pool = ⟨s.startFree, 0⟩ := by simp [AllocState.pool, hempty]
      have hnew : hits (s.grown p n).chunks b = hits [⟨p, n⟩] b + hits s.chunks b :=
        hits_cons ..
      simp only [pieces, hits_append, hnone, hits_empty] at hold
      simp only [pieces, hits_append, hpool, hnew]
      omega
    inside := fun e he hlen => by
      simp only [pieces, hpool, List.mem_append, List.mem_singleton] at he
      have hkept (hin : ∃ c ∈ s.chunks, e.Inside c) : ∃ c ∈ (s.grown p n).chunks, e.Inside c := by
        obtain ⟨c, hc, hin⟩ := hin
        exact ⟨c, List.mem_cons_of_mem _ hc, hin⟩
      rcases he with he | he | rfl
      · exact hkept (h.inside e (by simp [pieces, he]) hlen)
      · exact hkept (h.inside e (by simp [pieces, he]) hlen)
      · exact ⟨⟨p, n⟩, List.mem_cons_self, Nat.le_refl _, Nat.le_refl _⟩
    chunk := hchunk
    apart := hapart
    heap := by
      show (s.heapSize + n) % 2 ^ 64 = _
      rw [hcons, Nat.mod_eq_of_lt (by omega), Nat.add_comm] }

/-- The objects of a chunk are threaded onto a list that was empty. -/
theorem link (h : Holds s (cells p (align * (i + 1)) (n + 1) ++ live) others nodes)
    (hi : i < nFreeLists) (hnil : nodes i = []) :
    Holds { s with
      freeList := Function.update s.freeList i p
      mem := linkNodes s.mem p (align * (i + 1)) n } live others
      (Function.update nodes i ((cells p (align * (i + 1)) (n + 1)).map Extent.addr)) := by
  have hsize : 8 ≤ align * (i + 1) := Nat.le_mul_of_pos_right align (Nat.succ_pos i)
  have hnodes := nodeExtents_update nodes hi
    ((cells p (align * (i + 1)) (n + 1)).map Extent.addr)
  rw [hnil, List.append_nil, map_addr_cells] at hnodes
  have hperm : (pieces s (cells p (align * (i + 1)) (n + 1) ++ live) nodes).Perm
      (pieces s live (Function.update nodes i
        ((cells p (align * (i + 1)) (n + 1)).map Extent.addr))) := by
    refine List.Perm.trans ?_ ((hnodes.append_right [s.pool]).append_left live).symm
    unfold pieces
    rw [List.append_assoc, List.append_assoc]
    exact List.perm_append_comm_assoc ..
  have hwithin : ∀ e ∈ cells p (align * (i + 1)) (n + 1), 0 < e.addr ∧ e.addr + e.len < 2 ^ 64 :=
    fun e he => h.bounds (List.mem_append_left _ (List.mem_append_left _ he)) <| by
      rw [(inside_of_mem_cells he).2]
      exact Nat.lt_of_lt_of_le (by decide) hsize
  have hpos : 0 < p := (hwithin ⟨p, _⟩ List.mem_cons_self).1
  have hend : p + align * (i + 1) * (n + 1) < 2 ^ 64 := by
    have hge : align * (i + 1) ≤ align * (i + 1) * (n + 1) :=
      Nat.le_mul_of_pos_right _ (Nat.succ_pos n)
    -- the last byte lies in one of the objects
    obtain ⟨e, he, -, hlast⟩ := (has_cells p (align * (i + 1)) (n + 1)
      (p + align * (i + 1) * (n + 1) - 1)).mpr ⟨show p ≤ _ by omega,
        show _ < p + align * (i + 1) * (n + 1) by omega⟩
    have hlt := (hwithin e he).2
    omega
  exact { h with
    chain := fun j => by
      show Chain _ (Function.update s.freeList i p j) (Function.update nodes i _ j)
      by_cases hj : j = i
      · subst hj
        rw [Function.update_self, Function.update_self]
        exact chain_linkNodes hsize hpos hend
      · rw [Function.update_of_ne hj, Function.update_of_ne hj]
        refine (h.chain j).congr fun q hq => load_outside _ h (fun b hb => ?_) hq
        refine linkNodes_outside hsize ?_
        by_contra hin
        obtain ⟨e, he, heb⟩ := (has_cells p (align * (i + 1)) (n + 1) b).mpr
          ⟨show p ≤ b by omega, show b < p + align * (i + 1) * (n + 1) by omega⟩
        exact hb e he heb
    only := fun j hj => by
      rw [Function.update_of_ne (Nat.ne_of_gt (Nat.lt_of_lt_of_le hi hj))]
      exact h.only j hj
    tiles := fun b => (hits_perm hperm b).symm.trans (h.tiles b)
    inside := fun e he => h.inside e (hperm.mem_iff.mpr he) }

end Holds

end Rtfsc.Stl
