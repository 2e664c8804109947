import Rtfsc.Stl.AllocInv

/-!
# Calls of the allocator

A call of `_S_chunk_alloc` comes back after it has called itself at most once, whatever `malloc` answers,
and the pieces tile the chunks also when it throws. `_S_refill`, `allocate` and `deallocate` follow from
there, one lemma a call.
-/

namespace Rtfsc.Stl

open Rtfsc.Machine

variable {s s' : AllocState} {live others : List Extent} {nodes : Nat → List Nat}
variable {answers answers' : List Nat} {depth a b i k n p size nobjs : Nat}

/-- Memory apart from what there is. -/
def FreshFor (l : List Extent) (a len : Nat) : Prop :=
  0 < a ∧ a + len < 2 ^ 64 ∧ ∀ e ∈ l, (Extent.mk a len).Apart e

/-! ## `malloc` -/

theorem oomMalloc_mem (h : oomMalloc answers = some (p, answers')) : p ∈ answers ∧ p ≠ 0 := by
  induction answers with
  | nil => cases h
  | cons a answers ih =>
    unfold oomMalloc at h
    split at h
    · exact ⟨List.mem_cons_of_mem a (ih h).1, (ih h).2⟩
    · next ha =>
      cases h
      exact ⟨List.mem_cons_self, ha⟩

theorem mallocAllocate_mem (h : mallocAllocate answers = some (p, answers')) :
    p ∈ answers ∧ p ≠ 0 := by
  cases answers with
  | nil => cases h
  | cons a answers =>
    unfold mallocAllocate malloc at h
    dsimp only at h
    split at h
    · exact ⟨List.mem_cons_of_mem a (oomMalloc_mem h).1, (oomMalloc_mem h).2⟩
    · next ha =>
      cases h
      exact ⟨List.mem_cons_self, ha⟩

theorem malloc_mem (answers : List Nat) : (malloc answers).1 ≠ 0 → (malloc answers).1 ∈ answers := by
  cases answers with
  | nil => exact fun h => absurd rfl h
  | cons a answers => exact fun _ => List.mem_cons_self

theorem malloc_zero (answers : List Nat) (h : (malloc answers).1 = 0) (hrest : ∀ a ∈ (malloc answers).2, a = 0) :
    ∀ a ∈ answers, a = 0 := by
  cases answers with
  | nil => exact fun _ ha => nomatch ha
  | cons a answers =>
    rintro b (_ | ⟨_, hb⟩)
    · exact h
    · exact hrest b hb

theorem malloc_subset (answers : List Nat) : (malloc answers).2 ⊆ answers := by
  cases answers with
  | nil => exact List.Subset.refl []
  | cons a answers => exact List.subset_cons_self a answers

/-- `malloc_alloc` throws after nothing but failures. -/
theorem oomMalloc_none (h : oomMalloc answers = none) : ∀ a ∈ answers, a = 0 := by
  induction answers with
  | nil => exact fun _ ha => nomatch ha
  | cons a answers ih =>
    unfold oomMalloc at h
    split at h
    · next ha =>
      rintro b (_ | ⟨_, hb⟩)
      · exact ha
      · exact ih h b hb
    · cases h

theorem mallocAllocate_none (h : mallocAllocate answers = none) : ∀ a ∈ answers, a = 0 := by
  cases answers with
  | nil => exact fun _ ha => nomatch ha
  | cons a answers =>
    unfold mallocAllocate malloc at h
    dsimp only at h
    split at h
    · next ha =>
      rintro b (_ | ⟨_, hb⟩)
      · exact ha
      · exact oomMalloc_none h b hb
    · cases h

/-! ## `_S_chunk_alloc` -/

theorem push_freeList (s : AllocState) (i p : Nat) :
    (s.push i p).freeList = Function.update s.freeList i p := rfl

theorem pop_other {j : Nat} (s : AllocState) (hne : j ≠ i) :
    (s.pop i).freeList j = s.freeList j := Function.update_of_ne hne ..

/-- The loop over the free lists comes back with nothing or with the first node of a list. -/
theorem scan_spec (hpos : 0 < i) (hdvd : align ∣ i) :
    s.scan i = none ∨ ∃ j, i ≤ align * (j + 1) ∧ s.freeList j ≠ 0 ∧
      s.scan i = some { s.pop j with
        startFree := s.freeList j, endFree := s.freeList j + align * (j + 1) } := by
  induction hleft : maxBytes + 1 - i using Nat.strong_induction_on generalizing i with
  | _ left ih =>
    rw [AllocState.scan]
    by_cases hi : i ≤ maxBytes
    · rw [if_pos hi]
      dsimp only
      by_cases hp : s.freeList (freelistIndex i) = 0
      · rw [if_neg (not_not.mpr hp)]
        have hless : maxBytes + 1 - (i + align) < left := by
          unfold align
          omega
        rcases ih _ hless (Nat.add_pos_left hpos align) (Nat.dvd_add hdvd (Nat.dvd_refl align))
          rfl with hnone | ⟨j, hj, hhead, hscan⟩
        · exact .inl hnone
        · exact .inr ⟨j, Nat.le_of_add_right_le hj, hhead, hscan⟩
      · rw [if_pos hp]
        have hsize := (freelistIndex_small hpos hi).2
        rw [roundUp_of_dvd hdvd hi] at hsize
        refine .inr ⟨freelistIndex i, Nat.le_of_eq hsize.symm, hp, ?_⟩
        rw [hsize]
    · exact .inl (if_neg hi)

/-- More depth changes nothing for a call that comes back. -/
theorem chunkAlloc_mono {r : Option (Nat × Nat)}
    (h : AllocState.chunkAlloc depth s size nobjs answers = some (r, s')) :
    AllocState.chunkAlloc (depth + 1) s size nobjs answers = some (r, s') := by
  induction depth generalizing s answers with
  | zero => cases h
  | succ depth ih =>
    rw [AllocState.chunkAlloc] at h ⊢
    dsimp only at h ⊢
    by_cases hall : size * nobjs % 2 ^ 64 ≤ s.bytesLeft
    · rwa [if_pos hall] at h ⊢
    rw [if_neg hall] at h ⊢
    by_cases hone : size ≤ s.bytesLeft
    · rwa [if_pos hone] at h ⊢
    rw [if_neg hone] at h ⊢
    rcases hnext : s.replenish size (s.bytesToGet (size * nobjs % 2 ^ 64)) answers with
      ⟨answers', s₁⟩
    rw [hnext] at h
    cases answers' with
    | none => exact h
    | some answers' => exact ih h

theorem chunkAlloc_le {depth' : Nat} {r : Option (Nat × Nat)} (hle : depth ≤ depth')
    (h : AllocState.chunkAlloc depth s size nobjs answers = some (r, s')) :
    AllocState.chunkAlloc depth' s size nobjs answers = some (r, s') := by
  induction hle with
  | refl => exact h
  | step _ ih => exact chunkAlloc_mono ih

/-- A pool with room for one object is enough: the objects are cut from its front. -/
theorem chunkAlloc_pool (depth : Nat) (answers : List Nat) (h : Holds s live others nodes) (hpos : 0 < size) (hn : 0 < nobjs)
    (htotal : size * nobjs < 2 ^ 64) (hroom : size ≤ s.endFree - s.startFree) :
    ∃ k, 0 < k ∧ k ≤ nobjs ∧ size * k ≤ s.endFree - s.startFree ∧
      AllocState.chunkAlloc (depth + 1) s size nobjs answers =
        some (some (s.startFree, k), { s with startFree := s.startFree + size * k }) := by
  rw [AllocState.chunkAlloc]
  dsimp only
  rw [Nat.mod_eq_of_lt htotal, h.bytesLeft_eq]
  by_cases hall : size * nobjs ≤ s.endFree - s.startFree
  · rw [if_pos hall]
    exact ⟨nobjs, hn, Nat.le_refl nobjs, hall, rfl⟩
  · rw [if_neg hall, if_pos hroom]
    refine ⟨_, Nat.div_pos hroom hpos, ?_, Nat.mul_div_le .., rfl⟩
    exact Nat.le_of_lt (Nat.div_lt_of_lt_mul (Nat.not_le.mp hall))

/-- The left-over piece of the pool as a node. -/
theorem leftOver_node {left : Nat} (h : Holds s live others nodes)
    (heq : left = s.endFree - s.startFree) (hpos : 0 < left) (hmax : left ≤ maxBytes) :
    ∃ nodes', Holds { s.push (freelistIndex left) s.startFree with startFree := s.endFree }
      live others nodes' := by
  obtain ⟨hi, hsize⟩ := freelistIndex_small hpos hmax
  have hdvd : align ∣ left := heq ▸ h.pool_dvd
  have hle := h.pool_le
  rw [roundUp_of_dvd hdvd hmax] at hsize
  have htaken := h.take (k := 1) (Nat.le_of_eq (by rw [Nat.mul_one, heq])) hdvd
  have hend : s.startFree + left * 1 = s.endFree := by omega
  rw [hend] at htaken
  have hnode : Holds { s with startFree := s.endFree }
      (⟨s.startFree, align * (freelistIndex left + 1)⟩ :: live) others nodes := by
    rw [hsize]
    exact htaken
  exact ⟨_, hnode.push hi⟩

theorem keepLeftOver_pos (h : 0 < s.bytesLeft) :
    s.keepLeftOver = s.push (freelistIndex s.bytesLeft) s.startFree := if_pos h

theorem keepLeftOver_zero (h : s.bytesLeft = 0) : s.keepLeftOver = s :=
  if_neg (Nat.not_lt.mpr (Nat.le_of_eq h))

@[simp] theorem keepLeftOver_chunks (s : AllocState) : s.keepLeftOver.chunks = s.chunks := by
  rcases Nat.eq_zero_or_pos s.bytesLeft with hzero | hsome
  · rw [keepLeftOver_zero hzero]
  · rw [keepLeftOver_pos hsome]
    rfl

/-- The left-over piece is not dropped: it is a node now, and the pool is empty. -/
theorem keepLeftOver_holds (h : Holds s live others nodes) (hleft : s.bytesLeft ≤ maxBytes) :
    ∃ nodes', Holds { s.keepLeftOver with startFree := s.keepLeftOver.endFree }
      live others nodes' := by
  rcases Nat.eq_zero_or_pos s.bytesLeft with hzero | hsome
  · have hle := h.pool_le
    rw [keepLeftOver_zero hzero]
    rw [h.bytesLeft_eq] at hzero
    exact ⟨nodes, h.movePool (Nat.le_antisymm hle (Nat.le_of_sub_eq_zero hzero)) h.end_lt⟩
  · rw [keepLeftOver_pos hsome]
    exact leftOver_node h h.bytesLeft_eq hsome hleft

/-- Sizes of nodes are told apart by their lists. -/
theorem freelistIndex_inj {m : Nat} (hm : 0 < m) (hn : 0 < n) (hmmax : m ≤ maxBytes)
    (hnmax : n ≤ maxBytes) (hmdvd : align ∣ m) (hndvd : align ∣ n)
    (h : freelistIndex m = freelistIndex n) : m = n := by
  have hmsize := (freelistIndex_small hm hmmax).2
  have hnsize := (freelistIndex_small hn hnmax).2
  rw [roundUp_of_dvd hmdvd hmmax, h] at hmsize
  rw [roundUp_of_dvd hndvd hnmax] at hnsize
  exact hmsize.symm.trans hnsize

theorem push_other {j : Nat} (s : AllocState) (p : Nat) (hne : j ≠ i) :
    (s.push i p).freeList j = s.freeList j := by
  rw [push_freeList, Function.update_of_ne hne]

/-- The left-over piece goes to a list of smaller nodes. -/
theorem keepLeftOver_freeList (hpos : 0 < size) (hdvd : align ∣ size) (hmax : size ≤ maxBytes)
    (h : Holds s live others nodes) (hleft : s.bytesLeft < size) :
    s.keepLeftOver.freeList (freelistIndex size) = s.freeList (freelistIndex size) := by
  have hpool : align ∣ s.bytesLeft := by
    rw [h.bytesLeft_eq]
    exact h.pool_dvd
  rcases Nat.eq_zero_or_pos s.bytesLeft with hzero | hsome
  · rw [keepLeftOver_zero hzero]
  · rw [keepLeftOver_pos hsome]
    refine push_other s s.startFree fun hsame => ?_
    have hle := Nat.le_trans (Nat.le_of_lt hleft) hmax
    exact absurd (freelistIndex_inj hpos hsome hmax hle hdvd hpool hsame) (Nat.ne_of_gt hleft)

/-- The pool is memory from `malloc`, or the first node of a list for objects that are large enough, or
`malloc_alloc` has thrown. -/
theorem newPool_cases (t : AllocState) (answers : List Nat) (bytes : Nat) (hpos : 0 < size) (hdvd : align ∣ size) :
    (∃ answers', ∃ p ∈ answers, p ≠ 0 ∧
      t.newPool size bytes answers = (some answers', t.grown p bytes)) ∨
    (∃ answers' j, size ≤ align * (j + 1) ∧ t.freeList j ≠ 0 ∧
      t.newPool size bytes answers = (some answers', { t.pop j with
        startFree := t.freeList j, endFree := t.freeList j + align * (j + 1) })) ∨
    (∀ a ∈ answers, a = 0) ∧
      t.newPool size bytes answers = (none, { t with startFree := 0, endFree := 0 }) := by
  unfold AllocState.newPool
  rcases hm : malloc answers with ⟨p, rest⟩
  have hmem := malloc_mem answers
  have hrest := malloc_subset answers
  have hfirst := malloc_zero answers
  rw [hm] at hmem hrest hfirst
  dsimp only at hmem hrest hfirst ⊢
  by_cases hp : p = 0
  · rw [if_neg (not_not.mpr hp)]
    rcases scan_spec (s := { t with startFree := 0 }) hpos hdvd with hnone | ⟨j, hj, hhead, hscan⟩
    · rw [hnone]
      dsimp only
      rcases hthrown : mallocAllocate rest with - | ⟨q, answers'⟩
      · exact .inr (.inr ⟨hfirst hp (mallocAllocate_none hthrown), rfl⟩)
      · obtain ⟨hq, hne⟩ := mallocAllocate_mem hthrown
        exact .inl ⟨answers', q, hrest hq, hne, rfl⟩
    · rw [hscan]
      exact .inr (.inl ⟨rest, j, hj, hhead, rfl⟩)
  · rw [if_pos hp]
    exact .inl ⟨rest, p, hmem hp, hp, rfl⟩

/-- The new pool has room for an object, or `malloc_alloc` has thrown; a list that is empty stays so. -/
theorem newPool_spec {t : AllocState} {bytes : Nat}
    (h : Holds { t with startFree := t.endFree } live others nodes) (hpos : 0 < size)
    (hdvd : align ∣ size) (hbytes : size ≤ bytes) (hbytesDvd : align ∣ bytes)
    (hfresh : ∀ a ∈ answers, a ≠ 0 → FreshFor (t.chunks ++ others) a bytes) :
    ∃ r s' nodes', t.newPool size bytes answers = (r, s') ∧ Holds s' live others nodes' ∧
      (r ≠ none → size ≤ s'.endFree - s'.startFree) ∧ (r = none → ∀ a ∈ answers, a = 0) ∧
      ∀ i, t.freeList i = 0 → s'.freeList i = 0 := by
  rcases newPool_cases t answers bytes hpos hdvd with
    ⟨_, p, hp, hne, heq⟩ | ⟨_, j, hj, hhead, heq⟩ | ⟨hfailed, heq⟩
  · obtain ⟨hp, hend, hapart⟩ := hfresh p hp hne
    refine ⟨_, _, nodes, heq, h.grown rfl hp hend hbytesDvd hapart, fun _ => ?_, nofun,
      fun i hi => hi⟩
    show size ≤ p + bytes - p
    rwa [Nat.add_sub_cancel_left]
  · obtain ⟨-, hpopped⟩ := h.pop hhead
    refine ⟨_, _, _, heq, hpopped.setPool rfl (Nat.mul_pos (by decide) (Nat.succ_pos j))
      (Nat.dvd_mul_right ..), fun _ => ?_, nofun, fun i hi => ?_⟩
    · show size ≤ t.freeList j + align * (j + 1) - t.freeList j
      rwa [Nat.add_sub_cancel_left]
    · have hne : i ≠ j := by
        rintro rfl
        exact hhead hi
      show (t.pop j).freeList i = 0
      rwa [pop_other t hne]
  · exact ⟨_, _, nodes, heq, h.movePool rfl (by decide), fun hr => absurd rfl hr, fun _ => hfailed,
      fun i hi => hi⟩

/-- What `_S_chunk_alloc` does before it calls itself. -/
theorem replenish_spec {bytes : Nat} (h : Holds s live others nodes) (hpos : 0 < size)
    (hdvd : align ∣ size) (hmax : size ≤ maxBytes) (hleft : s.bytesLeft < size)
    (hbytes : size ≤ bytes) (hbytesDvd : align ∣ bytes)
    (hfresh : ∀ a ∈ answers, a ≠ 0 → FreshFor (s.chunks ++ others) a bytes) :
    ∃ r s' nodes', s.replenish size bytes answers = (r, s') ∧ Holds s' live others nodes' ∧
      (r ≠ none → size ≤ s'.endFree - s'.startFree) ∧ (r = none → ∀ a ∈ answers, a = 0) ∧
      (s.freeList (freelistIndex size) = 0 → s'.freeList (freelistIndex size) = 0) := by
  obtain ⟨nodes', hkept⟩ := keepLeftOver_holds h (Nat.le_trans (Nat.le_of_lt hleft) hmax)
  have hlist := keepLeftOver_freeList hpos hdvd hmax h hleft
  rw [← keepLeftOver_chunks s] at hfresh
  obtain ⟨r, s', nodes', hpool, hholds, hroom, hfailed, hempty⟩ :=
    newPool_spec hkept hpos hdvd hbytes hbytesDvd hfresh
  exact ⟨r, s', nodes', hpool, hholds, hroom, hfailed, fun hzero => hempty _ (hlist.trans hzero)⟩

/-- `_S_chunk_alloc` comes back with objects from the front of a pool, its own or a new one, or it throws
after nothing but failures of `malloc`. It calls itself at most once. -/
theorem chunkAlloc_spec (depth : Nat) (h : Holds s live others nodes) (hpos : 0 < size) (hdvd : align ∣ size)
    (hmax : size ≤ maxBytes) (hn : 0 < nobjs) (hint : nobjs < 2 ^ 31)
    (hfresh : ∀ a ∈ answers, a ≠ 0 →
      FreshFor (s.chunks ++ others) a (s.bytesToGet (size * nobjs))) :
    ∃ r s₁ s' nodes', AllocState.chunkAlloc (depth + 2) s size nobjs answers = some (r, s') ∧
      Holds s₁ live others nodes' ∧
      (s.freeList (freelistIndex size) = 0 → s₁.freeList (freelistIndex size) = 0) ∧
      ((r = none ∧ s' = s₁ ∧ ∀ a ∈ answers, a = 0) ∨
        ∃ k, 0 < k ∧ k ≤ nobjs ∧ size * k ≤ s₁.endFree - s₁.startFree ∧
          r = some (s₁.startFree, k) ∧ s' = { s₁ with startFree := s₁.startFree + size * k }) := by
  have htotal : size * nobjs < 2 ^ 61 := by
    unfold maxBytes at hmax
    calc
      size * nobjs ≤ 128 * nobjs := Nat.mul_le_mul_right nobjs hmax
      _ < 2 ^ 61 := by omega
  by_cases hroom : size ≤ s.endFree - s.startFree
  · obtain ⟨k, hk, hle, hfits, heq⟩ :=
      chunkAlloc_pool (depth + 1) answers h hpos hn (by omega) hroom
    exact ⟨_, s, _, nodes, heq, h, id, .inr ⟨k, hk, hle, hfits, rfl, rfl⟩⟩
  · have hleft : s.bytesLeft < size := h.bytesLeft_eq ▸ Nat.not_le.mp hroom
    have hlarge : size ≤ size * nobjs := Nat.le_mul_of_pos_right size hn
    obtain ⟨hbytes, hbytesDvd⟩ := h.bytesToGet_spec htotal
    obtain ⟨r, s₁, nodes', hnext, hholds, hnew, hfailed, hempty⟩ :=
      replenish_spec h hpos hdvd hmax hleft (by omega)
        (hbytesDvd (Nat.dvd_mul_right_of_dvd hdvd nobjs)) hfresh
    rw [AllocState.chunkAlloc]
    dsimp only
    rw [Nat.mod_eq_of_lt (by omega), if_neg (by omega), if_neg (by omega), hnext]
    cases r with
    | none => exact ⟨_, s₁, _, nodes', rfl, hholds, hempty, .inl ⟨rfl, rfl, hfailed rfl⟩⟩
    | some answers' =>
      obtain ⟨k, hk, hle, hfits, heq⟩ := chunkAlloc_pool depth answers'
        hholds hpos hn (by omega) (hnew nofun)
      exact ⟨_, s₁, _, nodes', heq, hholds, hempty, .inr ⟨k, hk, hle, hfits, rfl, rfl⟩⟩

/-- Before the first call there are no pieces. -/
theorem holds_new (mem : Memory) : Holds (.new mem) [] [] fun _ => [] where
  chain _ := rfl
  only _ _ := rfl
  pool_le := Nat.le_refl 0
  end_lt := Nat.two_pow_pos 64
  pool_dvd := Nat.dvd_zero align
  tiles b := hits_empty 0 b
  inside := by
    rintro e (_ | ⟨_, ⟨⟩⟩) hlen
    exact absurd hlen (Nat.lt_irrefl 0)
  chunk := nofun
  apart := List.Pairwise.nil
  heap := rfl

/-- Where the pieces tile the chunks, `_S_chunk_alloc` comes back or throws when it may call itself once,
and deeper calls change nothing: the chunk is the front of a pool, its own or a new one, for at least one
and at most as many objects as were asked for, and what remains is the pool. It throws only after
failures of `malloc`. -/
theorem chunkAlloc_returns (h : Holds s live others nodes) (hpos : 0 < size) (hdvd : align ∣ size)
    (hmax : size ≤ maxBytes) (hn : 0 < nobjs) (hint : nobjs < 2 ^ 31)
    (hfresh : ∀ a ∈ answers, a ≠ 0 →
      FreshFor (s.chunks ++ others) a (s.bytesToGet (size * nobjs))) :
    ∃ r s', (∀ depth, 2 ≤ depth →
        AllocState.chunkAlloc depth s size nobjs answers = some (r, s')) ∧
      ((r = none ∧ (∀ a ∈ answers, a = 0) ∧ ∃ nodes', Holds s' live others nodes') ∨
        ∃ k s₁ nodes', 0 < k ∧ k ≤ nobjs ∧ Holds s₁ live others nodes' ∧
          r = some (s₁.startFree, k) ∧ s'.startFree = s₁.startFree + size * k ∧
          s'.endFree = s₁.endFree ∧ s₁.pool.len = size * k + s'.pool.len ∧
          Holds s' (cells s₁.startFree size k ++ live) others nodes') := by
  obtain ⟨r, s₁, s', nodes', hcall, hholds, -, hresult⟩ :=
    chunkAlloc_spec 0 h hpos hdvd hmax hn hint hfresh
  refine ⟨r, s', fun depth hdepth => chunkAlloc_le hdepth hcall, ?_⟩
  rcases hresult with ⟨rfl, rfl, hfailed⟩ | ⟨k, hk, hle, hfits, rfl, rfl⟩
  · exact .inl ⟨rfl, hfailed, nodes', hholds⟩
  · refine .inr ⟨k, s₁, nodes', hk, hle, hholds, rfl, rfl, rfl, ?_, hholds.take hfits hdvd⟩
    show s₁.endFree - s₁.startFree = size * k + (s₁.endFree - (s₁.startFree + size * k))
    omega

/-- The first call gets a chunk for forty objects, and hands out twenty of them. -/
theorem chunkAlloc_returns_first :
    ∃ r s', ∀ depth, 2 ≤ depth →
      AllocState.chunkAlloc depth (.new fun _ => 0) 8 20 [4096] = some (r, s') := by
  have hfresh : ∀ a ∈ [4096], a ≠ 0 → FreshFor [] a (AllocState.bytesToGet (.new fun _ => 0) (8 * 20)) := by
    rintro a (_ | ⟨_, ⟨⟩⟩) -
    exact ⟨by decide, by decide, nofun⟩
  obtain ⟨r, s', hcall, -⟩ := chunkAlloc_returns (holds_new fun _ => 0) (by decide : 0 < 8)
    (Nat.dvd_refl 8) (by decide) (by decide : 0 < 20) (by decide) hfresh
  exact ⟨r, s', hcall⟩

/-! ## `_S_refill` and `allocate` -/

/-- An object for the caller; the others are on the free list, which was empty. -/
theorem refill_spec (depth : Nat) (h : Holds s live others nodes) (hi : i < nFreeLists)
    (hempty : s.freeList i = 0)
    (hfresh : ∀ a ∈ answers, a ≠ 0 →
      FreshFor (s.chunks ++ others) a (s.bytesToGet (align * (i + 1) * 20))) :
    ∃ r s' nodes', AllocState.refill (depth + 2) s (align * (i + 1)) answers = some (r, s') ∧
      Holds s' (r.toList.map (⟨·, align * (i + 1)⟩) ++ live) others nodes' := by
  have hpos : 0 < align * (i + 1) := Nat.mul_pos (by decide) (Nat.succ_pos i)
  have hmax : align * (i + 1) ≤ maxBytes := by
    unfold align maxBytes
    unfold nFreeLists at hi
    omega
  have hindex : freelistIndex (align * (i + 1)) = i := by
    have hsize := (freelistIndex_small hpos hmax).2
    rw [roundUp_of_dvd (Nat.dvd_mul_right ..) hmax] at hsize
    unfold align at hsize ⊢
    omega
  obtain ⟨r, s₁, s', nodes', hcall, hholds, hstill, hresult⟩ :=
    chunkAlloc_spec depth h hpos (Nat.dvd_mul_right ..) hmax (by decide : 0 < 20)
      (by decide) hfresh
  rw [hindex] at hstill
  unfold AllocState.refill
  rw [hcall]
  rcases hresult with ⟨rfl, rfl, -⟩ | ⟨k, hk, -, hfits, rfl, rfl⟩
  · exact ⟨none, s', nodes', rfl, hholds⟩
  · have htaken := hholds.take hfits (Nat.dvd_mul_right ..)
    have hnil : nodes' i = [] := by
      have hchain := hholds.chain i
      rw [hstill hempty] at hchain
      exact hchain.eq_nil
    dsimp only
    by_cases hone : k = 1
    · subst hone
      rw [if_pos rfl]
      exact ⟨_, _, nodes', rfl, htaken⟩
    · rw [if_neg hone, hindex]
      obtain ⟨m, rfl⟩ : ∃ m, k = m + 2 := ⟨k - 2, by omega⟩
      have hrest : Holds _ (cells (s₁.startFree + align * (i + 1)) (align * (i + 1)) (m + 1) ++
          ⟨s₁.startFree, align * (i + 1)⟩ :: live) others nodes' :=
        htaken.permute List.perm_middle.symm (List.Perm.refl others)
      exact ⟨_, _, _, rfl, hrest.link hi hnil⟩

/-- A small block comes from its free list or from the pool. -/
theorem allocate_small (depth : Nat) (h : Holds s live others nodes) (hn : 0 < n) (hmax : n ≤ maxBytes)
    (hfresh : ∀ a ∈ answers, a ≠ 0 →
      FreshFor (s.chunks ++ others) a (s.bytesToGet (roundUp n * 20))) :
    ∃ r s' nodes', AllocState.allocate (depth + 2) s n answers = some (r, s') ∧
      Holds s' (r.toList.map (⟨·, roundUp n⟩) ++ live) others nodes' := by
  obtain ⟨hi, hsize⟩ := freelistIndex_small hn hmax
  unfold AllocState.allocate
  rw [if_neg (Nat.not_lt.mpr hmax)]
  dsimp only
  by_cases hempty : s.freeList (freelistIndex n) = 0
  · rw [if_pos hempty, ← hsize]
    exact refill_spec depth h hi hempty (hsize ▸ hfresh)
  · rw [if_neg hempty, ← hsize]
    exact ⟨_, _, _, rfl, (h.pop hempty).2⟩

/-- A large block comes from `malloc`. -/
theorem allocate_large (h : Holds s live others nodes) (hmax : maxBytes < n)
    (hfresh : ∀ a ∈ answers, a ≠ 0 → FreshFor (s.chunks ++ others) a n) :
    ∃ r, AllocState.allocate depth s n answers = some (r, s) ∧ (∀ p ∈ r, 0 < p) ∧
      Holds s live (r.toList.map (⟨·, n⟩) ++ others) nodes := by
  unfold AllocState.allocate
  rw [if_pos hmax]
  rcases hresult : mallocAllocate answers with - | ⟨p, rest⟩
  · exact ⟨none, rfl, nofun, h⟩
  · obtain ⟨hmem, hne⟩ := mallocAllocate_mem hresult
    obtain ⟨hp, hend, hapart⟩ := hfresh p hmem hne
    refine ⟨some p, rfl, ?_, ?_⟩
    · rintro q ⟨⟩
      exact hp
    · have hperm : (⟨p, n⟩ :: (s.chunks ++ others)).Perm (s.chunks ++ ⟨p, n⟩ :: others) :=
        List.perm_middle.symm
      exact { h with
        apart := hperm.pairwise (List.pairwise_cons.mpr ⟨hapart, h.apart⟩) fun hef => hef.symm }

/-! ## More depth -/

theorem refill_le {depth' : Nat} {r : Option Nat} (hle : depth ≤ depth')
    (h : AllocState.refill depth s n answers = some (r, s')) :
    AllocState.refill depth' s n answers = some (r, s') := by
  unfold AllocState.refill at h ⊢
  rcases hcall : AllocState.chunkAlloc depth s n 20 answers with - | ⟨c, s₁⟩
  · rw [hcall] at h
    cases h
  · rw [hcall] at h
    rw [chunkAlloc_le hle hcall]
    exact h

theorem allocate_le {depth' : Nat} {r : Option Nat} (hle : depth ≤ depth')
    (h : AllocState.allocate depth s n answers = some (r, s')) :
    AllocState.allocate depth' s n answers = some (r, s') := by
  unfold AllocState.allocate at h ⊢
  dsimp only at h ⊢
  by_cases hmax : maxBytes < n
  · rwa [if_pos hmax] at h ⊢
  rw [if_neg hmax] at h ⊢
  by_cases hempty : s.freeList (freelistIndex n) = 0
  · rw [if_pos hempty] at h ⊢
    exact refill_le hle h
  · rwa [if_neg hempty] at h ⊢

theorem reallocate_le {depth' newSz : Nat} {r : Option Nat} (hle : depth ≤ depth')
    (h : AllocState.reallocate depth s p n newSz answers = some (r, s')) :
    AllocState.reallocate depth' s p n newSz answers = some (r, s') := by
  unfold AllocState.reallocate at h ⊢
  dsimp only at h ⊢
  by_cases hlarge : maxBytes < n ∧ maxBytes < newSz
  · rwa [if_pos hlarge] at h ⊢
  rw [if_neg hlarge] at h ⊢
  by_cases hsame : roundUp n = roundUp newSz
  · rwa [if_pos hsame] at h ⊢
  rw [if_neg hsame] at h ⊢
  rcases hcall : AllocState.allocate depth s newSz answers with - | ⟨c, s₁⟩
  · rw [hcall] at h
    cases h
  · rw [hcall] at h
    rw [allocate_le hle hcall]
    exact h

end Rtfsc.Stl
