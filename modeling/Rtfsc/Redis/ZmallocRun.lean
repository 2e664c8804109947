import Mathlib.Algebra.Order.Ring.Nat
import Rtfsc.Machine.Extents
import Rtfsc.Redis.Zmalloc

/-!
# redis: what zmalloc counts

The blocks are apart, and begin at multiples of `sizeof(long)`, so that what they take is apart too: its sum is
below the modulus of `size_t`, and neither the padding nor `used_memory` wraps. What can wrap is
`size+PREFIX_SIZE`.
-/

namespace Rtfsc.Redis

open Rtfsc.Machine

/-! ## Sizes -/

namespace Platform

variable {P : Platform} {n c size : Nat}

theorem long_pos : 0 < P.sizeofLong := by
  obtain ⟨k, hk⟩ := P.long_pow
  rw [hk]
  exact Nat.two_pow_pos k

theorem prefix_pos : 0 < P.prefixSize := P.size_pos.trans_le P.size_le

theorem prefix_lt_modulus : P.prefixSize < P.modulus := P.prefix_lt

theorem long_le_prefix : P.sizeofLong ≤ P.prefixSize := Nat.le_of_dvd prefix_pos P.long_dvd

theorem long_dvd_modulus : P.sizeofLong ∣ P.modulus := by
  obtain ⟨k, hk⟩ := P.long_pow
  have hmod : P.modulus = 2 ^ (8 * P.sizeofSize) := by
    rw [modulus, Nat.pow_mul]
  have hlt : 2 ^ k < 2 ^ (8 * P.sizeofSize) := by
    rw [← hk, ← hmod]
    exact long_le_prefix.trans_lt prefix_lt_modulus
  rw [hk, hmod]
  exact Nat.pow_dvd_pow 2 ((Nat.pow_lt_pow_iff_right (by decide)).mp hlt).le

theorem plusPrefix_eq (h : size + P.prefixSize < P.modulus) : P.plusPrefix size = size + P.prefixSize :=
  Nat.mod_eq_of_lt h

theorem and_long (n : Nat) : n &&& (P.sizeofLong - 1) = n % P.sizeofLong := by
  obtain ⟨k, hk⟩ := P.long_pow
  rw [hk, Nat.and_two_pow_sub_one_eq_mod]

/-- What is added to a size to make it a multiple of `sizeof(long)`. -/
def padding (P : Platform) (n : Nat) : Nat :=
  if n % P.sizeofLong = 0 then 0 else P.sizeofLong - n % P.sizeofLong

theorem padded_eq (h : n + P.padding n < P.modulus) : P.padded n = n + P.padding n := by
  unfold padding at *
  rw [padded, and_long]
  split
  next hne => rw [if_neg hne] at *; exact Nat.mod_eq_of_lt h
  next heq => rw [if_pos (not_not.mp heq), Nat.add_zero]

theorem padding_add : P.padding (size + P.prefixSize) = P.padding size := by
  have hmod : (size + P.prefixSize) % P.sizeofLong = size % P.sizeofLong := by
    rw [Nat.add_mod, Nat.mod_eq_zero_of_dvd P.long_dvd, Nat.add_zero, Nat.mod_mod]
  rw [padding, padding, hmod]

theorem taken_eq : Heap.taken P size = size + P.prefixSize + P.padding size := by
  obtain ⟨n, hn⟩ : ∃ n, size + P.prefixSize = n := ⟨_, rfl⟩
  have hpos : 0 < P.sizeofLong := long_pos
  have hdiv : n / P.sizeofLong * P.sizeofLong + n % P.sizeofLong = n := Nat.div_add_mod' ..
  have hsplit : n + (P.sizeofLong - 1) =
      n % P.sizeofLong + (P.sizeofLong - 1) + n / P.sizeofLong * P.sizeofLong := by omega
  rw [Heap.taken, ← padding_add, hn, hsplit, Nat.add_mul_div_right _ _ hpos, Nat.add_mul, padding]
  split
  next heq =>
    rw [heq, Nat.div_eq_of_lt (by omega)]
    omega
  next hne =>
    have hlt : n % P.sizeofLong < P.sizeofLong := Nat.mod_lt _ hpos
    have hone : (n % P.sizeofLong + (P.sizeofLong - 1)) / P.sizeofLong = 1 :=
      Nat.div_eq_of_lt_le (by omega) (by omega)
    rw [hone]
    omega

theorem padded_plusPrefix (h : Heap.taken P size < P.modulus) :
    P.padded (P.plusPrefix size) = Heap.taken P size := by
  rw [taken_eq] at *
  rw [plusPrefix_eq (by omega), padded_eq (by rwa [padding_add]), padding_add]

/-- Without the prefix, the rest is counted. -/
theorem padded_size (h : Heap.taken P size < P.modulus) :
    P.padded size + P.prefixSize = Heap.taken P size := by
  rw [taken_eq] at *
  rw [padded_eq (by omega)]
  omega

theorem taken_le (hc : P.sizeofLong ∣ c) (h : size + P.prefixSize ≤ c) : Heap.taken P size ≤ c := by
  obtain ⟨j, rfl⟩ := hc
  rw [Heap.taken, Nat.mul_comm P.sizeofLong]
  refine Nat.mul_le_mul_right _ (Nat.lt_succ_iff.mp ?_)
  rw [Nat.div_lt_iff_lt_mul long_pos, Nat.succ_mul, Nat.mul_comm]
  have hpos : 0 < P.sizeofLong := long_pos
  omega

end Platform

/-! ## Where the blocks are -/

namespace Heap

/-- A block with room for its size, at a multiple of `sizeof(long)`. -/
structure Placed (P : Platform) (a : Nat) (b : Block) : Prop where
  pos : 0 < a
  dvd : P.sizeofLong ∣ a
  lt : a + b.len < P.modulus
  room : P.prefixSize + b.size ≤ b.len

/-- The blocks are placed, and apart. -/
structure Laid (P : Platform) (blocks : Table Nat Block) : Prop where
  placed : ∀ a b, blocks.lookup a = some b → Placed P a b
  apart : ∀ a b a' b', blocks.lookup a = some b → blocks.lookup a' = some b' → a ≠ a' →
    a + b.len ≤ a' ∨ a' + b'.len ≤ a

variable {P : Platform} {blocks : Table Nat Block} {a a' : Nat} {b b' : Block} {answer : Answer}
  {size : Nat}

/-- What a block takes ends where no other block has begun. -/
theorem Placed.taken_le (h : Placed P a b) {c : Nat} (hc : P.sizeofLong ∣ c) (hle : a + b.len ≤ c) :
    a + taken P b.size ≤ c := by
  have hroom := h.room
  have hsub : taken P b.size ≤ c - a := Platform.taken_le (Nat.dvd_sub hc h.dvd) (by omega)
  omega

theorem Placed.taken_lt (h : Placed P a b) : taken P b.size < P.modulus := by
  have hle := h.taken_le Platform.long_dvd_modulus h.lt.le
  have hpos := h.pos
  omega

theorem Laid.empty : Laid P ∅ :=
  ⟨fun _ _ h => (nomatch h), fun _ _ _ _ h => (nomatch h)⟩

theorem Laid.erase (h : Laid P blocks) : Laid P (blocks.erase a) := by
  have hsub {c : Nat} {d : Block} (hd : (blocks.erase a).lookup c = some d) : blocks.lookup c = some d := by
    rw [lookup_erase_eq] at hd
    split at hd
    · cases hd
    · exact hd
  exact ⟨fun c d hd => h.placed c d (hsub hd),
    fun c d c' d' hd hd' hne => h.apart c d c' d' (hsub hd) (hsub hd') hne⟩

/-- What the blocks take together is below the modulus: it is apart, like the blocks. -/
theorem Laid.total_lt (h : Laid P blocks) : total (fun _ b => taken P b.size) blocks < P.modulus := by
  have hlookup (e : Sigma fun _ : Nat => Block) (he : e ∈ blocks.entries) : blocks.lookup e.1 = some e.2 :=
    AList.mem_lookup_iff.mpr he
  have hin : ∀ e ∈ blocks.entries.map fun e => Extent.mk e.1 (taken P e.2.size),
      1 ≤ e.addr ∧ e.addr + e.len ≤ P.modulus := by
    intro x hx
    obtain ⟨e, he, rfl⟩ := List.mem_map.mp hx
    have hplaced := h.placed _ _ (hlookup e he)
    exact ⟨hplaced.pos, hplaced.taken_le Platform.long_dvd_modulus hplaced.lt.le⟩
  have hapart : (blocks.entries.map fun e => Extent.mk e.1 (taken P e.2.size)).Pairwise Extent.Apart := by
    refine List.pairwise_map.mpr ((List.nodupKeys_iff_pairwise.mp blocks.nodupKeys).imp_of_mem ?_)
    intro e f he hf hne b heb hfb
    have hpe := h.placed _ _ (hlookup e he)
    have hpf := h.placed _ _ (hlookup f hf)
    rcases h.apart _ _ _ _ (hlookup e he) (hlookup f hf) hne with hle | hle
    · have hend := hpe.taken_le hpf.dvd hle
      exact absurd hfb.1 (Nat.not_le.mpr (heb.2.trans_le hend))
    · have hend := hpf.taken_le hpe.dvd hle
      exact absurd heb.1 (Nat.not_le.mpr (hfb.2.trans_le hend))
  have hsum := sum_len_le 1 P.modulus hin hapart
  rw [List.map_map] at hsum
  have hpos : 0 < P.modulus := Nat.zero_lt_of_lt Platform.prefix_lt_modulus
  calc total (fun _ b => taken P b.size) blocks ≤ P.modulus - 1 := hsum
    _ < P.modulus := Nat.sub_lt hpos Nat.one_pos

/-- A block that the C library has granted. -/
theorem Laid.insert (h : Laid P blocks) (hgranted : Granted P blocks (P.plusPrefix size) answer)
    (hnull : answer.ptr ≠ 0) (hfits : size + P.prefixSize < P.modulus) :
    Laid P (blocks.insert answer.ptr ⟨answer.len, size⟩) := by
  obtain ⟨hlen, hdvd, hlt, -, hapart⟩ := hgranted.resolve_left hnull
  rw [Platform.plusPrefix_eq hfits] at hlen
  have hnew {c : Nat} {d : Block} (hd : blocks.lookup c = some d) :
      answer.ptr + answer.len ≤ c ∨ c + d.len ≤ answer.ptr := hapart ⟨c, d⟩ (AList.mem_lookup_iff.mp hd)
  constructor
  · intro c d hd
    rw [lookup_insert_eq] at hd
    split at hd
    next heq =>
      obtain rfl := Option.some.inj hd
      subst heq
      exact ⟨Nat.pos_of_ne_zero hnull, hdvd, hlt, Nat.add_comm .. ▸ hlen⟩
    next => exact h.placed c d hd
  · intro c d c' d' hd hd' hne
    rw [lookup_insert_eq] at hd hd'
    split at hd
    next heq =>
      obtain rfl := Option.some.inj hd
      subst heq
      rw [if_neg hne.symm] at hd'
      exact hnew hd'
    next =>
      split at hd'
      next heq =>
        obtain rfl := Option.some.inj hd'
        subst heq
        exact (hnew hd).symm
      next => exact h.apart c d c' d' hd hd' hne

end Heap

/-! ## What the functions count and write -/

namespace Zmalloc

variable {P : Platform} {z : Zmalloc} {n : Nat}

@[simp] theorem memory_updateZmallocStatAlloc : (z.updateZmallocStatAlloc P n).memory = z.memory := by
  unfold updateZmallocStatAlloc
  split <;> rfl

@[simp] theorem memory_updateZmallocStatFree : (z.updateZmallocStatFree P n).memory = z.memory := by
  unfold updateZmallocStatFree
  split <;> rfl

/-- What is counted, while the sum is below the modulus. -/
theorem updateZmallocStatAlloc_counts {k : Nat} (hk : P.padded n = k) (h : z.usedMemory + k < P.modulus) :
    (z.updateZmallocStatAlloc P n).usedMemory = z.usedMemory + k ∧
      (z.updateZmallocStatAlloc P n).wrapped = z.wrapped := by
  have hplus : (z.usedMemory + k) % P.modulus = z.usedMemory + k := Nat.mod_eq_of_lt h
  have hwrapped : (z.wrapped || decide (P.modulus ≤ z.usedMemory + k)) = z.wrapped := by
    rw [decide_eq_false (Nat.not_le.mpr h), Bool.or_false]
  subst hk
  unfold updateZmallocStatAlloc
  split <;> exact ⟨hplus, hwrapped⟩

/-- What is left of the count. -/
theorem updateZmallocStatFree_counts {k r : Nat} (hk : P.padded n = k) (h : z.usedMemory = r + k)
    (hlt : z.usedMemory < P.modulus) :
    (z.updateZmallocStatFree P n).usedMemory = r ∧ (z.updateZmallocStatFree P n).wrapped = z.wrapped := by
  have hminus : (z.usedMemory + (P.modulus - k)) % P.modulus = r := by
    have hsum : z.usedMemory + (P.modulus - k) = r + P.modulus := by omega
    rw [hsum, Nat.add_mod_right, Nat.mod_eq_of_lt (by omega)]
  have hwrapped : (z.wrapped || decide (z.usedMemory < k)) = z.wrapped := by
    rw [decide_eq_false (by omega), Bool.or_false]
  subst hk
  unfold updateZmallocStatFree
  split <;> exact ⟨hminus, hwrapped⟩

end Zmalloc

/-! ## The invariant -/

namespace Heap

/-- The prefixes hold the sizes of the blocks. -/
def Stored (P : Platform) (memory : Machine.Memory) (blocks : Table Nat Block) : Prop :=
  ∀ a b, blocks.lookup a = some b → memory.load a P.sizeofSize = b.size

structure Inv (P : Platform) (h : Heap) : Prop where
  laid : Laid P h.blocks
  stored : Stored P h.z.memory h.blocks
  used : h.z.usedMemory = total (fun _ b => taken P b.size) h.blocks
  not_wrapped : h.z.wrapped = false

variable {P : Platform} {h h₁ : Heap} {z : Zmalloc} {blocks : Table Nat Block} {answer : Answer}
  {memory memory' : Machine.Memory} {a size ptr : Nat} {b : Block}

theorem Inv.sound (h' : Inv P h) : Sound P h where
  room a b hb := (h'.laid.placed a b hb).room
  stored := h'.stored
  used := h'.used
  freed hempty := by rw [h'.used, hempty, total_empty]
  not_wrapped := h'.not_wrapped

theorem start_inv : Inv P (start memory) :=
  ⟨Laid.empty, fun _ _ h => (nomatch h), rfl, rfl⟩

theorem Stored.erase (h : Stored P memory blocks) : Stored P memory (blocks.erase a) := by
  intro c d hd
  rw [lookup_erase_eq] at hd
  split at hd
  · cases hd
  · exact h c d hd

/-- The size is written to the prefix of a block that has been granted, whatever the C library has put in it. -/
theorem Stored.insert (h : Stored P memory blocks) (hlaid : Laid P blocks)
    (hgranted : Granted P blocks (P.plusPrefix size) answer) (hnull : answer.ptr ≠ 0)
    (hfits : size + P.prefixSize < P.modulus)
    (hout : ∀ b, b < answer.ptr ∨ answer.ptr + answer.len ≤ b → memory' b = memory b) :
    Stored P (memory'.store answer.ptr size P.sizeofSize) (blocks.insert answer.ptr ⟨answer.len, size⟩) := by
  obtain ⟨hlen, -, -, -, hapart⟩ := hgranted.resolve_left hnull
  rw [Platform.plusPrefix_eq hfits] at hlen
  have hsize := P.size_le
  intro c d hd
  rw [lookup_insert_eq] at hd
  split at hd
  next heq =>
    obtain rfl := Option.some.inj hd
    subst heq
    exact Machine.Memory.load_store (Nat.lt_of_add_right_lt hfits)
  next =>
    have hroom := (hlaid.placed c d hd).room
    rw [← h c d hd]
    refine Machine.Memory.load_congr fun i hle hlt => ?_
    have hin : i < answer.ptr ∨ answer.ptr + answer.len ≤ i := by
      rcases hapart ⟨c, d⟩ (AList.mem_lookup_iff.mp hd) with hbefore | hafter
      · exact .inr (hbefore.trans hle)
      · exact .inl (by dsimp only at hafter; omega)
    rw [Machine.Memory.store_outside (by omega), hout i hin]

/-- A block is there after a call. -/
theorem Inv.grant (hlaid : Laid P blocks) (hstored : Stored P memory blocks)
    (hgranted : Granted P blocks (P.plusPrefix size) answer) (hnull : answer.ptr ≠ 0)
    (hfits : size + P.prefixSize < P.modulus)
    (hout : ∀ b, b < answer.ptr ∨ answer.ptr + answer.len ≤ b → memory' b = memory b)
    (hmemory : z.memory = memory'.store answer.ptr size P.sizeofSize)
    (hused : z.usedMemory = total (fun _ b => taken P b.size) blocks + taken P size)
    (hwrapped : z.wrapped = false) :
    Inv P ⟨z, blocks.insert answer.ptr ⟨answer.len, size⟩⟩ := by
  obtain ⟨-, -, -, hnew, -⟩ := hgranted.resolve_left hnull
  refine ⟨hlaid.insert hgranted hnull hfits, ?_, ?_, hwrapped⟩
  · show Stored P z.memory _
    rw [hmemory]
    exact hstored.insert hlaid hgranted hnull hfits hout
  · show z.usedMemory = _
    rw [hused, total_insert_new hnew, Nat.add_comm]

/-- With one block more, the sum is still below the modulus. -/
theorem Laid.insert_total_lt (h : Laid P blocks) (hgranted : Granted P blocks (P.plusPrefix size) answer)
    (hnull : answer.ptr ≠ 0) (hfits : size + P.prefixSize < P.modulus) :
    total (fun _ b => taken P b.size) blocks + taken P size < P.modulus := by
  obtain ⟨-, -, -, hnew, -⟩ := hgranted.resolve_left hnull
  have hlt := (h.insert hgranted hnull hfits).total_lt
  rwa [total_insert_new hnew, Nat.add_comm] at hlt

/-- `zmalloc` and `zcalloc` return. -/
theorem Inv.new (hinv : Inv P h) (hgranted : Granted P h.blocks (P.plusPrefix size) answer)
    (hnull : answer.ptr ≠ 0) (hfits : size + P.prefixSize < P.modulus)
    (hout : ∀ b, b < answer.ptr ∨ answer.ptr + answer.len ≤ b → memory b = h.z.memory b) :
    Inv P ⟨({ h.z with memory := memory }.setSize P answer.ptr size).updateZmallocStatAlloc P
      (P.plusPrefix size), h.blocks.insert answer.ptr ⟨answer.len, size⟩⟩ := by
  have hlt := hinv.laid.insert_total_lt hgranted hnull hfits
  have htaken : taken P size < P.modulus := Nat.lt_of_add_left_lt hlt
  obtain ⟨hused, hwrapped⟩ := Zmalloc.updateZmallocStatAlloc_counts
    (z := { h.z with memory := memory }.setSize P answer.ptr size) (Platform.padded_plusPrefix htaken)
    (hinv.used ▸ hlt)
  refine Inv.grant hinv.laid hinv.stored hgranted hnull hfits hout
    Zmalloc.memory_updateZmallocStatAlloc ?_ (hwrapped.trans hinv.not_wrapped)
  rw [hused]
  exact congrArg (· + _) hinv.used

/-- `zrealloc` of a block returns. -/
theorem Inv.replaced (hinv : Inv P h) (hold : h.blocks.lookup a = some b)
    (hgranted : Granted P (h.blocks.erase a) (P.plusPrefix size) answer) (hnull : answer.ptr ≠ 0)
    (hfits : size + P.prefixSize < P.modulus)
    (hout : ∀ b, b < answer.ptr ∨ answer.ptr + answer.len ≤ b → memory b = h.z.memory b) :
    Inv P ⟨(({ h.z with memory := memory }.setSize P answer.ptr size).updateZmallocStatFree P
      b.size).updateZmallocStatAlloc P size, (h.blocks.erase a).insert answer.ptr ⟨answer.len, size⟩⟩ := by
  have hlaid : Laid P (h.blocks.erase a) := hinv.laid.erase
  have hlt := hlaid.insert_total_lt hgranted hnull hfits
  have htaken : taken P size < P.modulus := Nat.lt_of_add_left_lt hlt
  have hpadded := Platform.padded_size htaken
  have hpaddedOld := Platform.padded_size (hinv.laid.placed a b hold).taken_lt
  have htotal := total_of_lookup hold fun _ b => taken P b.size
  have hbefore := hinv.used
  have hbound := hinv.laid.total_lt
  -- in between, the prefix is counted still
  obtain ⟨husedFree, hwrappedFree⟩ := Zmalloc.updateZmallocStatFree_counts
    (P := P) (z := { h.z with memory := memory }.setSize P answer.ptr size) (n := b.size)
    (r := P.prefixSize + total (fun _ b => taken P b.size) (h.blocks.erase a)) rfl
    (show h.z.usedMemory = _ by omega) (show h.z.usedMemory < _ by omega)
  obtain ⟨hused, hwrapped⟩ := Zmalloc.updateZmallocStatAlloc_counts
    (z := ({ h.z with memory := memory }.setSize P answer.ptr size).updateZmallocStatFree P b.size)
    (n := size) (P := P) rfl (by omega)
  refine Inv.grant hlaid hinv.stored.erase hgranted hnull hfits hout ?_ (by omega)
    ((hwrapped.trans hwrappedFree).trans hinv.not_wrapped)
  rw [Zmalloc.memory_updateZmallocStatAlloc, Zmalloc.memory_updateZmallocStatFree]
  rfl

/-- `zfree` of a block. -/
theorem Inv.released (hinv : Inv P h) (hold : h.blocks.lookup a = some b) :
    Inv P ⟨h.z.updateZmallocStatFree P (P.plusPrefix b.size), h.blocks.erase a⟩ := by
  have htotal := total_of_lookup hold fun _ b => taken P b.size
  have hbefore := hinv.used
  have hbound := hinv.laid.total_lt
  obtain ⟨hused, hwrapped⟩ := Zmalloc.updateZmallocStatFree_counts (z := h.z)
    (Platform.padded_plusPrefix (hinv.laid.placed a b hold).taken_lt)
    (r := total (fun _ b => taken P b.size) (h.blocks.erase a)) (by omega) (by omega)
  refine ⟨hinv.laid.erase, ?_, hused, hwrapped.trans hinv.not_wrapped⟩
  show Stored P (h.z.updateZmallocStatFree P (P.plusPrefix b.size)).memory _
  rw [Zmalloc.memory_updateZmallocStatFree]
  exact hinv.stored.erase

/-! ## What a step can do -/

/-- A call that has returned a new block, whatever `calloc` has written to it. -/
theorem exec_zmalloc {e : Event} (he : e = .zmalloc size answer ∨ e = .zcalloc size answer)
    (h' : h.exec P e = some h₁) :
    size < P.modulus ∧ Granted P h.blocks (P.plusPrefix size) answer ∧ answer.ptr ≠ 0 ∧
      ∃ memory : Machine.Memory,
        (∀ b, b < answer.ptr ∨ answer.ptr + P.plusPrefix size ≤ b → memory b = h.z.memory b) ∧
        h₁ = ⟨({ h.z with memory := memory }.setSize P answer.ptr size).updateZmallocStatAlloc P
          (P.plusPrefix size), h.blocks.insert answer.ptr ⟨answer.len, size⟩⟩ := by
  rcases he with rfl | rfl
  · rw [exec] at h'
    split at h'
    next hcan =>
      rw [Zmalloc.zmalloc] at h'
      split at h'
      · cases h'
      next hnull =>
        obtain rfl := Option.some.inj h'
        refine ⟨hcan.1, hcan.2, hnull, h.z.memory, fun _ _ => rfl, ?_⟩
        rw [returned, Nat.add_sub_cancel]
    · cases h'
  · rw [exec] at h'
    split at h'
    next hcan =>
      simp only [Zmalloc.zcalloc] at h'
      split at h'
      · cases h'
      next hnull =>
        obtain rfl := Option.some.inj h'
        refine ⟨hcan.1, hcan.2, hnull, zeroed h.z.memory answer.ptr (1 * P.plusPrefix size), ?_, ?_⟩
        · intro b hb
          rw [zeroed, if_neg (by omega)]
        · rw [returned, Nat.add_sub_cancel]
    · cases h'

/-- `realloc` of a block has returned. -/
theorem exec_zrealloc (hptr : ptr ≠ 0) (h' : h.exec P (.zrealloc ptr size answer) = some h₁) :
    ∃ a b, h.blocks.lookup a = some b ∧ Granted P (h.blocks.erase a) (P.plusPrefix size) answer ∧
      answer.ptr ≠ 0 ∧ ∃ memory : Machine.Memory,
        (∀ b, b < answer.ptr ∨ answer.ptr + P.plusPrefix size ≤ b → memory b = h.z.memory b) ∧
        h₁ = ⟨(({ h.z with memory := memory }.setSize P answer.ptr size).updateZmallocStatFree P
          (h.z.size P a)).updateZmallocStatAlloc P size,
          (h.blocks.erase a).insert answer.ptr ⟨answer.len, size⟩⟩ := by
  rw [exec] at h'
  simp only [hptr, if_false, false_or] at h'
  split at h'
  next hcan =>
    obtain ⟨-, hlive, hgranted⟩ := hcan
    obtain ⟨b, hb⟩ := Option.isSome_iff_exists.mp hlive.2
    simp only [Zmalloc.zrealloc, hptr, if_false] at h'
    split at h'
    · cases h'
    next hnull =>
      obtain rfl := Option.some.inj h'
      refine ⟨ptr - P.prefixSize, b, hb, hgranted, hnull, h.z.memory.copy answer.ptr (ptr - P.prefixSize)
        (((h.blocks.lookup (ptr - P.prefixSize)).map Block.len).getD 0 |>.min (P.plusPrefix size)), ?_, ?_⟩
      · intro c hc
        refine Machine.Memory.copy_outside (hc.imp_right fun hle => (Nat.add_le_add_left ?_ _).trans hle)
        exact Nat.min_le_right ..
      · rw [returned, Nat.add_sub_cancel]
  · cases h'

/-- `zrealloc(NULL, size)` is `zmalloc`. -/
theorem exec_zrealloc_null (h' : h.exec P (.zrealloc 0 size answer) = some h₁) :
    h.exec P (.zmalloc size answer) = some h₁ := by
  simpa [exec, Zmalloc.zrealloc] using h'

/-- `zfree` of a block. -/
theorem exec_zfree (hptr : ptr ≠ 0) (h' : h.exec P (.zfree ptr) = some h₁) :
    ∃ a b, h.blocks.lookup a = some b ∧
      h₁ = ⟨h.z.updateZmallocStatFree P (P.plusPrefix (h.z.size P a)), h.blocks.erase a⟩ := by
  rw [exec] at h'
  simp only [hptr, false_or] at h'
  split at h'
  next hlive =>
    obtain ⟨b, hb⟩ := Option.isSome_iff_exists.mp hlive.2
    obtain rfl := Option.some.inj h'
    refine ⟨ptr - P.prefixSize, b, hb, ?_⟩
    simp only [Zmalloc.zfree, hptr, if_false, Option.elim_some]
  · cases h'

theorem Inv.exec_zmalloc {e : Event} (hinv : Inv P h) (he : e = .zmalloc size answer ∨ e = .zcalloc size answer)
    (hfits : size + P.prefixSize < P.modulus) (h' : h.exec P e = some h₁) : Inv P h₁ := by
  obtain ⟨-, hgranted, hnull, memory, hout, rfl⟩ := Heap.exec_zmalloc he h'
  have hlen := (hgranted.resolve_left hnull).1
  exact hinv.new hgranted hnull hfits fun b hb => hout b (hb.imp_right (Nat.add_le_add_left hlen _).trans)

/-- A step keeps the invariant, if the prefix fits in the size that is asked for. -/
theorem Inv.exec {e : Event} (hinv : Inv P h) (hfits : e.Fits P) (h' : h.exec P e = some h₁) : Inv P h₁ := by
  cases e with
  | zmalloc size answer => exact hinv.exec_zmalloc (.inl rfl) hfits h'
  | zcalloc size answer => exact hinv.exec_zmalloc (.inr rfl) hfits h'
  | zrealloc ptr size answer =>
    by_cases hptr : ptr = 0
    · subst hptr
      exact hinv.exec_zmalloc (.inl rfl) hfits (exec_zrealloc_null h')
    · obtain ⟨a, b, hb, hgranted, hnull, memory, hout, rfl⟩ := exec_zrealloc hptr h'
      have hlen := (hgranted.resolve_left hnull).1
      have hsize : h.z.size P a = b.size := hinv.stored a b hb
      rw [hsize]
      exact hinv.replaced hb hgranted hnull hfits fun c hc =>
        hout c (hc.imp_right (Nat.add_le_add_left hlen _).trans)
  | zfree ptr =>
    by_cases hptr : ptr = 0
    · subst hptr
      have hsame : some h = some h₁ := h'
      exact Option.some.inj hsame ▸ hinv
    · obtain ⟨a, b, hb, rfl⟩ := exec_zfree hptr h'
      have hsize : h.z.size P a = b.size := hinv.stored a b hb
      rw [hsize]
      exact hinv.released hb
  | enableThreadSafeness =>
    obtain rfl := Option.some.inj h'
    exact ⟨hinv.laid, hinv.stored, hinv.used, hinv.not_wrapped⟩
  | write memory =>
    rw [Heap.exec] at h'
    split at h'
    next hkeeps =>
      obtain rfl := Option.some.inj h'
      refine ⟨hinv.laid, fun a b hb => ?_, hinv.used, hinv.not_wrapped⟩
      rw [← hinv.stored a b hb]
      exact hkeeps ⟨a, b⟩ (AList.mem_lookup_iff.mp hb)
    · cases h'

/-- No block has room for a size that the prefix does not fit in. -/
theorem not_sound_insert {n : Nat} (hgranted : Granted P blocks n answer) (hnull : answer.ptr ≠ 0)
    (hfits : ¬size + P.prefixSize < P.modulus) :
    ¬Sound P ⟨z, blocks.insert answer.ptr ⟨answer.len, size⟩⟩ := by
  intro hsound
  obtain ⟨-, -, hlt, -, -⟩ := hgranted.resolve_left hnull
  have hroom := hsound.room answer.ptr ⟨answer.len, size⟩ (AList.lookup_insert blocks)
  dsimp only at hroom
  omega

/-- A call that returns although the prefix does not fit has returned such a block. -/
theorem not_sound_exec {e : Event} (hfits : ¬e.Fits P) (h' : h.exec P e = some h₁) : ¬Sound P h₁ := by
  cases e with
  | zmalloc size answer =>
    obtain ⟨-, hgranted, hnull, memory, -, rfl⟩ := exec_zmalloc (.inl rfl) h'
    exact not_sound_insert hgranted hnull hfits
  | zcalloc size answer =>
    obtain ⟨-, hgranted, hnull, memory, -, rfl⟩ := exec_zmalloc (.inr rfl) h'
    exact not_sound_insert hgranted hnull hfits
  | zrealloc ptr size answer =>
    by_cases hptr : ptr = 0
    · subst hptr
      obtain ⟨-, hgranted, hnull, memory, -, rfl⟩ := exec_zmalloc (.inl rfl) (exec_zrealloc_null h')
      exact not_sound_insert hgranted hnull hfits
    · obtain ⟨a, b, -, hgranted, hnull, memory, -, rfl⟩ := exec_zrealloc hptr h'
      exact not_sound_insert hgranted hnull hfits
  | zfree ptr => exact absurd trivial hfits
  | enableThreadSafeness => exact absurd trivial hfits
  | write memory => exact absurd trivial hfits

/-- The calls of a program, one after the other. -/
abbrev Calls (P : Platform) : Heap → List Event → Heap → Prop := Run fun h e h' => h.exec P e = some h'

/-- While every size fits, the invariant holds. -/
theorem Inv.run {es : List Event} (hrun : Calls P (start memory) es h) (hfits : ∀ e ∈ es, e.Fits P) :
    Inv P h := by
  induction hrun with
  | nil => exact start_inv
  | snoc _ he ih =>
    exact (ih fun e he => hfits e (List.mem_append_left _ he)).exec
      (hfits _ (List.mem_append_right _ (List.mem_singleton_self _))) he

/-- Every state on the way is sound exactly when all sizes that were asked for fit. -/
theorem sound_iff_fits {es : List Event} (hrun : Calls P (start memory) es h) :
    (∀ es₁ es₂ h₁, es = es₁ ++ es₂ → Calls P (start memory) es₁ h₁ → Sound P h₁) ↔ ∀ e ∈ es, e.Fits P := by
  constructor
  · intro hsound e he
    by_contra hfits
    obtain ⟨es₁, es₂, rfl⟩ := List.append_of_mem he
    obtain ⟨t, hfirst, hrest⟩ := hrun.split
    obtain ⟨u, hstep, -⟩ := hrest.uncons
    have hparts : es₁ ++ e :: es₂ = (es₁ ++ [e]) ++ es₂ := by rw [List.append_assoc, List.singleton_append]
    exact not_sound_exec hfits hstep (hsound _ es₂ u hparts (hfirst.snoc hstep))
  · rintro hfits es₁ es₂ h₁ rfl hrun₁
    exact (Inv.run hrun₁ fun e he => hfits e (List.mem_append_left _ he)).sound

/-- Sizes of 64 bits. -/
def lp64 : Platform where
  sizeofSize := 8
  sizeofLong := 8
  prefixSize := 8
  long_pow := ⟨3, rfl⟩
  long_dvd := Nat.dvd_refl 8
  size_pos := by decide
  size_le := Nat.le_refl 8
  prefix_lt := by decide

/-- A block is allocated, moved and freed, and another one with it. -/
theorem sound_iff_fits_moved :
    ∃ h, Calls lp64 (start fun _ => 0)
      [.zmalloc 10 ⟨0x1000, 24⟩, .enableThreadSafeness, .zrealloc 0x1008 100 ⟨0x2000, 108⟩,
        .zcalloc 5 ⟨0x1000, 16⟩, .zfree 0x2008, .zfree 0x1008] h ∧ Sound lp64 h ∧ h.z.usedMemory = 0 := by
  obtain ⟨h, hrun, hused⟩ := Run.exists_of_foldlM_option (fun h e => h.exec lp64 e) (start fun _ => 0)
    [.zmalloc 10 ⟨0x1000, 24⟩, .enableThreadSafeness, .zrealloc 0x1008 100 ⟨0x2000, 108⟩,
      .zcalloc 5 ⟨0x1000, 16⟩, .zfree 0x2008, .zfree 0x1008] (fun h => h.z.usedMemory)
    (b := 0) (by decide)
  refine ⟨h, hrun, ?_, hused⟩
  exact (sound_iff_fits hrun).mpr (by decide) _ [] h (List.append_nil _).symm hrun

/-- The request for the prefix and `2 ^ 64 - 8` bytes is one for no bytes, and can be granted. -/
theorem zmalloc_wraps :
    ∃ h, Calls lp64 (start fun _ => 0) [.zmalloc 0xfffffffffffffff8 ⟨0x1000, 24⟩] h ∧ ¬Sound lp64 h := by
  obtain ⟨h, hrun, hlookup⟩ := Run.exists_of_foldlM_option (fun h e => h.exec lp64 e) (start fun _ => 0)
    [.zmalloc 0xfffffffffffffff8 ⟨0x1000, 24⟩] (fun h => h.blocks.lookup 0x1000)
    (b := some ⟨24, 0xfffffffffffffff8⟩) (by decide)
  exact ⟨h, hrun, fun hsound => absurd (hsound.room 0x1000 _ hlookup) (by decide)⟩

end Heap

end Rtfsc.Redis
