import Mathlib.Tactic.Ring
import Rtfsc.Fio.Init
import Rtfsc.Fio.IoU

/-!
# fio: the random map

What the functions around `file_map` compute, in terms of the bits of the map. `mapPos` is the bit
of a block; marking sets the bits of a run of blocks, and choosing a block looks at the bits.
-/

namespace Rtfsc.Fio

open Rtfsc.Machine

/-- The bit `RAND_MAP_IDX` and `RAND_MAP_BIT` give to a block. -/
def mapPos (o : Options) (f : FioFile) (b : UInt64) : Nat :=
  let x := b - f.fileOffset / o.rwMinBs.toUInt64
  (x / 64).toUInt32.toNat * 64 + x.toNat % 64

theorem toUInt64_ne_zero {x : UInt32} (h : x ≠ 0) : x.toUInt64 ≠ 0 := by
  intro h0
  exact h (by simpa using congrArg UInt64.toUInt32 h0)

theorem toMapBlock_eq {o : Options} {f : FioFile} {b : UInt64} (h : o.rwMinBs ≠ 0) :
    toMapBlock o f b = .ok (b - f.fileOffset / o.rwMinBs.toUInt64) := by
  simp [toMapBlock, udiv, toUInt64_ne_zero h]

theorem toMapBlock_zero {o : Options} {f : FioFile} {b : UInt64} (h : o.rwMinBs = 0) :
    toMapBlock o f b = .error .divisionByZero := by
  simp [toMapBlock, udiv, h]

theorem randMapIdx_eq {o : Options} {f : FioFile} {b : UInt64} (h : o.rwMinBs ≠ 0) :
    ∃ idx, randMapIdx o f b = .ok idx ∧ idx.toNat = mapPos o f b / 64 := by
  refine ⟨_, by rw [randMapIdx, toMapBlock_eq h]; rfl, ?_⟩
  simp only [mapPos, blocksPerMap]
  omega

theorem randMapBit_eq {o : Options} {f : FioFile} {b : UInt64} (h : o.rwMinBs ≠ 0) :
    ∃ bit, randMapBit o f b = .ok bit ∧ bit.toNat = mapPos o f b % 64 := by
  refine ⟨_, by rw [randMapBit, toMapBlock_eq h]; rfl, ?_⟩
  have hm : blocksPerMap - 1 = 63 := rfl
  have hand := Nat.and_two_pow_sub_one_eq_mod (b - f.fileOffset / o.rwMinBs.toUInt64).toNat 6
  rw [hm, UInt64.toNat_and, mapPos]
  have h63 : (63 : UInt64).toNat = 2 ^ 6 - 1 := rfl
  rw [h63, hand]
  omega

theorem FileMap.read_eq (m : FileMap) (idx : UInt32) :
    m.read idx = if idx.toNat < m.numMaps.toNat then .ok (m.words.getD idx.toNat 0)
      else .error (.outOfBounds idx.toNat) := by
  unfold FileMap.read
  by_cases h : idx.toNat < m.words.length
  · rw [if_pos (m.sized ▸ h), List.getElem?_eq_getElem h, List.getD_eq_getElem _ _ h]
  · rw [if_neg (m.sized ▸ h), List.getElem?_eq_none (not_lt.mp h)]

/-- `random_map_free` reads the word of `mapPos` and tests its bit. -/
theorem randomMapFree_eq {o : Options} {f : FioFile} {b : UInt64} (h : o.rwMinBs ≠ 0) :
    randomMapFree o f b =
      if mapPos o f b / 64 < f.map.numMaps.toNat then
        .ok (!testBit f.map.words (mapPos o f b))
      else .error (.outOfBounds (mapPos o f b / 64)) := by
  obtain ⟨idx, hidx, hi⟩ := randMapIdx_eq (f := f) (b := b) h
  obtain ⟨bit, hbit, hb⟩ := randMapBit_eq (f := f) (b := b) h
  have hlt : bit.toNat < 64 := by omega
  have hz := and_bitMask_eq_zero (w := f.map.words.getD idx.toNat 0) hlt
  have hbeq : (f.map.words.getD idx.toNat 0 &&& bitMask bit == 0) =
      !testBit f.map.words (mapPos o f b) := by
    rw [Bool.eq_iff_iff, beq_iff_eq, hz, testBit, ← hi, ← hb]
    simp
  rw [randomMapFree, hidx, hbit]
  simp only [ok_bind, FileMap.read_eq, hi]
  by_cases hin : mapPos o f b / 64 < f.map.numMaps.toNat
  · rw [if_pos hin, if_pos hin, ← hi, ok_bind, hbeq]
    rfl
  · rw [if_neg hin, if_neg hin]
    rfl

theorem orWord_eq {o : Options} {f : FioFile} {b : UInt64} {idx : UInt32} {bit : UInt64}
    (hi : idx.toNat = mapPos o f b / 64) (hb : bit.toNat = mapPos o f b % 64) :
    (f.map.orWord idx (bitMask bit)).words = setBit f.map.words (mapPos o f b) := by
  have hbit : bit = UInt64.ofNat (mapPos o f b % 64) := by
    rw [← UInt64.toNat_inj, toNat_ofNat_mod64, hb]
  simp only [FileMap.orWord, setBit, hi, hbit]

/-- The file with the map bit of block `b` set. -/
def markBlock (o : Options) (f : FioFile) (b : UInt64) : FioFile :=
  { f with map := ⟨setBit f.map.words (mapPos o f b), f.map.numMaps,
      by rw [length_setBit]; exact f.map.sized⟩ }

/-- One round of the loop of `mark_random_map`. -/
theorem markRandomMapLoop_succ {o : Options} {f : FioFile} {b : UInt64} {n : UInt32} {left : Nat}
    (h : o.rwMinBs ≠ 0) :
    markRandomMapLoop o (left + 1) f b n =
      if mapPos o f b / 64 < f.map.numMaps.toNat then
        if testBit f.map.words (mapPos o f b) then .ok (f, n)
        else markRandomMapLoop o left (markBlock o f b) (b + 1) (n + 1)
      else .error (.outOfBounds (mapPos o f b / 64)) := by
  obtain ⟨idx, hidx, hi⟩ := randMapIdx_eq (f := f) (b := b) h
  obtain ⟨bit, hbit, hb⟩ := randMapBit_eq (f := f) (b := b) h
  have hmark : { f with map := f.map.orWord idx (bitMask bit) } = markBlock o f b := by
    have hw := orWord_eq hi hb
    simp only [FileMap.orWord] at hw
    simp only [markBlock, FileMap.orWord, hw]
  rw [markRandomMapLoop, randomMapFree_eq h, hidx, hbit]
  by_cases hin : mapPos o f b / 64 < f.map.numMaps.toNat
  · have hlt : idx < f.map.numMaps := by rw [UInt32.lt_iff_toNat_lt, hi]; exact hin
    by_cases ht : testBit f.map.words (mapPos o f b) = true
    · simp [hin, ht]
    · simp [hin, ht, hlt, hmark]
  · simp [hin]

/-- The file with the map bits of the `k` blocks from `b` on set. -/
def markBlocks (o : Options) : FioFile → UInt64 → Nat → FioFile
  | f, _, 0 => f
  | f, b, k + 1 => markBlocks o (markBlock o f b) (b + 1) k

/-- The first `k` blocks from `b` on have a bit in the map, and it is clear. -/
def BlocksFree (o : Options) (f : FioFile) (b : UInt64) (k : Nat) : Prop :=
  ∀ j < k, mapPos o f (b + UInt64.ofNat j) / 64 < f.map.numMaps.toNat ∧
    testBit f.map.words (mapPos o f (b + UInt64.ofNat j)) = false

@[simp] theorem mapPos_markBlock (o : Options) (f : FioFile) (b c : UInt64) :
    mapPos o (markBlock o f b) c = mapPos o f c := rfl

@[simp] theorem numMaps_markBlock (o : Options) (f : FioFile) (b : UInt64) :
    (markBlock o f b).map.numMaps = f.map.numMaps := rfl

theorem testBit_markBlock {o : Options} {f : FioFile} {b : UInt64}
    (h : mapPos o f b / 64 < f.map.numMaps.toNat) (i : Nat) :
    testBit (markBlock o f b).map.words i =
      (testBit f.map.words i || decide (mapPos o f b = i)) :=
  testBit_setBit (f.map.sized ▸ h) i

theorem ofNat_succ (b : UInt64) (j : Nat) :
    b + UInt64.ofNat (j + 1) = b + 1 + UInt64.ofNat j := by
  rw [← UInt64.toNat_inj]
  simp only [UInt64.toNat_add, UInt64.toNat_ofNat', UInt64.toNat_one]
  omega

/-- `markBlocks` changes the map only, and sets exactly the bits of its blocks. -/
theorem testBit_markBlocks {o : Options} {f : FioFile} {b : UInt64} {k : Nat}
    (h : ∀ j < k, mapPos o f (b + UInt64.ofNat j) / 64 < f.map.numMaps.toNat) (i : Nat) :
    testBit (markBlocks o f b k).map.words i = true ↔
      testBit f.map.words i = true ∨ ∃ j < k, mapPos o f (b + UInt64.ofNat j) = i := by
  induction k generalizing f b with
  | zero => simp [markBlocks]
  | succ k ih =>
    have h0 : mapPos o f b / 64 < f.map.numMaps.toNat := by simpa using h 0 (by omega)
    have hrest : ∀ j < k, mapPos o (markBlock o f b) (b + 1 + UInt64.ofNat j) / 64 <
        (markBlock o f b).map.numMaps.toNat := by
      intro j hj
      rw [mapPos_markBlock, numMaps_markBlock, ← ofNat_succ]
      exact h (j + 1) (by omega)
    rw [markBlocks, ih hrest, testBit_markBlock h0]
    simp only [Bool.or_eq_true, decide_eq_true_eq, mapPos_markBlock]
    constructor
    · rintro ((hi | hi) | ⟨j, hj, hi⟩)
      · exact .inl hi
      · exact .inr ⟨0, by omega, by simpa using hi⟩
      · exact .inr ⟨j + 1, by omega, by rw [ofNat_succ]; exact hi⟩
    · rintro (hi | ⟨j, hj, hi⟩)
      · exact .inl (.inl hi)
      · cases j with
        | zero => exact .inl (.inr (by simpa using hi))
        | succ j => exact .inr ⟨j, by omega, by rw [← ofNat_succ]; exact hi⟩

/-- The geometry of a file: everything `get_io_u` reads but never writes. -/
structure SameFile (f g : FioFile) : Prop where
  fileSize : g.fileSize = f.fileSize
  realFileSize : g.realFileSize = f.realFileSize
  fileOffset : g.fileOffset = f.fileOffset
  numMaps : g.map.numMaps = f.map.numMaps

theorem SameFile.refl (f : FioFile) : SameFile f f := ⟨rfl, rfl, rfl, rfl⟩

theorem SameFile.trans {f g h : FioFile} (hg : SameFile f g) (hh : SameFile g h) : SameFile f h :=
  ⟨hh.1.trans hg.1, hh.2.trans hg.2, hh.3.trans hg.3, hh.4.trans hg.4⟩

theorem SameFile.mapPos {o : Options} {f g : FioFile} (h : SameFile f g) (b : UInt64) :
    mapPos o g b = mapPos o f b := by
  simp only [Fio.mapPos, h.fileOffset]

theorem sameFile_markBlocks (o : Options) (f : FioFile) (b : UInt64) (k : Nat) :
    SameFile f (markBlocks o f b k) := by
  induction k generalizing f b with
  | zero => exact SameFile.refl f
  | succ k ih =>
    have hmark : SameFile f (markBlock o f b) := ⟨rfl, rfl, rfl, rfl⟩
    exact hmark.trans (ih (markBlock o f b) (b + 1))

/-- What the loop of `mark_random_map` leaves when it returns: a run of free blocks marked, as long
as asked for unless it stopped at a block in use. -/
theorem markRandomMapLoop_ok {o : Options} {f f' : FioFile} {b : UInt64} {n n' : UInt32} {left : Nat}
    (h : markRandomMapLoop o left f b n = .ok (f', n')) :
    ∃ k ≤ left, n' = n + UInt32.ofNat k ∧ f' = markBlocks o f b k ∧ BlocksFree o f b k ∧
      (k < left → testBit f'.map.words (mapPos o f (b + UInt64.ofNat k)) = true) := by
  induction left generalizing f b n with
  | zero =>
    cases h
    exact ⟨0, le_refl _, by simp, rfl, fun j hj => absurd hj (by omega), fun hk => absurd hk (by omega)⟩
  | succ left ih =>
    have hrw : o.rwMinBs ≠ 0 := by
      intro h0
      rw [markRandomMapLoop, randomMapFree, randMapIdx, toMapBlock_zero h0] at h
      cases h
    rw [markRandomMapLoop_succ hrw] at h
    split at h
    · next hin =>
      split at h
      · next hused =>
        cases h
        exact ⟨0, by omega, by simp, rfl, fun j hj => absurd hj (by omega), fun _ => by simpa using hused⟩
      · next hfree =>
        obtain ⟨k, hk, hn, hf, hblocks, hstop⟩ := ih h
        refine ⟨k + 1, by omega, ?_, hf, ?_, ?_⟩
        · rw [hn, ← UInt32.toNat_inj]
          simp only [UInt32.toNat_add, UInt32.toNat_ofNat', UInt32.toNat_one]
          omega
        · intro j hj
          cases j with
          | zero => simpa using And.intro hin (by simpa using hfree)
          | succ j =>
            obtain ⟨h1, h2⟩ := hblocks j (by omega)
            rw [mapPos_markBlock, ← ofNat_succ] at h1 h2
            rw [testBit_markBlock hin, Bool.or_eq_false_iff] at h2
            exact ⟨h1, h2.1⟩
        · intro hlt
          rw [ofNat_succ]
          exact hstop (by omega)
    · cases h

/-- The loop of `mark_random_map` has a value when the blocks it may look at lie in the map. -/
theorem markRandomMapLoop_total {o : Options} {f : FioFile} {b : UInt64} {n : UInt32} {left : Nat}
    (hrw : o.rwMinBs ≠ 0)
    (h : ∀ j < left, mapPos o f (b + UInt64.ofNat j) / 64 < f.map.numMaps.toNat) :
    ∃ r, markRandomMapLoop o left f b n = .ok r := by
  induction left generalizing f b n with
  | zero => exact ⟨_, rfl⟩
  | succ left ih =>
    rw [markRandomMapLoop_succ hrw, if_pos (by simpa using h 0 (by omega))]
    split
    · exact ⟨_, rfl⟩
    · refine ih fun j hj => ?_
      rw [mapPos_markBlock, numMaps_markBlock, ← ofNat_succ]
      exact h (j + 1) (by omega)

/-- `mark_random_map` marks a run of free blocks from the start of the unit and cuts the unit to
that run. -/
theorem markRandomMap_ok {o : Options} {f f' : FioFile} {u u' : IoU} {d : DataDdir}
    (h : markRandomMap o f u d = .ok (f', u')) :
    o.minBs.get d ≠ 0 ∧ ∃ k ≤ u.buflen.toNat / (o.minBs.get d).toNat,
      u' = { u with buflen := u'.buflen } ∧ u'.buflen.toNat = k * (o.minBs.get d).toNat ∧
      f' = markBlocks o f (u.offset / (o.minBs.get d).toUInt64) k ∧
      BlocksFree o f (u.offset / (o.minBs.get d).toUInt64) k ∧
      (k < u.buflen.toNat / (o.minBs.get d).toNat → testBit f'.map.words
        (mapPos o f (u.offset / (o.minBs.get d).toUInt64 + UInt64.ofNat k)) = true) := by
  unfold markRandomMap at h
  dsimp only at h
  obtain ⟨block, hblock, h⟩ := bind_eq_ok.mp h
  obtain ⟨hm, rfl⟩ := udiv_eq_ok.mp hblock
  obtain ⟨⟨f1, n⟩, hloop, h⟩ := bind_eq_ok.mp h
  obtain ⟨k, hk, hn, hf, hfree, hstop⟩ := markRandomMapLoop_ok hloop
  have hm' : o.minBs.get d ≠ 0 := fun h0 => hm (by rw [h0]; rfl)
  rw [UInt32.toNat_div] at hk hstop
  have hkm : k * (o.minBs.get d).toNat ≤ u.buflen.toNat :=
    le_trans (Nat.mul_le_mul_right _ hk) (Nat.div_mul_le_self _ _)
  have hk32 : k < 2 ^ 32 :=
    lt_of_le_of_lt (le_trans hk (Nat.div_le_self _ _)) (UInt32.toNat_lt _)
  have hlen : (n * o.minBs.get d).toNat = k * (o.minBs.get d).toNat := by
    have hu := UInt32.toNat_lt u.buflen
    rw [hn, UInt32.zero_add, UInt32.toNat_mul, UInt32.toNat_ofNat', Nat.mod_eq_of_lt hk32,
      Nat.mod_eq_of_lt (by omega)]
  refine ⟨hm', k, hk, ?_⟩
  dsimp only at h
  split at h
  · cases h
    exact ⟨rfl, hlen, hf, hfree, hstop⟩
  · next hge =>
    cases h
    refine ⟨rfl, ?_, hf, hfree, hstop⟩
    rw [UInt32.lt_iff_toNat_lt, hlen] at hge
    omega

/-- `mark_random_map` has a value when the blocks of the unit lie in the map. -/
theorem markRandomMap_total {o : Options} {f : FioFile} {u : IoU} {d : DataDdir}
    (hrw : o.rwMinBs ≠ 0) (hm : o.minBs.get d ≠ 0)
    (h : ∀ j < u.buflen.toNat / (o.minBs.get d).toNat,
      mapPos o f (u.offset / (o.minBs.get d).toUInt64 + UInt64.ofNat j) / 64 < f.map.numMaps.toNat) :
    ∃ r, markRandomMap o f u d = .ok r := by
  have hdiv : udiv u.offset (o.minBs.get d).toUInt64 =
      .ok (u.offset / (o.minBs.get d).toUInt64) := udiv_eq_ok.mpr ⟨toUInt64_ne_zero hm, rfl⟩
  obtain ⟨⟨f1, n⟩, hloop⟩ := markRandomMapLoop_total (n := 0)
    hrw (by rw [← UInt32.toNat_div] at h; exact h)
  unfold markRandomMap
  dsimp only
  rw [hdiv, ok_bind, hloop, ok_bind]
  dsimp only
  split <;> exact ⟨_, rfl⟩

/-! ## Choosing a block -/

theorem randomBlock_toNat (maxBlocks : UInt64) (r : RandLong) :
    (randomBlock maxBlocks r).toNat = ((maxBlocks - 1).toNat * r % 2 ^ 64) / 2 ^ 31 := by
  have hr : (UInt64.ofNat r).toNat = r := by
    rw [UInt64.toNat_ofNat']
    omega
  rw [randomBlock, UInt64.toNat_div, UInt64.toNat_mul, hr]
  rfl

/-- A probe of a file that holds at least one block draws a block of the file. -/
theorem randomBlock_lt {maxBlocks : UInt64} (h : maxBlocks ≠ 0) (r : RandLong) :
    (randomBlock maxBlocks r).toNat < maxBlocks.toNat := by
  have h0 : maxBlocks.toNat ≠ 0 := fun h' => h (UInt64.toNat_inj.mp h')
  have hlt := UInt64.toNat_lt maxBlocks
  have hsub : (maxBlocks - 1).toNat = maxBlocks.toNat - 1 := by
    rw [UInt64.toNat_sub, UInt64.toNat_one]
    omega
  have hmul : (maxBlocks.toNat - 1) * (r : Nat) ≤ (maxBlocks.toNat - 1) * 2 ^ 31 :=
    Nat.mul_le_mul_left _ (le_of_lt r.isLt)
  have hmod := Nat.mod_le ((maxBlocks.toNat - 1) * (r : Nat)) (2 ^ 64)
  rw [randomBlock_toNat, hsub, Nat.div_lt_iff_lt_mul (by decide)]
  omega

/-- One probe of a job with a map: the block it draws is the one tested, and the loop goes on only
after a block in use. -/
theorem probeLoop_ok {o : Options} {f : FioFile} {d : DataDdir} {maxBlocks b : UInt64}
    {loops left : Nat} {random : Nat → RandLong} (hnomap : o.norandommap = false)
    (h : probeLoop o f d maxBlocks loops random = .ok (b, left)) (hloops : loops ≠ 0) :
    ∃ i, b = randomBlock maxBlocks (random i) ∧
      (left ≠ 0 → randomMapFree o f (b + f.fileOffset / (o.minBs.get d).toUInt64) = .ok true) := by
  induction loops generalizing random with
  | zero => exact absurd rfl hloops
  | succ loops ih =>
    unfold probeLoop at h
    simp only [hnomap, Bool.false_eq_true, if_false] at h
    obtain ⟨origin, horigin, h⟩ := bind_eq_ok.mp h
    obtain ⟨_, rfl⟩ := udiv_eq_ok.mp horigin
    obtain ⟨free, hfree, h⟩ := bind_eq_ok.mp h
    split at h
    · next hstop =>
      cases h
      refine ⟨0, rfl, fun hleft => ?_⟩
      have hz : (left == 0) = false := beq_false_of_ne hleft
      rw [hz, Bool.or_false] at hstop
      rw [hfree, hstop]
    · next hgo =>
      have hne : loops ≠ 0 := by
        rintro rfl
        exact hgo (by simp)
      obtain ⟨i, hi⟩ := ih h hne
      exact ⟨i + 1, hi⟩

theorem words_length_lt (m : FileMap) : m.words.length < 2 ^ 32 :=
  m.sized ▸ UInt32.toNat_lt m.numMaps

theorem ofNat_add_blocksPerMap (i : Nat) :
    UInt64.ofNat (64 * i) + blocksPerMap = UInt64.ofNat (64 * (i + 1)) := by
  rw [← UInt64.toNat_inj, UInt64.toNat_add]
  simp only [UInt64.toNat_ofNat', blocksPerMap]
  have h64 : (64 : UInt64).toNat = 64 := rfl
  omega

theorem drop_eq_cons {ws : List UInt64} {w : UInt64} {rest : List UInt64} {i : Nat}
    (h : ws.drop i = w :: rest) : ∃ hi : i < ws.length, ws[i] = w ∧ ws.drop (i + 1) = rest := by
  have hi : i < ws.length := by
    by_contra hge
    rw [List.drop_eq_nil_of_le (not_lt.mp hge)] at h
    cases h
  rw [List.drop_eq_getElem_cons hi] at h
  injection h with hw hrest
  exact ⟨hi, hw, hrest⟩

/-- The search of `get_next_free_block` from word `i` on: what it returns is a clear bit. -/
theorem getNextFreeBlockLoop_ok {o : Options} {f : FioFile} {ws : List UInt64} {i : Nat} {c : UInt64}
    (hws : f.map.words.drop i = ws)
    (h : getNextFreeBlockLoop o f ws (UInt64.ofNat (64 * i)) = .ok (some c)) :
    c.toNat < 64 * f.map.words.length ∧ testBit f.map.words c.toNat = false := by
  induction ws generalizing i with
  | nil =>
    rw [getNextFreeBlockLoop] at h
    split at h <;> cases h
  | cons w ws ih =>
    rw [getNextFreeBlockLoop] at h
    have hlen := words_length_lt f.map
    obtain ⟨hi, hw, hrest⟩ := drop_eq_cons hws
    split at h
    · split at h
      · next hne =>
        cases h
        obtain ⟨hffz, hclear⟩ := ffz_spec hne
        have hc : (UInt64.ofNat (64 * i) + UInt64.ofNat (ffz w)).toNat = 64 * i + ffz w := by
          rw [UInt64.toNat_add, UInt64.toNat_ofNat', UInt64.toNat_ofNat']
          omega
        rw [hc]
        refine ⟨by omega, ?_⟩
        have hdiv : (64 * i + ffz w) / 64 = i := by omega
        have hmod : (64 * i + ffz w) % 64 = ffz w := by omega
        rw [testBit, hdiv, hmod, List.getD_eq_getElem _ _ hi, hw]
        exact hclear
      · rw [ofNat_add_blocksPerMap] at h
        exact ih hrest h
    · cases h

/-- The search leaves the map only when every word from `i` on is full and the file goes on. -/
theorem getNextFreeBlockLoop_error {o : Options} {f : FioFile} {ws : List UInt64} {i : Nat} {e : Fault}
    (hws : f.map.words.drop i = ws) (hi : i ≤ f.map.words.length)
    (h : getNextFreeBlockLoop o f ws (UInt64.ofNat (64 * i)) = .error e) :
    (∀ w ∈ ws, w = -1) ∧
      UInt64.ofNat (64 * f.map.words.length) * o.rwMinBs.toUInt64 < f.realFileSize := by
  induction ws generalizing i with
  | nil =>
    have hil : i = f.map.words.length :=
      le_antisymm hi (List.drop_eq_nil_iff.mp hws)
    rw [getNextFreeBlockLoop] at h
    split at h
    · next hlt => exact ⟨by simp, hil ▸ hlt⟩
    · cases h
  | cons w ws ih =>
    rw [getNextFreeBlockLoop] at h
    obtain ⟨hi', hw, hrest⟩ := drop_eq_cons hws
    split at h
    · split at h
      · cases h
      · next hfull =>
        rw [ofNat_add_blocksPerMap] at h
        obtain ⟨hall, hlt⟩ := ih hrest hi' h
        refine ⟨fun x hx => ?_, hlt⟩
        cases hx with
        | head => exact not_not.mp hfull
        | tail _ hx => exact hall x hx
    · cases h

/-- What `get_next_free_block` returns is a clear bit of the map. -/
theorem getNextFreeBlock_ok {o : Options} {f : FioFile} {c : UInt64}
    (h : getNextFreeBlock o f = .ok (some c)) :
    c.toNat < 64 * f.map.numMaps.toNat ∧ testBit f.map.words c.toNat = false :=
  f.map.sized ▸ getNextFreeBlockLoop_ok (i := 0) List.drop_zero h

/-- `get_next_free_block` leaves the map only when the map is full and the file goes on. -/
theorem getNextFreeBlock_error {o : Options} {f : FioFile} {e : Fault}
    (h : getNextFreeBlock o f = .error e) :
    (∀ w ∈ f.map.words, w = -1) ∧
      UInt64.ofNat (64 * f.map.numMaps.toNat) * o.rwMinBs.toUInt64 < f.realFileSize :=
  f.map.sized ▸ getNextFreeBlockLoop_error (i := 0) List.drop_zero (Nat.zero_le _) h

end Rtfsc.Fio
