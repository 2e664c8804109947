import Rtfsc.Linux.Ext2Look
import Rtfsc.Machine.LevelPath

/-!
# Paths of blocks

`ext2_block_to_path` and `block_to_path` of minix against paths through tables of four depths. For ext2 the
last comparison keeps every offset in range (`ext2BlockToPath_path`). minix has no such comparison and
trusts `s_max_size`: its offsets are in range exactly when no block below `s_max_size` is too far
(`blockToPath_exact`).
-/

namespace Rtfsc.Linux

open Rtfsc.Machine

section Ext2

variable {sb : Ext2Sb} {l : Int} {path : List Nat} {boundary : Nat}

/-- How many blocks the last table on a path is for. -/
def lastTableSize (direct size : Nat) (path : List Nat) : Nat :=
  if path.length = 1 then direct else size

theorem ext2BlockToPath_eq_levelPath (sb : Ext2Sb) {n : Nat}
    (hn : n < levelItems ext2NdirBlocks sb.ptrs) :
    (ext2BlockToPath sb n).1 = levelPath ext2NdirBlocks sb.ptrs n ∧
      (levelPath ext2NdirBlocks sb.ptrs n).getLastD 0 + (ext2BlockToPath sb n).2 + 1 =
        lastTableSize ext2NdirBlocks sb.ptrs (levelPath ext2NdirBlocks sb.ptrs n) := by
  have hbig := sb.le_ptrs
  have hpos : 0 < sb.ptrs := by omega
  have hmod : ∀ m, m % sb.ptrs < sb.ptrs := fun m => Nat.mod_lt _ hpos
  unfold levelItems at hn
  simp only [ext2BlockToPath, sb.and_ptrs, sb.shiftRight_bits, sb.double, sb.shiftRight_double,
    Int.toNat_natCast, if_neg (Int.not_lt.mpr (Int.natCast_nonneg n)), levelPath]
  split
  next hdirect =>
    have hlow : n % sb.ptrs = n := Nat.mod_eq_of_lt (by unfold ext2NdirBlocks at hdirect; omega)
    refine ⟨rfl, ?_⟩
    show n + (ext2NdirBlocks - 1 - n % sb.ptrs) + 1 = ext2NdirBlocks
    omega
  split
  next hind =>
    refine ⟨rfl, ?_⟩
    show n - ext2NdirBlocks + (sb.ptrs - 1 - (n - ext2NdirBlocks) % sb.ptrs) + 1 = sb.ptrs
    rw [Nat.mod_eq_of_lt hind]
    omega
  split
  next =>
    have := hmod (n - ext2NdirBlocks - sb.ptrs)
    refine ⟨rfl, ?_⟩
    show (n - ext2NdirBlocks - sb.ptrs) % sb.ptrs +
      (sb.ptrs - 1 - (n - ext2NdirBlocks - sb.ptrs) % sb.ptrs) + 1 = sb.ptrs
    omega
  next hdouble =>
    have := hmod (n - ext2NdirBlocks - sb.ptrs - sb.ptrs * sb.ptrs)
    have htop : (n - ext2NdirBlocks - sb.ptrs - sb.ptrs * sb.ptrs) / sb.ptrs / sb.ptrs < sb.ptrs := by
      rw [Nat.div_lt_iff_lt_mul hpos, Nat.div_lt_iff_lt_mul hpos]
      omega
    rw [if_pos htop]
    refine ⟨rfl, ?_⟩
    show (n - ext2NdirBlocks - sb.ptrs - sb.ptrs * sb.ptrs) % sb.ptrs +
      (sb.ptrs - 1 - (n - ext2NdirBlocks - sb.ptrs - sb.ptrs * sb.ptrs) % sb.ptrs) + 1 = sb.ptrs
    omega

/-- There is no path for a block that is negative or too big. -/
theorem ext2BlockToPath_nil (sb : Ext2Sb) (h : l < 0 ∨ levelItems ext2NdirBlocks sb.ptrs ≤ l) :
    (ext2BlockToPath sb l).1 = [] := by
  have hpos : 0 < sb.ptrs := by
    have hbig := sb.le_ptrs
    omega
  unfold levelItems at h
  simp only [ext2BlockToPath, sb.and_ptrs, sb.shiftRight_bits, sb.double, sb.shiftRight_double]
  split
  next => rfl
  next hneg =>
    obtain ⟨n, rfl⟩ := Int.eq_ofNat_of_zero_le (Int.not_lt.mp hneg)
    have hn : ext2NdirBlocks + sb.ptrs + sb.ptrs * sb.ptrs + sb.ptrs * sb.ptrs * sb.ptrs ≤ n := by
      rcases h with h | h
      · exact absurd h hneg
      · exact_mod_cast h
    have htop :
        ¬(n - ext2NdirBlocks - sb.ptrs - sb.ptrs * sb.ptrs) / sb.ptrs / sb.ptrs < sb.ptrs := by
      rw [Nat.div_lt_iff_lt_mul hpos, Nat.div_lt_iff_lt_mul hpos]
      omega
    rw [Int.toNat_natCast, if_neg (by omega), if_neg (by omega),
      if_neg (by omega), if_neg htop]

/-- A block has a path exactly when there is a place for it. -/
theorem ext2BlockToPath_ne_nil_iff :
    (ext2BlockToPath sb l).1 ≠ [] ↔ ∃ n : Nat, l = n ∧ n < levelItems ext2NdirBlocks sb.ptrs := by
  constructor
  · intro h
    have hin : ¬(l < 0 ∨ (levelItems ext2NdirBlocks sb.ptrs : Int) ≤ l) :=
      fun hout => h (ext2BlockToPath_nil sb hout)
    exact ⟨l.toNat, by omega, by omega⟩
  · rintro ⟨n, rfl, hn⟩
    rw [(ext2BlockToPath_eq_levelPath sb hn).1]
    exact levelPath_ne_nil

end Ext2

section Minix

variable {sb : MinixSb} {l : Int} {n : Nat}

theorem MinixSb.indircount_pos (sb : MinixSb) : 0 < sb.indircount := by
  rw [indircount, Nat.one_shiftLeft]
  exact Nat.two_pow_pos _

/-- Below `s_max_size` the path is the one of the block, in range or not. -/
theorem minixBlockToPath_eq_levelPath (h : n * sb.blocksize < sb.maxSize) :
    minixBlockToPath sb n = levelPath dircount sb.indircount n := by
  simp only [minixBlockToPath, if_neg (Int.not_lt.mpr (Int.natCast_nonneg n)), Int.toNat_natCast,
    if_neg (Nat.not_le.mpr h), ge_iff_le, levelPath]

theorem minixBlockToPath_ne_nil_iff :
    minixBlockToPath sb l ≠ [] ↔ ∃ n : Nat, l = n ∧ n * sb.blocksize < sb.maxSize := by
  constructor
  · intro h
    unfold minixBlockToPath at h
    split at h
    · exact absurd rfl h
    next hneg =>
      split at h
      · exact absurd rfl h
      next hmax => exact ⟨l.toNat, by omega, Nat.not_le.mp hmax⟩
  · rintro ⟨n, rfl, hn⟩
    rw [minixBlockToPath_eq_levelPath hn]
    exact levelPath_ne_nil

end Minix

/-- What paths are good for: offsets in range, one path for each block that has one, every path in range
used, if the file system goes that far, and blocks of one last table in order. -/
structure PathsOf (direct size : Nat) (toPath : Int → List Nat) (below : Nat → Prop) : Prop where
  inRange : ∀ l, toPath l ≠ [] → IsPath direct size (toPath l)
  injective : ∀ l l', toPath l ≠ [] → toPath l = toPath l' → l = l'
  onto : ∀ path, IsPath direct size path → below (pathItem direct size path) → ∃ l, toPath l = path
  consecutive : ∀ l, toPath l ≠ [] → toPath (l + 1) ≠ [] →
    (toPath (l + 1)).dropLast = (toPath l).dropLast →
      (toPath (l + 1)).getLastD 0 = (toPath l).getLastD 0 + 1

/-- All but the range comes with the paths themselves. -/
theorem PathsOf.of_levelPath {direct size : Nat} {toPath : Int → List Nat} {has below : Nat → Prop}
    (hnil : ∀ l, toPath l ≠ [] ↔ ∃ n : Nat, l = n ∧ has n)
    (hpath : ∀ n : Nat, has n → toPath n = levelPath direct size n)
    (hrange : ∀ n, has n → IsPath direct size (levelPath direct size n))
    (hbelow : ∀ path, IsPath direct size path → below (pathItem direct size path) →
      has (pathItem direct size path)) : PathsOf direct size toPath below where
  inRange := by
    intro l hl
    obtain ⟨n, rfl, hn⟩ := (hnil l).mp hl
    rw [hpath n hn]
    exact hrange n hn
  injective := by
    intro l l' hl heq
    obtain ⟨n, rfl, hn⟩ := (hnil l).mp hl
    obtain ⟨n', rfl, hn'⟩ := (hnil l').mp (heq ▸ hl)
    rw [hpath n hn, hpath n' hn'] at heq
    rw [levelPath_injective direct size heq]
  onto := by
    intro path h hb
    exact ⟨pathItem direct size path, (hpath _ (hbelow path h hb)).trans (levelPath_pathItem h)⟩
  consecutive := by
    intro l hl hl' hsame
    obtain ⟨n, rfl, hn⟩ := (hnil l).mp hl
    obtain ⟨n', hn', hhas⟩ := (hnil _).mp hl'
    obtain rfl : n' = n + 1 := by omega
    rw [hn', hpath n hn, hpath _ hhas] at hsame ⊢
    exact getLastD_levelPath_succ hsame

theorem ext2BlockToPath_paths (sb : Ext2Sb) :
    PathsOf ext2NdirBlocks sb.ptrs (fun l => (ext2BlockToPath sb l).1) fun _ => True := by
  have hpos : 0 < sb.ptrs := by
    have hbig := sb.le_ptrs
    omega
  refine PathsOf.of_levelPath (fun l => ext2BlockToPath_ne_nil_iff)
    (fun n hn => (ext2BlockToPath_eq_levelPath sb hn).1) (fun n => (isPath_levelPath_iff hpos).mpr) ?_
  intro path h _
  rwa [← isPath_levelPath_iff hpos, levelPath_pathItem h]

/-- The boundary: how many blocks come after this one in its last table. -/
theorem ext2BlockToPath_boundary {sb : Ext2Sb} {l : Int} (h : (ext2BlockToPath sb l).1 ≠ []) :
    (ext2BlockToPath sb l).1.getLastD 0 + (ext2BlockToPath sb l).2 + 1 =
      lastTableSize ext2NdirBlocks sb.ptrs (ext2BlockToPath sb l).1 := by
  obtain ⟨n, rfl, hn⟩ := ext2BlockToPath_ne_nil_iff.mp h
  obtain ⟨hpath, hboundary⟩ := ext2BlockToPath_eq_levelPath sb hn
  rwa [hpath]

/-- With `s_max_size` within reach of the tables, the paths of minix are as good. -/
theorem minixBlockToPath_paths_iff (sb : MinixSb) :
    PathsOf dircount sb.indircount (minixBlockToPath sb) (fun n => n * sb.blocksize < sb.maxSize) ↔
      sb.maxSize ≤ levelItems dircount sb.indircount * sb.blocksize := by
  constructor
  · intro h
    by_contra hlarge
    have hbelow := Nat.not_le.mp hlarge
    have hrange := h.inRange (levelItems dircount sb.indircount : Nat)
      (minixBlockToPath_ne_nil_iff.mpr ⟨_, rfl, hbelow⟩)
    rw [minixBlockToPath_eq_levelPath hbelow, isPath_levelPath_iff sb.indircount_pos] at hrange
    exact Nat.lt_irrefl _ hrange
  · intro hmax
    refine PathsOf.of_levelPath (fun l => minixBlockToPath_ne_nil_iff)
      (fun n => minixBlockToPath_eq_levelPath) ?_ fun _ _ hb => hb
    intro n hn
    rw [isPath_levelPath_iff sb.indircount_pos]
    exact Nat.lt_of_mul_lt_mul_right (Nat.lt_of_lt_of_le hn hmax)

/-- A file system of 512-byte blocks that says that files have up to 4 gigabytes: block 2113671 would be
in entry 128 of a table of 128. -/
theorem minixBlockToPath_tooFar :
    ¬PathsOf dircount (MinixSb.mk 9 0xffffffff).indircount (minixBlockToPath ⟨9, 0xffffffff⟩)
      fun n => n * (MinixSb.mk 9 0xffffffff).blocksize < 0xffffffff := by
  intro h
  have hrange := h.inRange 2113671 (by decide)
  have hpath : minixBlockToPath ⟨9, 0xffffffff⟩ 2113671 = [9, 128, 0, 0] := by decide
  rw [hpath] at hrange
  exact absurd hrange.2.1 (by decide)

/-- The paths of ext2 are good, and those of minix exactly when `s_max_size` is within reach of the
tables. -/
theorem blockToPath_exact (ext2 : Ext2Sb) (minix : MinixSb) :
    (PathsOf ext2NdirBlocks ext2.ptrs (fun l => (ext2BlockToPath ext2 l).1) (fun _ => True) ∧
      (∀ l, (ext2BlockToPath ext2 l).1 ≠ [] ↔
        ∃ n : Nat, l = n ∧ n < levelItems ext2NdirBlocks ext2.ptrs) ∧
      ∀ l, (ext2BlockToPath ext2 l).1 ≠ [] →
        (ext2BlockToPath ext2 l).1.getLastD 0 + (ext2BlockToPath ext2 l).2 + 1 =
          lastTableSize ext2NdirBlocks ext2.ptrs (ext2BlockToPath ext2 l).1) ∧
    (PathsOf dircount minix.indircount (minixBlockToPath minix)
        (fun n => n * minix.blocksize < minix.maxSize) ↔
      minix.maxSize ≤ levelItems dircount minix.indircount * minix.blocksize) :=
  ⟨⟨ext2BlockToPath_paths ext2, fun _ => ext2BlockToPath_ne_nil_iff,
    fun _ => ext2BlockToPath_boundary⟩, minixBlockToPath_paths_iff minix⟩

end Rtfsc.Linux
