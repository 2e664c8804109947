import Rtfsc.Linux.Ext2Block
import Mathlib.Algebra.Order.Group.Nat
import Mathlib.Data.Nat.ModEq
import Mathlib.Tactic.SplitIfs

/-!
# The look-up of ext2_get_blocks

The way to a logical block, and what a call knows when it has looked for it: the chain is the way as far
as it exists, in the state of the tree that was seen last.
-/

namespace Rtfsc.Linux

open Rtfsc.Machine

/-! ## The offsets -/

namespace Ext2Sb

variable (sb : Ext2Sb) (n : Nat)

theorem and_ptrs : n &&& (sb.ptrs - 1) = n % sb.ptrs := by
  rw [ptrs, Nat.one_shiftLeft, Nat.and_two_pow_sub_one_eq_mod]

theorem shiftRight_bits : n >>> sb.ptrsBits = n / sb.ptrs := by
  rw [ptrs, Nat.one_shiftLeft, Nat.shiftRight_eq_div_pow]

theorem double : 1 <<< (sb.ptrsBits * 2) = sb.ptrs * sb.ptrs := by
  rw [ptrs, Nat.one_shiftLeft, Nat.one_shiftLeft, Nat.mul_two, Nat.pow_add]

theorem shiftRight_double : n >>> (sb.ptrsBits * 2) = n / sb.ptrs / sb.ptrs := by
  rw [Nat.mul_two, Nat.shiftRight_add, shiftRight_bits, shiftRight_bits]

theorem le_ptrs : 256 ≤ sb.ptrs := by
  rw [ptrs, Nat.one_shiftLeft]
  exact Nat.pow_le_pow_right (Nat.succ_pos 1) sb.eight_le

end Ext2Sb

/-- The last offset goes up. -/
def lastPlus : List Nat → Nat → List Nat
  | [], _ => []
  | [offset], i => [offset + i]
  | offset :: next :: offsets, i => offset :: lastPlus (next :: offsets) i

theorem lastPlus_append (pre : List Nat) (offset i : Nat) :
    lastPlus (pre ++ [offset]) i = pre ++ [offset + i] := by
  induction pre with
  | nil => rfl
  | cons o pre ih =>
    cases pre with
    | nil => rfl
    | cons o' pre =>
      rw [List.cons_append] at ih ⊢
      rw [List.cons_append, lastPlus, ih]
      rfl

theorem div_mod_add {n i size : Nat} (h : i ≤ size - 1 - n % size) (hsize : 0 < size) :
    (n + i) / size = n / size ∧ (n + i) % size = n % size + i := by
  have hmod := Nat.mod_lt n hsize
  have hi : i % size = i := Nat.mod_eq_of_lt (by omega)
  have hlt : n % size + i % size < size := by
    rw [hi]
    omega
  constructor
  · have hzero : i / size = 0 := Nat.div_eq_of_lt (by omega)
    rw [Nat.add_div_eq_of_add_mod_lt hlt, hzero, Nat.add_zero]
  · rw [Nat.add_mod_of_add_mod_lt hlt, hi]

/-- As far as the boundary only the last offset changes. -/
theorem ext2BlockToPath_plus {sb : Ext2Sb} {l : Int} {path : List Nat} {boundary i : Nat}
    (h : ext2BlockToPath sb l = (path, boundary)) (hpath : path ≠ []) (hi : i ≤ boundary) :
    (ext2BlockToPath sb (l + i)).1 = lastPlus path i := by
  have hbig := sb.le_ptrs
  have hpos : 0 < sb.ptrs := by omega
  simp only [ext2BlockToPath, sb.and_ptrs, sb.shiftRight_bits, sb.double, sb.shiftRight_double,
    ext2NdirBlocks] at h ⊢
  by_cases hneg : l < 0
  · rw [if_pos hneg] at h
    exact absurd (Prod.mk.inj h).1.symm hpath
  · rw [if_neg hneg] at h
    have hl : (l + i).toNat = l.toNat + i := by omega
    rw [if_neg (by omega), hl]
    generalize l.toNat = b at h
    by_cases hdirect : b < 12
    · rw [if_pos hdirect] at h
      obtain ⟨rfl, rfl⟩ := Prod.mk.inj h
      rw [Nat.mod_eq_of_lt (by omega)] at hi
      rw [if_pos (by omega)]
      rfl
    · rw [if_neg hdirect] at h
      rw [if_neg (by omega), Nat.sub_add_comm (by omega)]
      generalize b - 12 = b at h
      by_cases hind : b < sb.ptrs
      · rw [if_pos hind] at h
        obtain ⟨rfl, rfl⟩ := Prod.mk.inj h
        rw [Nat.mod_eq_of_lt hind] at hi
        rw [if_pos (by omega)]
        rfl
      · rw [if_neg hind] at h
        rw [if_neg (by omega), Nat.sub_add_comm (by omega)]
        generalize b - sb.ptrs = b at h
        by_cases hdouble : b < sb.ptrs * sb.ptrs
        · rw [if_pos hdouble] at h
          obtain ⟨rfl, rfl⟩ := Prod.mk.inj h
          obtain ⟨hdiv, hmod⟩ := div_mod_add hi hpos
          have hdouble' : b + i < sb.ptrs * sb.ptrs := by
            rw [← Nat.div_lt_iff_lt_mul hpos] at hdouble ⊢
            rwa [hdiv]
          rw [if_pos hdouble', hdiv, hmod]
          rfl
        · rw [if_neg hdouble] at h
          rw [if_neg (by omega), Nat.sub_add_comm (by omega)]
          generalize b - sb.ptrs * sb.ptrs = b at h
          by_cases htriple : b / sb.ptrs / sb.ptrs < sb.ptrs
          · rw [if_pos htriple] at h
            obtain ⟨rfl, rfl⟩ := Prod.mk.inj h
            obtain ⟨hdiv, hmod⟩ := div_mod_add hi hpos
            rw [hdiv, hmod, if_pos htriple]
            rfl
          · rw [if_neg htriple] at h
            exact absurd (Prod.mk.inj h).1.symm hpath

/-- A path has an offset for every level. -/
theorem ext2BlockToPath_length {sb : Ext2Sb} {l : Int} {zone : Nat} {offsets : List Nat}
    (h : (ext2BlockToPath sb l).1 = zone :: offsets) : ext2Levels zone = offsets.length + 1 := by
  simp only [ext2BlockToPath] at h
  split_ifs at h with _ hdirect
  · cases h
    exact if_pos hdirect
  all_goals
    cases h
    rfl

/-! ## Chains -/

/-- The chain that leads to `p` along the indices, the last one first. -/
inductive ChainTo (zone : Nat) : List Nat → Indirect → List Indirect → Prop
  | root (key : Nat) : ChainTo zone [] ⟨.root zone, key⟩ []
  | entry {is : List Nat} {p : Indirect} {above : List Indirect} (h : ChainTo zone is p above)
      (hkey : p.key ≠ 0) (i key : Nat) : ChainTo zone (i :: is) ⟨.entry p.key i, key⟩ (p :: above)

/-- The entries of a chain are what their cells have. -/
def Fresh (cells : TreeCell Nat → Nat) (chain : List Indirect) : Prop := ∀ q ∈ chain, q.key = cells q.p

variable {cells : TreeCell Nat → Nat} {zone : Nat} {is offsets : List Nat} {p : Indirect}
  {above : List Indirect}

theorem ChainTo.cellAt (h : ChainTo zone is p above) (hfresh : Fresh cells above) :
    cellAt cells zone is = some p.p := by
  induction h with
  | root => rfl
  | @entry is p above _ hkey i key ih =>
    have hcell := ih fun q hq => hfresh q (List.mem_cons_of_mem _ hq)
    have hat := (blockAt_of_cellAt hcell).trans (hfresh p List.mem_cons_self).symm
    rw [Machine.cellAt, hat, if_neg hkey]

theorem ChainTo.blockAt (h : ChainTo zone is p above) (hfresh : Fresh cells (p :: above)) :
    blockAt cells zone is = p.key := by
  have hcell := h.cellAt fun q hq => hfresh q (List.mem_cons_of_mem _ hq)
  rw [blockAt_of_cellAt hcell, hfresh p List.mem_cons_self]

/-- The chain is the way, as far as it goes, and was so in a state that was seen. -/
def Ext2Branch.Sound (read : Nat → TreeCell Nat → Nat) (zone : Nat) (offsets : List Nat) :
    Ext2Branch → Prop
  | .whole p above => ChainTo zone offsets.reverse p above ∧ ∃ k, Fresh (read k) (p :: above)
  | .stopped p above rest _ =>
    (p.key = 0 ∨ rest ≠ []) ∧ (∃ pre, offsets = pre ++ rest ∧ ChainTo zone pre.reverse p above) ∧
      ∃ k, Fresh (read k) (p :: above)

variable {read : Nat → TreeCell Nat → Nat} {bread : Nat → Bool}
  {verifyChain : (TreeCell Nat → Nat) → List Indirect → Bool}

theorem ext2GetBranchLoop_sound
    (hverify : ∀ cells chain, verifyChain cells chain = true → Fresh cells chain) {pre : List Nat}
    {k : Nat} (hchain : ChainTo zone pre.reverse p above) (hfresh : Fresh (read k) (p :: above)) :
    (ext2GetBranchLoop read bread verifyChain k p above offsets).Sound read zone (pre ++ offsets) := by
  induction offsets generalizing k p above pre with
  | nil =>
    rw [ext2GetBranchLoop]
    split_ifs with hkey
    · exact ⟨.inl hkey, ⟨pre, rfl, hchain⟩, k, hfresh⟩
    · exact ⟨by rwa [List.append_nil], k, hfresh⟩
  | cons offset offsets ih =>
    rw [ext2GetBranchLoop]
    split_ifs with hkey hread hchanged
    · exact ⟨.inl hkey, ⟨pre, rfl, hchain⟩, k, hfresh⟩
    · exact ⟨.inr (List.cons_ne_nil _ _), ⟨pre, rfl, hchain⟩, k, hfresh⟩
    · exact ⟨.inr (List.cons_ne_nil _ _), ⟨pre, rfl, hchain⟩, k, hfresh⟩
    · have hfresh' := hverify _ _ (Bool.eq_true_of_not_eq_false hchanged)
      have hchain' : ChainTo zone (pre ++ [offset]).reverse
          (addChain (read (k + 1)) (.entry p.key offset)) (p :: above) := by
        rw [List.reverse_append]
        exact .entry hchain hkey offset _
      have hlast : Fresh (read (k + 1))
          (addChain (read (k + 1)) (.entry p.key offset) :: p :: above) := by
        intro q hq
        rcases List.mem_cons.mp hq with rfl | hq
        · rfl
        · exact hfresh' q hq
      have hmore := ih hchain' hlast
      rwa [List.append_assoc] at hmore

theorem ext2GetBranch_sound
    (hverify : ∀ cells chain, verifyChain cells chain = true → Fresh cells chain) :
    (ext2GetBranch read bread verifyChain zone offsets).Sound read zone offsets := by
  have hchain : ChainTo zone ([] : List Nat).reverse (addChain (read 0) (.root zone)) [] := .root _
  refine ext2GetBranchLoop_sound hverify hchain fun q hq => ?_
  rw [List.mem_singleton.mp hq]
  rfl

/-! ## Data blocks -/

/-- The physical block of a logical one; 0 where none is mapped. -/
def ext2DataBlock (sb : Ext2Sb) (cells : TreeCell Nat → Nat) (l : Int) : Nat :=
  match (ext2BlockToPath sb l).1 with
  | [] => 0
  | zone :: offsets => blockAt cells zone offsets.reverse

variable {sb : Ext2Sb} {l : Int} {boundary i : Nat}

theorem ext2DataBlock_eq (h : (ext2BlockToPath sb l).1 = zone :: offsets) :
    ext2DataBlock sb cells l = blockAt cells zone offsets.reverse := by
  rw [ext2DataBlock, h]

theorem ext2DataBlock_zero (h : ext2BlockToPath sb l = (zone :: offsets, boundary)) :
    ext2DataBlock sb cells (l + (0 : Nat)) = blockAt cells zone offsets.reverse := by
  have hl : l + (0 : Nat) = l := by omega
  rw [hl, ext2DataBlock_eq (congrArg Prod.fst h)]

/-- As far as the boundary the cells of the last level are one behind the other. -/
theorem ext2DataBlock_plus {c : TreeCell Nat} (h : ext2BlockToPath sb l = (zone :: offsets, boundary))
    (hcell : cellAt cells zone offsets.reverse = some c) (hi : i ≤ boundary) :
    ext2DataBlock sb cells (l + i) = cells (cellPlus c i) := by
  have hpath := ext2BlockToPath_plus h (List.cons_ne_nil _ _) hi
  rcases List.eq_nil_or_concat offsets with rfl | ⟨pre, offset, rfl⟩
  · cases hcell
    have hpath' : (ext2BlockToPath sb (l + i)).1 = (zone + i) :: [] := hpath
    rw [ext2DataBlock_eq hpath']
    rfl
  · rw [List.concat_eq_append] at hpath hcell
    rw [← List.cons_append, lastPlus_append] at hpath
    have hpath' : (ext2BlockToPath sb (l + i)).1 = zone :: (pre ++ [offset + i]) := hpath
    rw [ext2DataBlock_eq hpath', List.reverse_append]
    rw [List.reverse_append] at hcell
    by_cases hb : blockAt cells zone pre.reverse = 0
    · simp [cellAt, hb] at hcell
    · have hc : TreeCell.entry (blockAt cells zone pre.reverse) offset = c := by
        simpa [cellAt, hb] using hcell
      rw [← hc]
      simp [blockAt, hb, cellPlus]

/-- What the loop counts has been seen at the places behind the first block. -/
theorem ext2MapMore_spec
    (hverify : ∀ cells chain, verifyChain cells chain = true → Fresh cells chain) {left count n : Nat}
    (h : ext2MapMore read verifyChain p above left count = some n) :
    count ≤ n ∧ n ≤ count + left ∧ ∀ i, count ≤ i → i < n →
      ∃ k, Fresh (read k) (p :: above) ∧ read k (cellPlus p.p i) = p.key + i := by
  induction left generalizing count with
  | zero =>
    cases h
    exact ⟨le_rfl, le_rfl, fun i h₁ h₂ => absurd h₂ (Nat.not_lt.mpr h₁)⟩
  | succ left ih =>
    rw [ext2MapMore] at h
    split_ifs at h with hchanged hnext
    · obtain ⟨hle, hle', hmore⟩ := ih h
      refine ⟨by omega, by omega, fun i h₁ h₂ => ?_⟩
      rcases Nat.eq_or_lt_of_le h₁ with rfl | h₁
      · exact ⟨count, hverify _ _ (Bool.eq_true_of_not_eq_false hchanged), hnext⟩
      · exact hmore i h₁ h₂
    · cases h
      exact ⟨le_rfl, Nat.le_add_right _ _, fun i h₁ h₂ => absurd h₂ (Nat.not_lt.mpr h₁)⟩

/-! ## What is known behind the look-up -/

/-- The blocks that are reported are mapped: in the tree as it is under `truncate_mutex`, or, where the
call has not taken it, in what was seen of each. Where a branch is to be allocated its place is known. -/
def Ext2Plan.Sound (env : Ext2Env) (sb : Ext2Sb) (l : Int) (zone : Nat) (offsets : List Nat)
    (boundary maxblocks : Nat) : Ext2Plan → Prop
  | .done (.error _) => True
  | .done (.mapped count bno _ _) =>
    0 < count ∧ count ≤ maxblocks ∧ count ≤ boundary + 1 ∧
      ((∀ i < count, ext2DataBlock sb env.cells (l + i) = bno + i) ∨
        ∀ i < count, ∃ k, ext2DataBlock sb (env.seen k) (l + i) = bno + i)
  | .allocate p rest =>
    (p.key = 0 ∨ rest ≠ []) ∧ p.key = env.cells p.p ∧
      ∃ pre, offsets = pre ++ rest ∧ cellAt env.cells zone pre.reverse = some p.p

namespace Ext2Env

variable {env : Ext2Env} {maxblocks : Nat}
  (hverify : ∀ cells chain, env.verifyChain cells chain = true → Fresh cells chain)
  (hpath : ext2BlockToPath sb l = (zone :: offsets, boundary)) (hmax : 0 < maxblocks)
include hverify hpath hmax

theorem lookAgain_sound :
    (env.lookAgain zone offsets boundary).Sound env sb l zone offsets boundary maxblocks := by
  have hbranch : (ext2GetBranch (fun _ => env.cells) env.breadAgain env.verifyChain zone
    offsets).Sound (fun _ => env.cells) zone offsets := ext2GetBranch_sound hverify
  rw [lookAgain]
  split
  · rename_i p above hwhole
    rw [hwhole] at hbranch
    obtain ⟨hchain, _, hfresh⟩ := hbranch
    refine ⟨Nat.one_pos, hmax, Nat.succ_le_succ (Nat.zero_le _), .inl fun i hi => ?_⟩
    obtain rfl : i = 0 := by omega
    rw [ext2DataBlock_zero hpath, Nat.add_zero]
    exact hchain.blockAt hfresh
  · rename_i p above rest err hstopped
    rw [hstopped] at hbranch
    obtain ⟨hrest, ⟨pre, hpre, hchain⟩, _, hfresh⟩ := hbranch
    refine ⟨hrest, hfresh p List.mem_cons_self, pre, hpre, hchain.cellAt fun q hq => ?_⟩
    exact hfresh q (List.mem_cons_of_mem _ hq)

theorem lookUp_sound :
    (env.lookUp zone offsets boundary maxblocks).Sound env sb l zone offsets boundary maxblocks := by
  have hbranch : (ext2GetBranch env.seen env.bread env.verifyChain zone offsets).Sound env.seen zone
    offsets := ext2GetBranch_sound hverify
  have hagain := lookAgain_sound hverify hpath hmax
  rw [lookUp]
  split
  · rename_i p above hwhole
    rw [hwhole] at hbranch
    obtain ⟨hchain, k, hfresh⟩ := hbranch
    split
    · rename_i count hmore
      obtain ⟨hle, hle', hseen⟩ := ext2MapMore_spec hverify hmore
      refine ⟨hle, by omega, by omega, .inr fun i hi => ?_⟩
      rcases Nat.eq_zero_or_pos i with rfl | hpos
      · refine ⟨k, ?_⟩
        rw [ext2DataBlock_zero hpath, Nat.add_zero]
        exact hchain.blockAt hfresh
      · obtain ⟨k, hfresh, hat⟩ := hseen i hpos hi
        refine ⟨offsets.length + k, ?_⟩
        rw [ext2DataBlock_plus hpath (hchain.cellAt fun q hq => hfresh q (List.mem_cons_of_mem _ hq))
          (by omega), hat]
    · exact hagain
  · rename_i p above rest err hstopped
    rw [hstopped] at hbranch
    obtain ⟨hrest, ⟨pre, hpre, hchain⟩, -⟩ := hbranch
    split_ifs with hio hchanged
    · trivial
    · exact hagain
    · have hfresh := hverify _ _ (Bool.eq_true_of_not_eq_false fun h => hchanged (.inr h))
      refine ⟨hrest, hfresh p List.mem_cons_self, pre, hpre, hchain.cellAt fun q hq => ?_⟩
      exact hfresh q (List.mem_cons_of_mem _ hq)

end Ext2Env

end Rtfsc.Linux
