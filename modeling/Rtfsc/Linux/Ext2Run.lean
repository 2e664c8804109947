import Rtfsc.Linux.Ext2Alloc

/-!
# ext2_get_blocks as a whole

A call that fails has given back what it took and left the tree as it was; one that succeeds reports blocks
that are mapped, and has moved none. There are two exceptions: zeroing the new blocks of a DAX inode may
fail, and then they are lost; and when the second look at the chain fails to read an indirect block, the
call goes on and replaces this block with a new one, and with it what is mapped behind it.
-/

namespace Rtfsc.Linux

open Rtfsc.Machine

/-! ## What is promised -/

namespace Ext2Env

/-- What `ext2_get_blocks` promises of a call, by what it returns. Where the tree has only been looked at, a
block is mapped in the state in which it was seen. -/
def Atomic (env : Ext2Env) (sb : Ext2Sb) (iblock : Int) (maxblocks : Nat) (s : Ext2Disk) :
    Ext2Ret → Prop
  | .error _ => GivenBack s ∧ SameTree ext2Levels env.cells s.cells
  | .mapped count bno _ _ =>
    (0 < count ∧ count ≤ maxblocks) ∧
      (∀ i < count, (ext2BlockToPath sb (iblock + i)).1.dropLast =
        (ext2BlockToPath sb iblock).1.dropLast) ∧
      ((∀ i < count, ext2DataBlock sb s.cells (iblock + i) = bno + i) ∨
        s.cells = env.cells ∧ ∀ i < count, ∃ k, ext2DataBlock sb (env.seen k) (iblock + i) = bno + i) ∧
      ∀ l, ext2DataBlock sb env.cells l ≠ 0 → ext2DataBlock sb s.cells l = ext2DataBlock sb env.cells l

end Ext2Env

/-- The way to a logical block goes through the cell. -/
def Ext2Passes (sb : Ext2Sb) (cells : TreeCell Nat → Nat) (p : TreeCell Nat) (l : Int) : Prop :=
  ∃ zone pre rest, (ext2BlockToPath sb l).1 = zone :: (pre ++ rest) ∧
    cellAt cells zone pre.reverse = some p

namespace Ext2Env

/-- A branch that is allocated can be zeroed where that is asked for, and takes the place of nothing. -/
def Spared (env : Ext2Env) (sb : Ext2Sb) (inUse : Nat → Bool) (boundary maxblocks : Nat) (p : Indirect)
    (rest : List Nat) : Prop :=
  ∀ s ind first num,
    env.allocBranch (env.start inUse) (env.wanted p rest boundary maxblocks) rest =
      some (s, .ok (ind, first, num)) →
    (env.isDax = true → env.zeroout first num = none) ∧
      (p.key ≠ 0 → ∀ l, Ext2Passes sb env.cells p.p l → ext2DataBlock sb env.cells l = 0)

end Ext2Env

/-! ## The last level -/

variable {cells : TreeCell Nat → Nat} {sb : Ext2Sb}

theorem cellPlus_inj {p : TreeCell Nat} {i j : Nat} (h : cellPlus p i = cellPlus p j) : i = j := by
  cases p with
  | root => exact Nat.add_left_cancel (TreeCell.root.inj h)
  | entry => exact Nat.add_left_cancel (TreeCell.entry.inj h).2

theorem cellPlus_zero (p : TreeCell Nat) : cellPlus p 0 = p := by cases p <;> rfl

theorem ext2CountFree_spec {p : TreeCell Nat} {left count : Nat} :
    count ≤ ext2CountFree cells p left count ∧ ext2CountFree cells p left count ≤ count + left ∧
      ∀ i, count ≤ i → i < ext2CountFree cells p left count → cells (cellPlus p i) = 0 := by
  induction left generalizing count with
  | zero => exact ⟨le_rfl, le_rfl, fun i h₁ h₂ => absurd h₂ (Nat.not_lt.mpr h₁)⟩
  | succ left ih =>
    rw [ext2CountFree]
    split_ifs with hfree
    · obtain ⟨hle, hle', hmore⟩ := @ih (count + 1)
      refine ⟨by omega, by omega, fun i h₁ h₂ => ?_⟩
      rcases Nat.eq_or_lt_of_le h₁ with rfl | h₁
      · exact hfree
      · exact hmore i h₁ h₂
    · exact ⟨le_rfl, Nat.le_add_right _ _, fun i h₁ h₂ => absurd h₂ (Nat.not_lt.mpr h₁)⟩

/-- Consecutive numbers are stored in consecutive cells. -/
theorem ext2SpliceBranch_last {p : TreeCell Nat} {first count : Nat} :
    (∀ i < count, ext2SpliceBranch cells p 0 first count (cellPlus p i) = first + i) ∧
      ∀ c, (∀ i < count, c ≠ cellPlus p i) → ext2SpliceBranch cells p 0 first count c = cells c := by
  simp only [ext2SpliceBranch, if_true]
  induction count with
  | zero => exact ⟨fun i hi => absurd hi (Nat.not_lt_zero i), fun _ _ => rfl⟩
  | succ count ih =>
    rw [List.range_succ, List.foldl_append]
    constructor
    · intro i hi
      rcases Nat.lt_succ_iff_lt_or_eq.mp hi with hlt | rfl
      · rw [← ih.1 i hlt]
        exact Function.update_of_ne (fun heq => Nat.ne_of_lt hlt (cellPlus_inj heq)) _ _
      · exact Function.update_self ..
    · intro c hc
      rw [← ih.2 c fun i hi => hc i (Nat.lt_succ_of_lt hi)]
      exact Function.update_of_ne (hc count (Nat.lt_succ_self count)) _ _

theorem ext2DataBlock_grows {cells' : TreeCell Nat → Nat} (hgrows : Grows ext2Levels cells cells')
    (l : Int) (hl : ext2DataBlock sb cells l ≠ 0) :
    ext2DataBlock sb cells' l = ext2DataBlock sb cells l := by
  cases hpath : (ext2BlockToPath sb l).1 with
  | nil => simp [ext2DataBlock, hpath] at hl
  | cons zone offsets =>
    rw [ext2DataBlock_eq hpath] at hl ⊢
    rw [ext2DataBlock_eq hpath]
    refine hgrows zone _ ?_ hl
    rw [ext2BlockToPath_length hpath, List.length_reverse]
    exact Nat.lt_succ_self _

variable {l : Int} {zone boundary first num : Nat} {offsets : List Nat} {p : TreeCell Nat}

theorem last_lt (hpath : ext2BlockToPath sb l = (zone :: offsets, boundary)) :
    offsets.reverse.length < ext2Levels zone := by
  rw [ext2BlockToPath_length (congrArg Prod.fst hpath), List.length_reverse]
  exact Nat.lt_succ_self _

/-- Free cells of the last level get the new data blocks. -/
theorem ext2SpliceBranch_free (hpath : ext2BlockToPath sb l = (zone :: offsets, boundary))
    (hcell : cellAt cells zone offsets.reverse = some p) (hnum : num ≤ boundary + 1)
    (hfree : ∀ i < num, cells (cellPlus p i) = 0) :
    (∀ i < num, ext2DataBlock sb (ext2SpliceBranch cells p 0 first num) (l + i) = first + i) ∧
      ∀ l, ext2DataBlock sb cells l ≠ 0 →
        ext2DataBlock sb (ext2SpliceBranch cells p 0 first num) l = ext2DataBlock sb cells l := by
  obtain ⟨hstored, hother⟩ := @ext2SpliceBranch_last cells p first num
  have hgrows : Grows ext2Levels cells (ext2SpliceBranch cells p 0 first num) := by
    refine grows_of_free fun c hc => hother c fun i hi heq => hc ?_
    rw [heq, hfree i hi]
  refine ⟨fun i hi => ?_, ext2DataBlock_grows hgrows⟩
  rw [ext2DataBlock_plus hpath (hgrows.cellAt (last_lt hpath) hcell) (by omega), hstored i hi]

/-! ## A branch in the tree -/

/-- A branch of new blocks for a cell of the tree, the data blocks in a row in its last block. -/
structure Graft (sb : Ext2Sb) (l : Int) (boundary : Nat) (inUse : Nat → Bool)
    (cells cells' : TreeCell Nat → Nat) (p : TreeCell Nat) (zone : Nat) (pre os : List Nat)
    (offset first num last : Nat) (bs : List Nat) : Prop where
  path : ext2BlockToPath sb l = (zone :: (pre ++ (os ++ [offset])), boundary)
  tree : IsTree ext2Levels cells
  used : ∀ b, InBlocks ext2Levels cells b → inUse b = true
  same : SameTree ext2Levels cells cells'
  cell : cellAt cells zone pre.reverse = some p
  branch : Branch cells' os.reverse (last :: bs)
  entries : ∀ j, cells' (.entry last j) =
    if offset ≤ j ∧ j < offset + num then first + (j - offset) else 0
  fresh : ∀ b ∈ last :: bs, inUse b = false
  data : ∀ b ∈ List.range' first num, inUse b = false

namespace Graft

variable {cells' : TreeCell Nat → Nat} {inUse : Nat → Bool} {pre os bs : List Nat} {offset last : Nat}
  (h : Graft sb l boundary inUse cells cells' p zone pre os offset first num last bs)
include h

theorem levels_eq : ext2Levels zone = pre.length + os.length + 2 := by
  rw [ext2BlockToPath_length (congrArg Prod.fst h.path)]
  simp only [List.length_append, List.length_singleton]
  omega

theorem top_lt : pre.reverse.length < ext2Levels zone := by
  rw [h.levels_eq, List.length_reverse]
  omega

theorem cell' : cellAt cells' zone pre.reverse = some p := h.same.grows.cellAt h.top_lt h.cell

theorem entry_ne {b : Nat} (hb : b ∈ last :: bs) (i : Nat) : .entry b i ≠ p := by
  refine cell_ne_entry h.cell h.top_lt (fun hin => ?_) i
  exact absurd ((h.fresh b hb).symm.trans (h.used b hin)) Bool.false_ne_true

/-- The branch behind the store of its first block. -/
theorem linked : Branch (Function.update cells' p ((last :: bs).getLastD 0)) os.reverse (last :: bs) ∧
    blockAt (Function.update cells' p ((last :: bs).getLastD 0)) zone pre.reverse =
      (last :: bs).getLastD 0 := by
  refine ⟨h.branch.congr fun b hb i => ?_,
    blockAt_update_self (h.same.isTree h.tree) h.cell' h.top_lt _⟩
  exact Function.update_of_ne (h.entry_ne (List.mem_of_mem_tail hb) i) _ _

theorem last_place : blockAt (Function.update cells' p ((last :: bs).getLastD 0)) zone
    (os.reverse ++ pre.reverse) = last :=
  h.linked.1.blockAt_place h.linked.2 h.linked.1.last_mem

theorem last_ne_zero : last ≠ 0 := h.branch.ne_zero List.mem_cons_self

/-- The data blocks are mapped. -/
theorem mapped (hnum : num ≤ boundary + 1) {i : Nat} (hi : i < num) :
    ext2DataBlock sb (Function.update cells' p ((last :: bs).getLastD 0)) (l + i) = first + i := by
  have hcell : cellAt (Function.update cells' p ((last :: bs).getLastD 0)) zone
      (pre ++ (os ++ [offset])).reverse = some (.entry last offset) := by
    rw [List.reverse_append, List.reverse_append, List.reverse_singleton, List.append_assoc,
      List.singleton_append, cellAt, h.last_place, if_neg h.last_ne_zero]
  rw [ext2DataBlock_plus h.path hcell (by omega), cellPlus,
    Function.update_of_ne (h.entry_ne List.mem_cons_self _), h.entries, if_pos (by omega),
    Nat.add_sub_cancel_left]

/-- What is found along a way through the cell now was not in use. -/
theorem below (q : List Nat) (hq : (q ++ pre.reverse).length + 1 = ext2Levels zone) :
    blockAt (Function.update cells' p ((last :: bs).getLastD 0)) zone (q ++ pre.reverse) = 0 ∨
      inUse (blockAt (Function.update cells' p ((last :: bs).getLastD 0)) zone (q ++ pre.reverse)) =
        false := by
  rcases h.linked.1.blockAt_below h.linked.2 q with hzero | hplace | ⟨q', i, rfl⟩
  · exact .inl hzero
  · exact .inr (h.fresh _ (List.of_mem_zip hplace).2)
  · have hlevels := h.levels_eq
    simp only [List.length_append, List.length_cons, List.length_reverse] at hq
    obtain rfl : q' = [] := List.eq_nil_of_length_eq_zero (by omega)
    rw [List.nil_append, List.cons_append, blockAt, h.last_place, if_neg h.last_ne_zero,
      Function.update_of_ne (h.entry_ne List.mem_cons_self i), h.entries]
    by_cases hin : offset ≤ i ∧ i < offset + num
    · rw [if_pos hin]
      exact .inr (h.data _ (List.mem_range'_1.mpr (by omega)))
    · exact .inl (if_neg hin)

theorem passes_iff {l' : Int} {zone' : Nat} {offsets : List Nat}
    (hl : (ext2BlockToPath sb l').1 = zone' :: offsets) :
    Ext2Passes sb cells p l' ↔ zone' = zone ∧ pre.reverse <:+ offsets.reverse := by
  have hlen := ext2BlockToPath_length hl
  constructor
  · rintro ⟨zone₁, pre₁, rest, hl₁, hcell⟩
    obtain ⟨rfl, rfl⟩ := List.cons.inj (hl.symm.trans hl₁)
    have hlt : pre₁.reverse.length < ext2Levels zone' := by
      rw [hlen, List.length_reverse, List.length_append]
      omega
    obtain ⟨rfl, hpre⟩ := h.tree.cellAt_unique h.top_lt hlt h.cell hcell
    exact ⟨rfl, rest.reverse, by rw [List.reverse_append, hpre]⟩
  · rintro ⟨rfl, q, hq⟩
    refine ⟨zone', pre, q.reverse, ?_, h.cell⟩
    rw [hl, ← List.reverse_reverse offsets, ← hq, List.reverse_append, List.reverse_reverse]

/-- No mapped block loses its place just when none is behind the cell. -/
theorem keeps_iff :
    (∀ l', ext2DataBlock sb cells l' ≠ 0 →
        ext2DataBlock sb (Function.update cells' p ((last :: bs).getLastD 0)) l' =
          ext2DataBlock sb cells l') ↔
      ∀ l', Ext2Passes sb cells p l' → ext2DataBlock sb cells l' = 0 := by
  constructor
  · intro hkeeps l' hpass
    by_contra hset
    cases hl : (ext2BlockToPath sb l').1 with
    | nil => simp [ext2DataBlock, hl] at hset
    | cons zone' offsets =>
      obtain ⟨rfl, q, hq⟩ := (h.passes_iff hl).mp hpass
      have hlen := ext2BlockToPath_length hl
      have hkept := hkeeps l' hset
      rw [ext2DataBlock_eq hl] at hset hkept
      rw [ext2DataBlock_eq hl, ← hq] at hkept
      rw [← hq] at hset
      have hqlen : (q ++ pre.reverse).length + 1 = ext2Levels zone' := by
        rw [hq, hlen, List.length_reverse]
      rcases h.below q hqlen with hzero | hfree
      · exact hset (hkept.symm.trans hzero)
      · rw [hkept] at hfree
        have huse := h.used _ (.of_blockAt (by omega) hset)
        exact absurd (hfree.symm.trans huse) Bool.false_ne_true
  · intro hnone l' hset
    cases hl : (ext2BlockToPath sb l').1 with
    | nil => simp [ext2DataBlock, hl] at hset
    | cons zone' offsets =>
      have hlt : offsets.reverse.length < ext2Levels zone' := by
        rw [ext2BlockToPath_length hl, List.length_reverse]
        exact Nat.lt_succ_self _
      have hoff : ¬(zone' = zone ∧ pre.reverse <:+ offsets.reverse) := fun hon =>
        hset (hnone l' ((h.passes_iff hl).mpr hon))
      rw [ext2DataBlock_eq hl, ext2DataBlock_eq hl,
        blockAt_update (h.same.isTree h.tree) h.cell' h.top_lt _ hlt hoff, h.same zone' _ hlt]

end Graft

/-! ## The whole call -/

namespace Ext2Env

variable {env : Ext2Env} {inUse : Nat → Bool} {maxblocks blks : Nat} {iblock : Int} {s : Ext2Disk}
  {ind rest : List Nat} {q : Indirect}

theorem wanted_le (hmax : 0 < maxblocks) :
    env.wanted q rest boundary maxblocks ≤ min maxblocks (boundary + 1) := by
  rw [wanted, ext2BlksToAllocate]
  have hcount := (@ext2CountFree_spec env.cells q.p (min maxblocks (boundary + 1) - 1) 1).2.1
  split_ifs <;> omega

theorem lastPlus_dropLast (path : List Nat) (i : Nat) : (lastPlus path i).dropLast = path.dropLast := by
  rcases List.eq_nil_or_concat path with rfl | ⟨pre, offset, rfl⟩
  · rfl
  · rw [List.concat_eq_append, lastPlus_append, List.dropLast_concat, List.dropLast_concat]

/-- The range stays in the last of the blocks on the way. -/
theorem same_block (hpath : ext2BlockToPath sb iblock = (zone :: offsets, boundary)) {count : Nat}
    (hcount : count ≤ boundary + 1) (i : Nat) (hi : i < count) :
    (ext2BlockToPath sb (iblock + i)).1.dropLast = (ext2BlockToPath sb iblock).1.dropLast := by
  rw [ext2BlockToPath_plus hpath (List.cons_ne_nil _ _) (by omega), lastPlus_dropLast, hpath]

theorem not_givenBack (h : Branched env inUse blks rest s ind first num) : ¬GivenBack s := by
  rintro ⟨hperm, -⟩
  rw [h.taken.given, h.taken.taken] at hperm
  have hmem : first ∈ ind ++ List.range' first num :=
    List.mem_append_right _ (List.mem_range'_1.mpr ⟨le_rfl, Nat.lt_add_of_pos_right h.pos⟩)
  exact absurd (hperm.mem_iff.mpr hmem) List.not_mem_nil

/-- What happens to the data blocks when a branch has been made and is put into the tree. -/
theorem splice_exact (hpath : ext2BlockToPath sb iblock = (zone :: offsets, boundary))
    (htree : IsTree ext2Levels env.cells)
    (hused : ∀ b, InBlocks ext2Levels env.cells b → inUse b = true) {pre : List Nat}
    (hoffsets : offsets = pre ++ rest) (hcell : cellAt env.cells zone pre.reverse = some q.p)
    (hkey : q.key = env.cells q.p) (hfree : q.key = 0 ∨ rest ≠ [])
    (hmax : 0 < maxblocks)
    (h : Branched env inUse (env.wanted q rest boundary maxblocks) rest s ind first num) :
    (∀ i < num, ext2DataBlock sb
        (ext2SpliceBranch s.cells q.p rest.length (ind.headD first) num) (iblock + i) = first + i) ∧
      ((∀ l, ext2DataBlock sb env.cells l ≠ 0 →
          ext2DataBlock sb (ext2SpliceBranch s.cells q.p rest.length (ind.headD first) num) l =
            ext2DataBlock sb env.cells l) ↔
        (q.key ≠ 0 → ∀ l, Ext2Passes sb env.cells q.p l → ext2DataBlock sb env.cells l = 0)) := by
  have hnum : num ≤ boundary + 1 :=
    h.le.trans ((wanted_le hmax).trans (Nat.min_le_right _ _))
  by_cases hrest : rest = []
  · -- no indirect block is new
    subst hrest
    obtain rfl : ind = [] := List.length_eq_zero_iff.mp h.length
    have hzero := hfree.resolve_right fun hne => hne rfl
    have hcells : s.cells = env.cells := by
      funext c
      cases c with
      | root zone => exact h.outside.1 zone
      | entry b i => exact h.outside.2 b List.not_mem_nil i
    rw [List.append_nil] at hoffsets
    subst hoffsets
    have hcount := @ext2CountFree_spec env.cells q.p (min maxblocks (boundary + 1) - 1) 1
    have hle : num ≤ ext2CountFree env.cells q.p (min maxblocks (boundary + 1) - 1) 1 := h.le
    have hvacant : ∀ i < num, env.cells (cellPlus q.p i) = 0 := by
      intro i hi
      rcases Nat.eq_zero_or_pos i with rfl | hpos
      · rw [cellPlus_zero, ← hkey, hzero]
      · exact hcount.2.2 i hpos (hi.trans_le hle)
    rw [hcells]
    obtain ⟨hmapped, hkeeps⟩ := @ext2SpliceBranch_free env.cells sb iblock zone boundary first num
      offsets q.p hpath hcell hnum hvacant
    exact ⟨hmapped, fun _ hne => absurd hzero hne, fun _ => hkeeps⟩
  · obtain ⟨os, offset, last, bs, rfl, hlast, hbranch, hentries⟩ := h.branch hrest
    subst hoffsets
    have hfresh := h.taken.fresh
    have hmem : ∀ b ∈ last :: bs, b ∈ ind := fun b hb => List.mem_reverse.mp (hlast ▸ hb)
    have hout : ∀ b ∈ ind, ¬InBlocks ext2Levels env.cells b := fun b hb hin => by
      have hnot := (hfresh b (List.mem_append_left _ hb)).2
      exact absurd (hnot.symm.trans (hused b hin)) Bool.false_ne_true
    have hgraft : Graft sb iblock boundary inUse env.cells s.cells q.p zone pre os offset first num
        last bs :=
      { path := hpath
        tree := htree
        used := hused
        same := h.outside.sameTree hout
        cell := hcell
        branch := hbranch
        entries := hentries
        fresh := fun b hb => (hfresh b (List.mem_append_left _ (hmem b hb))).2
        data := fun b hb => (hfresh b (List.mem_append_right _ hb)).2 }
    have hsplice : ext2SpliceBranch s.cells q.p (os ++ [offset]).length (ind.headD first) num =
        Function.update s.cells q.p ((last :: bs).getLastD 0) := by
      have hhead : ind.headD first = (last :: bs).getLastD 0 := by
        rw [← hlast]
        cases ind with
        | nil => cases hlast
        | cons b ind => simp
      rw [ext2SpliceBranch, if_neg (by simp), hhead]
    rw [hsplice]
    refine ⟨fun i hi => hgraft.mapped hnum hi, hgraft.keeps_iff.trans ⟨fun hnone _ => hnone, ?_⟩⟩
    intro hnone l hpass
    by_cases hzero : q.key = 0
    · -- nothing is mapped behind a free cell
      obtain ⟨zone', pre', rest', hl, hcell'⟩ := hpass
      rw [ext2DataBlock_eq hl, List.reverse_append]
      by_contra hset
      exact blockAt_tail hset (by rw [blockAt_of_cellAt hcell', ← hkey, hzero])
    · exact hnone hzero l hpass

theorem allocate_exact (hnew : env.NewBlocksFresh)
    (hpath : ext2BlockToPath sb iblock = (zone :: offsets, boundary))
    (htree : IsTree ext2Levels env.cells)
    (hused : ∀ b, InBlocks ext2Levels env.cells b → inUse b = true) (hmax : 0 < maxblocks)
    (hplan : (Ext2Plan.allocate q rest).Sound env sb iblock zone offsets boundary maxblocks) :
    ∃ s ret, env.allocate (env.start inUse) q rest boundary maxblocks = some (s, ret) ∧
      (env.Atomic sb iblock maxblocks s ret ↔ env.Spared sb inUse boundary maxblocks q rest) := by
  obtain ⟨hfree, hkey, pre, hoffsets, hcell⟩ := hplan
  obtain ⟨s, r, hrun, hr⟩ := @allocBranch_spec env inUse (env.wanted q rest boundary maxblocks) rest
    hnew hused
  rw [allocate, hrun]
  simp only [Spared, hrun]
  cases r with
  | error err =>
    refine ⟨s, .error err, rfl, fun _ => ?_, fun _ => hr⟩
    rintro s' ind first num heq
    cases heq
  | ok r =>
    obtain ⟨ind, first, num⟩ := r
    have hsplice := splice_exact hpath htree hused hoffsets hcell hkey hfree hmax hr
    cases hzero : if env.isDax then env.zeroout first num else none with
    | some err =>
      simp only [hzero]
      refine ⟨s, .error err, rfl, fun hatomic => absurd hatomic.1 (not_givenBack hr), fun hspared => ?_⟩
      obtain ⟨hdax, -⟩ := hspared s ind first num rfl
      split_ifs at hzero with hisDax
      rw [hdax hisDax] at hzero
      cases hzero
    | none =>
      simp only [hzero]
      have hdax : env.isDax = true → env.zeroout first num = none := fun hisDax => by
        rwa [if_pos hisDax] at hzero
      have hle := hr.le.trans (wanted_le hmax)
      refine ⟨_, _, rfl, fun hatomic => ?_, fun hspared => ?_⟩
      · rintro s' ind' first' num' heq
        cases heq
        exact ⟨hdax, hsplice.2.mp hatomic.2.2.2⟩
      · refine ⟨⟨hr.pos, by omega⟩, same_block hpath (by omega), .inl hsplice.1, ?_⟩
        exact hsplice.2.mpr (hspared s ind first num rfl).2

/-- `ext2_get_blocks` keeps its promise just when the branch that it allocates, if it comes to that, can be
zeroed and takes the place of nothing that is mapped. -/
theorem getBlocks_exact (hverify : ∀ cells chain, env.verifyChain cells chain = true →
      ∀ q ∈ chain, q.key = cells q.p)
    (hnew : env.NewBlocksFresh) (htree : IsTree ext2Levels env.cells)
    (hused : ∀ b, InBlocks ext2Levels env.cells b → inUse b = true) (hmax : 0 < maxblocks) :
    ∃ s ret, env.getBlocks sb inUse iblock maxblocks = some (s, ret) ∧
      (env.Atomic sb iblock maxblocks s ret ↔
        ∀ zone offsets boundary q rest, ext2BlockToPath sb iblock = (zone :: offsets, boundary) →
          env.lookUp zone offsets boundary maxblocks = .allocate q rest →
            env.Spared sb inUse boundary maxblocks q rest) := by
  have hback : GivenBack (env.start inUse) := ⟨.refl _, List.nodup_nil⟩
  rw [getBlocks]
  rcases hpath : ext2BlockToPath sb iblock with ⟨path, boundary⟩
  cases path with
  | nil =>
    refine ⟨_, _, rfl, fun _ => ?_, fun _ => ⟨hback, .refl⟩⟩
    rintro zone offsets boundary' q rest heq
    cases heq
  | cons zone offsets =>
    have hplan := lookUp_sound hverify hpath hmax
    cases hlook : env.lookUp zone offsets boundary maxblocks with
    | done ret =>
      simp only [hlook]
      rw [hlook] at hplan
      refine ⟨_, _, rfl, fun _ => ?_, fun _ => ?_⟩
      · rintro zone' offsets' boundary' q rest heq hallocate
        cases heq
        rw [hlook] at hallocate
        cases hallocate
      · cases ret with
        | error err => exact ⟨hback, .refl⟩
        | mapped count bno isBoundary isNew =>
          obtain ⟨hpos, hle, hle', hmapped⟩ := hplan
          exact ⟨⟨hpos, hle⟩, same_block hpath hle',
            hmapped.imp id fun hseen => ⟨rfl, hseen⟩, fun _ _ => rfl⟩
    | allocate q rest =>
      simp only [hlook]
      rw [hlook] at hplan
      obtain ⟨s, ret, hrun, hexact⟩ := allocate_exact hnew hpath htree hused hmax hplan
      refine ⟨s, ret, hrun, hexact.trans ⟨fun hspared => ?_, fun hspared => ?_⟩⟩
      · rintro zone' offsets' boundary' q' rest' heq hallocate
        cases heq
        rw [hlook] at hallocate
        cases hallocate
        exact hspared
      · exact hspared zone offsets boundary q rest rfl hlook

/-- A disk with four free blocks, which `ext2_new_blocks` hands out one by one, an inode with the blocks in
`cells`, and no failures. -/
def small (seen : Nat → TreeCell Nat → Nat) (cells : TreeCell Nat → Nat) : Ext2Env where
  seen := seen
  cells := cells
  bread := fun _ => true
  breadAgain := fun _ => true
  verifyChain := fun cells chain => chain.all fun q => q.key == cells q.p
  newBlocks := fun _ inUse count =>
    match [100, 101, 102, 103].find? fun b => !inUse b with
    | some b => if 0 < count then .ok (b, 1) else .error (.newBlocks 28)
    | none => .error (.newBlocks 28)
  getblk := fun _ => true
  isDax := false
  zeroout := fun _ _ => none

theorem small_newBlocksFresh (seen : Nat → TreeCell Nat → Nat) (cells : TreeCell Nat → Nat) :
    (small seen cells).NewBlocksFresh := by
  intro calls inUse count first got h
  simp only [small] at h
  split at h
  · rename_i b hfind
    split_ifs at h with hcount
    cases h
    refine ⟨Nat.one_pos, hcount, fun c hc => ?_⟩
    obtain rfl : c = first := by simpa using hc
    have hfree : inUse c = false := by simpa using List.find?_some hfind
    refine ⟨?_, hfree⟩
    rintro rfl
    exact absurd (List.mem_of_find?_eq_some hfind) (by decide)
  · cases h

/-- The first block behind the direct ones of an empty inode: an indirect block and a data block are
allocated. -/
theorem getBlocks_exact_indirect :
    ∃ s ret, (small (fun _ _ => 0) fun _ => 0).getBlocks ⟨8, le_rfl⟩ (fun _ => false) 12 3 =
        some (s, ret) ∧
      (small (fun _ _ => 0) fun _ => 0).Atomic ⟨8, le_rfl⟩ 12 3 s ret := by
  have hverify : ∀ cells chain, (small (fun _ _ => 0) fun _ => 0).verifyChain cells chain = true →
      ∀ q ∈ chain, q.key = cells q.p := fun cells chain hall q hq => by
    simpa [small] using List.all_eq_true.mp hall q hq
  obtain ⟨s, ret, hrun, hexact⟩ := @getBlocks_exact ⟨8, le_rfl⟩ (small (fun _ _ => 0) fun _ => 0)
    (fun _ => false) 3 12 hverify (small_newBlocksFresh _ _) isTree_zero
    (fun _ hin => absurd hin not_inBlocks_zero) (by decide)
  refine ⟨s, ret, hrun, hexact.mpr fun zone offsets boundary q rest hpath hlook => ?_⟩
  have hway : ext2BlockToPath ⟨8, le_rfl⟩ 12 = ([12, 0], 255) := by decide +kernel
  cases hway.symm.trans hpath
  have hplan : (small (fun _ _ => 0) fun _ => 0).lookUp 12 [0] 255 3 =
      .allocate ⟨.root 12, 0⟩ [0] := rfl
  cases hplan.symm.trans hlook
  intro s ind first num _
  exact ⟨fun hdax => absurd hdax Bool.false_ne_true, fun hne => absurd rfl hne⟩

/-- An inode without blocks in DAX mode, where zeroing fails. -/
def unzeroed : Ext2Env :=
  { small (fun _ _ => 0) fun _ => 0 with
    isDax := true
    zeroout := fun _ _ => some (.zeroout 5) }

/-- While a call waits for `truncate_mutex` another one links the indirect block 50 with the data block 60,
and then the indirect block cannot be read. -/
def unreadable : Ext2Env :=
  { small (fun _ _ => 0) (Function.update (Function.update (fun _ => 0) (.root 12) 50) (.entry 50 0) 60) with
    breadAgain := fun _ => false }

/-- Two blocks that cannot be zeroed are lost, and an indirect block that cannot be read is replaced, so
that logical block 12 moves from 60 to 101. -/
theorem getBlocks_loses :
    (∃ s ret, unzeroed.getBlocks ⟨8, le_rfl⟩ (fun _ => false) 12 3 = some (s, ret) ∧
      (s.taken = [100, 101] ∧ s.given = []) ∧ ¬unzeroed.Atomic ⟨8, le_rfl⟩ 12 3 s ret) ∧
    ∃ s ret, unreadable.getBlocks ⟨8, le_rfl⟩ (fun b => b == 50 || b == 60) 12 3 = some (s, ret) ∧
      (ext2DataBlock ⟨8, le_rfl⟩ unreadable.cells 12 = 60 ∧ ext2DataBlock ⟨8, le_rfl⟩ s.cells 12 = 101) ∧
        ¬unreadable.Atomic ⟨8, le_rfl⟩ 12 3 s ret := by
  refine ⟨⟨_, _, rfl, ⟨rfl, rfl⟩, fun hatomic => ?_⟩, ⟨_, _, rfl, ⟨rfl, rfl⟩, fun hatomic => ?_⟩⟩
  · exact absurd hatomic.1.record.length_eq (by decide)
  · exact absurd (hatomic.2.2.2 12 (by decide)) (by decide)

end Ext2Env

end Rtfsc.Linux
