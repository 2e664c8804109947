import Mathlib.Logic.Function.Basic

/-!
# ext2_new_blocks

The quota and the free counters over a call of `ext2_new_blocks`. What the function calls is not part of its
file: the answers of the quota, of the reads and of the searches in the bitmaps are given as an environment.
A call balances quota and counters unless a search has found blocks that the test for the system zone lets
pass although they go beyond the end of the file system or around the inode table
(`ext2NewBlocks_balanced_iff`).
-/

namespace Rtfsc.Linux

/-! ## What a call meets -/

/-- What of a super block the allocation looks at. -/
structure Ext2Super where
  firstDataBlock : Nat
  blocksCount : Nat
  blocksPerGroup : Nat
  groupsCount : Nat
  itbPerGroup : Nat
  itb_pos : 0 < itbPerGroup

/-- `bg_block_bitmap`, `bg_inode_bitmap` and `bg_inode_table` -/
structure Ext2GroupDesc where
  blockBitmap : Nat
  inodeBitmap : Nat
  inodeTable : Nat

/-- What `ext2_try_to_allocate_with_rsv` returns, and what it leaves in `num`: at least one block when it
has found any, and not more than are wanted. -/
structure Ext2Answer (num : Nat) where
  block : Option Nat
  got : Nat
  got_le : got ≤ max 1 num
  got_pos : block.isSome → 0 < got

/-- Blocks that a search has found and marked, by the number of the first one in its group. -/
structure Ext2Found where
  group : Nat
  gdp : Ext2GroupDesc
  block : Nat
  num : Nat
  num_pos : 0 < num

def Ext2Answer.found {num : Nat} (a : Ext2Answer num) (group : Nat) (gdp : Ext2GroupDesc) :
    Option Ext2Found :=
  match h : a.block with
  | some block => some ⟨group, gdp, block, a.got, a.got_pos (by rw [h]; rfl)⟩
  | none => none

/-- The answers that a call gets. A group is looked at several times, and each time there may be others. -/
structure Ext2Answers where
  quotaErr : Option Nat
  hasFreeBlocks : Bool
  windowsz : Nat
  groupDesc : Nat → Nat → Option Ext2GroupDesc
  rsvIsEmpty : Nat → Bool
  readBlockBitmap : Nat → Nat → Bool
  tryToAllocate : Nat → Nat → Option Nat → Bool → (num : Nat) → Ext2Answer num

/-- The quota charged to the inode, `bg_free_blocks_count` of each group, and `s_freeblocks_counter`. -/
@[ext]
structure Ext2Counts where
  quota : Int
  groupFree : Nat → Int
  freeblocks : Int

namespace Ext2Counts

variable (s : Ext2Counts)

/-- `dquot_alloc_block`, when it succeeds -/
def allocQuota (n : Nat) : Ext2Counts := { s with quota := s.quota + n }

/-- `dquot_free_block_nodirty` -/
def freeQuota (n : Nat) : Ext2Counts := { s with quota := s.quota - n }

/-- `group_adjust_blocks` and `percpu_counter_sub` -/
def subFree (group num : Nat) : Ext2Counts :=
  { s with
    groupFree := Function.update s.groupFree group (s.groupFree group - num)
    freeblocks := s.freeblocks - num }

end Ext2Counts

inductive Ext2NewErr
  | enospc
  | eio
  | quota (err : Nat)
deriving DecidableEq

/-- What a call returns, `*count` and `*errp`, the counts, and the blocks that searches have found. -/
structure Ext2New where
  ret : Nat
  count : Nat
  err : Option Ext2NewErr
  counts : Ext2Counts
  found : List Ext2Found

/-! ## The code -/

/-- `in_range` -/
def inRange (b first len : Nat) : Prop := first ≤ b ∧ b < first + len

instance (b first len : Nat) : Decidable (inRange b first len) := inferInstanceAs (Decidable (_ ∧ _))

namespace Ext2Found

variable (f : Ext2Found) (sb : Ext2Super)

/-- `ret_block` -/
def first : Nat := f.block + (sb.firstDataBlock + f.group * sb.blocksPerGroup)

/-- The test for the system zone. -/
def inSystemZone : Prop :=
  inRange f.gdp.blockBitmap (f.first sb) f.num ∨ inRange f.gdp.inodeBitmap (f.first sb) f.num ∨
    inRange (f.first sb) f.gdp.inodeTable sb.itbPerGroup ∨
    inRange (f.first sb + f.num - 1) f.gdp.inodeTable sb.itbPerGroup

instance : Decidable (f.inSystemZone sb) := inferInstanceAs (Decidable (_ ∨ _))

end Ext2Found

/-- Where `retry_alloc` ends: at `allocated`, behind the last group, or at `io_error`. `call` is how often a
group has been looked at. -/
inductive Ext2Pass
  | allocated (f : Ext2Found) (call : Nat) (rsv : Bool)
  | exhausted (num call : Nat) (rsv : Bool)
  | ioError

section Code

variable (sb : Ext2Super) (env : Ext2Answers) (s : Ext2Counts)

/-- `group_no++`, around the end. -/
def nextGroup (group : Nat) : Nat := if group + 1 ≥ sb.groupsCount then 0 else group + 1

/-- The loop over the rest of the groups, `n` of them. -/
def searchGroups (windowsz : Nat) (rsv : Bool) : Nat → Nat → Nat → Nat → Ext2Pass
  | 0, _, num, call => .exhausted num call rsv
  | n + 1, group, num, call =>
    let group := nextGroup sb group
    match env.groupDesc call group with
    | none => .ioError
    | some gdp =>
      if s.groupFree group = 0 ∨ (rsv ∧ s.groupFree group ≤ (windowsz / 2 : Nat)) then
        searchGroups windowsz rsv n group num (call + 1)
      else if env.readBlockBitmap call group = false then .ioError
      else
        let a := env.tryToAllocate call group none rsv num
        match a.found group gdp with
        | some f => .allocated f (call + 1) rsv
        | none => searchGroups windowsz rsv n group a.got (call + 1)

/-- From `retry_alloc` on. -/
def lookForBlocks (goal windowsz : Nat) (rsv : Bool) (group num call : Nat) : Ext2Pass :=
  match env.groupDesc call group with
  | none => .ioError
  | some gdp =>
    let free := s.groupFree group
    let rsv := rsv && !(free < windowsz && free > 0 && env.rsvIsEmpty call)
    if free > 0 then
      if env.readBlockBitmap call group = false then .ioError
      else
        let target := (goal - sb.firstDataBlock) % sb.blocksPerGroup
        let a := env.tryToAllocate call group (some target) rsv num
        match a.found group gdp with
        | some f => .allocated f (call + 1) rsv
        | none => searchGroups sb env s windowsz rsv sb.groupsCount group a.got (call + 1)
    else searchGroups sb env s windowsz rsv sb.groupsCount group num (call + 1)

/-- `out`, without an allocation. -/
def undoQuota (count : Nat) (err : Ext2NewErr) (found : List Ext2Found) : Ext2New :=
  ⟨0, count, some err, s.freeQuota count, found⟩

/-- Behind the test for the system zone. At the exit for blocks behind the end `performed_allocation` is
set already, and the quota is not given back. -/
def performAllocation (count : Nat) (f : Ext2Found) (found : List Ext2Found) : Ext2New :=
  if f.first sb + f.num - 1 ≥ sb.blocksCount then ⟨0, count, some .enospc, s, found⟩
  else
    let s := s.subFree f.group f.num
    if f.num < count then ⟨f.first sb, f.num, none, s.freeQuota (count - f.num), found⟩
    else ⟨f.first sb, count, none, s, found⟩

/-- `goto retry_alloc`, `fuel` times at most. -/
def retryAlloc (goal goalGroup count : Nat) :
    Nat → List Ext2Found → Nat → Bool → Nat → Nat → Nat → Option Ext2New
  | 0, _, _, _, _, _, _ => none
  | fuel + 1, found, windowsz, rsv, group, num, call =>
    match lookForBlocks sb env s goal windowsz rsv group num call with
    | .ioError => some (undoQuota s count .eio found)
    | .exhausted num call rsv =>
      if rsv then retryAlloc goal goalGroup count fuel found 0 false goalGroup num call
      else some (undoQuota s count .enospc found)
    | .allocated f call rsv =>
      if f.inSystemZone sb then
        retryAlloc goal goalGroup count fuel (found ++ [f]) windowsz rsv f.group f.num call
      else some (performAllocation sb s count f (found ++ [f]))

/-- `ext2_new_blocks` -/
def ext2NewBlocks (fuel goal count : Nat) : Option Ext2New :=
  match env.quotaErr with
  | some err => some ⟨0, count, some (.quota err), s, []⟩
  | none =>
    let s := s.allocQuota count
    if env.hasFreeBlocks = false then some (undoQuota s count .enospc [])
    else
      let goal := if goal < sb.firstDataBlock ∨ goal ≥ sb.blocksCount then sb.firstDataBlock else goal
      let group := (goal - sb.firstDataBlock) / sb.blocksPerGroup
      retryAlloc sb env s goal group count fuel [] env.windowsz (env.windowsz > 0) group count 0

end Code

/-! ## What a call promises -/

/-- The blocks are in the file system, and none is of the bitmaps or of the inode table of their group. -/
structure Ext2Found.Usable (sb : Ext2Super) (f : Ext2Found) : Prop where
  inside : sb.firstDataBlock ≤ f.first sb ∧ f.first sb + f.num ≤ sb.blocksCount
  outside : ∀ b, inRange b (f.first sb) f.num →
    b ≠ f.gdp.blockBitmap ∧ b ≠ f.gdp.inodeBitmap ∧ ¬inRange b f.gdp.inodeTable sb.itbPerGroup

/-- The caller has got the blocks for which quota is charged, and no others are taken from the counters. -/
structure Ext2New.Balanced (sb : Ext2Super) (s : Ext2Counts) (r : Ext2New) : Prop where
  failed : r.ret = 0 → r.counts = s
  succeeded : r.ret ≠ 0 → ∃ f ∈ r.found, r.ret = f.first sb ∧ r.count = f.num ∧
    r.counts = (s.allocQuota f.num).subFree f.group f.num ∧ f.Usable sb

/-- What must be true of blocks that the test for the system zone lets pass. Only for no blocks at all it
is good when they go beyond the end. -/
def Ext2Found.GoodFor (sb : Ext2Super) (count : Nat) (f : Ext2Found) : Prop :=
  if f.first sb + f.num ≤ sb.blocksCount then
    0 < count ∧ f.first sb ≠ 0 ∧
      ¬(f.first sb < f.gdp.inodeTable ∧ f.gdp.inodeTable + sb.itbPerGroup < f.first sb + f.num)
  else count = 0

/-! ## What a call ends with -/

variable {sb : Ext2Super} {env : Ext2Answers} {s : Ext2Counts} {m num count : Nat} {r : Ext2New}

theorem Ext2Answer.num_le {a : Ext2Answer num} {group : Nat} {gdp : Ext2GroupDesc} {f : Ext2Found}
    (h : a.found group gdp = some f) : f.num ≤ max 1 num := by
  unfold found at h
  split at h
  · cases h
    exact a.got_le
  · cases h

/-- No search leaves more in `num`. -/
def Ext2Pass.AtMost (m : Nat) : Ext2Pass → Prop
  | .allocated f _ _ => f.num ≤ m
  | .exhausted num _ _ => num ≤ m
  | .ioError => True

theorem searchGroups_atMost {windowsz n group call : Nat} {rsv : Bool} (hm : 1 ≤ m) (hnum : num ≤ m) :
    (searchGroups sb env s windowsz rsv n group num call).AtMost m := by
  induction n generalizing group num call with
  | zero => exact hnum
  | succ n ih =>
    unfold searchGroups
    dsimp only
    split
    · trivial
    split
    · exact ih hnum
    split
    · trivial
    split
    next f hfound => exact Nat.le_trans (Ext2Answer.num_le hfound) (Nat.max_le.mpr ⟨hm, hnum⟩)
    next => exact ih (Nat.le_trans (Ext2Answer.got_le _) (Nat.max_le.mpr ⟨hm, hnum⟩))

theorem lookForBlocks_atMost {goal windowsz group call : Nat} {rsv : Bool} (hm : 1 ≤ m)
    (hnum : num ≤ m) : (lookForBlocks sb env s goal windowsz rsv group num call).AtMost m := by
  unfold lookForBlocks
  dsimp only
  split
  · trivial
  split
  · split
    · trivial
    split
    next f hfound => exact Nat.le_trans (Ext2Answer.num_le hfound) (Nat.max_le.mpr ⟨hm, hnum⟩)
    next => exact searchGroups_atMost hm (Nat.le_trans (Ext2Answer.got_le _) (Nat.max_le.mpr ⟨hm, hnum⟩))
  · exact searchGroups_atMost hm hnum

/-- A call takes nothing, or it comes to the first blocks that the test for the system zone lets pass. -/
inductive Ext2New.EndsWith (sb : Ext2Super) (s : Ext2Counts) (count : Nat) (r : Ext2New) : Prop
  | nothing : r.ret = 0 → r.counts = s → (∀ f ∈ r.found, f.inSystemZone sb) → EndsWith sb s count r
  | blocks (found : List Ext2Found) (f : Ext2Found) :
      r = performAllocation sb (s.allocQuota count) count f (found ++ [f]) →
      (∀ f ∈ found, f.inSystemZone sb) → ¬f.inSystemZone sb → f.num ≤ max 1 count →
      EndsWith sb s count r

theorem Ext2Counts.freeQuota_allocQuota (n : Nat) : (s.allocQuota n).freeQuota n = s :=
  Ext2Counts.ext (Int.add_sub_cancel ..) rfl rfl

theorem retryAlloc_endsWith {fuel goal goalGroup windowsz group call : Nat} {found : List Ext2Found}
    {rsv : Bool} (hfound : ∀ f ∈ found, f.inSystemZone sb) (hnum : num ≤ max 1 count)
    (h : retryAlloc sb env (s.allocQuota count) goal goalGroup count fuel found windowsz rsv group num
      call = some r) :
    r.EndsWith sb s count := by
  induction fuel generalizing found windowsz rsv group num call with
  | zero => cases h
  | succ fuel ih =>
    have hone : 1 ≤ max 1 count := Nat.le_max_left ..
    have hpass : (lookForBlocks sb env (s.allocQuota count) goal windowsz rsv group num call).AtMost
        (max 1 count) := lookForBlocks_atMost hone hnum
    unfold retryAlloc at h
    split at h
    next =>
      cases h
      exact .nothing rfl (Ext2Counts.freeQuota_allocQuota count) hfound
    next num' call' rsv' heq =>
      rw [heq] at hpass
      split at h
      · exact ih hfound hpass h
      · cases h
        exact .nothing rfl (Ext2Counts.freeQuota_allocQuota count) hfound
    next f call' rsv' heq =>
      rw [heq] at hpass
      split at h
      next hzone =>
        refine ih (fun g hg => ?_) hpass h
        rcases List.mem_append.mp hg with hg | hg
        · exact hfound g hg
        · rw [List.mem_singleton.mp hg]
          exact hzone
      next hzone =>
        cases h
        exact .blocks found f rfl hfound hzone hpass

theorem ext2NewBlocks_endsWith {fuel goal : Nat}
    (h : ext2NewBlocks sb env s fuel goal count = some r) : r.EndsWith sb s count := by
  unfold ext2NewBlocks at h
  split at h
  · cases h
    exact .nothing rfl rfl fun f hf => absurd hf List.not_mem_nil
  dsimp only at h
  split at h
  · cases h
    exact .nothing rfl (Ext2Counts.freeQuota_allocQuota count) fun f hf => absurd hf List.not_mem_nil
  · exact retryAlloc_endsWith (fun f hf => absurd hf List.not_mem_nil) (Nat.le_max_right ..) h

/-! ## When quota and counters are balanced -/

namespace Ext2Found

variable {f : Ext2Found}

/-- The test finds every overlap but one around the inode table. -/
theorem usable_iff (hzone : ¬f.inSystemZone sb) (hend : f.first sb + f.num ≤ sb.blocksCount) :
    f.Usable sb ↔
      ¬(f.first sb < f.gdp.inodeTable ∧ f.gdp.inodeTable + sb.itbPerGroup < f.first sb + f.num) := by
  have hitb := sb.itb_pos
  unfold inSystemZone inRange at hzone
  constructor
  · rintro ⟨-, hout⟩ henclosed
    have htable := (hout f.gdp.inodeTable ⟨by omega, by omega⟩).2.2
    exact htable ⟨Nat.le_refl _, by omega⟩
  · intro hnot
    refine ⟨⟨?_, hend⟩, fun b hb => ?_⟩
    · unfold first
      omega
    · unfold inRange at hb ⊢
      omega

theorem not_inSystemZone (h : f.Usable sb) : ¬f.inSystemZone sb := by
  have hpos := f.num_pos
  have hfirst := h.outside (f.first sb) ⟨Nat.le_refl _, by omega⟩
  have hlast := h.outside (f.first sb + f.num - 1) ⟨by omega, by omega⟩
  rintro (hz | hz | hz | hz)
  · exact (h.outside _ hz).1 rfl
  · exact (h.outside _ hz).2.1 rfl
  · exact hfirst.2.2 hz
  · exact hlast.2.2 hz

end Ext2Found

/-- The result for blocks that do not go beyond the end. -/
def allocated (sb : Ext2Super) (s : Ext2Counts) (count : Nat) (f : Ext2Found) (found : List Ext2Found) :
    Ext2New :=
  if f.num < count then
    ⟨f.first sb, f.num, none, (s.subFree f.group f.num).freeQuota (count - f.num), found⟩
  else ⟨f.first sb, count, none, s.subFree f.group f.num, found⟩

/-- The quota for blocks that have not been found is given back. -/
theorem allocated_eq {f : Ext2Found} {found : List Ext2Found} (hle : f.num ≤ count) :
    allocated sb (s.allocQuota count) count f found =
      ⟨f.first sb, f.num, none, (s.allocQuota f.num).subFree f.group f.num, found⟩ := by
  unfold allocated
  split
  next hlt =>
    congr 1
    refine Ext2Counts.ext ?_ rfl rfl
    show s.quota + count - (count - f.num : Nat) = s.quota + f.num
    omega
  next hge =>
    obtain rfl : f.num = count := Nat.le_antisymm hle (Nat.le_of_not_lt hge)
    rfl

/-- Blocks that the test lets pass are for the caller when they are good, and else they are lost. -/
theorem performAllocation_balanced {f : Ext2Found} {found : List Ext2Found}
    (hbefore : ∀ f ∈ found, f.inSystemZone sb) (hzone : ¬f.inSystemZone sb)
    (hle : f.num ≤ max 1 count) :
    (performAllocation sb (s.allocQuota count) count f (found ++ [f])).Balanced sb s ↔
      f.GoodFor sb count := by
  have hpos := f.num_pos
  have hone : ∀ g ∈ found ++ [f], g.Usable sb → g = f := by
    intro g hg husable
    rcases List.mem_append.mp hg with hg | hg
    · exact absurd (hbefore g hg) (Ext2Found.not_inSystemZone husable)
    · exact List.mem_singleton.mp hg
  unfold performAllocation Ext2Found.GoodFor
  by_cases hend : f.first sb + f.num ≤ sb.blocksCount
  · rw [if_neg (by omega), if_pos hend, ← Ext2Found.usable_iff hzone hend]
    show (allocated sb (s.allocQuota count) count f (found ++ [f])).Balanced sb s ↔ _
    have hret : (allocated sb (s.allocQuota count) count f (found ++ [f])).ret = f.first sb := by
      unfold allocated
      split <;> rfl
    constructor
    · intro h
      have hfirst : f.first sb ≠ 0 := by
        intro hzero
        have hfree := congrArg Ext2Counts.freeblocks (h.failed (hret.trans hzero))
        have hsub : (allocated sb (s.allocQuota count) count f (found ++ [f])).counts.freeblocks =
            s.freeblocks - f.num := by
          unfold allocated
          split <;> rfl
        omega
      obtain ⟨g, hg, -, hcount, -, husable⟩ := h.succeeded (hret ▸ hfirst)
      have hmem : g ∈ found ++ [f] := by
        unfold allocated at hg
        split at hg <;> exact hg
      obtain rfl := hone g hmem husable
      refine ⟨?_, hfirst, husable⟩
      unfold allocated at hcount
      split at hcount
      next hlt => omega
      next =>
        dsimp only at hcount
        omega
    · rintro ⟨hcount, hfirst, husable⟩
      rw [allocated_eq (by omega)]
      exact ⟨fun hzero => absurd hzero hfirst,
        fun _ => ⟨f, by simp, rfl, rfl, rfl, husable⟩⟩
  · rw [if_pos (by omega), if_neg hend]
    constructor
    · intro h
      have hquota := congrArg Ext2Counts.quota (h.failed rfl)
      simp only [Ext2Counts.allocQuota] at hquota
      omega
    · rintro rfl
      exact ⟨fun _ => Ext2Counts.ext (Int.add_zero _) rfl rfl, fun h => absurd rfl h⟩

/-- A call keeps the balance if and only if all blocks are good that a search has found and that the test
for the system zone lets pass. -/
theorem ext2NewBlocks_balanced_iff {fuel goal : Nat}
    (h : ext2NewBlocks sb env s fuel goal count = some r) :
    r.Balanced sb s ↔ ∀ f ∈ r.found, ¬f.inSystemZone sb → f.GoodFor sb count := by
  cases ext2NewBlocks_endsWith h with
  | nothing hret hcounts hfound =>
    exact ⟨fun _ f hf hzone => absurd (hfound f hf) hzone, fun _ => ⟨fun _ => hcounts,
      fun hne => absurd hret hne⟩⟩
  | blocks found f hr hbefore hzone hle =>
    have hlist : r.found = found ++ [f] := by
      rw [hr]
      unfold performAllocation
      dsimp only
      split
      · rfl
      · split <;> rfl
    rw [hr, performAllocation_balanced hbefore hzone hle, ← hr, hlist]
    constructor
    · intro hgood g hg hgzone
      rcases List.mem_append.mp hg with hg | hg
      · exact absurd (hbefore g hg) hgzone
      · rwa [List.mem_singleton.mp hg]
    · intro hall
      exact hall f (by simp) hzone

/-! ## The exit that keeps the quota -/

section Beyond

/-- One group of which the file system has 99 blocks; the bits behind them are clear, and the search finds
the first of them. -/
def smallSuper : Ext2Super := ⟨1, 100, 8192, 1, 10, by decide⟩

def beyondAnswers : Ext2Answers where
  quotaErr := none
  hasFreeBlocks := true
  windowsz := 0
  groupDesc _ _ := some ⟨3, 4, 5⟩
  rsvIsEmpty _ := false
  readBlockBitmap _ _ := true
  tryToAllocate _ _ _ _ _ := ⟨some 99, 1, Nat.le_max_left .., fun _ => Nat.one_pos⟩

def someFree : Ext2Counts := ⟨0, fun _ => 1, 1⟩

/-- The quota is charged, and nothing is returned. -/
def beyondResult : Ext2New :=
  ⟨0, 1, some .enospc, ⟨1, fun _ => 1, 1⟩, [⟨0, ⟨3, 4, 5⟩, 99, 1, Nat.one_pos⟩]⟩

theorem ext2NewBlocks_beyond :
    ¬∀ (sb : Ext2Super) (env : Ext2Answers) (s : Ext2Counts) (fuel goal count : Nat) (r : Ext2New),
      ext2NewBlocks sb env s fuel goal count = some r → r.Balanced sb s := by
  intro h
  have hbalanced := h smallSuper beyondAnswers someFree 1 20 1 beyondResult rfl
  have hquota := congrArg Ext2Counts.quota (hbalanced.failed rfl)
  exact absurd hquota (by decide)

theorem ext2NewBlocks_balanced_iff_beyond :
    beyondResult.Balanced smallSuper someFree ↔
      ∀ f ∈ beyondResult.found, ¬f.inSystemZone smallSuper → f.GoodFor smallSuper 1 :=
  ext2NewBlocks_balanced_iff
    (show ext2NewBlocks smallSuper beyondAnswers someFree 1 20 1 = some beyondResult from rfl)

end Beyond

end Rtfsc.Linux
