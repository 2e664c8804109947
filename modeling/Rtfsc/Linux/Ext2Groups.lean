import Rtfsc.Linux.Select

/-!
# The group of a new inode

`find_group_orlov` and `find_group_other` try tests of several kinds, the weakest one last. Whatever the
counters say, the group that is found has a descriptor with free inodes, and where there is such a group
one is found (`findGroupOrlov_spec`, `findGroupOther_spec`). The numbers of groups are naturals.
-/

namespace Rtfsc.Linux

/-- `struct ext2_group_desc`, as the search looks at it. -/
structure Ext2Desc where
  freeBlocks : UInt16
  freeInodes : UInt16
  usedDirs : UInt16
deriving DecidableEq

/-- The super block with its descriptors and counters. `INODE_COST` and `BLOCK_COST` are not part of the
file. -/
structure Ext2Groups where
  groupsCount : Nat
  desc : Nat → Option Ext2Desc
  debts : Nat → UInt8
  inodesPerGroup : Nat
  blocksPerGroup : Nat
  blocksCount : UInt32
  freeinodesCounter : Nat
  freeblocksCounter : Nat
  dirsCounter : Nat
  inodeCost : { n : Nat // 0 < n }
  blockCost : { n : Nat // 0 < n }

/-- The directory that the inode will be in. -/
structure Ext2Dir where
  blockGroup : Nat
  ino : UInt64
  isRoot : Bool
  topdir : Bool

namespace Ext2Groups

variable (sb : Ext2Groups)

/-- `ext2_get_group_desc` -/
def groupDesc (group : Nat) : Option Ext2Desc :=
  if group < sb.groupsCount then sb.desc group else none

/-- `group` has a descriptor that passes the test. -/
def passes (test : Ext2Desc → Bool) (group : Nat) : Bool := (sb.groupDesc group).any test

/-- `for (i = 0; i < ngroups; i++)` over the groups from `start` on, around the end, to the first one that
passes. -/
def scanGroups (start : Nat) (test : Nat → Bool) : Nat → Nat → Option Nat
  | 0, _ => none
  | n + 1, i =>
    let group := (start + i) % sb.groupsCount
    if test group then some group else scanGroups start test n (i + 1)

/-! ## find_group_orlov -/

def freei : Int := wrapInt sb.freeinodesCounter

def avefreei : Int := sb.freei.tdiv sb.groupsCount

def freeBlocks : Int := wrapInt sb.freeblocksCounter

def avefreeb : Int := sb.freeBlocks.tdiv sb.groupsCount

/-- The loop below the root: the group with the fewest directories among those with enough free inodes
and blocks. -/
def spreadLoop (start : Nat) : Nat → Nat → Int → Option Nat → Option Nat
  | 0, _, _, bestGroup => bestGroup
  | n + 1, i, bestNdir, bestGroup =>
    let group := (start + i) % sb.groupsCount
    match sb.groupDesc group with
    | none => spreadLoop start n (i + 1) bestNdir bestGroup
    | some desc =>
      if desc.freeInodes = 0 then spreadLoop start n (i + 1) bestNdir bestGroup
      else if (desc.usedDirs.toNat : Int) ≥ bestNdir then spreadLoop start n (i + 1) bestNdir bestGroup
      else if (desc.freeInodes.toNat : Int) < sb.avefreei then spreadLoop start n (i + 1) bestNdir bestGroup
      else if (desc.freeBlocks.toNat : Int) < sb.avefreeb then spreadLoop start n (i + 1) bestNdir bestGroup
      else spreadLoop start n (i + 1) desc.usedDirs.toNat (some group)

/-- What a group must have near its parent: `max_debt`, `max_dirs`, `min_inodes` and `min_blocks`. -/
structure Bounds where
  maxDebt : Int
  maxDirs : Int
  minInodes : Int
  minBlocks : Int

def bounds : Bounds :=
  let inodesPerGroup := wrapInt sb.inodesPerGroup
  let ndirs := wrapInt sb.dirsCounter
  let ndirs := if ndirs = 0 then 1 else ndirs
  let blocksPerDir :=
    wrapInt (((sb.blocksCount.toNat - sb.freeBlocks) % 0x100000000) / (ndirs % 0x100000000))
  let dirCost := if blocksPerDir > sb.blockCost.1 then blocksPerDir else sb.blockCost.1
  let maxDebt := wrapInt (sb.blocksPerGroup / dirCost)
  let maxDebt :=
    if wrapInt (maxDebt * sb.inodeCost.1) > inodesPerGroup then inodesPerGroup.tdiv sb.inodeCost.1
    else maxDebt
  let maxDebt := if maxDebt > 255 then 255 else maxDebt
  { maxDebt := if maxDebt = 0 then 1 else maxDebt
    maxDirs := wrapInt (ndirs.tdiv sb.groupsCount + inodesPerGroup.tdiv 16)
    minInodes := wrapInt (sb.avefreei - inodesPerGroup.tdiv 4)
    minBlocks := wrapInt (sb.avefreeb - (sb.blocksPerGroup / 4 : Nat)) }

/-- The tests of the loop near the parent. -/
def nearParent (group : Nat) : Bool :=
  sb.passes (fun desc =>
    desc.freeInodes ≠ 0 ∧ ¬((sb.debts group).toNat : Int) ≥ sb.bounds.maxDebt ∧
      ¬(desc.usedDirs.toNat : Int) ≥ sb.bounds.maxDirs ∧
      ¬(desc.freeInodes.toNat : Int) < sb.bounds.minInodes ∧
      ¬(desc.freeBlocks.toNat : Int) < sb.bounds.minBlocks) group

/-- From `fallback` on, once with `avefreei` and once without. -/
def fallback (parentGroup : Nat) : Option Nat :=
  let search (avefreei : Int) : Option Nat :=
    sb.scanGroups parentGroup
      (sb.passes fun desc => desc.freeInodes ≠ 0 ∧ (desc.freeInodes.toNat : Int) ≥ avefreei)
      sb.groupsCount 0
  match search sb.avefreei with
  | some group => some group
  | none => if sb.avefreei ≠ 0 then search 0 else none

/-- `find_group_orlov`, where `random` is what `prandom_u32` returns. -/
def findGroupOrlov (random : UInt32) (parent : Ext2Dir) : Option Nat :=
  if parent.isRoot ∨ parent.topdir then
    let parentGroup := random.toNat % sb.groupsCount
    match sb.spreadLoop parentGroup sb.groupsCount 0 (wrapInt sb.inodesPerGroup) none with
    | some group => some group
    | none => sb.fallback parentGroup
  else
    match sb.scanGroups parent.blockGroup sb.nearParent sb.groupsCount 0 with
    | some group => some group
    | none => sb.fallback parent.blockGroup

/-! ## find_group_other -/

/-- There are free inodes and free blocks. -/
def hasBoth (group : Nat) : Bool :=
  sb.passes (fun desc => desc.freeInodes ≠ 0 ∧ desc.freeBlocks ≠ 0) group

def hasInodes (group : Nat) : Bool := sb.passes (fun desc => desc.freeInodes ≠ 0) group

/-- The quadratic hash. -/
def hashLoop : Nat → Nat → Nat → Option (Option Nat)
  | 0, _, _ => none
  | fuel + 1, i, group =>
    if i < sb.groupsCount then
      let group := group + i
      let group := if group ≥ sb.groupsCount then group - sb.groupsCount else group
      if sb.hasBoth group then some (some group) else hashLoop fuel (i <<< 1) group
    else some none

/-- The linear search, from the group behind `group` on. -/
def linearLoop : Nat → Nat → Option Nat
  | 0, _ => none
  | n + 1, group =>
    let group := if group + 1 ≥ sb.groupsCount then 0 else group + 1
    if sb.hasInodes group then some group else linearLoop n group

/-- `find_group_other`; it has no result where `fuel` is too little for the hash. -/
def findGroupOther (fuel : Nat) (parent : Ext2Dir) : Option (Option Nat) :=
  let group := parent.blockGroup
  if sb.hasBoth group then some (some group)
  else do
    let group := (group + parent.ino.toNat) % 0x10000000000000000 % sb.groupsCount
    let hashed ← sb.hashLoop fuel 1 group
    match hashed with
    | some group => return some group
    | none => return sb.linearLoop sb.groupsCount parent.blockGroup

/-! ## What is found -/

/-- The descriptor can be read and has free inodes. -/
def Offers (group : Nat) : Prop := ∃ desc, sb.groupDesc group = some desc ∧ desc.freeInodes ≠ 0

/-- A group with free inodes, or none because there is none. -/
structure FindsGroup (found : Option Nat) : Prop where
  offers : ∀ group, found = some group → sb.Offers group
  none : found = none → ∀ group, ¬sb.Offers group

variable {sb} {start group i n fuel : Nat} {test : Nat → Bool} {parent : Ext2Dir}

theorem groupDesc_lt {desc : Ext2Desc} (h : sb.groupDesc group = some desc) : group < sb.groupsCount := by
  unfold groupDesc at h
  split at h
  · assumption
  · cases h

theorem Offers.lt (h : sb.Offers group) : group < sb.groupsCount := by
  obtain ⟨desc, hdesc, -⟩ := h
  exact groupDesc_lt hdesc

theorem passes_iff {test : Ext2Desc → Bool} :
    sb.passes test group = true ↔ ∃ desc, sb.groupDesc group = some desc ∧ test desc = true := by
  unfold passes
  cases sb.groupDesc group with
  | none => exact ⟨nofun, nofun⟩
  | some desc => exact ⟨fun h => ⟨desc, rfl, h⟩, fun ⟨_, h, htest⟩ => by cases h; exact htest⟩

/-- All tests ask for free inodes. -/
theorem offers_of_passes {test : Ext2Desc → Bool} (htest : ∀ desc, test desc = true → desc.freeInodes ≠ 0)
    (h : sb.passes test group = true) : sb.Offers group := by
  obtain ⟨desc, hdesc, hpasses⟩ := passes_iff.1 h
  exact ⟨desc, hdesc, htest desc hpasses⟩

theorem offers_iff : sb.Offers group ↔ sb.hasInodes group = true := by
  constructor
  · rintro ⟨desc, hdesc, hfree⟩
    exact passes_iff.2 ⟨desc, hdesc, decide_eq_true hfree⟩
  · exact offers_of_passes fun desc h => of_decide_eq_true h

/-- Every group is on the way around. -/
theorem exists_mod (start : Nat) (h : group < n) : ∃ i < n, (start + i) % n = group := by
  have hstart := Nat.mod_lt start (Nat.zero_lt_of_lt h)
  refine ⟨(group + (n - start % n)) % n, Nat.mod_lt _ (Nat.zero_lt_of_lt h), ?_⟩
  have hsum : start % n + (group + (n - start % n)) = group + n := by omega
  rw [Nat.add_mod, Nat.mod_mod, ← Nat.add_mod, Nat.add_mod, ← Nat.mod_mod start n, ← Nat.add_mod,
    Nat.mod_mod, hsum, Nat.add_mod_right, Nat.mod_eq_of_lt h]

theorem scanGroups_some (h : sb.scanGroups start test n i = some group) : test group = true := by
  induction n generalizing i with
  | zero => cases h
  | succ n ih =>
    unfold scanGroups at h
    dsimp only at h
    split at h
    · next htest =>
      cases h
      exact htest
    · exact ih h

theorem scanGroups_none (h : sb.scanGroups start test n i = none) :
    ∀ j, i ≤ j → j < i + n → test ((start + j) % sb.groupsCount) = false := by
  induction n generalizing i with
  | zero => exact fun j hlo hhi => absurd hhi (Nat.not_lt.2 hlo)
  | succ n ih =>
    unfold scanGroups at h
    dsimp only at h
    split at h
    · cases h
    · next htest =>
      intro j hlo hhi
      rcases Nat.eq_or_lt_of_le hlo with rfl | hlt
      · exact Bool.eq_false_iff.2 htest
      · exact ih h j hlt (by omega)

/-- A whole round passes over no group. -/
theorem scanGroups_all (h : sb.scanGroups start test sb.groupsCount 0 = none)
    (hgroup : group < sb.groupsCount) : test group = false := by
  obtain ⟨i, hi, rfl⟩ := exists_mod start hgroup
  exact scanGroups_none h i (Nat.zero_le i) (by omega)

/-! ### find_group_orlov -/

theorem fallback_spec (parentGroup : Nat) : sb.FindsGroup (sb.fallback parentGroup) := by
  have hoffers : ∀ bound g, sb.scanGroups parentGroup
      (sb.passes fun desc => desc.freeInodes ≠ 0 ∧ (desc.freeInodes.toNat : Int) ≥ bound)
      sb.groupsCount 0 = some g → sb.Offers g := fun bound g h =>
    offers_of_passes (fun desc hdesc => (of_decide_eq_true hdesc).1) (scanGroups_some h)
  have hall : sb.scanGroups parentGroup
      (sb.passes fun desc => desc.freeInodes ≠ 0 ∧ (desc.freeInodes.toNat : Int) ≥ 0)
      sb.groupsCount 0 = none → ∀ g, ¬sb.Offers g := by
    rintro h g hg
    have hlt := hg.lt
    obtain ⟨desc, hdesc, hfree⟩ := hg
    have htest : decide (desc.freeInodes ≠ 0 ∧ (desc.freeInodes.toNat : Int) ≥ 0) = true :=
      decide_eq_true ⟨hfree, Int.natCast_nonneg _⟩
    exact absurd (passes_iff.2 ⟨desc, hdesc, htest⟩) (Bool.eq_false_iff.1 (scanGroups_all h hlt))
  unfold fallback
  dsimp only
  split
  · next group hfirst => exact ⟨fun g h => Option.some.inj h ▸ hoffers _ _ hfirst, nofun⟩
  · next hfirst =>
    split
    · exact ⟨hoffers 0, hall⟩
    · next hzero =>
      rw [not_not.1 hzero] at hfirst
      exact ⟨nofun, fun _ => hall hfirst⟩

theorem spreadLoop_some {bestNdir : Int} {bestGroup : Option Nat}
    (hbest : ∀ g, bestGroup = some g → sb.Offers g)
    (h : sb.spreadLoop start n i bestNdir bestGroup = some group) : sb.Offers group := by
  induction n generalizing i bestNdir bestGroup with
  | zero => exact hbest group h
  | succ n ih =>
    unfold spreadLoop at h
    dsimp only at h
    split at h
    · exact ih hbest h
    · next desc hdesc =>
      split at h
      · exact ih hbest h
      · next hfree =>
        split at h
        · exact ih hbest h
        split at h
        · exact ih hbest h
        split at h
        · exact ih hbest h
        · refine ih (fun g hg => ?_) h
          cases hg
          exact ⟨desc, hdesc, hfree⟩

theorem findGroupOrlov_spec (sb : Ext2Groups) (random : UInt32) (parent : Ext2Dir) :
    sb.FindsGroup (sb.findGroupOrlov random parent) := by
  unfold findGroupOrlov
  split
  · dsimp only
    split
    · next group hspread =>
      have hnone : ∀ g, (none : Option Nat) = some g → sb.Offers g := nofun
      exact ⟨fun g h => Option.some.inj h ▸ spreadLoop_some hnone hspread, nofun⟩
    · exact fallback_spec _
  · split
    · next group hnear =>
      have hpasses : sb.nearParent group = true := scanGroups_some hnear
      refine ⟨fun g h => Option.some.inj h ▸ ?_, nofun⟩
      exact offers_of_passes (fun desc hdesc => (of_decide_eq_true hdesc).1) hpasses
    · exact fallback_spec _

/-! ### find_group_other -/

theorem offers_of_hasBoth (h : sb.hasBoth group = true) : sb.Offers group :=
  offers_of_passes (fun _ hdesc => (of_decide_eq_true hdesc).1) h

/-- The step doubles, so there is fuel enough for as many rounds as there are groups. -/
theorem hashLoop_spec (sb : Ext2Groups) (group : Nat) (hi : 0 < i) (hfuel : 0 < fuel) (henough : sb.groupsCount < i + fuel) :
    ∃ found, sb.hashLoop fuel i group = some found ∧ ∀ g, found = some g → sb.Offers g := by
  induction fuel generalizing i group with
  | zero => exact absurd hfuel (Nat.lt_irrefl 0)
  | succ fuel ih =>
    unfold hashLoop
    by_cases hmore : i < sb.groupsCount
    · rw [if_pos hmore]
      dsimp only
      generalize (if group + i ≥ sb.groupsCount then _ else _) = g
      split
      · next hboth => exact ⟨_, rfl, fun g h => Option.some.inj h ▸ offers_of_hasBoth hboth⟩
      · have hdouble : i <<< 1 = 2 * i := by rw [Nat.shiftLeft_eq, Nat.mul_comm]
        exact ih g (show 0 < i <<< 1 by omega) (by omega) (by omega)
    · rw [if_neg hmore]
      exact ⟨none, rfl, nofun⟩

theorem linearLoop_some (h : sb.linearLoop n start = some group) : sb.Offers group := by
  induction n generalizing start with
  | zero => cases h
  | succ n ih =>
    unfold linearLoop at h
    dsimp only at h
    generalize (if start + 1 ≥ sb.groupsCount then _ else _) = g at h
    split at h
    · next hfree =>
      cases h
      exact offers_iff.2 hfree
    · exact ih h

theorem linearLoop_none (hstart : start < sb.groupsCount) (h : sb.linearLoop n start = none) :
    ∀ j < n, ¬sb.Offers ((start + 1 + j) % sb.groupsCount) := by
  induction n generalizing start with
  | zero => exact fun j hj => absurd hj (Nat.not_lt_zero j)
  | succ n ih =>
    unfold linearLoop at h
    have hnext : (if start + 1 ≥ sb.groupsCount then 0 else start + 1) = (start + 1) % sb.groupsCount := by
      split
      · next hend =>
        have hsame : start + 1 = sb.groupsCount := Nat.le_antisymm hstart hend
        rw [hsame, Nat.mod_self]
      · next hin => exact (Nat.mod_eq_of_lt (Nat.lt_of_not_le hin)).symm
    rw [hnext] at h
    dsimp only at h
    split at h
    · cases h
    · next hfull =>
      intro j hj
      cases j with
      | zero => exact fun hoffers => hfull (offers_iff.1 hoffers)
      | succ j =>
        have hrest := ih (Nat.mod_lt _ (Nat.zero_lt_of_lt hstart)) h j (Nat.lt_of_succ_lt_succ hj)
        have hplace : start + 1 + (j + 1) = start + 1 + (1 + j) := by omega
        rw [Nat.add_assoc, Nat.mod_add_mod] at hrest
        rwa [hplace]

theorem findGroupOther_spec (hparent : parent.blockGroup < sb.groupsCount)
    (hfuel : sb.groupsCount ≤ fuel) :
    ∃ found, sb.findGroupOther fuel parent = some found ∧ sb.FindsGroup found := by
  unfold findGroupOther
  dsimp only
  split
  · next hboth =>
    exact ⟨_, rfl, fun g h => Option.some.inj h ▸ offers_of_hasBoth hboth, nofun⟩
  obtain ⟨found, hhash, hoffers⟩ := hashLoop_spec sb
    ((parent.blockGroup + parent.ino.toNat) % 0x10000000000000000 % sb.groupsCount) Nat.one_pos
    (show 0 < fuel by omega) (by omega)
  rw [hhash]
  cases found with
  | some g => exact ⟨_, rfl, hoffers, nofun⟩
  | none =>
    refine ⟨_, rfl, fun g => linearLoop_some, fun hnone g hg => ?_⟩
    obtain ⟨j, hj, rfl⟩ := exists_mod (parent.blockGroup + 1) hg.lt
    exact linearLoop_none hparent hnone j hj hg

end Ext2Groups

end Rtfsc.Linux
