import Mathlib.Data.List.Perm.Basic
import Rtfsc.Linux.Ext2Groups

/-!
# ext2_new_inode

The search for a free bit goes over the groups once and over the bits of a group as long as others take
them. The bitmap of a group changes between two looks at it, but bits are only set. The buffers of the
bitmaps are numbered in the order in which they are read.
-/

namespace Rtfsc.Linux

/-- What a call of `ext2_new_inode` meets. `looks group k` is the bitmap of a group at the `k`-th look at
it; where the bitmap is searched and then a bit is set, these are two. The results of what is called behind
the search are error numbers, 0 for none. -/
structure Ext2Inodes extends Ext2Groups where
  parent : Ext2Dir
  parent_lt : parent.blockGroup < groupsCount
  hasMemory : Bool
  isDir : Bool
  oldAlloc : Bool
  findGroupDir : Option (Fin groupsCount)
  random : UInt32
  inodeBitmap : Nat → Bool
  looks : Nat → Nat → Nat → Bool
  grows : ∀ group k bit, looks group k bit = true → looks group (k + 1) bit = true
  firstIno : Nat
  inodesCount : Nat
  insertInodeLocked : Int
  dquotInitialize : Int
  dquotAllocInode : Int
  initAcl : Int
  initSecurity : Int

/-- `bitmap_bh`, how many buffers have been obtained, those that have been released, and the bits that
`ext2_set_bit_atomic` has changed. -/
structure InodeSearch where
  group : Nat
  bitmapBh : Option Nat
  obtained : Nat
  released : List Nat
  changed : List (Nat × Nat)

/-- Where the loop over the groups ends. -/
inductive SearchEnd
  | got (bit : Nat)
  | ioError
  | exhausted

inductive InodeErr
  | enomem
  | enospc
  | eio
  | other (err : Int)

/-- What is returned: the inode number and `i_block_group`, or an error. -/
inductive InodeExit
  | returned (ino blockGroup : Nat)
  | failed (err : InodeErr)

namespace InodeSearch

variable (s : InodeSearch)

/-- `brelse(bitmap_bh)` -/
def brelse : InodeSearch := { s with released := s.released ++ s.bitmapBh.toList }

/-- `bitmap_bh = read_inode_bitmap()`, where it can be read. -/
def obtain : InodeSearch := { s with bitmapBh := some s.obtained, obtained := s.obtained + 1 }

end InodeSearch

/-- `ext2_find_next_zero_bit`, with `n` bits to look at. -/
def findNextZero (bits : Nat → Bool) : Nat → Nat → Nat
  | 0, bit => bit
  | n + 1, bit => if bits bit then findNextZero bits n (bit + 1) else bit

namespace Ext2Inodes

variable (e : Ext2Inodes)

/-- `if (++group == sbi->s_groups_count) group = 0` -/
def nextGroup (s : InodeSearch) : InodeSearch :=
  { s with group := if s.group + 1 = e.groupsCount then 0 else s.group + 1 }

/-- From `repeat_in_this_group` on, at the `k`-th time: the bit that is taken, or none and the search goes
to the next group. -/
def tryGroup : Nat → Nat → Nat → InodeSearch → Option (InodeSearch × Option Nat)
  | 0, _, _, _ => none
  | fuel + 1, k, ino, s =>
    let ino := findNextZero (e.looks s.group (2 * k)) (e.inodesPerGroup - ino) ino
    if ino ≥ e.inodesPerGroup then some (e.nextGroup s, none)
    else if e.looks s.group (2 * k + 1) ino then
      let ino := ino + 1
      if ino ≥ e.inodesPerGroup then some (e.nextGroup s, none)
      else tryGroup fuel (k + 1) ino s
    else some ({ s with changed := s.changed ++ [(s.group, ino)] }, some ino)

/-- The loop over the groups, `n` of them. -/
def searchLoop (fuel : Nat) : Nat → InodeSearch → Option (InodeSearch × SearchEnd)
  | 0, s => some (s, .exhausted)
  | n + 1, s =>
    match e.groupDesc s.group with
    | none => searchLoop fuel n (e.nextGroup s)
    | some _ =>
      let s := s.brelse
      if e.inodeBitmap s.group then do
        let (s, bit) ← e.tryGroup fuel 0 0 s.obtain
        match bit with
        | some bit => return (s, .got bit)
        | none => searchLoop fuel n s
      else some ({ s with bitmapBh := none }, .ioError)

/-- `find_group_dir` is not part of the file. -/
def findGroup (fuel : Nat) : Option (Option Nat) :=
  if e.isDir then
    if e.oldAlloc then some (e.findGroupDir.map Fin.val)
    else some (e.findGroupOrlov e.random e.parent)
  else e.findGroupOther fuel e.parent

/-- What follows when the bit is taken. -/
def initInode (group bit : Nat) : InodeExit :=
  let ino := bit + group * e.inodesPerGroup + 1
  if ino < e.firstIno ∨ ino > e.inodesCount then .failed .eio
  else if e.insertInodeLocked < 0 then .failed .eio
  else if e.dquotInitialize ≠ 0 then .failed (.other e.dquotInitialize)
  else if e.dquotAllocInode ≠ 0 then .failed (.other e.dquotAllocInode)
  else if e.initAcl ≠ 0 then .failed (.other e.initAcl)
  else if e.initSecurity ≠ 0 then .failed (.other e.initSecurity)
  else .returned ino group

/-- A call that has come to its end: the state, the bit that was taken, and what is returned. -/
structure Result where
  search : InodeSearch
  got : Option Nat
  exit : InodeExit

/-- Before the search. -/
def start (group : Nat) : InodeSearch := ⟨group, none, 0, [], []⟩

/-- `ext2_new_inode`; it has no result where `fuel` is too little for a loop. -/
def ext2NewInode (fuel : Nat) : Option Result :=
  if e.hasMemory then do
    let group ← e.findGroup fuel
    match group with
    | none => return ⟨start 0, none, .failed .enospc⟩
    | some group =>
      let (s, found) ← e.searchLoop fuel e.groupsCount (start group)
      match found with
      | .got bit => return ⟨s.brelse, some bit, e.initInode s.group bit⟩
      | .ioError => return ⟨s, none, .failed .eio⟩
      | .exhausted => return ⟨s, none, .failed .enospc⟩
  else some ⟨start 0, none, .failed .enomem⟩

/-! ## What is claimed of a call -/

/-- The `k`-th try in a group takes a bit: the first one that is clear is still clear when it is set. -/
def Takes (group k bit : Nat) : Prop :=
  bit < e.inodesPerGroup ∧ e.looks group (2 * k) bit = false ∧
    (∀ b < bit, e.looks group (2 * k) b = true) ∧ e.looks group (2 * k + 1) bit = false

/-- At one of the looks at it the bitmap of the group is full. -/
def FoundFull (group : Nat) : Prop := ∃ k, ∀ bit < e.inodesPerGroup, e.looks group k bit = true

/-- There is a group to begin with. -/
def GroupOffered : Prop :=
  if e.isDir ∧ e.oldAlloc then e.findGroupDir.isSome = true else ∃ group, e.Offers group

/-- What is true of a call at its end. -/
structure Right (r : Result) : Prop where
  /-- A bit that is taken was clear, and no other one has been changed. -/
  got : ∀ bit, r.got = some bit → r.search.changed = [(r.search.group, bit)] ∧
    e.inodeBitmap r.search.group = true ∧ ∃ k, e.Takes r.search.group k bit
  unchanged : r.got = none → r.search.changed = []
  returned : ∀ ino group, r.exit = .returned ino group → ∃ bit, r.got = some bit ∧
    group = r.search.group ∧ ino = bit + group * e.inodesPerGroup + 1
  noSpace : r.exit = .failed .enospc →
    ¬e.GroupOffered ∨ ∀ group desc, e.groupDesc group = some desc → e.FoundFull group
  released : r.search.released.Perm (List.range r.search.obtained)

/-- Both ways to find a group and the call come to an end, and what they come to is right. -/
structure PlacesInode : Prop where
  orlov : e.FindsGroup (e.findGroupOrlov e.random e.parent)
  other : ∀ fuel, e.groupsCount ≤ fuel →
    ∃ found, e.findGroupOther fuel e.parent = some found ∧ e.FindsGroup found
  call : ∀ fuel, e.groupsCount ≤ fuel → e.inodesPerGroup < fuel →
    ∃ r, e.ext2NewInode fuel = some r ∧ e.Right r

/-- A group is offered and one can be looked at, every bitmap can be read, and in none of them a bit can be
taken. -/
def Exhausted : Prop :=
  e.hasMemory = true ∧ e.GroupOffered ∧ (∃ group desc, e.groupDesc group = some desc) ∧
    ∀ group desc, e.groupDesc group = some desc →
      e.inodeBitmap group = true ∧ ∀ k bit, ¬e.Takes group k bit

open Ext2Groups

variable {e} {s s' : InodeSearch} {group k ino n fuel bit : Nat}

/-! ## The bits of a group -/

theorem looks_mono {i j : Nat} (h : i ≤ j) (hset : e.looks group i bit = true) :
    e.looks group j bit = true := by
  induction j, h using Nat.le_induction with
  | base => exact hset
  | succ j _ ih => exact e.grows group j bit ih

theorem findNextZero_spec (bits : Nat → Bool) (n bit : Nat) :
    (bit ≤ findNextZero bits n bit ∧ findNextZero bits n bit ≤ bit + n) ∧
      (∀ b, bit ≤ b → b < findNextZero bits n bit → bits b = true) ∧
      (findNextZero bits n bit < bit + n → bits (findNextZero bits n bit) = false) := by
  induction n generalizing bit with
  | zero =>
    exact ⟨⟨le_rfl, le_rfl⟩, fun b hlo hhi => absurd hhi (Nat.not_lt.2 hlo),
      fun h => absurd h (Nat.lt_irrefl _)⟩
  | succ n ih =>
    rw [findNextZero]
    split
    · next hset =>
      obtain ⟨⟨hle, hend⟩, hbefore, hclear⟩ := ih (bit + 1)
      refine ⟨⟨by omega, by omega⟩, fun b hlo hhi => ?_, fun h => hclear (by omega)⟩
      rcases Nat.eq_or_lt_of_le hlo with rfl | hlt
      · exact hset
      · exact hbefore b hlt hhi
    · next hclear =>
      exact ⟨⟨le_rfl, Nat.le_add_right _ _⟩, fun b hlo hhi => absurd hhi (Nat.not_lt.2 hlo),
        fun _ => Bool.eq_false_iff.2 hclear⟩

/-- A full bitmap stays full. -/
theorem not_takes_of_full {i j : Nat} (hfull : ∀ b < e.inodesPerGroup, e.looks group i b = true)
    (hle : i ≤ 2 * j) : ¬e.Takes group j bit := by
  rintro ⟨hbit, hclear, -, -⟩
  rw [looks_mono hle (hfull bit hbit)] at hclear
  cases hclear

/-- What a search in a group comes to. -/
inductive Tried (e : Ext2Inodes) (s : InodeSearch) (k : Nat) : InodeSearch × Option Nat → Prop
  | taken {j bit : Nat} (takes : e.Takes s.group j bit) :
    Tried e s k ({ s with changed := s.changed ++ [(s.group, bit)] }, some bit)
  | passed (never : ∀ j, k ≤ j → ∀ bit, ¬e.Takes s.group j bit) (full : e.FoundFull s.group) :
    Tried e s k (e.nextGroup s, none)

/-- By induction on the fuel; each bit that is lost is behind those that were lost before. -/
theorem tryGroup_spec (hino : ino ≤ e.inodesPerGroup) (hfuel : e.inodesPerGroup < ino + fuel)
    (hlow : ∀ b < ino, e.looks s.group (2 * k) b = true) :
    ∃ r, e.tryGroup fuel k ino s = some r ∧ Tried e s k r := by
  induction fuel generalizing k ino with
  | zero => exact absurd hino (Nat.not_le.2 hfuel)
  | succ fuel ih =>
    unfold tryGroup
    obtain ⟨⟨hle, hend⟩, hbetween, hclear⟩ :=
      findNextZero_spec (e.looks s.group (2 * k)) (e.inodesPerGroup - ino) ino
    generalize findNextZero (e.looks s.group (2 * k)) (e.inodesPerGroup - ino) ino = bit at *
    have hbefore : ∀ b < bit, e.looks s.group (2 * k) b = true := fun b hb => by
      rcases Nat.lt_or_ge b ino with hlt | hge
      · exact hlow b hlt
      · exact hbetween b hge hb
    dsimp only
    split
    · next hnone =>
      have hfull : ∀ b < e.inodesPerGroup, e.looks s.group (2 * k) b = true := fun b hb =>
        hbefore b (Nat.lt_of_lt_of_le hb hnone)
      exact ⟨_, rfl, .passed (fun j hj b => not_takes_of_full hfull (by omega)) ⟨_, hfull⟩⟩
    · next hsome =>
      have hfirst := hclear (by omega)
      split
      · next hlost =>
        -- another one has set the bit
        have hset : ∀ b < bit + 1, e.looks s.group (2 * k + 1) b = true := fun b hb => by
          rcases Nat.eq_or_lt_of_le (Nat.le_of_lt_succ hb) with rfl | hlt
          · exact hlost
          · exact e.grows _ _ _ (hbefore b hlt)
        have hnot : ∀ b, ¬e.Takes s.group k b := by
          rintro b ⟨-, hfree, hbelow, hstill⟩
          rcases Nat.lt_trichotomy b bit with hlt | rfl | hgt
          · rw [hbefore b hlt] at hfree
            cases hfree
          · rw [hlost] at hstill
            cases hstill
          · rw [hbelow bit hgt] at hfirst
            cases hfirst
        split
        · next hlast =>
          have hfull : ∀ b < e.inodesPerGroup, e.looks s.group (2 * k + 1) b = true := fun b hb =>
            hset b (Nat.lt_of_lt_of_le hb hlast)
          refine ⟨_, rfl, .passed (fun j hj b => ?_) ⟨_, hfull⟩⟩
          rcases Nat.eq_or_lt_of_le hj with rfl | hlt
          · exact hnot b
          · exact not_takes_of_full hfull (by omega)
        · next hmore =>
          have hnext : ∀ b < bit + 1, e.looks s.group (2 * (k + 1)) b = true := fun b hb =>
            e.grows _ _ _ (hset b hb)
          obtain ⟨r, hrun, htried⟩ := ih (by omega) (by omega) hnext
          refine ⟨r, hrun, ?_⟩
          cases htried with
          | taken takes => exact .taken takes
          | passed never full =>
            refine .passed (fun j hj b => ?_) full
            rcases Nat.eq_or_lt_of_le hj with rfl | hlt
            · exact hnot b
            · exact never j hlt b
      · next hwon =>
        exact ⟨_, rfl, .taken ⟨by omega, hfirst, hbefore, Bool.eq_false_iff.2 hwon⟩⟩

/-! ## The groups -/

/-- Each buffer has been released, or it is the one of `bitmap_bh`. -/
def Held (s : InodeSearch) : Prop := s.released ++ s.bitmapBh.toList = List.range s.obtained

theorem Held.brelse (h : Held s) : s.brelse.released = List.range s.obtained := h

theorem Held.obtain (h : Held s) : Held s.brelse.obtain := by
  change (s.released ++ s.bitmapBh.toList) ++ [s.obtained] = List.range (s.obtained + 1)
  rw [List.range_succ, show s.released ++ s.bitmapBh.toList = List.range s.obtained from h]

/-- The search has gone through the group and on to the next one. -/
structure PassedOver (e : Ext2Inodes) (group : Nat) : Prop where
  read : e.inodeBitmap group = true
  never : ∀ k bit, ¬e.Takes group k bit
  full : e.FoundFull group

/-- What the loop over `n` groups comes to. -/
inductive Searched (e : Ext2Inodes) (n : Nat) (s s' : InodeSearch) : SearchEnd → Prop
  | got {k bit : Nat} {desc : Ext2Desc} (changed : s'.changed = [(s'.group, bit)])
      (desc_eq : e.groupDesc s'.group = some desc) (read : e.inodeBitmap s'.group = true)
      (takes : e.Takes s'.group k bit) : Searched e n s s' (.got bit)
  | ioError {group : Nat} {desc : Ext2Desc} (changed : s'.changed = [])
      (desc_eq : e.groupDesc group = some desc) (unread : e.inodeBitmap group = false)
      (released : s'.bitmapBh = none) : Searched e n s s' .ioError
  | exhausted (changed : s'.changed = [])
      (passed : ∀ i < n, ∀ desc, e.groupDesc ((s.group + i) % e.groupsCount) = some desc →
        PassedOver e ((s.group + i) % e.groupsCount))
      (kept : s'.bitmapBh = none ↔ s.bitmapBh = none ∧
        ∀ i < n, e.groupDesc ((s.group + i) % e.groupsCount) = none) : Searched e n s s' .exhausted

theorem nextGroup_group (h : s.group < e.groupsCount) :
    (e.nextGroup s).group = (s.group + 1) % e.groupsCount := by
  unfold nextGroup
  dsimp only
  split
  · next hend => rw [hend, Nat.mod_self]
  · next hin => exact (Nat.mod_eq_of_lt (by omega)).symm

/-- One group more, which the search has gone through or not looked at. -/
theorem Searched.step {s₁ : InodeSearch} {found : SearchEnd} (h : Searched e n s₁ s' found)
    (hgroup : s.group < e.groupsCount) (hnext : s₁.group = (s.group + 1) % e.groupsCount)
    (hpassed : ∀ desc, e.groupDesc s.group = some desc → PassedOver e s.group)
    (hbh : s₁.bitmapBh = none ↔ s.bitmapBh = none ∧ e.groupDesc s.group = none) :
    Searched e (n + 1) s s' found := by
  have hshift : ∀ i, (s₁.group + i) % e.groupsCount = (s.group + (i + 1)) % e.groupsCount := fun i => by
    rw [hnext, Nat.mod_add_mod, Nat.add_assoc, Nat.add_comm 1 i]
  have hfirst : (s.group + 0) % e.groupsCount = s.group := Nat.mod_eq_of_lt hgroup
  cases h with
  | got changed desc_eq read takes => exact .got changed desc_eq read takes
  | ioError changed desc_eq unread released => exact .ioError changed desc_eq unread released
  | exhausted changed passed kept =>
    refine .exhausted changed (fun i hi => ?_) ?_
    · cases i with
      | zero => rwa [hfirst]
      | succ i =>
        rw [← hshift]
        exact passed i (Nat.lt_of_succ_lt_succ hi)
    · rw [kept, hbh, and_assoc]
      refine and_congr_right fun _ => ⟨fun ⟨hnodesc, hrest⟩ i hi => ?_, fun hnone => ⟨?_, fun i hi => ?_⟩⟩
      · cases i with
        | zero => rwa [hfirst]
        | succ i =>
          rw [← hshift]
          exact hrest i (Nat.lt_of_succ_lt_succ hi)
      · rw [← hfirst]
        exact hnone 0 (Nat.succ_pos n)
      · rw [hshift]
        exact hnone (i + 1) (Nat.succ_lt_succ hi)

/-- By induction on the groups that are left. -/
theorem searchLoop_spec (hfuel : e.inodesPerGroup < fuel) (hgroup : s.group < e.groupsCount)
    (hheld : Held s) (hchanged : s.changed = []) :
    ∃ s' found, e.searchLoop fuel n s = some (s', found) ∧ Held s' ∧ Searched e n s s' found := by
  induction n generalizing s with
  | zero =>
    exact ⟨s, .exhausted, rfl, hheld, .exhausted hchanged (fun i hi => absurd hi (Nat.not_lt_zero i))
      ⟨fun hbh => ⟨hbh, fun i hi => absurd hi (Nat.not_lt_zero i)⟩, And.left⟩⟩
  | succ n ih =>
    have hnext := nextGroup_group hgroup
    have hlt : (s.group + 1) % e.groupsCount < e.groupsCount :=
      Nat.mod_lt _ (Nat.zero_lt_of_lt hgroup)
    unfold searchLoop
    split
    · next hnone =>
      obtain ⟨s', found, hrun, hheld', hsearched⟩ := ih (s := e.nextGroup s) (by rwa [hnext]) hheld hchanged
      refine ⟨s', found, hrun, hheld', hsearched.step hgroup hnext (fun desc hdesc => ?_)
        (iff_self_and.2 fun _ => hnone)⟩
      rw [hnone] at hdesc
      cases hdesc
    · next desc hdesc =>
      dsimp only
      split
      · next hread =>
        obtain ⟨r, hrun, htried⟩ := tryGroup_spec (e := e) (s := s.brelse.obtain) (k := 0)
          (Nat.zero_le _) (show e.inodesPerGroup < 0 + fuel by omega)
          fun b hb => absurd hb (Nat.not_lt_zero b)
        rw [hrun]
        cases htried with
        | taken takes =>
          refine ⟨_, _, rfl, hheld.obtain, .got ?_ hdesc hread takes⟩
          exact congrArg (· ++ _) hchanged
        | passed never full =>
          have hbehind : (e.nextGroup s.brelse.obtain).group = (s.group + 1) % e.groupsCount :=
            nextGroup_group (s := s.brelse.obtain) hgroup
          obtain ⟨s', found, hrest, hheld', hsearched⟩ := ih (s := e.nextGroup s.brelse.obtain)
            (by rwa [hbehind]) hheld.obtain hchanged
          refine ⟨s', found, hrest, hheld', hsearched.step hgroup hbehind
            (fun _ _ => ⟨hread, fun j => never j (Nat.zero_le j), full⟩) ⟨nofun, fun h => ?_⟩⟩
          rw [hdesc] at h
          exact nomatch h.2
      · next hunread =>
        refine ⟨_, _, rfl, ?_, .ioError hchanged hdesc (Bool.eq_false_iff.2 hunread) rfl⟩
        exact (List.append_nil _).trans hheld.brelse

/-! ## The call -/

theorem findGroup_spec (e : Ext2Inodes) (hfuel : e.groupsCount ≤ fuel) :
    ∃ found, e.findGroup fuel = some found ∧ (∀ g, found = some g → g < e.groupsCount) ∧
      (found = none ↔ ¬e.GroupOffered) := by
  have hfinds : ∀ found, e.FindsGroup found → (∀ g, found = some g → g < e.groupsCount) ∧
      (found = none ↔ ¬∃ g, e.Offers g) := by
    intro found h
    refine ⟨fun g hg => (h.offers g hg).lt, fun hnone ⟨g, hg⟩ => h.none hnone g hg, fun hno => ?_⟩
    cases found with
    | none => rfl
    | some g => exact absurd ⟨g, h.offers g rfl⟩ hno
  unfold findGroup GroupOffered
  rcases e.isDir with _ | _
  · obtain ⟨found, hrun, hfound⟩ := findGroupOther_spec e.parent_lt hfuel
    obtain ⟨hlt, hiff⟩ := hfinds found hfound
    rw [if_neg (show ¬(false = true ∧ e.oldAlloc = true) from fun h => nomatch h.1)]
    exact ⟨found, hrun, hlt, hiff⟩
  rcases e.oldAlloc with _ | _
  · obtain ⟨hlt, hiff⟩ := hfinds _ (findGroupOrlov_spec e.toExt2Groups e.random e.parent)
    rw [if_neg (show ¬(true = true ∧ false = true) from fun h => nomatch h.2)]
    exact ⟨_, rfl, hlt, hiff⟩
  · rw [if_pos (show true = true ∧ true = true from ⟨rfl, rfl⟩)]
    refine ⟨_, rfl, fun g hg => ?_, ?_⟩
    · obtain ⟨i, -, rfl⟩ := Option.map_eq_some_iff.1 hg
      exact i.2
    · rw [Option.map_eq_none_iff, Option.isSome_iff_ne_none, not_not]

theorem initInode_returned {ino blockGroup : Nat} (h : e.initInode group bit = .returned ino blockGroup) :
    blockGroup = group ∧ ino = bit + group * e.inodesPerGroup + 1 := by
  unfold initInode at h
  dsimp only at h
  repeat (split at h; · cases h)
  cases h
  exact ⟨rfl, rfl⟩

theorem initInode_ne_enospc : e.initInode group bit ≠ .failed .enospc := by
  unfold initInode
  dsimp only
  repeat (split; · nofun)
  nofun

/-- A call that ends before the search, or for want of a group. -/
theorem right_of_start {err : InodeErr} (herr : err = .enospc → ¬e.GroupOffered) :
    e.Right ⟨start 0, none, .failed err⟩ where
  got := nofun
  unchanged := fun _ => rfl
  returned := nofun
  noSpace := fun h => .inl (herr (by cases h; rfl))
  released := .refl _

/-- The last bitmap is still held when the loop ends with no bit. -/
theorem ext2NewInode_right_iff (e : Ext2Inodes) (hfuel : e.groupsCount ≤ fuel)
    (hbits : e.inodesPerGroup < fuel) :
    ∃ r, e.ext2NewInode fuel = some r ∧ (e.Right r ↔ ¬e.Exhausted) := by
  unfold ext2NewInode
  split
  swap
  · next hmemory =>
    exact ⟨_, rfl, iff_of_true (right_of_start nofun) fun h => hmemory h.1⟩
  next hmemory =>
  obtain ⟨found, hgroup, hlt, hoffered⟩ := findGroup_spec e hfuel
  rw [hgroup]
  cases found with
  | none =>
    have hno := hoffered.1 rfl
    exact ⟨_, rfl, iff_of_true (right_of_start fun _ => hno) fun h => hno h.2.1⟩
  | some group =>
    have hsome : e.GroupOffered := not_not.1 fun hno => nomatch hoffered.2 hno
    obtain ⟨s', found, hrun, hheld, hsearched⟩ := searchLoop_spec (n := e.groupsCount)
      (s := start group) hbits (hlt group rfl) rfl rfl
    change ∃ r, ((e.searchLoop fuel e.groupsCount (start group)).bind _) = some r ∧ _
    rw [hrun]
    cases hsearched with
    | got changed desc_eq read takes =>
      refine ⟨_, rfl, iff_of_true ?_ fun h => (h.2.2.2 _ _ desc_eq).2 _ _ takes⟩
      exact
        { got := fun bit hbit => by
            cases hbit
            exact ⟨changed, read, _, takes⟩
          unchanged := nofun
          returned := fun ino blockGroup h => ⟨_, rfl, initInode_returned h |>.1, by
            rw [(initInode_returned h).1]
            exact (initInode_returned h).2⟩
          noSpace := fun h => absurd h initInode_ne_enospc
          released := .of_eq hheld.brelse }
    | ioError changed desc_eq unread released =>
      refine ⟨_, rfl, iff_of_true ?_ fun h => ?_⟩
      · have hall : s'.released = List.range s'.obtained := by
          rw [Held, released] at hheld
          exact (List.append_nil _).symm.trans hheld
        exact
          { got := nofun
            unchanged := fun _ => changed
            returned := nofun
            noSpace := nofun
            released := .of_eq hall }
      · rw [(h.2.2.2 _ _ desc_eq).1] at unread
        cases unread
    | exhausted changed passed kept =>
      have hpassed : ∀ g desc, e.groupDesc g = some desc → PassedOver e g := fun g desc hdesc => by
        obtain ⟨i, hi, rfl⟩ := exists_mod group (groupDesc_lt hdesc)
        exact passed i hi desc hdesc
      refine ⟨_, rfl, fun hright hexhausted => ?_, fun hnot => ?_⟩
      · obtain ⟨g, desc, hdesc⟩ := hexhausted.2.2.1
        have hlength := hright.released.length_eq
        rcases hbh : s'.bitmapBh with _ | b
        · obtain ⟨i, hi, rfl⟩ := exists_mod group (groupDesc_lt hdesc)
          have hnodesc := (kept.1 hbh).2 i hi
          exact nomatch hdesc.symm.trans hnodesc
        · have hheldlength := congrArg List.length hheld
          rw [hbh, List.length_append] at hheldlength
          exact absurd (hheldlength.trans hlength.symm) (Nat.succ_ne_self _)
      · have hnodesc : ∀ g, e.groupDesc g = none := fun g => by
          rcases hdesc : e.groupDesc g with _ | desc
          · rfl
          · exact absurd ⟨hmemory, hsome, ⟨g, desc, hdesc⟩, fun g desc hdesc =>
              ⟨(hpassed g desc hdesc).read, (hpassed g desc hdesc).never⟩⟩ hnot
        have hbh : s'.bitmapBh = none := kept.2 ⟨rfl, fun i _ => hnodesc _⟩
        have hall : s'.released = List.range s'.obtained := by
          rw [Held, hbh] at hheld
          exact (List.append_nil _).symm.trans hheld
        exact
          { got := nofun
            unchanged := fun _ => changed
            returned := nofun
            noSpace := fun _ => .inr fun g desc hdesc => (hpassed g desc hdesc).full
            released := .of_eq hall }

/-- The search leaves the last bitmap behind where it comes to its end, and does all that is claimed
otherwise. -/
theorem placesInode_iff (e : Ext2Inodes) : e.PlacesInode ↔ ¬e.Exhausted := by
  constructor
  · intro h
    obtain ⟨r, hrun, hright⟩ := h.call _ (Nat.le_add_right e.groupsCount (e.inodesPerGroup + 1)) (by omega)
    obtain ⟨r', hrun', hiff⟩ := ext2NewInode_right_iff e
      (Nat.le_add_right e.groupsCount (e.inodesPerGroup + 1)) (by omega)
    cases hrun.symm.trans hrun'
    exact hiff.1 hright
  · intro h
    exact
      { orlov := findGroupOrlov_spec _ _ _
        other := fun fuel hfuel => findGroupOther_spec e.parent_lt hfuel
        call := fun fuel hfuel hbits => by
          obtain ⟨r, hrun, hiff⟩ := ext2NewInode_right_iff e hfuel hbits
          exact ⟨r, hrun, hiff.2 h⟩ }

/-- One group, whose descriptor has an inode free that another task has just taken in the bitmap. -/
def staleDescriptor : Ext2Inodes where
  groupsCount := 1
  desc _ := some ⟨1, 1, 0⟩
  debts _ := 0
  inodesPerGroup := 8
  blocksPerGroup := 64
  blocksCount := 64
  freeinodesCounter := 1
  freeblocksCounter := 1
  dirsCounter := 1
  inodeCost := ⟨64, by decide⟩
  blockCost := ⟨256, by decide⟩
  parent := ⟨0, 2, true, false⟩
  parent_lt := Nat.one_pos
  hasMemory := true
  isDir := false
  oldAlloc := false
  findGroupDir := none
  random := 0
  inodeBitmap _ := true
  looks _ _ _ := true
  grows _ _ _ _ := rfl
  firstIno := 1
  inodesCount := 8
  insertInodeLocked := 0
  dquotInitialize := 0
  dquotAllocInode := 0
  initAcl := 0
  initSecurity := 0

/-- The call returns `-ENOSPC` and its one buffer has not been released. -/
theorem placesInode_not_staleDescriptor : ¬staleDescriptor.PlacesInode := by
  intro h
  obtain ⟨r, hrun, hright⟩ := h.call 9 (by decide) (by decide)
  have hend : staleDescriptor.ext2NewInode 9 =
      some ⟨⟨0, some 0, 1, [], []⟩, none, .failed .enospc⟩ := rfl
  cases hrun.symm.trans hend
  exact absurd hright.released.length_eq (by decide)

end Ext2Inodes

end Rtfsc.Linux
