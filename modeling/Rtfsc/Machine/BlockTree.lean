import Mathlib.Data.List.Infix
import Mathlib.Data.List.Nodup
import Mathlib.Logic.Function.Basic

/-!
# Trees of blocks

A tree of numbered blocks lies in cells: some root cells, and the entries of the blocks. A cell has the
number of the block below it, or 0. From each root the tree goes down a fixed number of levels; what is
in the blocks of the last level is not part of it.

A branch that is built outside the tree, out of blocks that are not in it, is put into the tree with one
store to a free cell (`Linkable.blockAt_link`).
-/

namespace Rtfsc.Machine

/-- Where a block number is stored. -/
inductive TreeCell (ρ : Type)
  | root (r : ρ)
  | entry (block index : Nat)
deriving DecidableEq

variable {ρ : Type} {levels : ρ → Nat} {m m' m'' : TreeCell ρ → Nat} {r r' : ρ} {is is' : List Nat}
  {p q : TreeCell ρ} {b : Nat}

/-- The block that the indices lead to, from a root and with the last index first; 0 for none. -/
def blockAt (m : TreeCell ρ → Nat) (r : ρ) : List Nat → Nat
  | [] => m (.root r)
  | i :: is => if blockAt m r is = 0 then 0 else m (.entry (blockAt m r is) i)

/-- The cell that has the number of that block. -/
def cellAt (m : TreeCell ρ → Nat) (r : ρ) : List Nat → Option (TreeCell ρ)
  | [] => some (.root r)
  | i :: is => if blockAt m r is = 0 then none else some (.entry (blockAt m r is) i)

theorem blockAt_of_cellAt (h : cellAt m r is = some p) : blockAt m r is = m p := by
  cases is with
  | nil =>
    cases h
    rfl
  | cons i is =>
    by_cases hb : blockAt m r is = 0
    · simp [cellAt, hb] at h
    · simp only [cellAt, if_neg hb, Option.some.injEq] at h
      simp only [blockAt, if_neg hb, h]

theorem exists_cellAt (h : blockAt m r is ≠ 0) : ∃ p, cellAt m r is = some p := by
  cases is with
  | nil => exact ⟨_, rfl⟩
  | cons i is =>
    by_cases hb : blockAt m r is = 0
    · simp [blockAt, hb] at h
    · exact ⟨_, if_neg hb⟩

theorem blockAt_tail (h : blockAt m r (is' ++ is) ≠ 0) : blockAt m r is ≠ 0 := by
  induction is' with
  | nil => exact h
  | cons i is' ih =>
    refine ih fun hzero => h ?_
    rw [List.cons_append, blockAt, if_pos hzero]

/-- A cell of the tree. -/
def InTree (levels : ρ → Nat) (m : TreeCell ρ → Nat) (p : TreeCell ρ) : Prop :=
  ∃ r is, is.length < levels r ∧ cellAt m r is = some p

/-- A block of the tree. -/
def InBlocks (levels : ρ → Nat) (m : TreeCell ρ → Nat) (b : Nat) : Prop :=
  b ≠ 0 ∧ ∃ r is, is.length < levels r ∧ blockAt m r is = b

/-- It is a tree: no two ways lead to one block. -/
def IsTree (levels : ρ → Nat) (m : TreeCell ρ → Nat) : Prop :=
  ∀ r is r' is', is.length < levels r → is'.length < levels r' → blockAt m r is ≠ 0 →
    blockAt m r' is' = blockAt m r is → r' = r ∧ is' = is

theorem InBlocks.of_blockAt (hlen : is.length < levels r) (h : blockAt m r is ≠ 0) :
    InBlocks levels m (blockAt m r is) :=
  ⟨h, r, is, hlen, rfl⟩

/-- A block of a tree has one cell of the tree pointing to it. -/
theorem IsTree.existsUnique_cell (htree : IsTree levels m) (h : InBlocks levels m b) :
    ∃! p, InTree levels m p ∧ m p = b := by
  obtain ⟨hb, r, is, hlen, rfl⟩ := h
  obtain ⟨p, hp⟩ := exists_cellAt hb
  refine ⟨p, ⟨⟨r, is, hlen, hp⟩, (blockAt_of_cellAt hp).symm⟩, ?_⟩
  rintro q ⟨⟨r', is', hlen', hq⟩, hmq⟩
  obtain ⟨rfl, rfl⟩ := htree r is r' is' hlen hlen' hb ((blockAt_of_cellAt hq).trans hmq)
  exact Option.some.inj (hq.symm.trans hp)

/-- With all cells free there is no block. -/
theorem blockAt_zero : blockAt (fun _ => 0) r is = 0 := by
  cases is <;> simp [blockAt]

theorem isTree_zero : IsTree levels (fun _ => 0) := fun _ _ _ _ _ _ hb => absurd blockAt_zero hb

theorem not_inBlocks_zero : ¬InBlocks levels (fun _ => 0) b := by
  rintro ⟨hb, r, is, -, hat⟩
  exact hb (hat.symm.trans blockAt_zero)

/-! ## Trees that grow -/

/-- What is linked in the first tree is in the same place in the second. -/
def Grows (levels : ρ → Nat) (m m' : TreeCell ρ → Nat) : Prop :=
  ∀ r is, is.length < levels r → blockAt m r is ≠ 0 → blockAt m' r is = blockAt m r is

/-- The two trees are the same. -/
def SameTree (levels : ρ → Nat) (m m' : TreeCell ρ → Nat) : Prop :=
  ∀ r is, is.length < levels r → blockAt m' r is = blockAt m r is

theorem Grows.trans (h : Grows levels m m') (h' : Grows levels m' m'') : Grows levels m m'' := by
  intro r is hlen hb
  rw [h' r is hlen (by rwa [h r is hlen hb]), h r is hlen hb]

theorem SameTree.refl : SameTree levels m m := fun _ _ _ => rfl

theorem SameTree.grows (h : SameTree levels m m') : Grows levels m m' := fun r is hlen _ => h r is hlen

theorem Grows.cellAt (h : Grows levels m m') (hlen : is.length < levels r)
    (hcell : cellAt m r is = some p) : cellAt m' r is = some p := by
  cases is with
  | nil => exact hcell
  | cons i is =>
    by_cases hb : blockAt m r is = 0
    · simp [Machine.cellAt, hb] at hcell
    · have hsame := h r is (Nat.lt_of_succ_lt hlen) hb
      rw [Machine.cellAt, hsame]
      exact hcell

/-- The tree grows when only free cells are written. -/
theorem grows_of_free (h : ∀ q, m q ≠ 0 → m' q = m q) : Grows levels m m' := by
  intro r is hlen hb
  induction is with
  | nil => exact h _ hb
  | cons i is ih =>
    by_cases hparent : blockAt m r is = 0
    · rw [blockAt, if_pos hparent] at hb
      exact absurd rfl hb
    · rw [blockAt, if_neg hparent] at hb
      rw [blockAt, blockAt, ih (Nat.lt_of_succ_lt hlen) hparent, if_neg hparent, if_neg hparent]
      exact h _ hb

/-- A cell of the tree that is not free stays as it is while the tree grows. -/
theorem Grows.stays (h : Grows levels m m') (hp : InTree levels m p) (hset : m p ≠ 0) :
    m' p = m p := by
  obtain ⟨r, is, hlen, hcell⟩ := hp
  have hb := blockAt_of_cellAt hcell
  rw [← blockAt_of_cellAt (h.cellAt hlen hcell), h r is hlen (by rwa [hb]), hb]

theorem SameTree.isTree (h : SameTree levels m m') (htree : IsTree levels m) : IsTree levels m' := by
  intro r is r' is' hlen hlen' hb heq
  rw [h r is hlen] at hb heq
  rw [h r' is' hlen'] at heq
  exact htree r is r' is' hlen hlen' hb heq

theorem SameTree.inBlocks_iff (h : SameTree levels m m') :
    InBlocks levels m' b ↔ InBlocks levels m b := by
  constructor
  · rintro ⟨hb, r, is, hlen, hat⟩
    exact ⟨hb, r, is, hlen, by rwa [← h r is hlen]⟩
  · rintro ⟨hb, r, is, hlen, hat⟩
    exact ⟨hb, r, is, hlen, by rwa [h r is hlen]⟩

/-- The tree depends on its roots and on the entries of its own blocks only. -/
theorem sameTree_of_agree (hroot : ∀ r, m' (.root r) = m (.root r))
    (hentry : ∀ b, InBlocks levels m b → ∀ i, m' (.entry b i) = m (.entry b i)) :
    SameTree levels m m' := by
  intro r is hlen
  induction is with
  | nil => exact hroot r
  | cons i is ih =>
    have hlen' := Nat.lt_of_succ_lt hlen
    rw [blockAt, blockAt, ih hlen']
    by_cases hb : blockAt m r is = 0
    · rw [if_pos hb, if_pos hb]
    · rw [if_neg hb, if_neg hb, hentry _ (.of_blockAt hlen' hb)]

/-! ## Branches outside the tree -/

/-- A block is cleared, up to one entry. -/
def fillBlock (m : TreeCell ρ → Nat) (block index b : Nat) : TreeCell ρ → Nat
  | .root r => m (.root r)
  | .entry block' i => if block' = block then if i = index then b else 0 else m (.entry block' i)

theorem fillBlock_other {block index b block' i : Nat} (h : block' ≠ block) :
    fillBlock m block index b (.entry block' i) = m (.entry block' i) :=
  if_neg h

theorem sameTree_fillBlock {block : Nat} (hout : ¬InBlocks levels m block) (index b : Nat) :
    SameTree levels m (fillBlock m block index b) :=
  sameTree_of_agree (fun _ => rfl) fun _ hin _ => fillBlock_other fun heq => hout (heq ▸ hin)

/-- The list itself is the first of its tails only. -/
theorem head?_of_mem_zip_tails {bs : List Nat} (h : (is, b) ∈ is.tails.zip bs) :
    bs.head? = some b := by
  cases bs with
  | nil => simp at h
  | cons c bs =>
    cases is with
    | nil =>
      cases List.mem_singleton.mp h
      rfl
    | cons i is =>
      rcases List.mem_cons.mp h with heq | hlater
      · cases heq
        rfl
      · have hsuffix := List.mem_tails _ _ |>.mp (List.of_mem_zip hlater).1
        exact absurd hsuffix.length_le (by simp)

/-- A chain of blocks, the last one first: each block but the last has one entry, at the index that is
listed, and the next block there. -/
inductive Branch (m : TreeCell ρ → Nat) : List Nat → List Nat → Prop
  | single {b : Nat} (hb : b ≠ 0) : Branch m [] [b]
  | more {i : Nat} {is : List Nat} {b parent : Nat} {bs : List Nat} (h : Branch m is (parent :: bs))
      (hb : b ≠ 0) (hparent : ∀ j, m (.entry parent j) = if j = i then b else 0) :
      Branch m (i :: is) (b :: parent :: bs)

namespace Branch

variable {bs : List Nat}

theorem ne_zero (h : Branch m is bs) (hb : b ∈ bs) : b ≠ 0 := by
  induction h with
  | single hb' =>
    cases List.mem_singleton.mp hb
    exact hb'
  | more _ hb' _ ih =>
    rcases List.mem_cons.mp hb with rfl | hb
    · exact hb'
    · exact ih hb

theorem length_eq (h : Branch m is bs) : bs.length = is.length + 1 := by
  induction h with
  | single => rfl
  | more _ _ _ ih => simpa using ih

/-- The branch is as it was when its blocks are; what is in the last one does not matter. -/
theorem congr (h : Branch m is bs) (hsame : ∀ b ∈ bs.tail, ∀ i, m' (.entry b i) = m (.entry b i)) :
    Branch m' is bs := by
  induction h with
  | single hb => exact single hb
  | more _ hb hparent ih =>
    refine more (ih fun b hb' => hsame b (List.mem_cons_of_mem _ hb')) hb fun j => ?_
    rw [hsame _ List.mem_cons_self, hparent]

/-- One block more, below the last one. -/
theorem extend {parent : Nat} (h : Branch m is (parent :: bs)) (hnodup : (parent :: bs).Nodup)
    (hb : b ≠ 0) (i : Nat) : Branch (fillBlock m parent i b) (i :: is) (b :: parent :: bs) := by
  refine more (h.congr fun c hc j => fillBlock_other ?_) hb fun j => if_pos rfl
  rintro rfl
  exact (List.nodup_cons.mp hnodup).1 hc

/-- Below every block but the last there is the next one. -/
theorem next (h : Branch m is bs) {q : List Nat} (hmem : (q, b) ∈ is.tails.zip bs) :
    q = is ∨
      ∃ i b', (i :: q, b') ∈ is.tails.zip bs ∧ ∀ j, m (.entry b j) = if j = i then b' else 0 := by
  induction h with
  | single =>
    cases List.mem_singleton.mp hmem
    exact .inl rfl
  | @more i is b' parent bs h hb hparent ih =>
    rcases List.mem_cons.mp hmem with heq | hmem
    · cases heq
      exact .inl rfl
    · rcases ih hmem with rfl | ⟨j, c, hc, hentries⟩
      · have hb' := head?_of_mem_zip_tails hmem
        cases hb'
        exact .inr ⟨i, b', List.mem_cons_self, hparent⟩
      · exact .inr ⟨j, c, List.mem_cons_of_mem _ hc, hentries⟩

/-- The last block is in the place that is listed first. -/
theorem last_mem (h : Branch m is bs) : (is, bs.headD 0) ∈ is.tails.zip bs := by
  cases h with
  | single => exact List.mem_cons_self
  | more => exact List.mem_cons_self

theorem first_mem (h : Branch m is bs) : ([], bs.getLastD 0) ∈ is.tails.zip bs := by
  induction h with
  | single => exact List.mem_cons_self
  | more _ _ _ ih => exact List.mem_cons_of_mem _ ih

/-- Every block of the branch has its place. -/
theorem exists_place (h : Branch m is bs) (hb : b ∈ bs) : ∃ q, (q, b) ∈ is.tails.zip bs := by
  obtain ⟨k, hk, rfl⟩ := List.getElem_of_mem hb
  have hlen : k < is.tails.length := by
    rw [List.length_tails, ← h.length_eq]
    exact hk
  have hzip : k < (is.tails.zip bs).length := List.length_zip ▸ lt_min hlen hk
  exact ⟨is.tails[k], List.mem_iff_getElem.mpr ⟨k, hzip, List.getElem_zip⟩⟩

theorem place_unique {q q' : List Nat} (hnodup : bs.Nodup) (h : (q, b) ∈ is.tails.zip bs)
    (h' : (q', b) ∈ is.tails.zip bs) : q' = q := by
  obtain ⟨k, hk, heq⟩ := List.mem_iff_getElem.mp h
  obtain ⟨k', hk', heq'⟩ := List.mem_iff_getElem.mp h'
  rw [List.getElem_zip] at heq heq'
  obtain ⟨rfl, rfl⟩ := Prod.mk.inj heq
  obtain ⟨rfl, hsame⟩ := Prod.mk.inj heq'
  have hkk' := hnodup.getElem_inj_iff.mp hsame
  subst hkk'
  rfl

section Below

variable {top : List Nat} (h : Branch m is bs) (hfirst : blockAt m r top = bs.getLastD 0)
include h hfirst

/-- Where the first block is, every block is in its place. -/
theorem blockAt_place {q : List Nat} (hq : (q, b) ∈ is.tails.zip bs) : blockAt m r (q ++ top) = b := by
  induction h generalizing q b with
  | single =>
    cases List.mem_singleton.mp hq
    exact hfirst
  | @more i is c parent bs hbranch hc hparent ih =>
    rcases List.mem_cons.mp hq with heq | hlater
    · cases heq
      have hat := ih hfirst hbranch.last_mem
      rw [List.cons_append, blockAt, hat, List.headD_cons,
        if_neg (hbranch.ne_zero List.mem_cons_self), hparent, if_pos rfl]
    · exact ih hfirst hlater

/-- Below the first block there are the others, nothing else, and what is below the last one. -/
theorem blockAt_below (q : List Nat) :
    blockAt m r (q ++ top) = 0 ∨ (q, blockAt m r (q ++ top)) ∈ is.tails.zip bs ∨
      ∃ q' i, q = q' ++ i :: is := by
  induction q with
  | nil =>
    rw [List.nil_append, hfirst]
    exact .inr (.inl h.first_mem)
  | cons i q ih =>
    rcases ih with hnone | hplace | ⟨q', j, rfl⟩
    · left
      rw [List.cons_append, blockAt, if_pos hnone]
    · rcases h.next hplace with rfl | ⟨j, b', hnext, hentries⟩
      · exact .inr (.inr ⟨[], i, rfl⟩)
      · rw [List.cons_append, blockAt, if_neg (h.ne_zero (List.of_mem_zip hplace).2), hentries]
        by_cases hij : i = j
        · rw [if_pos hij, hij]
          exact .inr (.inl hnext)
        · exact .inl (if_neg hij)
    · exact .inr (.inr ⟨i :: q', j, rfl⟩)

end Below

end Branch

/-! ## A branch is linked -/

theorem eq_of_cellAt_root (h : cellAt m r is = some (.root r')) : is = [] ∧ r' = r := by
  cases is with
  | nil =>
    cases h
    exact ⟨rfl, rfl⟩
  | cons i is =>
    rw [cellAt] at h
    split at h <;> cases h

theorem eq_of_cellAt_entry {i : Nat} (h : cellAt m r is = some (.entry b i)) :
    ∃ is', is = i :: is' ∧ blockAt m r is' = b ∧ b ≠ 0 := by
  cases is with
  | nil => cases h
  | cons j is =>
    rw [cellAt] at h
    split at h
    · cases h
    · cases h
      exact ⟨is, rfl, rfl, ‹_›⟩

/-- One way leads to a cell of a tree. -/
theorem IsTree.cellAt_unique (htree : IsTree levels m) (his : is.length < levels r)
    (his' : is'.length < levels r') (h : cellAt m r is = some p) (h' : cellAt m r' is' = some p) :
    r' = r ∧ is' = is := by
  cases p with
  | root =>
    obtain ⟨rfl, rfl⟩ := eq_of_cellAt_root h
    obtain ⟨rfl, rfl⟩ := eq_of_cellAt_root h'
    exact ⟨rfl, rfl⟩
  | entry b i =>
    obtain ⟨js, rfl, hat, hb⟩ := eq_of_cellAt_entry h
    obtain ⟨js', rfl, hat', -⟩ := eq_of_cellAt_entry h'
    obtain ⟨rfl, rfl⟩ := htree r js r' js' (Nat.lt_of_succ_lt his) (Nat.lt_of_succ_lt his')
      (by rwa [hat]) (hat'.trans hat.symm)
    exact ⟨rfl, rfl⟩

/-- The cell at which a branch is linked is in no block that is outside the tree. -/
theorem cell_ne_entry (hcell : cellAt m r is = some p) (hlen : is.length < levels r)
    (hout : ¬InBlocks levels m b) (i : Nat) : .entry b i ≠ p := by
  rintro rfl
  obtain ⟨is', rfl, hat, hb⟩ := eq_of_cellAt_entry hcell
  exact hout ⟨hb, r, is', Nat.lt_of_succ_lt hlen, hat⟩

section Link

variable {top qs bs : List Nat} [DecidableEq ρ]

/-- A store to a cell of the tree concerns the ways through this cell only. -/
theorem blockAt_update (htree : IsTree levels m) (hcell : cellAt m r top = some p)
    (htop : top.length < levels r) (b : Nat) (his : is.length < levels r')
    (hoff : ¬(r' = r ∧ top <:+ is)) : blockAt (Function.update m p b) r' is = blockAt m r' is := by
  induction is with
  | nil =>
    refine Function.update_of_ne (fun heq => hoff ?_) _ _
    rw [← heq] at hcell
    obtain ⟨rfl, rfl⟩ := eq_of_cellAt_root hcell
    exact ⟨rfl, List.suffix_rfl⟩
  | cons i is ih =>
    have his' := Nat.lt_of_succ_lt his
    have hsame := ih his' fun hon => hoff ⟨hon.1, hon.2.trans (List.suffix_cons i is)⟩
    rw [blockAt, blockAt, hsame]
    by_cases hb : blockAt m r' is = 0
    · rw [if_pos hb, if_pos hb]
    · rw [if_neg hb, if_neg hb]
      refine Function.update_of_ne (fun heq => hoff ?_) _ _
      rw [← heq] at hcell
      obtain ⟨is', rfl, hat, -⟩ := eq_of_cellAt_entry hcell
      obtain ⟨rfl, rfl⟩ := htree r' is r is' his' (Nat.lt_of_succ_lt htop) hb hat
      exact ⟨rfl, List.suffix_rfl⟩

theorem blockAt_update_self (htree : IsTree levels m) (hcell : cellAt m r top = some p)
    (htop : top.length < levels r) (b : Nat) : blockAt (Function.update m p b) r top = b := by
  cases top with
  | nil =>
    cases hcell
    exact Function.update_self ..
  | cons i top =>
    have hsame : blockAt (Function.update m p b) r top = blockAt m r top := by
      refine blockAt_update htree hcell htop b (Nat.lt_of_succ_lt htop) fun hon => ?_
      exact absurd hon.2.length_le (by simp)
    rw [blockAt, hsame]
    by_cases hb : blockAt m r top = 0
    · simp [cellAt, hb] at hcell
    · rw [cellAt, if_neg hb] at hcell
      rw [if_neg hb, Option.some.inj hcell, Function.update_self]

/-- What a link asks for: a free cell of the tree, and a branch outside the tree that reaches down to the
last level. -/
structure Linkable (levels : ρ → Nat) (m : TreeCell ρ → Nat) (r : ρ) (top : List Nat) (p : TreeCell ρ)
    (qs bs : List Nat) : Prop where
  tree : IsTree levels m
  cell : cellAt m r top = some p
  free : m p = 0
  branch : Branch m qs bs
  length : top.length + qs.length + 1 = levels r
  nodup : bs.Nodup
  out : ∀ b ∈ bs, ¬InBlocks levels m b

namespace Linkable

variable (h : Linkable levels m r top p qs bs)
include h

omit [DecidableEq ρ] in
theorem top_lt : top.length < levels r := by
  have := h.length
  omega

/-- The branch behind the store of its first block. -/
theorem linked : Branch (Function.update m p (bs.getLastD 0)) qs bs ∧
    blockAt (Function.update m p (bs.getLastD 0)) r top = bs.getLastD 0 := by
  refine ⟨h.branch.congr fun b hb i => ?_, blockAt_update_self h.tree h.cell h.top_lt _⟩
  exact Function.update_of_ne (cell_ne_entry h.cell h.top_lt (h.out b (List.mem_of_mem_tail hb)) i) _ _

/-- The first block of a branch is stored to a free cell of the tree: what is new in the tree are the
blocks of the branch, each in its place. -/
theorem blockAt_link (r' : ρ) (is : List Nat) (his : is.length < levels r') :
    blockAt (Function.update m p (bs.getLastD 0)) r' is = blockAt m r' is ∨
      r' = r ∧ blockAt m r' is = 0 ∧ ∃ q, is = q ++ top ∧
        (q, blockAt (Function.update m p (bs.getLastD 0)) r' is) ∈ qs.tails.zip bs := by
  by_cases hon : r' = r ∧ top <:+ is
  · obtain ⟨rfl, q, rfl⟩ := hon
    have hnone : blockAt m r' (q ++ top) = 0 := by
      by_contra hb
      refine blockAt_tail hb ?_
      rw [blockAt_of_cellAt h.cell, h.free]
    obtain ⟨hbranch, hfirst⟩ := h.linked
    rcases hbranch.blockAt_below hfirst q with hzero | hplace | ⟨q', i, rfl⟩
    · exact .inl (hzero.trans hnone.symm)
    · exact .inr ⟨rfl, hnone, q, rfl, hplace⟩
    · have := h.length
      simp only [List.length_append, List.length_cons] at his
      omega
  · exact .inl (blockAt_update h.tree h.cell h.top_lt _ his hon)

theorem grows : Grows levels m (Function.update m p (bs.getLastD 0)) := by
  intro r' is his hb
  rcases h.blockAt_link r' is his with hsame | ⟨-, hnone, -⟩
  · exact hsame
  · exact absurd hnone hb

/-- Every block of the branch is in its place. -/
theorem blockAt_place {q : List Nat} (hq : (q, b) ∈ qs.tails.zip bs) :
    blockAt (Function.update m p (bs.getLastD 0)) r (q ++ top) = b :=
  h.linked.1.blockAt_place h.linked.2 hq

theorem inBlocks_iff :
    InBlocks levels (Function.update m p (bs.getLastD 0)) b ↔ InBlocks levels m b ∨ b ∈ bs := by
  constructor
  · rintro ⟨hb, r', is, his, rfl⟩
    rcases h.blockAt_link r' is his with hsame | ⟨-, -, q, -, hq⟩
    · rw [hsame] at hb ⊢
      exact .inl (.of_blockAt his hb)
    · exact .inr (List.of_mem_zip hq).2
  · rintro (⟨hb, r', is, his, rfl⟩ | hb)
    · exact ⟨hb, r', is, his, h.grows r' is his hb⟩
    · obtain ⟨q, hq⟩ := h.branch.exists_place hb
      refine ⟨h.branch.ne_zero hb, r, q ++ top, ?_, h.blockAt_place hq⟩
      have hlen := (List.mem_tails _ _ |>.mp (List.of_mem_zip hq).1).length_le
      have := h.length
      rw [List.length_append]
      omega

theorem isTree : IsTree levels (Function.update m p (bs.getLastD 0)) := by
  intro r₁ is₁ r₂ is₂ h₁ h₂ hb heq
  rcases h.blockAt_link r₁ is₁ h₁ with hsame₁ | ⟨rfl, -, q₁, rfl, hq₁⟩ <;>
    rcases h.blockAt_link r₂ is₂ h₂ with hsame₂ | ⟨rfl, -, q₂, rfl, hq₂⟩
  · rw [hsame₁] at hb heq
    rw [hsame₂] at heq
    exact h.tree r₁ is₁ r₂ is₂ h₁ h₂ hb heq
  · rw [hsame₁] at hb
    rw [heq, hsame₁] at hq₂
    exact absurd (.of_blockAt h₁ hb) (h.out _ (List.of_mem_zip hq₂).2)
  · have hb₂ : blockAt m r₂ is₂ ≠ 0 := by rwa [← hsame₂, heq]
    rw [← heq, hsame₂] at hq₁
    exact absurd (.of_blockAt h₂ hb₂) (h.out _ (List.of_mem_zip hq₁).2)
  · rw [heq] at hq₂
    rw [Branch.place_unique h.nodup hq₁ hq₂]
    exact ⟨rfl, rfl⟩

end Linkable

end Link

end Rtfsc.Machine
