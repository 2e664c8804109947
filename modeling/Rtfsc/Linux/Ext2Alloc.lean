import Rtfsc.Linux.Ext2Look
import Mathlib.Data.List.Range

/-!
# The allocation in ext2_get_blocks

What `ext2_alloc_branch` has taken when it fails has been given back, block by block. When it succeeds its
blocks are a branch that is not in the tree yet, with the data blocks in a row behind the last indirect
block.
-/

namespace Rtfsc.Linux

open Rtfsc.Machine

namespace Ext2Disk

variable (s : Ext2Disk) (blocks : List Nat)

theorem freeEach_record : (s.freeEach blocks).given = s.given ++ blocks ∧
    (s.freeEach blocks).taken = s.taken ∧ (s.freeEach blocks).cells = s.cells := by
  induction blocks generalizing s with
  | nil => exact ⟨(List.append_nil _).symm, rfl, rfl⟩
  | cons b blocks ih =>
    obtain ⟨hgiven, htaken, hcells⟩ := ih (s.freeBlocks b 1)
    refine ⟨?_, htaken, hcells⟩
    rw [freeEach, List.foldl_cons]
    rw [freeEach] at hgiven
    rw [hgiven, freeBlocks, List.range'_one, List.append_assoc, List.singleton_append]

end Ext2Disk

namespace Ext2Env

/-- `ext2_new_blocks` returns blocks that are not in use, as many as it says, one at least and not more
than were asked for. -/
def NewBlocksFresh (env : Ext2Env) : Prop :=
  ∀ calls inUse count first got, env.newBlocks calls inUse count = .ok (first, got) →
    0 < got ∧ got ≤ count ∧ ∀ b ∈ List.range' first got, b ≠ 0 ∧ inUse b = false

/-- The blocks have been taken, and nothing has been given back. -/
structure Taken (inUse : Nat → Bool) (s : Ext2Disk) (blocks : List Nat) : Prop where
  taken : s.taken = blocks
  given : s.given = []
  nodup : blocks.Nodup
  fresh : ∀ b ∈ blocks, b ≠ 0 ∧ inUse b = false
  used : ∀ b, inUse b = true ∨ b ∈ blocks → s.inUse b = true

variable {env : Ext2Env} {inUse : Nat → Bool} {s : Ext2Disk} {blks fuel left first num n : Nat}
  {ind offsets : List Nat}

theorem Taken.take {blocks : List Nat} (h : Taken inUse s blocks) {got : Nat}
    (hfresh : ∀ b ∈ List.range' first got, b ≠ 0 ∧ s.inUse b = false) :
    Taken inUse (s.take first got) (blocks ++ List.range' first got) where
  taken := by rw [Ext2Disk.take, h.taken]
  given := h.given
  nodup := by
    refine List.nodup_append.mpr ⟨h.nodup, List.nodup_range' .., ?_⟩
    rintro b hb _ hb' rfl
    exact absurd ((hfresh b hb').2.symm.trans (h.used b (.inr hb))) Bool.false_ne_true
  fresh := by
    intro b hb
    rcases List.mem_append.mp hb with hb | hb
    · exact h.fresh b hb
    · refine ⟨(hfresh b hb).1, Bool.eq_false_iff.mpr fun huse => ?_⟩
      exact absurd ((hfresh b hb).2.symm.trans (h.used b (.inl huse))) Bool.false_ne_true
  used := by
    intro b hb
    rw [List.mem_append, ← or_assoc] at hb
    rw [Ext2Disk.take, Bool.or_eq_true, decide_eq_true_eq]
    exact hb.symm.imp_right (h.used b)

/-- What has been taken when an allocation fails has been given back. -/
structure GivenBack (s : Ext2Disk) : Prop where
  record : s.given.Perm s.taken
  nodup : s.taken.Nodup

theorem allocBlocks_spec (hnew : env.NewBlocksFresh) (h : Taken inUse s ind) (hfuel : left < fuel) :
    ∃ s' r, env.allocBlocks blks fuel s left ind = some (s', r) ∧ s'.cells = s.cells ∧
      match r with
      | .error _ => GivenBack s'
      | .ok (ind', first, num) =>
        0 < num ∧ num ≤ blks ∧ ind'.length = ind.length + left ∧
          Taken inUse s' (ind' ++ List.range' first num) := by
  induction fuel generalizing s left ind with
  | zero => exact absurd hfuel (Nat.not_lt_zero _)
  | succ fuel ih =>
    rw [allocBlocks]
    cases hcall : env.newBlocks s.calls s.inUse (blks + left) with
    | error err =>
      obtain ⟨hgiven, htaken, hcells⟩ := s.freeEach_record ind
      refine ⟨_, _, rfl, hcells, ?_, ?_⟩
      · rw [hgiven, htaken, h.given, h.taken]
        exact .refl _
      · rw [htaken, h.taken]
        exact h.nodup
    | ok got =>
      obtain ⟨current, got⟩ := got
      obtain ⟨hpos, hle, hfresh⟩ := hnew _ _ _ _ _ hcall
      have htake := h.take hfresh
      by_cases henough : left < got
      · refine ⟨_, _, if_pos henough, rfl, by omega, by omega, by simp, ?_⟩
        have hsplit : List.range' current left ++ List.range' (current + left) (got - left) =
            List.range' current got := by
          rw [List.range'_append_1, Nat.add_sub_cancel' henough.le]
        rwa [List.append_assoc, hsplit]
      · have hless : left - got < fuel := by omega
        obtain ⟨s', r, hrun, hcells, hr⟩ := ih htake hless
        refine ⟨s', r, (if_neg henough).trans hrun, hcells, ?_⟩
        cases r with
        | error => exact hr
        | ok r =>
          obtain ⟨hnum, hnum', hlen, htaken⟩ := hr
          refine ⟨hnum, hnum', ?_, htaken⟩
          rw [hlen, List.length_append, List.length_range']
          omega

/-! ## The branch -/

variable {cells cells' : TreeCell Nat → Nat}

/-- Only blocks of the branch are written. -/
def Outside (blocks : List Nat) (cells cells' : TreeCell Nat → Nat) : Prop :=
  (∀ zone, cells' (.root zone) = cells (.root zone)) ∧
    ∀ b, b ∉ blocks → ∀ i, cells' (.entry b i) = cells (.entry b i)

theorem Outside.sameTree {blocks : List Nat} (h : Outside blocks cells cells')
    (hout : ∀ b ∈ blocks, ¬InBlocks ext2Levels cells b) : SameTree ext2Levels cells cells' :=
  sameTree_of_agree h.1 fun b hin i => h.2 b (fun hb => hout b hb hin) i

theorem linkBlocks_outside
    (h : env.linkBlocks first num n cells ind offsets = .ok cells' ∨
      env.linkBlocks first num n cells ind offsets = .error cells') : Outside ind cells cells' := by
  have hsame : Outside ind cells cells := ⟨fun _ => rfl, fun _ _ _ => rfl⟩
  fun_induction linkBlocks env first num n cells ind offsets with
  | case1 | case2 =>
    rcases h with h | h
    · cases h
      exact hsame
    · cases h
  | case3 | case5 =>
    rcases h with h | h
    · cases h
    · cases h
      exact hsame
  | case4 n cells parent offset =>
    rcases h with h | h
    · cases h
      refine ⟨fun _ => rfl, fun b hb i => if_neg ?_⟩
      rintro rfl
      exact hb (List.mem_singleton_self _)
    · cases h
  | case6 n cells parent b ind offset offsets _ ih =>
    obtain ⟨hroot, hentry⟩ := ih h ⟨fun _ => rfl, fun _ _ _ => rfl⟩
    refine ⟨hroot, fun c hc i => ?_⟩
    rw [hentry c (fun hin => hc (List.mem_cons_of_mem _ hin)) i]
    exact fillBlock_other fun heq => hc (heq ▸ List.mem_cons_self)

/-- All indirect blocks are linked, and the last one has the data blocks, one behind the other. -/
theorem linkBlocks_branch {parent : Nat} {qs bs : List Nat}
    (h : env.linkBlocks first num n cells (parent :: ind) offsets = .ok cells')
    (hlen : offsets.length = ind.length + 1) (hbranch : Branch cells qs (parent :: bs))
    (hnodup : (ind.reverse ++ parent :: bs).Nodup) (hne : ∀ b ∈ ind, b ≠ 0) :
    ∃ pre offset last rest, offsets = pre ++ [offset] ∧ ind.reverse ++ parent :: bs = last :: rest ∧
      Branch cells' (pre.reverse ++ qs) (last :: rest) ∧
        ∀ j, cells' (.entry last j) =
          if offset ≤ j ∧ j < offset + num then first + (j - offset) else 0 := by
  induction ind generalizing n cells offsets parent qs bs with
  | nil =>
    obtain ⟨offset, rfl⟩ := List.length_eq_one_iff.mp hlen
    rw [linkBlocks] at h
    split at h
    · cases h
    · cases h
      refine ⟨[], offset, parent, bs, rfl, rfl, hbranch.congr fun b hb i => if_neg ?_, fun j => if_pos rfl⟩
      rintro rfl
      exact (List.nodup_cons.mp hnodup).1 hb
  | cons b ind ih =>
    obtain ⟨offset, offsets, rfl⟩ := List.exists_cons_of_length_eq_add_one hlen
    rw [linkBlocks] at h
    split at h
    · cases h
    · rw [List.reverse_cons, List.append_assoc] at hnodup ⊢
      have hparent : (parent :: bs).Nodup :=
        (List.nodup_cons.mp (List.nodup_append.mp hnodup).2.1).2
      obtain ⟨pre, offset', last, rest, rfl, hlast, hbranch', hrun⟩ := ih h (Nat.succ.inj hlen)
        (hbranch.extend hparent (hne b List.mem_cons_self) offset) hnodup
        fun c hc => hne c (List.mem_cons_of_mem _ hc)
      exact ⟨offset :: pre, offset', last, rest, rfl, hlast, by simpa using hbranch', hrun⟩

/-- What `ext2_alloc_branch` has made when it succeeds. -/
structure Branched (env : Ext2Env) (inUse : Nat → Bool) (blks : Nat) (offsets : List Nat) (s : Ext2Disk)
    (ind : List Nat) (first num : Nat) : Prop where
  taken : Taken inUse s (ind ++ List.range' first num)
  outside : Outside ind env.cells s.cells
  length : ind.length = offsets.length
  pos : 0 < num
  le : num ≤ blks
  branch : offsets ≠ [] → ∃ pre offset last rest, offsets = pre ++ [offset] ∧
    ind.reverse = last :: rest ∧ Branch s.cells pre.reverse (last :: rest) ∧
      ∀ j, s.cells (.entry last j) =
        if offset ≤ j ∧ j < offset + num then first + (j - offset) else 0

theorem allocBranch_spec (hnew : env.NewBlocksFresh)
    (hused : ∀ b, InBlocks ext2Levels env.cells b → inUse b = true) :
    ∃ s r, env.allocBranch (env.start inUse) blks offsets = some (s, r) ∧
      match r with
      | .error _ => GivenBack s ∧ SameTree ext2Levels env.cells s.cells
      | .ok (ind, first, num) => Branched env inUse blks offsets s ind first num := by
  have hstart : Taken inUse (env.start inUse) [] :=
    ⟨rfl, rfl, List.nodup_nil, fun _ hb => absurd hb List.not_mem_nil,
      fun _ hb => hb.resolve_right List.not_mem_nil⟩
  obtain ⟨s, r, hrun, hcells, hr⟩ := @allocBlocks_spec env inUse _ blks _ _ _ hnew hstart
    (Nat.lt_succ_self offsets.length)
  rw [start] at hcells
  rw [allocBranch, hrun]
  cases r with
  | error err => exact ⟨s, .error err, rfl, hr, by rw [hcells]; exact .refl⟩
  | ok r =>
    obtain ⟨ind, first, num⟩ := r
    obtain ⟨hpos, hle, hlen, htaken⟩ := hr
    rw [List.length_nil, Nat.zero_add] at hlen
    have hout : ∀ b ∈ ind, ¬InBlocks ext2Levels env.cells b := fun b hb hin => by
      have hfree := (htaken.fresh b (List.mem_append_left _ hb)).2
      exact absurd (hfree.symm.trans (hused b hin)) Bool.false_ne_true
    simp only [hcells]
    cases hlink : env.linkBlocks first num 1 env.cells ind offsets with
    | error cells =>
      have hsame := (linkBlocks_outside (.inr hlink)).sameTree hout
      obtain ⟨hgiven, htaken', hcells'⟩ := (s.setCells cells).freeEach_record ind
      refine ⟨_, _, rfl, ⟨?_, ?_⟩, ?_⟩
      · change (((s.setCells cells).freeEach ind).given ++ List.range' first num).Perm
          ((s.setCells cells).freeEach ind).taken
        rw [hgiven, htaken', Ext2Disk.setCells, htaken.given, htaken.taken, List.nil_append]
      · change ((s.setCells cells).freeEach ind).taken.Nodup
        rw [htaken', Ext2Disk.setCells, htaken.taken]
        exact htaken.nodup
      · change SameTree ext2Levels env.cells ((s.setCells cells).freeEach ind).cells
        rw [hcells']
        exact hsame
    | ok cells =>
      refine ⟨_, _, rfl, ⟨htaken.taken, htaken.given, htaken.nodup, htaken.fresh, htaken.used⟩,
        linkBlocks_outside (.inl hlink), hlen, hpos, hle, fun hne => ?_⟩
      cases ind with
      | nil => exact absurd (List.length_eq_zero_iff.mp hlen.symm) hne
      | cons parent ind =>
        have hnodup : (ind.reverse ++ [parent]).Nodup := by
          rw [← List.reverse_cons]
          exact List.nodup_reverse.mpr (List.nodup_append.mp htaken.nodup).1
        obtain ⟨pre, offset, last, rest, hoffsets, hlast, hbranch, hentries⟩ :=
          linkBlocks_branch hlink (by simpa using hlen.symm)
            (.single (htaken.fresh parent (by simp)).1) hnodup fun b hb =>
              (htaken.fresh b (by simp [hb])).1
        refine ⟨pre, offset, last, rest, hoffsets, ?_, by rwa [List.append_nil] at hbranch, hentries⟩
        rw [List.reverse_cons]
        exact hlast

end Ext2Env

end Rtfsc.Linux
