import Rtfsc.Linux.MinixBlock
import Mathlib.Data.List.TakeWhile
import Mathlib.Tactic.SplitIfs

/-!
# Runs of get_block

Whatever the calls do, the tree only grows: a branch is private until it is linked, and it is linked at a
cell that is free. So each call reports what has been found along its own offsets for good, and a block
that was allocated is in the tree in the end or has been given back.
-/

namespace Rtfsc.Linux

open Rtfsc.Machine

/-! ## The offsets -/

theorem minixLevels_direct {zone : Nat} (h : zone < dircount) : minixLevels zone = 1 := if_pos h

/-- A path has an offset for every level. -/
theorem minixBlockToPath_length {sb : MinixSb} {block : Int} {zone : Nat} {offsets : List Nat}
    (h : minixBlockToPath sb block = zone :: offsets) : minixLevels zone = offsets.length + 1 := by
  simp only [minixBlockToPath] at h
  split_ifs at h with _ _ hdirect
  · cases h
    exact minixLevels_direct hdirect
  all_goals
    cases h
    rfl

namespace MinixPc

/-- What a call has found, and what its own branch looks like, along its offsets. -/
def Sound (cells : TreeCell Nat → Nat) (path : List Nat) : MinixPc → Prop
  | .bread p _ offsets | .readLock p _ offsets =>
    ∃ zone is, path = zone :: (is.reverse ++ offsets) ∧ offsets ≠ [] ∧ p.key ≠ 0 ∧
      blockAt cells zone is = p.key
  | .newBlock p _ offsets branch =>
    ∃ zone top qs, path = zone :: (top.reverse ++ (qs.reverse ++ offsets)) ∧
      cellAt cells zone top = some p.p ∧
      (branch = [] ∧ qs = [] ∨ offsets ≠ [] ∧ Branch cells qs branch)
  | .writeLock p _ branch =>
    ∃ zone top qs, path = zone :: (top.reverse ++ qs.reverse) ∧ cellAt cells zone top = some p.p ∧
      Branch cells qs branch
  | .returned (.mapped blocknr _) =>
    ∃ zone is, path = zone :: is.reverse ∧ blocknr ≠ 0 ∧ blockAt cells zone is = blocknr
  | _ => True

variable {cells cells' : TreeCell Nat → Nat} {path : List Nat} {pc : MinixPc}

/-- It stays so while the tree grows and the blocks of the call are left alone. -/
theorem Sound.grow (h : pc.Sound cells path) (hgrows : Grows minixLevels cells cells')
    (hpath : ∀ zone offsets, path = zone :: offsets → minixLevels zone = offsets.length + 1)
    (hheld : ∀ b ∈ pc.held, ∀ i, cells' (.entry b i) = cells (.entry b i)) :
    pc.Sound cells' path := by
  cases pc with
  | called | reread | freeBlock => trivial
  | bread p above offsets | readLock p above offsets =>
    obtain ⟨zone, is, rfl, hne, hkey, hat⟩ := h
    have hlen := hpath _ _ rfl
    refine ⟨zone, is, rfl, hne, hkey, ?_⟩
    rw [hgrows zone is ?_ (by rwa [hat]), hat]
    rw [hlen, List.length_append, List.length_reverse]
    omega
  | newBlock p above offsets branch =>
    obtain ⟨zone, top, qs, rfl, hcell, hbranch⟩ := h
    have hlen := hpath _ _ rfl
    refine ⟨zone, top, qs, rfl, hgrows.cellAt ?_ hcell, ?_⟩
    · rw [hlen, List.length_append, List.length_reverse]
      omega
    · rcases hbranch with hnone | ⟨hne, hbranch⟩
      · exact .inl hnone
      · exact .inr ⟨hne, hbranch.congr fun b hb => hheld b (List.mem_of_mem_tail hb)⟩
  | writeLock p above branch =>
    obtain ⟨zone, top, qs, rfl, hcell, hbranch⟩ := h
    have hlen := hpath _ _ rfl
    refine ⟨zone, top, qs, rfl, hgrows.cellAt ?_ hcell,
      hbranch.congr fun b hb => hheld b (List.mem_of_mem_tail hb)⟩
    rw [hlen, List.length_append, List.length_reverse]
    omega
  | returned ret =>
    cases ret with
    | eio | enospc => trivial
    | mapped blocknr isNew =>
      obtain ⟨zone, is, rfl, hne, hat⟩ := h
      have hlen := hpath _ _ rfl
      refine ⟨zone, is, rfl, hne, ?_⟩
      rw [hgrows zone is ?_ (by rwa [hat]), hat]
      rw [hlen, List.length_reverse]
      omega

theorem sound_chained {zone : Nat} {is offsets : List Nat} {p : TreeCell Nat}
    (hcell : cellAt cells zone is = some p) (above : List Indirect) :
    (chained (addChain cells p) above offsets).Sound cells (zone :: (is.reverse ++ offsets)) := by
  have hat := blockAt_of_cellAt hcell
  by_cases hkey : cells p = 0
  · rw [chained, addChain, if_pos hkey]
    exact ⟨zone, is, [], rfl, hcell, .inl ⟨rfl, rfl⟩⟩
  · rw [chained, addChain, if_neg hkey]
    by_cases hnone : offsets = []
    · rw [if_pos hnone, hnone]
      exact ⟨zone, is, by rw [List.append_nil], hkey, hat⟩
    · rw [if_neg hnone]
      exact ⟨zone, is, rfl, hnone, hkey, hat⟩

@[simp] theorem held_chained {p : Indirect} {above : List Indirect} {offsets : List Nat} :
    (chained p above offsets).held = [] := by
  simp only [chained]
  split_ifs <;> rfl

theorem sound_allocated {p : Indirect} {above : List Indirect} {zone : Nat}
    {top qs offsets branch : List Nat} (hcell : cellAt cells zone top = some p.p)
    (hbranch : Branch cells qs branch) :
    (allocated p above offsets branch).Sound cells (zone :: (top.reverse ++ (qs.reverse ++ offsets))) := by
  by_cases hnone : offsets = []
  · rw [allocated, if_pos hnone, hnone]
    exact ⟨zone, top, qs, by rw [List.append_nil], hcell, hbranch⟩
  · rw [allocated, if_neg hnone]
    exact ⟨zone, top, qs, rfl, hcell, .inr ⟨hnone, hbranch⟩⟩

@[simp] theorem held_allocated {p : Indirect} {above : List Indirect} {offsets branch : List Nat} :
    (allocated p above offsets branch).held = branch := by
  simp only [allocated]
  split_ifs <;> rfl

theorem sound_freed {blocks : List Nat} {again : Bool} : (freed blocks again).Sound cells path := by
  cases blocks with
  | nil => cases again <;> trivial
  | cons b blocks => trivial

@[simp] theorem held_freed {blocks : List Nat} {again : Bool} : (freed blocks again).held = blocks := by
  simp only [freed]
  split_ifs with hnone hagain
  · exact hnone.symm
  · exact hnone.symm
  · rfl

end MinixPc

namespace MinixInode

variable {ι : Type} {sb : MinixSb} {block : ι → Int}
  {verifyChain : (TreeCell Nat → Nat) → List Indirect → Bool} {s t u : MinixInode ι} {c d : ι}
  {e : MinixEvent ι} {es : List (MinixEvent ι)}

@[simp] theorem inUse_setInUse_self {b : Nat} {inUse : Bool} :
    (s.setInUse b inUse).inUse b = inUse := Function.update_self ..

theorem inUse_setInUse_of_ne {b b' : Nat} {inUse : Bool} (h : b' ≠ b) :
    (s.setInUse b inUse).inUse b' = s.inUse b' := Function.update_of_ne h ..

/-- The tree is one, of blocks in use, and what a call holds is in use, its own and not in the tree. -/
structure Inv (sb : MinixSb) (block : ι → Int) (s : MinixInode ι) : Prop where
  tree : IsTree minixLevels s.cells
  used : ∀ b, InBlocks minixLevels s.cells b → s.inUse b = true
  held : ∀ c, ∀ b ∈ (s.pc c).held, s.inUse b = true ∧ ¬InBlocks minixLevels s.cells b
  nodup : ∀ c, (s.pc c).held.Nodup
  apart : ∀ c d, c ≠ d → ∀ b ∈ (s.pc c).held, b ∉ (s.pc d).held
  sound : ∀ c, (s.pc c).Sound s.cells (minixBlockToPath sb (block c))

theorem WellFormed.inv (h : s.WellFormed) : Inv sb block s where
  tree := h.tree
  used := h.used
  held := fun c b hb => by simp [h.called c, MinixPc.held] at hb
  nodup := fun c => by simp [h.called c, MinixPc.held]
  apart := fun c d _ b hb => by simp [h.called c, MinixPc.held] at hb
  sound := fun c => by
    rw [h.called c]
    trivial

/-! ## What a step can do -/

variable [DecidableEq ι]

@[simp] theorem pc_setPc_self {pc : MinixPc} : (s.setPc c pc).pc c = pc := Function.update_self ..

theorem pc_setPc_of_ne {pc : MinixPc} (h : d ≠ c) : (s.setPc c pc).pc d = s.pc d :=
  Function.update_of_ne h ..

/-- A call moves on; or it allocates a block, which changes blocks of its own only; or it links its branch;
or it gives a block back. -/
inductive Change (path : List Nat) (s : MinixInode ι) (c : ι) :
    MinixEvent ι → MinixInode ι → Prop
  | moves {e : MinixEvent ι} {pc : MinixPc}
      (hquiet : ∀ b, b ≠ 0 → e.takes b = false ∧ e.gives b = false)
      (hsound : pc.Sound s.cells path) (hheld : pc.held.Perm (s.pc c).held) :
      Change path s c e (s.setPc c pc)
  | allocates {nr : Nat} {cells : TreeCell Nat → Nat} {pc : MinixPc} (hnr : nr ≠ 0)
      (hfree : s.inUse nr = false) (hsame : SameTree minixLevels s.cells cells)
      (hother : ∀ b, b ∉ (s.pc c).held → ∀ i, cells (.entry b i) = s.cells (.entry b i))
      (hsound : pc.Sound cells path) (hheld : pc.held = nr :: (s.pc c).held) :
      Change path s c (.newBlock c nr) (((s.setInUse nr true).setCells cells).setPc c pc)
  | links {zone blocknr : Nat} {top qs : List Nat} {p : TreeCell Nat} {cells : TreeCell Nat → Nat}
      (hlink : Linkable minixLevels s.cells zone top p qs (s.pc c).held)
      (hcells : cells = Function.update s.cells p ((s.pc c).held.getLastD 0))
      (hsound : (MinixPc.returned (.mapped blocknr true)).Sound cells path) :
      Change path s c (.writeLocked c)
        ((s.setCells cells).setPc c (.returned (.mapped blocknr true)))
  | frees {b : Nat} {blocks : List Nat} {pc : MinixPc} (hb : (s.pc c).held = b :: blocks)
      (hsound : pc.Sound s.cells path) (hheld : pc.held = blocks) :
      Change path s c (.freeBlock c b) ((s.setInUse b false).setPc c pc)

theorem newBlock_change (hinv : Inv sb block s) {nr : Nat} (h : s.newBlock c nr = some t) :
    Change (minixBlockToPath sb (block c)) s c (.newBlock c nr) t := by
  have hsound := hinv.sound c
  have hnodup := hinv.nodup c
  have hheld := hinv.held c
  unfold newBlock at h
  split at h
  · -- the first block of the branch
    rename_i p above offsets hpc
    rw [hpc] at hsound
    by_cases hnr : nr = 0
    · rw [if_pos hnr] at h
      cases h
      subst hnr
      refine .moves (fun b hb => ⟨?_, rfl⟩) trivial (by rw [hpc]; rfl)
      simpa [MinixEvent.takes] using hb.symm
    · rw [if_neg hnr] at h
      split at h
      · cases h
      · rename_i hfree
        cases h
        obtain ⟨zone, top, qs, hpath, hcell, hbranch⟩ := hsound
        obtain rfl : qs = [] := by
          rcases hbranch with ⟨-, hqs⟩ | ⟨-, hbranch⟩
          · exact hqs
          · cases hbranch
        rw [hpath]
        refine .allocates hnr (Bool.eq_false_iff.mpr hfree) (SameTree.refl (m := s.cells))
          (fun _ _ _ => rfl) ?_ (by rw [hpc, MinixPc.held_allocated]; rfl)
        exact MinixPc.sound_allocated hcell (.single hnr)
  · -- a block below the last one
    rename_i p above offset offsets parent branch hpc
    rw [hpc] at hsound hnodup hheld
    by_cases hnr : nr = 0
    · rw [if_pos hnr] at h
      cases h
      subst hnr
      refine .moves (fun b hb => ⟨?_, rfl⟩) MinixPc.sound_freed ?_
      · simpa [MinixEvent.takes] using hb.symm
      · rw [MinixPc.held_freed, hpc]
        exact List.reverse_perm _
    · rw [if_neg hnr] at h
      split at h
      · cases h
      · rename_i hfree
        cases h
        obtain ⟨zone, top, qs, hpath, hcell, hbranch⟩ := hsound
        obtain ⟨-, hbranch⟩ := hbranch.resolve_left fun h => nomatch h.1
        have hout := (hheld parent List.mem_cons_self).2
        have hsame := sameTree_fillBlock (m := s.cells) hout offset nr
        have hlen : top.length < minixLevels zone := by
          rw [minixBlockToPath_length hpath, List.length_append, List.length_reverse]
          omega
        rw [hpath]
        refine .allocates hnr (Bool.eq_false_iff.mpr hfree) hsame (fun b hb i => fillBlock_other ?_)
          ?_ (by rw [hpc, MinixPc.held_allocated]; rfl)
        · rintro rfl
          rw [hpc] at hb
          exact hb List.mem_cons_self
        · have hpath' : qs.reverse ++ offset :: offsets = (offset :: qs).reverse ++ offsets := by simp
          rw [hpath']
          exact MinixPc.sound_allocated (hsame.grows.cellAt hlen hcell) (hbranch.extend hnodup hnr offset)
  · cases h

theorem writeLocked_change (hinv : Inv sb block s) (h : s.writeLocked verifyChain c = some t) :
    Change (minixBlockToPath sb (block c)) s c (.writeLocked c) t := by
  have hsound := hinv.sound c
  have hnodup := hinv.nodup c
  have hheld := hinv.held c
  unfold writeLocked at h
  split at h
  · rename_i p above branch hpc
    rw [hpc] at hsound hnodup hheld
    split at h
    · cases h
      refine .moves (fun _ _ => ⟨rfl, rfl⟩) MinixPc.sound_freed ?_
      rw [MinixPc.held_freed, hpc]
      exact List.reverse_perm _
    · rename_i hvacant
      cases h
      obtain ⟨zone, top, qs, hpath, hcell, hbranch⟩ := hsound
      have hlen := minixBlockToPath_length hpath
      rw [List.length_append, List.length_reverse, List.length_reverse] at hlen
      have hlink : Linkable minixLevels s.cells zone top p.p qs branch :=
        { tree := hinv.tree
          cell := hcell
          free := not_not.mp fun hset => hvacant (.inr hset)
          branch := hbranch
          length := hlen.symm
          nodup := hnodup
          out := fun b hb => (hheld b hb).2 }
      refine .links (by rwa [hpc]) (by rw [hpc]; rfl)
        ⟨zone, qs ++ top, ?_, ?_, hlink.blockAt_place hbranch.last_mem⟩
      · rw [hpath, List.reverse_append]
      · exact hbranch.ne_zero (List.of_mem_zip hbranch.last_mem).2
  · cases h

theorem step_change (hinv : Inv sb block s) (h : s.step sb block verifyChain e = some t) :
    Change (minixBlockToPath sb (block e.call)) s e.call e t := by
  have hsound := hinv.sound e.call
  cases e with
  | newBlock c nr => exact newBlock_change hinv h
  | writeLocked c => exact writeLocked_change hinv h
  | enter c =>
    simp only [step] at h
    split at h
    · rename_i hpc
      cases h
      refine .moves (fun _ _ => ⟨rfl, rfl⟩) ?_ ?_
      · split <;> trivial
      · split <;> simp [hpc, MinixEvent.call, MinixPc.held]
    · cases h
  | readZone c =>
    simp only [step] at h
    split at h
    · rename_i zone offsets hpc hpath
      cases h
      rw [MinixEvent.call, hpath]
      refine .moves (fun _ _ => ⟨rfl, rfl⟩) ?_ ?_
      · exact @MinixPc.sound_chained _ _ [] _ _ rfl []
      · rw [MinixPc.held_chained, hpc]
        exact .refl _
    · cases h
  | bread c ok =>
    simp only [step] at h
    split at h
    · rename_i p above offsets hpc
      rw [MinixEvent.call, hpc] at hsound
      cases h
      refine .moves (fun _ _ => ⟨rfl, rfl⟩) ?_ ?_
      · split
        · exact hsound
        · trivial
      · split <;> simp [hpc, MinixEvent.call, MinixPc.held]
    · cases h
  | readLocked c =>
    simp only [step] at h
    split at h
    · rename_i p above offset offsets hpc
      rw [MinixEvent.call, hpc] at hsound
      obtain ⟨zone, is, hpath, -, hkey, hat⟩ := hsound
      cases h
      refine .moves (fun _ _ => ⟨rfl, rfl⟩) ?_ ?_
      · split
        · have hcell : cellAt s.cells zone (offset :: is) = some (.entry p.key offset) := by
            rw [cellAt, hat, if_neg hkey]
          have hpath' : is.reverse ++ offset :: offsets = (offset :: is).reverse ++ offsets := by simp
          rw [MinixEvent.call, hpath, hpath']
          exact MinixPc.sound_chained hcell (p :: above)
        · trivial
      · rw [MinixEvent.call, hpc]
        split
        · rw [MinixPc.held_chained]
          exact .refl _
        · exact .refl _
    · cases h
  | freeBlock c nr =>
    simp only [step] at h
    split at h
    · rename_i b blocks again hpc
      split at h
      · rename_i hnr
        subst hnr
        cases h
        exact .frees (by rw [MinixEvent.call, hpc]; rfl) MinixPc.sound_freed MinixPc.held_freed
      · cases h
    · cases h

/-! ## What stays so -/

/-- The invariant is kept by a call that keeps it for itself and leaves alone what others hold. -/
theorem Inv.put (hinv : Inv sb block s) {pc : MinixPc} (hpc : t.pc = Function.update s.pc c pc)
    (htree : IsTree minixLevels t.cells)
    (hused : ∀ b, InBlocks minixLevels t.cells b → t.inUse b = true)
    (hgrows : Grows minixLevels s.cells t.cells)
    (hsound : pc.Sound t.cells (minixBlockToPath sb (block c))) (hnodup : pc.held.Nodup)
    (hown : ∀ b ∈ pc.held, t.inUse b = true ∧ ¬InBlocks minixLevels t.cells b)
    (hother : ∀ b, s.inUse b = true → ¬InBlocks minixLevels s.cells b → b ∉ (s.pc c).held →
      t.inUse b = true ∧ ¬InBlocks minixLevels t.cells b ∧ b ∉ pc.held ∧
        ∀ i, t.cells (.entry b i) = s.cells (.entry b i)) :
    Inv sb block t := by
  have hself : t.pc c = pc := by rw [hpc, Function.update_self]
  have hne : ∀ d, d ≠ c → t.pc d = s.pc d := fun d hd => by rw [hpc, Function.update_of_ne hd]
  have hleft : ∀ d, d ≠ c → ∀ b ∈ (s.pc d).held, t.inUse b = true ∧
      ¬InBlocks minixLevels t.cells b ∧ b ∉ pc.held ∧
        ∀ i, t.cells (.entry b i) = s.cells (.entry b i) := fun d hd b hb =>
    hother b (hinv.held d b hb).1 (hinv.held d b hb).2 (hinv.apart d c hd b hb)
  refine ⟨htree, hused, fun d => ?_, fun d => ?_, fun d d' hdd' b hb => ?_, fun d => ?_⟩
  · by_cases hd : d = c
    · rw [hd, hself]
      exact hown
    · rw [hne d hd]
      exact fun b hb => ⟨(hleft d hd b hb).1, (hleft d hd b hb).2.1⟩
  · by_cases hd : d = c
    · rw [hd, hself]
      exact hnodup
    · rw [hne d hd]
      exact hinv.nodup d
  · by_cases hd : d = c
    · have hd' : d' ≠ c := fun heq => hdd' (hd.trans heq.symm)
      rw [hd, hself] at hb
      rw [hne d' hd']
      exact fun hb' => (hleft d' hd' b hb').2.2.1 hb
    · rw [hne d hd] at hb
      by_cases hd' : d' = c
      · rw [hd', hself]
        exact (hleft d hd b hb).2.2.1
      · rw [hne d' hd']
        exact hinv.apart d d' hdd' b hb
  · by_cases hd : d = c
    · rw [hd, hself]
      exact hsound
    · rw [hne d hd]
      exact (hinv.sound d).grow hgrows (fun _ _ => minixBlockToPath_length) fun b hb =>
        (hleft d hd b hb).2.2.2

/-- The tree grows. -/
theorem Change.grows {path : List Nat} (h : Change path s c e t) :
    Grows minixLevels s.cells t.cells := by
  cases h with
  | moves | frees => exact SameTree.refl.grows
  | allocates _ _ hsame => exact hsame.grows
  | links hlink hcells =>
    subst hcells
    exact hlink.grows

theorem Change.inv (h : Change (minixBlockToPath sb (block c)) s c e t) (hinv : Inv sb block s) :
    Inv sb block t := by
  have hgrows := h.grows
  have hheld := hinv.held c
  have hnodup := hinv.nodup c
  cases h with
  | moves _ hsound hperm =>
    refine hinv.put rfl hinv.tree hinv.used hgrows hsound (hperm.nodup_iff.mpr hnodup) ?_ ?_
    · exact fun b hb => hheld b (hperm.mem_iff.mp hb)
    · exact fun b huse hout hb => ⟨huse, hout, fun hb' => hb (hperm.mem_iff.mp hb'), fun _ => rfl⟩
  | @allocates nr cells pc hnr hfree hsame hother hsound heq =>
    have hnew : ∀ b, s.inUse b = true → b ≠ nr := by
      rintro b huse rfl
      exact absurd (hfree.symm.trans huse) Bool.false_ne_true
    have huse' : ∀ b, s.inUse b = true → (s.setInUse nr true).inUse b = true := fun b huse => by
      rw [inUse_setInUse_of_ne (hnew b huse), huse]
    refine hinv.put rfl (hsame.isTree hinv.tree) ?_ hgrows hsound ?_ ?_ ?_
    · exact fun b hb => huse' b (hinv.used b (hsame.inBlocks_iff.mp hb))
    · rw [heq]
      exact List.nodup_cons.mpr ⟨fun hb => hnew nr (hheld nr hb).1 rfl, hnodup⟩
    · intro b hb
      rw [heq] at hb
      rcases List.mem_cons.mp hb with rfl | hb
      · refine ⟨inUse_setInUse_self, fun hin => ?_⟩
        exact hnew b (hinv.used b (hsame.inBlocks_iff.mp hin)) rfl
      · exact ⟨huse' b (hheld b hb).1, fun hin => (hheld b hb).2 (hsame.inBlocks_iff.mp hin)⟩
    · intro b huse hout hb
      refine ⟨huse' b huse, fun hin => hout (hsame.inBlocks_iff.mp hin), ?_, hother b hb⟩
      rw [heq]
      exact fun hb' => (List.mem_cons.mp hb').elim (hnew b huse) hb
  | links hlink hcells hsound =>
    subst hcells
    refine hinv.put rfl hlink.isTree (fun b hb => ?_) hgrows hsound List.nodup_nil (fun b hb => ?_) ?_
    · exact (hlink.inBlocks_iff.mp hb).elim (hinv.used b) fun hb => (hheld b hb).1
    · exact absurd hb List.not_mem_nil
    · intro b huse hout hb
      refine ⟨huse, fun hin => (hlink.inBlocks_iff.mp hin).elim hout hb, List.not_mem_nil, fun i => ?_⟩
      exact Function.update_of_ne (cell_ne_entry hlink.cell hlink.top_lt hout i) _ _
  | @frees b blocks pc hb hsound heq =>
    have hin : b ∈ (s.pc c).held := hb ▸ List.mem_cons_self
    have huse' : ∀ b', s.inUse b' = true → b' ≠ b → (s.setInUse b false).inUse b' = true :=
      fun b' huse hne => by rw [inUse_setInUse_of_ne hne, huse]
    have hnodup' := hb ▸ hnodup
    refine hinv.put rfl hinv.tree ?_ hgrows hsound ?_ ?_ ?_
    · intro b' hb'
      refine huse' b' (hinv.used b' hb') ?_
      rintro rfl
      exact (hheld b' hin).2 hb'
    · rw [heq]
      exact (List.nodup_cons.mp hnodup').2
    · intro b' hb'
      rw [heq] at hb'
      have hmem : b' ∈ (s.pc c).held := hb ▸ List.mem_cons_of_mem _ hb'
      refine ⟨huse' b' (hheld b' hmem).1 ?_, (hheld b' hmem).2⟩
      rintro rfl
      exact (List.nodup_cons.mp hnodup').1 hb'
    · intro b' huse hout hb'
      refine ⟨huse' b' huse ?_, hout, ?_, fun _ => rfl⟩
      · rintro rfl
        exact hb' hin
      · rw [heq]
        exact fun hlater => hb' (hb ▸ List.mem_cons_of_mem _ hlater)

/-- A block that is allocated was free, and one that is given back was in use. -/
theorem Change.inUse {path : List Nat} {b : Nat} (h : Change path s c e t) (hinv : Inv sb block s)
    (hb : b ≠ 0) :
    (e.takes b = true ∧ e.gives b = false ∧ s.inUse b = false ∧ t.inUse b = true) ∨
      (e.takes b = false ∧ e.gives b = true ∧ s.inUse b = true ∧ t.inUse b = false) ∨
      (e.takes b = false ∧ e.gives b = false ∧ t.inUse b = s.inUse b) := by
  cases h with
  | moves hquiet => exact .inr (.inr ⟨(hquiet b hb).1, (hquiet b hb).2, rfl⟩)
  | links => exact .inr (.inr ⟨rfl, rfl, rfl⟩)
  | @allocates nr _ _ _ hfree =>
    by_cases heq : nr = b
    · subst heq
      exact .inl ⟨beq_self_eq_true _, rfl, hfree, inUse_setInUse_self⟩
    · exact .inr (.inr ⟨beq_eq_false_iff_ne.mpr heq, rfl, inUse_setInUse_of_ne (Ne.symm heq)⟩)
  | @frees b' _ _ hheld =>
    by_cases heq : b' = b
    · subst heq
      refine .inr (.inl ⟨rfl, beq_self_eq_true _, (hinv.held c b' ?_).1, inUse_setInUse_self⟩)
      exact hheld ▸ List.mem_cons_self
    · exact .inr (.inr ⟨rfl, beq_eq_false_iff_ne.mpr heq, inUse_setInUse_of_ne (Ne.symm heq)⟩)

/-- The block is in the tree, or a call has it. -/
def Accounted (s : MinixInode ι) (b : Nat) : Prop :=
  InBlocks minixLevels s.cells b ∨ ∃ c, b ∈ (s.pc c).held

/-- A block that has been allocated and not given back does not get lost. -/
theorem Change.accounted {path : List Nat} {b : Nat} (h : Change path s c e t) (hb : b ≠ 0)
    (hs : s.Accounted b) (hgives : e.gives b = false) : t.Accounted b := by
  rcases hs with hin | ⟨d, hd⟩
  · obtain ⟨-, zone, is, hlen, hat⟩ := hin
    exact .inl ⟨hb, zone, is, hlen, by rw [h.grows zone is hlen (by rwa [hat]), hat]⟩
  · by_cases hdc : d = c
    · subst hdc
      cases h with
      | moves _ _ hperm => exact .inr ⟨d, by rw [pc_setPc_self]; exact hperm.mem_iff.mpr hd⟩
      | allocates _ _ _ _ _ heq =>
        exact .inr ⟨d, by rw [pc_setPc_self, heq]; exact List.mem_cons_of_mem _ hd⟩
      | links hlink hcells =>
        subst hcells
        exact .inl (hlink.inBlocks_iff.mpr (.inr hd))
      | frees hheld _ heq =>
        rw [hheld] at hd
        rcases List.mem_cons.mp hd with rfl | hd
        · exact absurd (hgives.symm.trans (beq_self_eq_true b)) Bool.false_ne_true
        · exact .inr ⟨d, by rw [pc_setPc_self, heq]; exact hd⟩
    · refine .inr ⟨d, ?_⟩
      cases h <;> rwa [pc_setPc_of_ne hdc]

/-- A new block belongs to the call. -/
theorem Change.takes {path : List Nat} {b : Nat} (h : Change path s c e t) (hb : b ≠ 0)
    (htakes : e.takes b = true) : t.Accounted b := by
  cases h with
  | moves hquiet => exact absurd ((hquiet b hb).1.symm.trans htakes) Bool.false_ne_true
  | links | frees => exact absurd htakes Bool.false_ne_true
  | allocates _ _ _ _ _ heq =>
    refine .inr ⟨c, ?_⟩
    rw [pc_setPc_self, heq, ← beq_iff_eq.mp htakes]
    exact List.mem_cons_self

/-! ## Runs -/

theorem step_unique (s : MinixInode ι) (e : MinixEvent ι) (t u : MinixInode ι)
    (ht : s.Step sb block verifyChain e t) (hu : s.Step sb block verifyChain e u) : u = t :=
  Option.some.inj (hu.symm.trans ht)

/-- The invariant holds all along a run, and the tree grows. -/
theorem run_inv (hinv : Inv sb block s) (hrun : Run (Step sb block verifyChain) s es t) :
    Inv sb block t ∧ Grows minixLevels s.cells t.cells := by
  refine hrun.stateInvariant (I := fun t => Inv sb block t ∧ Grows minixLevels s.cells t.cells)
    ⟨hinv, SameTree.refl.grows⟩ ?_
  rintro t e u ⟨hinv', hgrows⟩ hstep
  have hchange := step_change hinv' hstep
  exact ⟨hchange.inv hinv', hgrows.trans hchange.grows⟩

/-- What a run does to a block before the next time that it is allocated. -/
def lifetime (b : Nat) (es : List (MinixEvent ι)) : List (MinixEvent ι) :=
  es.takeWhile fun e => !e.takes b

/-- A block in use stays in use until it is given back, which happens once. -/
theorem run_gives {b : Nat} (hb : b ≠ 0) (hinv : Inv sb block s) (hstart : s.inUse b = true)
    (hrun : Run (Step sb block verifyChain) s es t) (hlife : ∀ e ∈ es, e.takes b = false) :
    es.countP (MinixEvent.gives b) = if t.inUse b then 0 else 1 := by
  induction hrun with
  | nil => simp [hstart]
  | @snoc es t u e hrun hstep ih =>
    have ih := ih fun d hd => hlife d (List.mem_append_left _ hd)
    have htakes := hlife e (by simp)
    have hinv' := (run_inv hinv hrun).1
    rw [List.countP_append, ih, List.countP_singleton]
    rcases (step_change hinv' hstep).inUse hinv' hb with h | ⟨-, hgives, ht, hu⟩ | ⟨-, hgives, hsame⟩
    · exact absurd (htakes.symm.trans h.1) Bool.false_ne_true
    · simp [hgives, ht, hu]
    · simp [hgives, hsame]

/-- A block that has been allocated is in use no longer, or accounted for. -/
theorem run_accounted {b : Nat} (hb : b ≠ 0) (hinv : Inv sb block s)
    (hrun : Run (Step sb block verifyChain) s es t) (htaken : ∃ e ∈ es, e.takes b = true)
    (huse : t.inUse b = true) : t.Accounted b := by
  induction hrun with
  | nil =>
    obtain ⟨e, he, -⟩ := htaken
    exact absurd he List.not_mem_nil
  | @snoc es t u e hrun hstep ih =>
    have hinv' := (run_inv hinv hrun).1
    have hchange := step_change hinv' hstep
    obtain ⟨d, hd, htakes⟩ := htaken
    rcases hchange.inUse hinv' hb with h | ⟨-, -, -, hout⟩ | ⟨hnot, hgives, hsame⟩
    · exact hchange.takes hb h.1
    · exact absurd (hout.symm.trans huse) Bool.false_ne_true
    · refine hchange.accounted hb (ih ⟨d, ?_, htakes⟩ (by rw [← hsame, huse])) hgives
      rcases List.mem_append.mp hd with hd | hd
      · exact hd
      · rw [List.mem_singleton.mp hd] at htakes
        exact absurd (hnot.symm.trans htakes) Bool.false_ne_true

/-- A call that has come back makes no steps. -/
theorem step_returned {ret : MinixRet} (hret : s.pc e.call = .returned ret) :
    s.step sb block verifyChain e = none := by
  cases e <;> simp only [MinixEvent.call] at hret <;> simp [step, newBlock, writeLocked, hret]

theorem run_returned {ret : MinixRet} (hinv : Inv sb block s) (hret : s.pc c = .returned ret)
    (hrun : Run (Step sb block verifyChain) s es t) : t.pc c = .returned ret := by
  induction hrun with
  | nil => exact hret
  | @snoc es t u e hrun hstep ih =>
    have hne : c ≠ e.call := by
      rintro rfl
      exact absurd (hstep.symm.trans (step_returned ih)) (by simp)
    have hchange := step_change (run_inv hinv hrun).1 hstep
    rw [← ih]
    generalize e.call = d at hchange hne
    cases hchange <;> exact pc_setPc_of_ne hne

/-- What becomes of a block behind its allocation: it is given back once before the next one, or it stays
and one cell of the tree points to it. -/
def Settled (t : MinixInode ι) (b : Nat) (back : List (MinixEvent ι)) : Prop :=
  ((lifetime b back).countP (MinixEvent.gives b) = 1 ∧
      (lifetime b back = back → ¬InBlocks minixLevels t.cells b)) ∨
    ((∀ e ∈ back, e.takes b = false ∧ e.gives b = false) ∧
      ∃! p, InTree minixLevels t.cells p ∧ t.cells p = b)

theorem run_settled {b : Nat} {back : List (MinixEvent ι)} (hb : b ≠ 0) (hinv : Inv sb block s)
    (hstep : s.Step sb block verifyChain (.newBlock c b) u)
    (hrun : Run (Step sb block verifyChain) u back t) (hend : ∀ d, (t.pc d).outside = true) :
    t.Settled b back := by
  have hchange := step_change hinv hstep
  have hinv' := hchange.inv hinv
  have hstart : u.inUse b = true := by
    rcases hchange.inUse hinv hb with h | ⟨h, -⟩ | ⟨h, -⟩
    · exact h.2.2.2
    · exact absurd h (by simp [MinixEvent.takes])
    · exact absurd h (by simp [MinixEvent.takes])
  have hlife : ∀ e ∈ lifetime b back, e.takes b = false := fun e he => by
    simpa using List.mem_takeWhile_imp he
  have hparts : lifetime b back ++ back.dropWhile (fun e => !e.takes b) = back :=
    List.takeWhile_append_dropWhile
  cases hlater : back.dropWhile (fun e => !e.takes b) with
  | nil =>
    rw [hlater, List.append_nil] at hparts
    have hcount := run_gives hb hinv' hstart hrun (hparts ▸ hlife)
    have htree := (run_inv hinv' hrun).1
    cases huse : t.inUse b with
    | false =>
      refine .inl ⟨?_, fun _ hin => ?_⟩
      · simpa [hparts, huse] using hcount
      · exact absurd (huse.symm.trans (htree.used b hin)) Bool.false_ne_true
    | true =>
      have hone : Run (Step sb block verifyChain) s [.newBlock c b] u := Run.nil.snoc hstep
      have htaken : ∃ e ∈ [.newBlock c b] ++ back, MinixEvent.takes b e = true :=
        ⟨.newBlock c b, List.mem_cons_self, beq_self_eq_true b⟩
      rcases run_accounted hb hinv (hone.append hrun) htaken huse with hin | ⟨d, hd⟩
      · refine .inr ⟨fun e he => ⟨?_, ?_⟩, htree.tree.existsUnique_cell hin⟩
        · exact hlife e (hparts.symm ▸ he)
        · rw [huse, if_pos rfl, List.countP_eq_zero] at hcount
          simpa using hcount e he
      · have hnone := hend d
        cases hpc : t.pc d with
        | called | returned => simp [hpc, MinixPc.held] at hd
        | _ => simp [hpc, MinixPc.outside] at hnone
  | cons e later =>
    have htakes : e.takes b = true := by
      have hhead := List.head?_dropWhile_not (fun e => !MinixEvent.takes b e) back
      simpa [hlater] using hhead
    rw [hlater] at hparts
    obtain ⟨v, hfirst, hrest⟩ := (hparts ▸ hrun).split
    have hcount := run_gives hb hinv' hstart hfirst hlife
    obtain ⟨w, hnext, -⟩ := hrest.uncons
    have hv := (run_inv hinv' hfirst).1
    have hfree : v.inUse b = false := by
      rcases (step_change hv hnext).inUse hv hb with h | ⟨h, -⟩ | ⟨h, -⟩
      · exact h.2.2.1
      · exact absurd (h.symm.trans htakes) Bool.false_ne_true
      · exact absurd (h.symm.trans htakes) Bool.false_ne_true
    refine .inl ⟨by simpa [hfree] using hcount, fun heq => ?_⟩
    rw [heq] at hparts
    exact absurd hparts (by simp)

/-- `get_block` in any number of calls, whatever the order of their steps. -/
theorem run_getBlock (hs : s.WellFormed) (hrun : Run (Step sb block verifyChain) s es t) :
    (∀ front back u, es = front ++ back → Run (Step sb block verifyChain) s front u →
      ∀ p, InTree minixLevels u.cells p → u.cells p ≠ 0 →
        InTree minixLevels t.cells p ∧ t.cells p = u.cells p) ∧
    (∀ c d blocknr blocknr' isNew isNew', block c = block d →
      t.pc c = .returned (.mapped blocknr isNew) → t.pc d = .returned (.mapped blocknr' isNew') →
        blocknr = blocknr') ∧
    ((∀ c, (t.pc c).outside = true) →
      ∀ front c b back, es = front ++ .newBlock c b :: back → b ≠ 0 → t.Settled b back) ∧
    (∀ c, t.pc c = .returned .enospc →
      ∀ front e back u v, es = front ++ e :: back → e.call = c →
        Run (Step sb block verifyChain) s front u → u.Step sb block verifyChain e v →
          SameTree minixLevels u.cells v.cells) := by
  have hinv : Inv sb block s := hs.inv
  refine ⟨?_, ?_, ?_, ?_⟩
  · rintro front back u rfl hu p hp hset
    have hgrows := (run_inv (run_inv hinv hu).1 (hrun.rest step_unique hu)).2
    refine ⟨?_, hgrows.stays hp hset⟩
    obtain ⟨zone, is, hlen, hcell⟩ := hp
    exact ⟨zone, is, hlen, hgrows.cellAt hlen hcell⟩
  · intro c d blocknr blocknr' isNew isNew' hsame hc hd
    have hc' := (run_inv hinv hrun).1.sound c
    have hd' := (run_inv hinv hrun).1.sound d
    rw [hc] at hc'
    rw [hd, ← hsame] at hd'
    obtain ⟨zone, is, hpath, -, rfl⟩ := hc'
    obtain ⟨zone', is', hpath', -, rfl⟩ := hd'
    obtain ⟨rfl, his⟩ := List.cons.inj (hpath.symm.trans hpath')
    rw [List.reverse_injective his]
  · rintro hend front c b back rfl hb
    obtain ⟨u, hu, hrest⟩ := hrun.split
    obtain ⟨v, hstep, hback⟩ := hrest.uncons
    exact run_settled hb (run_inv hinv hu).1 hstep hback hend
  · rintro c hc front e back u v rfl rfl hu hstep
    have hinv' := (run_inv hinv hu).1
    have hchange := step_change hinv' hstep
    obtain ⟨v', hstep', hback⟩ := (hrun.rest step_unique hu).uncons
    rw [step_unique _ _ _ _ hstep hstep'] at hback
    have hstays : ∀ ret, v.pc e.call = .returned ret → t.pc e.call = .returned ret := fun _ hret =>
      run_returned (hchange.inv hinv') hret hback
    rw [hc] at hstays
    generalize e.call = c at hchange hstays
    cases hchange with
    | moves | frees => exact .refl
    | allocates _ _ hsame => exact hsame
    | links => exact absurd (hstays _ pc_setPc_self) (by simp)

/-- An inode without blocks. -/
def empty : MinixInode ι := ⟨fun _ => 0, fun _ => false, fun _ => .called⟩

omit [DecidableEq ι] in
theorem empty_wellFormed : (empty : MinixInode ι).WellFormed where
  tree := isTree_zero
  used := fun _ hb => absurd hb not_inBlocks_zero
  called := fun _ => rfl

/-- Two calls for the first block behind the direct ones. The second loses, gives its two blocks back and
finds what the first has linked. -/
theorem run_getBlock_race :
    ∃ t : MinixInode Bool,
      (t.pc false = .returned (.mapped 11 true) ∧ t.pc true = .returned (.mapped 11 false)) ∧
        t.Settled 12 [.newBlock false 11, .newBlock true 13, .writeLocked false, .writeLocked true,
          .freeBlock true 12, .freeBlock true 13, .readZone true, .bread true true, .readLocked true] := by
  obtain ⟨t, hrun, hpc⟩ := Run.exists_of_foldlM_option
    (step ⟨10, 2147483647⟩ (fun _ => 7) fun cells chain => chain.all fun q => q.key == cells q.p)
    (empty : MinixInode Bool)
    ([.enter false, .enter true, .readZone false, .readZone true, .newBlock false 10] ++
      .newBlock true 12 :: [.newBlock false 11, .newBlock true 13, .writeLocked false,
        .writeLocked true, .freeBlock true 12, .freeBlock true 13, .readZone true, .bread true true,
        .readLocked true])
    (fun t => (t.pc false, t.pc true))
    (b := (.returned (.mapped 11 true), .returned (.mapped 11 false))) (by decide +kernel)
  obtain ⟨hfalse, htrue⟩ := Prod.mk.inj hpc
  refine ⟨t, ⟨hfalse, htrue⟩, ?_⟩
  refine (run_getBlock empty_wellFormed hrun).2.2.1 (fun c => ?_) _ _ _ _ rfl (by decide)
  cases c with
  | false => rw [hfalse]; rfl
  | true => rw [htrue]; rfl

end MinixInode

end Rtfsc.Linux
