import Rtfsc.Stl.AllocCalls

/-!
# Runs of the allocator

Whatever a program asks for and whatever `malloc` answers, its small blocks, the nodes of the free lists
and the pool tile the chunks; a call that throws leaves it so.
-/

namespace Rtfsc.Stl

open Rtfsc.Machine

variable {s s' : AllocState} {blocks : List Extent} {nodes : Nat → List Nat} {b : Extent}
variable {answers : List Nat} {depth a n newSz : Nat} {w w' : World} {e : AllocEvent}

/-- What the allocator has set aside for a small block. -/
def rounded (b : Extent) : Extent := ⟨b.addr, roundUp b.len⟩

theorem roundUp_large (h : maxBytes < n) (hlt : n < 2 ^ 64) : roundUp n = 0 ∨ maxBytes < roundUp n := by
  unfold maxBytes roundUp align at *
  omega

namespace World

/-- The pieces tile the chunks, and the program has blocks with addresses. -/
structure Inv (w : World) (nodes : Nat → List Nat) : Prop where
  holds : Holds w.alloc (w.small.map rounded) w.large nodes
  blocks : ∀ b ∈ w.blocks, 0 < b.addr ∧ 0 < b.len ∧ b.len < 2 ^ 64

theorem small_cons_small (hb : b.len ≤ maxBytes) :
    World.small ⟨s, b :: blocks⟩ = b :: World.small ⟨s, blocks⟩ := by
  simp [World.small, Nat.not_lt.mpr hb]

theorem small_cons_large (hb : maxBytes < b.len) :
    World.small ⟨s, b :: blocks⟩ = World.small ⟨s, blocks⟩ := by
  simp [World.small, hb]

theorem large_cons_small (hb : b.len ≤ maxBytes) :
    World.large ⟨s, b :: blocks⟩ = World.large ⟨s, blocks⟩ := by
  simp [World.large, Nat.not_lt.mpr hb]

theorem large_cons_large (hb : maxBytes < b.len) :
    World.large ⟨s, b :: blocks⟩ = b :: World.large ⟨s, blocks⟩ := by
  simp [World.large, hb]

theorem Inv.permute {blocks' : List Extent} (h : Inv ⟨s, blocks⟩ nodes)
    (hperm : blocks.Perm blocks') : Inv ⟨s, blocks'⟩ nodes where
  holds := h.holds.permute ((hperm.filter _).map _) (hperm.filter _)
  blocks b hb := h.blocks b (hperm.mem_iff.mpr hb)

theorem Fresh.permute {blocks' : List Extent} {len : Nat} (h : World.Fresh ⟨s, blocks⟩ a len)
    (hperm : blocks.Perm blocks') : World.Fresh ⟨s, blocks'⟩ a len := by
  obtain ⟨hpos, hend, hchunks, hlarge⟩ := h
  exact ⟨hpos, hend, hchunks, fun b hb => hlarge b ((hperm.filter _).mem_iff.mpr hb)⟩

theorem Inv.front (h : Inv ⟨s, blocks⟩ nodes) (hb : b ∈ blocks) :
    Inv ⟨s, b :: blocks.erase b⟩ nodes := h.permute (List.perm_cons_erase hb)

/-- A block is given back. -/
theorem Inv.deallocate (h : Inv ⟨s, b :: blocks⟩ nodes) :
    ∃ nodes', Inv ⟨s.deallocate b.addr b.len, blocks⟩ nodes' := by
  have hholds := h.holds
  have hrest := fun c hc => h.blocks c (List.mem_cons_of_mem b hc)
  obtain ⟨-, hpos, -⟩ := h.blocks b List.mem_cons_self
  unfold AllocState.deallocate
  by_cases hmax : maxBytes < b.len
  · rw [if_pos hmax]
    rw [small_cons_large hmax, large_cons_large hmax] at hholds
    refine ⟨nodes, ?_, hrest⟩
    exact { hholds with
      apart := hholds.apart.sublist ((List.sublist_cons_self b _).append_left _) }
  · have hle := Nat.not_lt.mp hmax
    obtain ⟨hi, hsize⟩ := freelistIndex_small hpos hle
    rw [if_neg hmax]
    rw [small_cons_small hle, large_cons_small hle, List.map_cons, rounded, ← hsize] at hholds
    exact ⟨_, hholds.push hi, hrest⟩

/-- Bytes of blocks are written. -/
theorem Inv.setMem (h : Inv ⟨s, blocks⟩ nodes) (m : Memory)
    (hm : ∀ a, m a ≠ s.mem a → ∃ b ∈ blocks, b.Has a) :
    Inv ⟨{ s with mem := m }, blocks⟩ nodes where
  holds := by
    refine h.holds.setMem m fun a ha => ?_
    obtain ⟨b, hb, hle, hlt⟩ := hm a ha
    obtain ⟨-, hpos, -⟩ := h.blocks b hb
    by_cases hmax : maxBytes < b.len
    · exact ⟨b, List.mem_append_right _ (List.mem_filter.mpr ⟨hb, decide_eq_true hmax⟩), hle, hlt⟩
    · have hround := (le_roundUp (Nat.not_lt.mp hmax)).1
      refine ⟨rounded b, List.mem_append_left _ (List.mem_map_of_mem ?_), hle, ?_⟩
      · exact List.mem_filter.mpr ⟨hb, by simp [hmax]⟩
      · exact Nat.lt_of_lt_of_le hlt (Nat.add_le_add_left hround b.addr)
  blocks := h.blocks

/-- A block is asked for. -/
theorem Inv.allocate (depth : Nat) (h : Inv ⟨s, blocks⟩ nodes) (hn : 0 < n) (hlt : n < 2 ^ 64)
    (hfresh : ∀ a ∈ answers, a ≠ 0 →
      World.Fresh ⟨s, blocks⟩ a (World.asked ⟨s, blocks⟩ n)) :
    ∃ r s' nodes', s.allocate (depth + 2) n answers = some (r, s') ∧ (∀ p ∈ r, 0 < p) ∧
      Inv ⟨s', r.toList.map (⟨·, n⟩) ++ blocks⟩ nodes' := by
  have hfor : ∀ a ∈ answers, a ≠ 0 →
      FreshFor (s.chunks ++ World.large ⟨s, blocks⟩) a (World.asked ⟨s, blocks⟩ n) := by
    intro a ha hne
    obtain ⟨hpos, hend, hchunks, hlarge⟩ := hfresh a ha hne
    refine ⟨hpos, hend, fun e he => ?_⟩
    rcases List.mem_append.mp he with he | he
    · exact hchunks e he
    · exact hlarge e he
  unfold World.asked at hfor
  by_cases hmax : maxBytes < n
  · rw [if_pos hmax] at hfor
    obtain ⟨r, hcall, hpos, hholds⟩ := allocate_large h.holds hmax hfor
    refine ⟨r, s, nodes, hcall, hpos, ?_, ?_⟩
    · cases r with
      | none => exact h.holds
      | some p => simpa [small_cons_large, large_cons_large, hmax] using hholds
    · intro b hb
      rcases List.mem_append.mp hb with hb | hb
      · obtain ⟨p, hp, rfl⟩ := List.mem_map.mp hb
        exact ⟨hpos p (Option.mem_toList.mp hp), hn, hlt⟩
      · exact h.blocks b hb
  · have hle := Nat.not_lt.mp hmax
    rw [if_neg hmax] at hfor
    obtain ⟨r, s', nodes', hcall, hholds⟩ := allocate_small depth h.holds hn hle hfor
    have hpos : ∀ p ∈ r, 0 < p := by
      rintro p ⟨⟩
      refine (hholds.bounds (e := ⟨p, roundUp n⟩) List.mem_cons_self ?_).1
      exact Nat.lt_of_lt_of_le hn (le_roundUp hle).1
    refine ⟨r, s', nodes', hcall, hpos, ?_, ?_⟩
    · cases r with
      | none => exact hholds
      | some p =>
        show Holds s' ((World.small ⟨s', ⟨p, n⟩ :: blocks⟩).map rounded) _ nodes'
        rw [small_cons_small hle]
        show Holds s' _ (World.large ⟨s', ⟨p, n⟩ :: blocks⟩) nodes'
        rw [large_cons_small hle]
        exact hholds
    · intro b hb
      rcases List.mem_append.mp hb with hb | hb
      · obtain ⟨p, hp, rfl⟩ := List.mem_map.mp hb
        exact ⟨hpos p (Option.mem_toList.mp hp), hn, hlt⟩
      · exact h.blocks b hb

/-- A block keeps its place where the allocator has set as much aside for the new size. -/
theorem Inv.resize (h : Inv ⟨s, b :: blocks⟩ nodes) (hnew : 0 < newSz) (hlt : newSz < 2 ^ 64)
    (hsmall : ¬(maxBytes < b.len ∧ maxBytes < newSz)) (hsame : roundUp b.len = roundUp newSz) :
    Inv ⟨s, ⟨b.addr, newSz⟩ :: blocks⟩ nodes := by
  have hholds := h.holds
  obtain ⟨haddr, hpos, hlen⟩ := h.blocks b List.mem_cons_self
  -- a large size is not rounded to what a small one is, also where it wraps around
  have hboth : b.len ≤ maxBytes ∧ newSz ≤ maxBytes := by
    have hround (m : Nat) (hm : 0 < m) (hmax : m ≤ maxBytes) :
        0 < roundUp m ∧ roundUp m ≤ maxBytes :=
      ⟨Nat.lt_of_lt_of_le hm (le_roundUp hmax).1, (le_roundUp hmax).2⟩
    by_cases hold : maxBytes < b.len
    · have hsmaller := Nat.not_lt.mp fun hnew => hsmall ⟨hold, hnew⟩
      obtain ⟨hlo, hhi⟩ := hround newSz hnew hsmaller
      rcases roundUp_large hold hlen with hzero | hmore <;> omega
    · refine ⟨Nat.not_lt.mp hold, Nat.not_lt.mp fun hlarge => ?_⟩
      obtain ⟨hlo, hhi⟩ := hround b.len hpos (Nat.not_lt.mp hold)
      rcases roundUp_large hlarge hlt with hzero | hmore <;> omega
  rw [small_cons_small hboth.1, large_cons_small hboth.1, List.map_cons, rounded, hsame] at hholds
  refine ⟨?_, fun c hc => ?_⟩
  · show Holds s ((World.small ⟨s, ⟨b.addr, newSz⟩ :: blocks⟩).map rounded) _ nodes
    rw [small_cons_small hboth.2]
    show Holds s _ (World.large ⟨s, ⟨b.addr, newSz⟩ :: blocks⟩) nodes
    rw [large_cons_small hboth.2]
    exact hholds
  · rcases List.mem_cons.mp hc with rfl | hc
    · exact ⟨haddr, hnew, hlt⟩
    · exact h.blocks c (List.mem_cons_of_mem b hc)

/-- `realloc` answers with another block, or leaves the old one. -/
theorem Inv.realloc (h : Inv ⟨s, b :: blocks⟩ nodes) (hold : maxBytes < b.len)
    (hnew : maxBytes < newSz) (hlt : newSz < 2 ^ 64)
    (hfresh : World.Fresh ⟨s, blocks⟩ a newSz) :
    Inv ⟨{ s with mem := s.mem.copy a b.addr (min b.len newSz) }, ⟨a, newSz⟩ :: blocks⟩ nodes := by
  obtain ⟨hpos, hend, hchunks, hlarge⟩ := hfresh
  have hholds := h.holds
  rw [small_cons_large hold, large_cons_large hold] at hholds
  have hadded : Inv ⟨s, ⟨a, newSz⟩ :: blocks⟩ nodes := by
    refine ⟨?_, fun c hc => ?_⟩
    · show Holds s ((World.small ⟨s, ⟨a, newSz⟩ :: blocks⟩).map rounded) _ nodes
      rw [small_cons_large hnew]
      show Holds s _ (World.large ⟨s, ⟨a, newSz⟩ :: blocks⟩) nodes
      rw [large_cons_large hnew]
      have hrest := hholds.apart.sublist ((List.sublist_cons_self b _).append_left _)
      exact { hholds with
        apart := List.perm_middle.symm.pairwise
          (List.pairwise_cons.mpr ⟨fun e he => (List.mem_append.mp he).elim (hchunks e) (hlarge e),
            hrest⟩) fun hef => hef.symm }
    · rcases List.mem_cons.mp hc with rfl | hc
      · exact ⟨hpos, Nat.lt_of_le_of_lt (Nat.zero_le maxBytes) hnew, hlt⟩
      · exact h.blocks c (List.mem_cons_of_mem b hc)
  refine hadded.setMem _ fun c hc => ⟨⟨a, newSz⟩, List.mem_cons_self, ?_⟩
  by_contra hout
  refine hc (Memory.copy_outside ?_)
  unfold Extent.Has at hout
  dsimp only at hout
  omega

/-- A block is asked for in place of another one. -/
theorem Inv.reallocate (depth : Nat) (h : Inv ⟨s, b :: blocks⟩ nodes) (hnew : 0 < newSz) (hlt : newSz < 2 ^ 64)
    (hfresh : ∀ a ∈ answers, a ≠ 0 →
      if maxBytes < b.len ∧ maxBytes < newSz then World.Fresh ⟨s, blocks⟩ a newSz
      else World.Fresh ⟨s, b :: blocks⟩ a (World.asked ⟨s, b :: blocks⟩ newSz)) :
    ∃ r s' nodes', s.reallocate (depth + 2) b.addr b.len newSz answers = some (r, s') ∧
      Inv ⟨s', match r with
        | none => b :: blocks
        | some p => if p = 0 then b :: blocks else ⟨p, newSz⟩ :: blocks⟩ nodes' := by
  unfold AllocState.reallocate
  dsimp only
  by_cases hlarge : maxBytes < b.len ∧ maxBytes < newSz
  · rw [if_pos hlarge]
    by_cases hfailed : (malloc answers).1 = 0
    · refine ⟨_, _, nodes, rfl, ?_⟩
      rw [if_pos hfailed]
      simpa [hfailed] using h
    · refine ⟨_, _, nodes, rfl, ?_⟩
      have ha := hfresh _ (malloc_mem answers hfailed) hfailed
      rw [if_pos hlarge] at ha
      rw [if_neg hfailed]
      simpa [hfailed] using h.realloc hlarge.1 hlarge.2 hlt ha
  rw [if_neg hlarge]
  by_cases hsame : roundUp b.len = roundUp newSz
  · rw [if_pos hsame]
    refine ⟨_, _, nodes, rfl, ?_⟩
    have hpos := (h.blocks b List.mem_cons_self).1
    simpa [Nat.ne_of_gt hpos] using h.resize hnew hlt hlarge hsame
  · rw [if_neg hsame]
    obtain ⟨r, s₁, nodes₁, hcall, hpos, hinv⟩ := h.allocate depth hnew hlt
      fun a ha hne => (if_neg hlarge).mp (hfresh a ha hne)
    rw [hcall]
    cases r with
    | none => exact ⟨none, s₁, nodes₁, rfl, hinv⟩
    | some p =>
      generalize hcopy : (if newSz > b.len then b.len else newSz) = copySz
      have hle : copySz ≤ newSz := by
        rw [← hcopy]
        split
        · next hmore => exact Nat.le_of_lt hmore
        · exact Nat.le_refl newSz
      have hcopied := hinv.setMem (s₁.mem.copy p b.addr copySz) fun c hc =>
        ⟨⟨p, newSz⟩, List.mem_cons_self, by
          by_contra hout
          refine hc (Memory.copy_outside ?_)
          unfold Extent.Has at hout
          dsimp only at hout
          omega⟩
      obtain ⟨nodes₂, hfreed⟩ := (hcopied.permute (List.Perm.swap b ⟨p, newSz⟩ blocks)).deallocate
      refine ⟨some p, _, nodes₂, rfl, ?_⟩
      simpa [Nat.ne_of_gt (hpos p rfl)] using hfreed

/-- A call that the program may make comes back, or throws, and the pieces still tile the chunks. -/
theorem Inv.exec (depth : Nat) (h : w.Inv nodes) (he : w.Valid e) :
    ∃ w' nodes', w.exec (depth + 2) e = some w' ∧ w'.Inv nodes' := by
  obtain ⟨s, blocks⟩ := w
  cases e with
  | allocate n answers =>
    obtain ⟨hn, hlt, hfresh⟩ := he
    obtain ⟨r, s', nodes', hcall, -, hinv⟩ := h.allocate depth hn hlt hfresh
    refine ⟨⟨s', r.toList.map (⟨·, n⟩) ++ blocks⟩, nodes', ?_, hinv⟩
    show (s.allocate (depth + 2) n answers).map _ = _
    rw [hcall]
    cases r with
    | none => rfl
    | some p => rfl
  | deallocate b =>
    obtain ⟨nodes', hinv⟩ := (h.front he).deallocate
    exact ⟨_, nodes', rfl, hinv⟩
  | reallocate b newSz answers =>
    obtain ⟨hb, hnew, hlt, hfresh⟩ := he
    have hperm := List.perm_cons_erase hb
    have hfresh' : ∀ a ∈ answers, a ≠ 0 →
        if maxBytes < b.len ∧ maxBytes < newSz then World.Fresh ⟨s, blocks.erase b⟩ a newSz
        else World.Fresh ⟨s, b :: blocks.erase b⟩ a (World.asked ⟨s, blocks⟩ newSz) := by
      intro a ha hne
      have hthis := hfresh a ha hne
      by_cases hlarge : maxBytes < b.len ∧ maxBytes < newSz
      · rwa [if_pos hlarge] at hthis ⊢
      · rw [if_neg hlarge] at hthis ⊢
        exact hthis.permute hperm
    obtain ⟨r, s', nodes', hcall, hinv⟩ :=
      (h.permute hperm).reallocate depth hnew hlt hfresh'
    show ∃ w' nodes', (s.reallocate (depth + 2) b.addr b.len newSz answers).map _ = some w' ∧ _
    rw [hcall]
    refine ⟨_, nodes', rfl, ?_⟩
    cases r with
    | none => exact hinv.permute hperm.symm
    | some p =>
      dsimp only at hinv ⊢
      by_cases hp : p = 0
      · rw [if_pos hp] at hinv ⊢
        exact hinv.permute hperm.symm
      · rwa [if_neg hp] at hinv ⊢
  | write a v =>
    refine ⟨_, nodes, rfl, h.setMem _ fun c hc => ?_⟩
    have hca : c = a := by
      by_contra hne
      exact hc (Function.update_of_ne hne ..)
    exact hca ▸ he

/-- More depth changes nothing for a call that comes back. -/
theorem exec_le {depth' : Nat} (hle : depth ≤ depth') (h : w.exec depth e = some w') :
    w.exec depth' e = some w' := by
  cases e with
  | allocate n answers =>
    obtain ⟨⟨r, s⟩, hcall, heq⟩ := Option.map_eq_some_iff.mp h
    exact Option.map_eq_some_iff.mpr ⟨(r, s), allocate_le hle hcall, heq⟩
  | deallocate b => exact h
  | reallocate b newSz answers =>
    obtain ⟨⟨r, s⟩, hcall, heq⟩ := Option.map_eq_some_iff.mp h
    exact Option.map_eq_some_iff.mpr ⟨(r, s), reallocate_le hle hcall, heq⟩
  | write a v => exact h

/-- A step keeps the pieces where they tile the chunks. -/
theorem Inv.step (h : w.Inv nodes) (hstep : w.Step e w') : ∃ nodes', w'.Inv nodes' := by
  obtain ⟨he, depth, hexec⟩ := hstep
  obtain ⟨w₁, nodes', hmore, hinv⟩ := h.exec depth he
  obtain rfl : w' = w₁ := Option.some.inj ((exec_le (Nat.le_add_right depth 2) hexec).symm.trans hmore)
  exact ⟨nodes', hinv⟩

/-- Before the first call there are no pieces. -/
theorem inv_new (mem : Memory) : Inv ⟨.new mem, []⟩ fun _ => [] where
  holds := holds_new mem
  blocks := nofun

theorem run_inv {mem : Memory} {es : List AllocEvent}
    (h : Run Step ⟨.new mem, []⟩ es w) : ∃ nodes, w.Inv nodes := by
  refine Run.stateInvariant (I := fun w => ∃ nodes, Inv w nodes) ⟨_, inv_new mem⟩ ?_ h
  rintro w₁ e w₂ ⟨nodes, hinv⟩ hstep
  exact hinv.step hstep

theorem Fresh.freshFor {len : Nat} (h : w.Fresh a len) : FreshFor (w.alloc.chunks ++ w.large) a len :=
  ⟨h.1, h.2.1, fun e he => (List.mem_append.mp he).elim (h.2.2.1 e) (h.2.2.2 e)⟩

/-- In every run, the blocks, the nodes and the pool are apart from each other, lie in the chunks and cover
them, whatever `malloc` has answered; the next call comes back or throws; and the free list that
`_S_refill` is about to fill is empty. -/
theorem run_tiles {mem : Memory} {es : List AllocEvent} (h : Run Step ⟨.new mem, []⟩ es w) :
    (∃ nodes : Nat → List Nat,
      (∀ i, Chain w.alloc.mem (w.alloc.freeList i) (nodes i)) ∧
      (∀ i, nFreeLists ≤ i → nodes i = []) ∧
      w.alloc.startFree ≤ w.alloc.endFree ∧ align ∣ w.alloc.pool.len ∧
      (pieces w.alloc (w.small.map rounded) nodes).Pairwise Extent.Apart ∧
      (∀ e ∈ pieces w.alloc (w.small.map rounded) nodes, 0 < e.len →
        ∃ c ∈ w.alloc.chunks, e.Inside c) ∧
      ∀ a, (∃ e ∈ pieces w.alloc (w.small.map rounded) nodes, e.Has a) ↔
        ∃ c ∈ w.alloc.chunks, c.Has a) ∧
    (∀ e, w.Valid e → ∃ w', w.Step e w') ∧
    ∀ depth n answers c s', w.Valid (.allocate n answers) → n ≤ maxBytes →
      w.alloc.freeList (freelistIndex n) = 0 →
      AllocState.chunkAlloc depth w.alloc (roundUp n) 20 answers = some (c, s') →
      s'.freeList (freelistIndex n) = 0 := by
  obtain ⟨nodes, hinv⟩ := run_inv h
  have hholds := hinv.holds
  refine ⟨⟨nodes, hholds.chain, hholds.only, hholds.pool_le, hholds.pool_dvd, hholds.separate,
    hholds.inside, covers_congr hholds.tiles⟩, fun e he => ?_, ?_⟩
  · obtain ⟨w', -, hexec, -⟩ := hinv.exec 0 he
    exact ⟨w', he, 2, hexec⟩
  · rintro depth n answers c s' ⟨hn, -, hfresh⟩ hmax hempty hcall
    obtain ⟨hle, hround⟩ := le_roundUp hmax
    have hfor : ∀ a ∈ answers, a ≠ 0 →
        FreshFor (w.alloc.chunks ++ w.large) a (w.alloc.bytesToGet (roundUp n * 20)) := by
      intro a ha hne
      have hthis := hfresh a ha hne
      unfold World.asked at hthis
      rw [if_neg (Nat.not_lt.mpr hmax)] at hthis
      exact hthis.freshFor
    obtain ⟨r, s₁, s₂, -, hmore, -, hstill, hresult⟩ :=
      chunkAlloc_spec depth hholds (Nat.lt_of_lt_of_le hn hle) (dvd_roundUp n) hround
        (by decide : 0 < 20) (by decide) hfor
    obtain ⟨-, rfl⟩ := Prod.mk.inj
      (Option.some.inj ((chunkAlloc_le (Nat.le_add_right depth 2) hcall).symm.trans hmore))
    rw [freelistIndex_roundUp hn hmax] at hstill
    rcases hresult with ⟨-, rfl, -⟩ | ⟨k, -, -, -, -, rfl⟩
    · exact hstill hempty
    · exact hstill hempty

/-- Memory of zeros, from which a chunk at 4096 is obtained. -/
theorem run_tiles_first :
    ∃ w, Run Step ⟨.new fun _ => 0, []⟩ [.allocate 20 [4096]] w ∧ w.blocks = [⟨4096, 20⟩] ∧
      w.alloc.chunks = [⟨4096, 960⟩] ∧ ∃ nodes : Nat → List Nat,
        ∀ a, (∃ e ∈ pieces w.alloc (w.small.map rounded) nodes, e.Has a) ↔
          ∃ c ∈ w.alloc.chunks, c.Has a := by
  have hvalid : Valid ⟨.new fun _ => 0, []⟩ (.allocate 20 [4096]) := by
    refine ⟨by decide, by decide, ?_⟩
    rintro a (_ | ⟨_, ⟨⟩⟩) -
    exact ⟨by decide, by decide, nofun, nofun⟩
  obtain ⟨w, -, hexec, -⟩ := (inv_new fun _ => 0).exec 0 hvalid
  have hrun : Run Step ⟨.new fun _ => 0, []⟩ [.allocate 20 [4096]] w :=
    Run.snoc Run.nil ⟨hvalid, 2, hexec⟩
  have hseen : (World.exec 2 ⟨.new fun _ => 0, []⟩ (.allocate 20 [4096])).map
      (fun w => (w.blocks, w.alloc.chunks)) = some ([⟨4096, 20⟩], [⟨4096, 960⟩]) := rfl
  rw [hexec] at hseen
  obtain ⟨hblocks, hchunks⟩ := Prod.mk.inj (Option.some.inj hseen)
  obtain ⟨nodes, -, -, -, -, -, -, hcovers⟩ := (run_tiles hrun).1
  exact ⟨w, hrun, hblocks, hchunks, nodes, hcovers⟩

end World

end Rtfsc.Stl
