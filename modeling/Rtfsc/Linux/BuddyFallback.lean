import Rtfsc.Linux.Buddy
import Rtfsc.Machine.Outcome

/-!
# Buddy allocator: the fallback

When the lists of a type have no sufficient block, `__rmqueue_fallback` takes one from the lists of
another type: it moves a block, or all free blocks of its pageblock, to the lists of the type, and
`__rmqueue` tries again. `move_freepages_block` and the setters of pageblock types are not part of the
source; they are parameters. Orders are far below 2 ^ 31, so that it makes no difference whether they are
signed.
-/

namespace Rtfsc.Linux

open Rtfsc.Machine

/-- What the fallback calls: `move_freepages_block` with the free pages and the movable pages that it
reports, and the setters of pageblock types, which know the pages of the map that they change. -/
structure BuddyEnv where
  moveFreepagesBlock : Zone → Nat → MigrateType → Nat × Nat × Zone
  changePageblockRange : (Nat → MigrateType) → Nat → Nat → MigrateType → Nat → MigrateType
  setPageblockMigratetype : (Nat → MigrateType) → Nat → MigrateType → Nat → MigrateType

/-- The rows of `fallbacks` up to their terminator. The table has no row for `highatomic`: its four
entries are zero, and behind them begins the row of `cma`. -/
def fallbacks : MigrateType → List MigrateType
  | .unmovable => [.reclaimable, .movable]
  | .reclaimable => [.unmovable, .movable]
  | .movable => [.reclaimable, .unmovable]
  | .highatomic => [.unmovable, .unmovable, .unmovable, .unmovable]
  | .cma => []
  | .isolate => []

/-- `can_steal_fallback` -/
def canStealFallback (cfg : BuddyConfig) (order : Nat) (startMt : MigrateType) : Bool :=
  if order ≥ cfg.pageblockOrder then true
  else
    decide (order ≥ cfg.pageblockOrder / 2) || startMt == .reclaimable || startMt == .unmovable ||
      cfg.pageGroupByMobilityDisabled

/-- The loop of `find_suitable_fallback` over a row of `fallbacks`. -/
def walkFallbacks (cfg : BuddyConfig) (a : FreeArea) (order : Nat) (mt : MigrateType)
    (onlyStealable : Bool) : List MigrateType → Bool → Option MigrateType × Bool
  | [], canSteal => (none, canSteal)
  | fallbackMt :: rest, canSteal =>
    if (a.freeList fallbackMt).isEmpty then
      walkFallbacks cfg a order mt onlyStealable rest canSteal
    else
      let canSteal := canSteal || canStealFallback cfg order mt
      if !onlyStealable then (some fallbackMt, canSteal)
      else if canSteal then (some fallbackMt, canSteal)
      else walkFallbacks cfg a order mt onlyStealable rest canSteal

/-- `find_suitable_fallback`; `none` is -1, and `canSteal` is what `*can_steal` was before. -/
def findSuitableFallback (cfg : BuddyConfig) (a : FreeArea) (order : Nat) (mt : MigrateType)
    (onlyStealable canSteal : Bool) : Option MigrateType × Bool :=
  if a.nrFree = 0 then (none, canSteal)
  else walkFallbacks cfg a order mt onlyStealable (fallbacks mt) false

/-- `list_move(&page->lru, &zone->free_area[order].free_list[mt])` -/
def Zone.listMove (z : Zone) (page order : Nat) (mt : MigrateType) : Zone :=
  (z.listDel page).listAdd page order mt

/-- `get_pageblock_migratetype` -/
def getPageblockMigratetype (cfg : BuddyConfig) (z : Zone) (page : Nat) : MigrateType :=
  z.pageblockMigratetype (page / 2 ^ cfg.pageblockOrder)

/-- `steal_suitable_fallback` -/
def stealSuitableFallback (env : BuddyEnv) (cfg : BuddyConfig) (z : Zone) (page : Nat)
    (startType : MigrateType) (wholeBlock : Bool) : Zone :=
  -- `page_order` reads the private word of the page, which is zero when nothing is recorded
  let currentOrder := (z.pageOrder page).getD 0
  let oldBlockType := getPageblockMigratetype cfg z page
  if oldBlockType = .highatomic then z.listMove page currentOrder startType
  else if currentOrder ≥ cfg.pageblockOrder then
    { z with
      pageblockMigratetype :=
        env.changePageblockRange z.pageblockMigratetype page currentOrder startType }.listMove
      page currentOrder startType
  else if !wholeBlock then z.listMove page currentOrder startType
  else
    let (freePages, movablePages, z) := env.moveFreepagesBlock z page startType
    let alikePages : Int :=
      if startType = .movable then movablePages
      else if oldBlockType = .movable then
        (2 ^ cfg.pageblockOrder : Nat) - ((freePages : Int) + movablePages)
      else 0
    if freePages = 0 then z.listMove page currentOrder startType
    else if freePages + alikePages ≥ (2 ^ (cfg.pageblockOrder - 1) : Nat) ∨
        cfg.pageGroupByMobilityDisabled then
      { z with
        pageblockMigratetype := env.setPageblockMigratetype z.pageblockMigratetype page startType }
    else z

/-- Where the downward loop of `__rmqueue_fallback` goes. -/
inductive FallbackSearch
  | notFound
  | findSmallest
  | doSteal (currentOrder : Nat) (fallbackMt : MigrateType) (canSteal : Bool)

/-- The loop of `__rmqueue_fallback` from order `currentOrder - 1` down. -/
def fallbackDown (cfg : BuddyConfig) (z : Zone) (order : Nat) (startMt : MigrateType) :
    (count : Nat) → Bool → FallbackSearch
  | 0, _ => .notFound
  | currentOrder + 1, canSteal =>
    if currentOrder ≥ order then
      match findSuitableFallback cfg (z.freeArea currentOrder) currentOrder startMt false canSteal with
      | (none, canSteal) => fallbackDown cfg z order startMt currentOrder canSteal
      | (some fallbackMt, canSteal) =>
        if !canSteal ∧ startMt = .movable ∧ currentOrder > order then .findSmallest
        else .doSteal currentOrder fallbackMt canSteal
    else .notFound

/-- The loop behind `find_smallest`; `VM_BUG_ON` fails when no order is left. -/
def fallbackUp (cfg : BuddyConfig) (z : Zone) (startMt : MigrateType) :
    (left currentOrder : Nat) → Bool → Outcome (Nat × MigrateType × Bool)
  | 0, _, _ => .error .assertFailed
  | left + 1, currentOrder, canSteal =>
    match findSuitableFallback cfg (z.freeArea currentOrder) currentOrder startMt false canSteal with
    | (none, canSteal) => fallbackUp cfg z startMt left (currentOrder + 1) canSteal
    | (some fallbackMt, canSteal) => .ok (currentOrder, fallbackMt, canSteal)

/-- The code behind `do_steal`; `list_first_entry` has no entry to give on an empty list. -/
def doSteal (env : BuddyEnv) (cfg : BuddyConfig) (z : Zone) (startMt : MigrateType)
    (currentOrder : Nat) (fallbackMt : MigrateType) (canSteal : Bool) : Outcome Zone :=
  match ((z.freeArea currentOrder).freeList fallbackMt).head? with
  | none => .error .nullPointer
  | some page => .ok (stealSuitableFallback env cfg z page startMt canSteal)

/-- `__rmqueue_fallback`. `can_steal` has no value at first; it is not read before
`find_suitable_fallback` has written it. -/
def rmqueueFallback (env : BuddyEnv) (cfg : BuddyConfig) (z : Zone) (order : Nat)
    (startMt : MigrateType) (canSteal : Bool) : Outcome (Bool × Zone) :=
  match fallbackDown cfg z order startMt cfg.maxOrder canSteal with
  | .notFound => .ok (false, z)
  | .findSmallest => do
    let (currentOrder, fallbackMt, canSteal) ←
      fallbackUp cfg z startMt (cfg.maxOrder - order) order canSteal
    let z ← doSteal env cfg z startMt currentOrder fallbackMt canSteal
    return (true, z)
  | .doSteal currentOrder fallbackMt canSteal => do
    let z ← doSteal env cfg z startMt currentOrder fallbackMt canSteal
    return (true, z)

/-- How one pass of `__rmqueue` from `retry` on ends. -/
inductive RmqueuePass
  | returned (page : Option Nat) (z : Zone)
  | retry (z : Zone)

/-- `__rmqueue` from `retry` on; `__rmqueue_cma_fallback` is `__rmqueue_smallest` on the lists of
`cma`. -/
def rmqueuePass (env : BuddyEnv) (cfg : BuddyConfig) (z : Zone) (order : Nat) (mt : MigrateType) :
    Outcome RmqueuePass :=
  match rmqueueSmallest cfg z order mt with
  | (some page, z) => .ok (.returned (some page) z)
  | (none, z) =>
    match if mt = .movable then rmqueueSmallest cfg z order .cma else (none, z) with
    | (some page, z) => .ok (.returned (some page) z)
    | (none, z) => do
      let (found, z) ← rmqueueFallback env cfg z order mt false
      return if found then .retry z else .returned none z

/-- `__rmqueue` with at most `retries` jumps to `retry`; `none` when it jumps once more. -/
def rmqueue (env : BuddyEnv) (cfg : BuddyConfig) (order : Nat) (mt : MigrateType) :
    (retries : Nat) → Zone → Outcome (Option (Option Nat × Zone))
  | 0, z => do
    match ← rmqueuePass env cfg z order mt with
    | .returned page z => return some (page, z)
    | .retry _ => return none
  | retries + 1, z => do
    match ← rmqueuePass env cfg z order mt with
    | .returned page z => return some (page, z)
    | .retry z => rmqueue env cfg order mt retries z

variable {cfg : BuddyConfig} {env : BuddyEnv} {z z' z'' : Zone} {a : FreeArea} {o order page : Nat}
  {mt startMt fallbackMt : MigrateType} {canSteal onlyStealable : Bool}

/-! ## The searches -/

theorem walkFallbacks_none {rest : List MigrateType} :
    (walkFallbacks cfg a o mt false rest canSteal).1 = none ↔ ∀ t ∈ rest, a.freeList t = [] := by
  induction rest generalizing canSteal with
  | nil => simp [walkFallbacks]
  | cons t rest ih =>
    unfold walkFallbacks
    split
    · next hempty => rw [ih, List.forall_mem_cons, and_iff_right (List.isEmpty_iff.mp hempty)]
    · next hempty =>
      rw [List.forall_mem_cons]
      refine iff_of_false (Option.some_ne_none t) fun h => hempty (List.isEmpty_iff.mpr h.1)

theorem walkFallbacks_some {rest : List MigrateType}
    (h : (walkFallbacks cfg a o mt onlyStealable rest canSteal).1 = some fallbackMt) :
    fallbackMt ∈ rest ∧ a.freeList fallbackMt ≠ [] := by
  induction rest generalizing canSteal with
  | nil => cases h
  | cons t rest ih =>
    unfold walkFallbacks at h
    split at h
    · exact ⟨List.mem_cons_of_mem t (ih h).1, (ih h).2⟩
    · next hempty =>
      have hhead : a.freeList t ≠ [] := fun heq => hempty (List.isEmpty_iff.mpr heq)
      simp only at h
      split at h
      · cases h
        exact ⟨List.mem_cons_self, hhead⟩
      · split at h
        · cases h
          exact ⟨List.mem_cons_self, hhead⟩
        · exact ⟨List.mem_cons_of_mem t (ih h).1, (ih h).2⟩

/-- `find_suitable_fallback` finds nothing exactly when the fallback lists of the area are empty; the
count spares the walk only when they are. -/
theorem findSuitableFallback_none (cfg : BuddyConfig) (o : Nat) (mt : MigrateType) (canSteal : Bool)
    (hcount : a.nrFree = a.all.length) :
    (findSuitableFallback cfg a o mt false canSteal).1 = none ↔
      ∀ t ∈ fallbacks mt, a.freeList t = [] := by
  unfold findSuitableFallback
  split
  · next hzero =>
    rw [hcount, List.length_eq_zero_iff] at hzero
    refine iff_of_true rfl fun t _ => List.eq_nil_iff_forall_not_mem.mpr fun p hp => ?_
    have hall := FreeArea.mem_all.mpr ⟨t, hp⟩
    rw [hzero] at hall
    cases hall
  · exact walkFallbacks_none

theorem findSuitableFallback_some
    (h : (findSuitableFallback cfg a o mt onlyStealable canSteal).1 = some fallbackMt) :
    fallbackMt ∈ fallbacks mt ∧ a.freeList fallbackMt ≠ [] := by
  unfold findSuitableFallback at h
  split at h
  · cases h
  · exact walkFallbacks_some h

/-- No list that the type falls back to has a block of the order. -/
def NoFallback (z : Zone) (mt : MigrateType) (o : Nat) : Prop :=
  ∀ t ∈ fallbacks mt, (z.freeArea o).freeList t = []

/-- The downward loop finds nothing exactly when there is no fallback; when it steals or searches
upwards, it has found one. -/
theorem fallbackDown_cases (order : Nat) (startMt : MigrateType) (canSteal : Bool)
    (h : WellFormed cfg z) {count : Nat} (hcount : count ≤ cfg.maxOrder) :
    match fallbackDown cfg z order startMt count canSteal with
    | .notFound => ∀ o, order ≤ o → o < count → NoFallback z startMt o
    | .findSmallest => ∃ o, order ≤ o ∧ o < count ∧ ¬NoFallback z startMt o
    | .doSteal o t _ => order ≤ o ∧ o < count ∧ t ∈ fallbacks startMt ∧
        (z.freeArea o).freeList t ≠ [] := by
  induction count generalizing canSteal with
  | zero => exact fun o _ hlt => absurd hlt (Nat.not_lt_zero o)
  | succ o ih =>
    unfold fallbackDown
    by_cases hle : o ≥ order
    · rw [if_pos hle]
      have hnone := findSuitableFallback_none cfg o startMt canSteal (h.counted o hcount)
      cases hfind : findSuitableFallback cfg (z.freeArea o) o startMt false canSteal with
      | mk found canSteal' =>
        rw [hfind] at hnone
        cases found with
        | none =>
          have hrest := ih canSteal' (Nat.le_of_succ_le hcount)
          dsimp only
          split <;> rename_i hdown <;> rw [hdown] at hrest
          · intro o' hlo hhi
            rcases Nat.eq_or_lt_of_le (Nat.le_of_lt_succ hhi) with rfl | hlt
            · exact hnone.mp rfl
            · exact hrest o' hlo hlt
          · obtain ⟨o', hlo, hhi, hno⟩ := hrest
            exact ⟨o', hlo, Nat.lt_succ_of_lt hhi, hno⟩
          · exact ⟨hrest.1, Nat.lt_succ_of_lt hrest.2.1, hrest.2.2⟩
        | some t =>
          obtain ⟨hmem, hlist⟩ := findSuitableFallback_some (congrArg Prod.fst hfind)
          dsimp only
          split <;> rename_i hdown <;> split at hdown <;> cases hdown
          · exact ⟨o, hle, Nat.lt_succ_self o, fun hno => hlist (hno t hmem)⟩
          · exact ⟨hle, Nat.lt_succ_self o, hmem, hlist⟩
    · rw [if_neg hle]
      exact fun o' hlo hhi => absurd (Nat.le_trans hlo (Nat.le_of_lt_succ hhi)) hle

/-- The upward loop finds a block when there is one: `VM_BUG_ON` does not fail. -/
theorem fallbackUp_ok (canSteal : Bool) (h : WellFormed cfg z) {left cur : Nat} (hleft : cur + left = cfg.maxOrder)
    (hsome : ∃ o, cur ≤ o ∧ o < cfg.maxOrder ∧ ¬NoFallback z startMt o) :
    ∃ o t cs, fallbackUp cfg z startMt left cur canSteal = .ok (o, t, cs) ∧ cur ≤ o ∧
      o < cfg.maxOrder ∧ t ∈ fallbacks startMt ∧ (z.freeArea o).freeList t ≠ [] := by
  induction left generalizing cur canSteal with
  | zero =>
    obtain ⟨o, hlo, hhi, _⟩ := hsome
    omega
  | succ left ih =>
    have hcur : cur < cfg.maxOrder := by omega
    have hnone := findSuitableFallback_none cfg cur startMt canSteal (h.counted cur hcur)
    unfold fallbackUp
    cases hfind : findSuitableFallback cfg (z.freeArea cur) cur startMt false canSteal with
    | mk found canSteal' =>
      rw [hfind] at hnone
      cases found with
      | none =>
        obtain ⟨o, hlo, hhi, hno⟩ := hsome
        have hne : cur ≠ o := by
          rintro rfl
          exact hno (hnone.mp rfl)
        obtain ⟨o', t, cs, hup, hlo', hrest⟩ := ih canSteal' (by omega)
          ⟨o, Nat.lt_of_le_of_ne hlo hne, hhi, hno⟩
        exact ⟨o', t, cs, hup, Nat.le_of_succ_le hlo', hrest⟩
      | some t =>
        obtain ⟨hmem, hlist⟩ := findSuitableFallback_some (congrArg Prod.fst hfind)
        exact ⟨cur, t, canSteal', rfl, Nat.le_refl cur, hcur, hmem, hlist⟩

/-! ## Stealing -/

/-- Blocks have gone from list to list of their order, and nothing else has changed of what is free. -/
structure Rearranged (cfg : BuddyConfig) (z z' : Zone) : Prop where
  perm : ∀ o < cfg.maxOrder, (z'.freeArea o).all.Perm (z.freeArea o).all
  nrFree : ∀ o < cfg.maxOrder, (z'.freeArea o).nrFree = (z.freeArea o).nrFree
  pageOrder : z'.pageOrder = z.pageOrder

namespace Rearranged

theorem of_eq (hfree : z'.freeArea = z.freeArea) (horder : z'.pageOrder = z.pageOrder) :
    Rearranged cfg z z' where
  perm o _ := by rw [hfree]
  nrFree o _ := by rw [hfree]
  pageOrder := horder

theorem trans (h : Rearranged cfg z z') (h' : Rearranged cfg z' z'') : Rearranged cfg z z'' where
  perm o ho := (h'.perm o ho).trans (h.perm o ho)
  nrFree o ho := (h'.nrFree o ho).trans (h.nrFree o ho)
  pageOrder := h'.pageOrder.trans h.pageOrder

theorem blocks (h : Rearranged cfg z z') : (blocks cfg z').Perm (blocks cfg z) :=
  List.Perm.flatMap_left _ fun o ho => (h.perm o (List.mem_range.mp ho)).map _

theorem wellFormed (h : Rearranged cfg z z') (hz : WellFormed cfg z) : WellFormed cfg z' where
  aligned o ho p hp := hz.aligned o ho p ((h.perm o ho).mem_iff.mp hp)
  recorded o ho p hp := by
    rw [h.pageOrder]
    exact hz.recorded o ho p ((h.perm o ho).mem_iff.mp hp)
  counted o ho := by rw [h.nrFree o ho, (h.perm o ho).length_eq, hz.counted o ho]
  apart := (pairwise_apart_congr fun b => (hits_perm h.blocks b).symm).mp hz.apart

end Rearranged

/-- What is documented of `move_freepages_block`: it takes free blocks from list to list of their order,
and when it reports free pages, every free block of the pageblock is on the lists of the type. -/
structure MovesPageblock (cfg : BuddyConfig)
    (move : Zone → Nat → MigrateType → Nat × Nat × Zone) : Prop where
  rearranged : ∀ z page mt, WellFormed cfg z → Rearranged cfg z (move z page mt).2.2
  whole : ∀ z page mt, WellFormed cfg z → (move z page mt).1 ≠ 0 →
    ∀ o < cfg.maxOrder, ∀ p ∈ (z.freeArea o).all,
      p / 2 ^ cfg.pageblockOrder = page / 2 ^ cfg.pageblockOrder →
      p ∈ ((move z page mt).2.2.freeArea o).freeList mt

/-- A free block goes to the head of a list of its order. -/
theorem listMove_rearranged (mt : MigrateType) (h : WellFormed cfg z) (ho : o < cfg.maxOrder)
    (hp : page ∈ (z.freeArea o).all) :
    Rearranged cfg z (z.listMove page o mt) ∧
      page ∈ ((z.listMove page o mt).freeArea o).freeList mt := by
  have hself : (z.listMove page o mt).freeArea o = ((z.freeArea o).listDel page).listAdd page mt :=
    Function.update_self ..
  have hother {o' : Nat} (ho' : o' < cfg.maxOrder) (hne : o' ≠ o) :
      (z.listMove page o mt).freeArea o' = z.freeArea o' :=
    (Function.update_of_ne hne ..).trans
      (FreeArea.all_listDel_of_not_mem fun hp' => hne (h.order_unique ho ho' hp hp'))
  refine ⟨⟨fun o' ho' => ?_, fun o' ho' => ?_, rfl⟩, ?_⟩
  · by_cases heq : o' = o
    · subst heq
      rw [hself]
      exact (FreeArea.all_listAdd ..).trans (FreeArea.all_listDel_perm (h.nodup ho') hp).symm
    · rw [hother ho' heq]
  · by_cases heq : o' = o
    · subst heq
      rw [hself]
      rfl
    · rw [hother ho' heq]
  · have hlist : (((z.freeArea o).listDel page).listAdd page mt).freeList mt =
        page :: ((z.freeArea o).listDel page).freeList mt := Function.update_self ..
    rw [hself, hlist]
    exact List.mem_cons_self

/-- Whatever way it goes, `steal_suitable_fallback` only takes blocks from list to list, and leaves the
page on the lists of the type. -/
theorem stealSuitableFallback_spec (mt : MigrateType) (hmove : MovesPageblock cfg env.moveFreepagesBlock)
    (h : WellFormed cfg z) (ho : o < cfg.maxOrder) (hp : page ∈ (z.freeArea o).all)
    (wholeBlock : Bool) :
    Rearranged cfg z (stealSuitableFallback env cfg z page mt wholeBlock) ∧
      page ∈ ((stealSuitableFallback env cfg z page mt wholeBlock).freeArea o).freeList mt := by
  have horder : (z.pageOrder page).getD 0 = o := by rw [h.recorded o ho page hp, Option.getD_some]
  unfold stealSuitableFallback
  simp only [horder]
  split
  · exact listMove_rearranged mt h ho hp
  split
  · have hchanged : Rearranged cfg z { z with
        pageblockMigratetype := env.changePageblockRange z.pageblockMigratetype page o mt } :=
      .of_eq rfl rfl
    obtain ⟨hre, hmem⟩ := listMove_rearranged mt (hchanged.wellFormed h) ho hp
    exact ⟨hchanged.trans hre, hmem⟩
  split
  · exact listMove_rearranged mt h ho hp
  have hre := hmove.rearranged z page mt h
  split
  · obtain ⟨hre', hmem⟩ := listMove_rearranged mt (hre.wellFormed h) ho
      ((hre.perm o ho).mem_iff.mpr hp)
    exact ⟨hre.trans hre', hmem⟩
  next hfree =>
  have hmem := hmove.whole z page mt h hfree o ho page hp rfl
  -- whether the pageblock is claimed as well makes no difference to what is free
  exact iteInduction (motive := fun z' => Rearranged cfg z z' ∧ page ∈ (z'.freeArea o).freeList mt)
    (fun _ => ⟨hre.trans (.of_eq rfl rfl), hmem⟩) fun _ => ⟨hre, hmem⟩

theorem doSteal_spec (mt : MigrateType) (canSteal : Bool)
    (hmove : MovesPageblock cfg env.moveFreepagesBlock) (h : WellFormed cfg z)
    (ho : o < cfg.maxOrder) (hlist : (z.freeArea o).freeList fallbackMt ≠ []) :
    ∃ z', doSteal env cfg z mt o fallbackMt canSteal = .ok z' ∧ Rearranged cfg z z' ∧
      (z'.freeArea o).freeList mt ≠ [] := by
  unfold doSteal
  split
  · next hhead => exact absurd (List.head?_eq_none_iff.mp hhead) hlist
  · next page hhead =>
    obtain ⟨hre, hmem⟩ := stealSuitableFallback_spec mt hmove h ho
      (FreeArea.mem_all.mpr ⟨fallbackMt, List.mem_of_mem_head? hhead⟩) canSteal
    exact ⟨_, rfl, hre, List.ne_nil_of_mem hmem⟩

/-- `__rmqueue_fallback` returns, without `VM_BUG_ON`. It returns false exactly when there is no
fallback; when it returns true, blocks have only gone from list to list and the type has a sufficient
block. -/
theorem rmqueueFallback_spec (hmove : MovesPageblock cfg env.moveFreepagesBlock)
    (h : WellFormed cfg z) (order : Nat) (mt : MigrateType) (canSteal : Bool) :
    (rmqueueFallback env cfg z order mt canSteal = .ok (false, z) ∧
      ∀ o, order ≤ o → o < cfg.maxOrder → NoFallback z mt o) ∨
    ∃ z', rmqueueFallback env cfg z order mt canSteal = .ok (true, z') ∧ Rearranged cfg z z' ∧
      (∃ o, order ≤ o ∧ o < cfg.maxOrder ∧ (z'.freeArea o).freeList mt ≠ []) ∧
      ∃ o, order ≤ o ∧ o < cfg.maxOrder ∧ ¬NoFallback z mt o := by
  have hdown := fallbackDown_cases order mt canSteal h
    (Nat.le_refl _)
  unfold rmqueueFallback
  split <;> rename_i hsearch <;> rw [hsearch] at hdown
  · exact .inl ⟨rfl, hdown⟩
  · obtain ⟨o, hlo, hhi, hno⟩ := hdown
    obtain ⟨o', t, cs, hup, hlo', hhi', hmem, hlist⟩ := fallbackUp_ok canSteal h
      (Nat.add_sub_cancel' (Nat.le_trans hlo (Nat.le_of_lt hhi))) ⟨o, hlo, hhi, hno⟩
    obtain ⟨z', hsteal, hre, hlist'⟩ := doSteal_spec mt cs hmove h hhi' hlist
    refine .inr ⟨z', ?_, hre, ⟨o', hlo', hhi', hlist'⟩, o, hlo, hhi, hno⟩
    simp only [hup, hsteal, ok_bind, pure_eq_ok]
  · next o t cs =>
    obtain ⟨hlo, hhi, hmem, hlist⟩ := hdown
    obtain ⟨z', hsteal, hre, hlist'⟩ := doSteal_spec mt cs hmove h hhi hlist
    refine .inr ⟨z', ?_, hre, ⟨o, hlo, hhi, hlist'⟩, o, hlo, hhi, fun hno => hlist (hno t hmem)⟩
    simp only [hsteal, ok_bind, pure_eq_ok]

/-! ## Allocation -/

/-- The types whose lists `__rmqueue` may take from. -/
def sources (mt : MigrateType) : List MigrateType :=
  mt :: (if mt = .movable then [.cma] else []) ++ fallbacks mt

/-- No list that `__rmqueue` may take from has a sufficient block. -/
def NoBlock (cfg : BuddyConfig) (z : Zone) (order : Nat) (mt : MigrateType) : Prop :=
  ∀ o, order ≤ o → o < cfg.maxOrder → ∀ t ∈ sources mt, (z.freeArea o).freeList t = []

theorem noBlock_iff : NoBlock cfg z order mt ↔
    (∀ o, order ≤ o → o < cfg.maxOrder → (z.freeArea o).freeList mt = []) ∧
    (mt = .movable → ∀ o, order ≤ o → o < cfg.maxOrder → (z.freeArea o).freeList .cma = []) ∧
    ∀ o, order ≤ o → o < cfg.maxOrder → NoFallback z mt o := by
  unfold NoBlock sources NoFallback
  constructor
  · intro h
    refine ⟨fun o hlo hhi => h o hlo hhi mt List.mem_cons_self, fun hmt o hlo hhi => ?_,
      fun o hlo hhi t ht => h o hlo hhi t (List.mem_append_right _ ht)⟩
    refine h o hlo hhi .cma ?_
    rw [if_pos hmt]
    exact List.mem_append_left _ (List.mem_cons_of_mem mt List.mem_cons_self)
  · rintro ⟨hown, hcma, hfall⟩ o hlo hhi t ht
    rcases List.mem_append.mp ht with ht | ht
    · rcases List.mem_cons.mp ht with rfl | ht
      · exact hown o hlo hhi
      · split at ht
        · next hmt =>
          rw [List.mem_singleton.mp ht]
          exact hcma hmt o hlo hhi
        · cases ht
    · exact hfall o hlo hhi t ht

/-- `__rmqueue_smallest` keeps the free lists as they should be; it finds nothing exactly when the lists
of the type have no sufficient block. -/
theorem rmqueueSmallest_spec (h : WellFormed cfg z) (order : Nat) (mt : MigrateType) :
    (rmqueueSmallest cfg z order mt = (none, z) ∧
      ∀ o, order ≤ o → o < cfg.maxOrder → (z.freeArea o).freeList mt = []) ∨
    ∃ page z', rmqueueSmallest cfg z order mt = (some page, z') ∧ WellFormed cfg z' ∧
      ¬∀ o, order ≤ o → o < cfg.maxOrder → (z.freeArea o).freeList mt = [] := by
  rcases rmqueueSmallest_cases cfg z order mt with hnone | ⟨o, page, hlo, hhi, hhead, _, hsome⟩
  · exact .inl hnone
  · have hmem := List.mem_of_mem_head? hhead
    have hdone := (taken_holds h hlo hhi (FreeArea.mem_all.mpr ⟨mt, hmem⟩) mt).1
    refine .inr ⟨page, _, hsome, { hdone with apart := (List.pairwise_cons.mp hdone.apart).2 }, ?_⟩
    intro hempty
    exact List.ne_nil_of_mem hmem (hempty o hlo hhi)

/-- One pass of `__rmqueue`: it returns a page, or nothing because there is no block, or it jumps to
`retry` with a block on the lists of the type. -/
theorem rmqueuePass_cases (hmove : MovesPageblock cfg env.moveFreepagesBlock)
    (h : WellFormed cfg z) (order : Nat) (mt : MigrateType) :
    (∃ page z', rmqueuePass env cfg z order mt = .ok (.returned (some page) z') ∧
      WellFormed cfg z' ∧ ¬NoBlock cfg z order mt) ∨
    (rmqueuePass env cfg z order mt = .ok (.returned none z) ∧ NoBlock cfg z order mt) ∨
    ∃ z', rmqueuePass env cfg z order mt = .ok (.retry z') ∧ WellFormed cfg z' ∧
      (¬∀ o, order ≤ o → o < cfg.maxOrder → (z'.freeArea o).freeList mt = []) ∧
      ¬NoBlock cfg z order mt := by
  rw [noBlock_iff]
  unfold rmqueuePass
  rcases rmqueueSmallest_spec h order mt with ⟨hown, hempty⟩ | ⟨page, z', hown, hwf, hsome⟩
  · have hcma : ((if mt = .movable then rmqueueSmallest cfg z order .cma else (none, z)) =
          (none, z) ∧
          (mt = .movable → ∀ o, order ≤ o → o < cfg.maxOrder → (z.freeArea o).freeList .cma = [])) ∨
        ∃ page z', (if mt = .movable then rmqueueSmallest cfg z order .cma else (none, z)) =
          (some page, z') ∧ WellFormed cfg z' ∧
          ¬(mt = .movable →
            ∀ o, order ≤ o → o < cfg.maxOrder → (z.freeArea o).freeList .cma = []) := by
      split
      · next hmt =>
        rcases rmqueueSmallest_spec h order .cma with ⟨hcma, hempty⟩ | ⟨page, z', hcma, hwf, hsome⟩
        · exact .inl ⟨hcma, fun _ => hempty⟩
        · exact .inr ⟨page, z', hcma, hwf, fun hall => hsome (hall hmt)⟩
      · next hmt => exact .inl ⟨rfl, fun heq => absurd heq hmt⟩
    rw [hown]
    rcases hcma with ⟨hcma, hcmaEmpty⟩ | ⟨page, z', hcma, hwf, hsome⟩
    · simp only [hcma]
      rcases rmqueueFallback_spec hmove h order mt false with
        ⟨hfall, hno⟩ | ⟨z', hfall, hre, ⟨o, hlo, hhi, hlist⟩, o', hlo', hhi', hno⟩
      · exact .inr (.inl ⟨by simp [hfall], hempty, hcmaEmpty, hno⟩)
      · refine .inr (.inr ⟨z', by simp [hfall], hre.wellFormed h, fun hall => ?_, fun hall => ?_⟩)
        · exact hlist (hall o hlo hhi)
        · exact hno (hall.2.2 o' hlo' hhi')
    · simp only [hcma]
      exact .inl ⟨page, z', rfl, hwf, fun hall => hsome hall.2.1⟩
  · rw [hown]
    exact .inl ⟨page, z', rfl, hwf, fun hall => hsome hall.1⟩

/-- `__rmqueue` on free lists as they should be. It returns after one jump to `retry` at most, and
returns nothing exactly when none of the lists it may take from has a sufficient block. The fallback
returns, so that its `VM_BUG_ON` does not fail; the free blocks and the counts are the same behind it;
and when it returns true, `__rmqueue_smallest` finds a page. -/
theorem rmqueue_terminates (hmove : MovesPageblock cfg env.moveFreepagesBlock)
    (h : WellFormed cfg z) (order : Nat) (mt : MigrateType) :
    (∃ page z', (∀ retries, 1 ≤ retries →
        rmqueue env cfg order mt retries z = .ok (some (page, z'))) ∧
      (page = none ↔ NoBlock cfg z order mt) ∧ WellFormed cfg z') ∧
    ∀ canSteal, ∃ found z', rmqueueFallback env cfg z order mt canSteal = .ok (found, z') ∧
      (blocks cfg z').Perm (blocks cfg z) ∧
      (∀ o < cfg.maxOrder, (z'.freeArea o).nrFree = (z.freeArea o).nrFree) ∧
      (found = true → (rmqueueSmallest cfg z' order mt).1 ≠ none) := by
  refine ⟨?_, fun canSteal => ?_⟩
  · rcases rmqueuePass_cases hmove h order mt with
      ⟨page, z', hpass, hwf, hsome⟩ | ⟨hpass, hno⟩ | ⟨z', hpass, hwf, hlist, hsome⟩
    · refine ⟨some page, z', fun retries hle => ?_, iff_of_false (Option.some_ne_none page) hsome, hwf⟩
      obtain ⟨n, rfl⟩ := Nat.exists_eq_add_of_le' hle
      simp only [rmqueue, hpass, ok_bind, pure_eq_ok]
    · refine ⟨none, z, fun retries hle => ?_, iff_of_true rfl hno, h⟩
      obtain ⟨n, rfl⟩ := Nat.exists_eq_add_of_le' hle
      simp only [rmqueue, hpass, ok_bind, pure_eq_ok]
    · rcases rmqueueSmallest_spec hwf order mt with
        ⟨_, hempty⟩ | ⟨page, z'', hsmallest, hwf', _⟩
      · exact absurd hempty hlist
      · have hagain : rmqueuePass env cfg z' order mt = .ok (.returned (some page) z'') := by
          rw [rmqueuePass, hsmallest]
        refine ⟨some page, z'', fun retries hle => ?_, iff_of_false (Option.some_ne_none page) hsome,
          hwf'⟩
        obtain ⟨n, rfl⟩ := Nat.exists_eq_add_of_le' hle
        cases n <;> simp only [rmqueue, hpass, hagain, ok_bind, pure_eq_ok]
  · rcases rmqueueFallback_spec hmove h order mt canSteal with
      ⟨hfall, _⟩ | ⟨z', hfall, hre, ⟨o, hlo, hhi, hlist⟩, _⟩
    · exact ⟨false, z, hfall, List.Perm.refl _, fun _ _ => rfl, fun heq => by cases heq⟩
    · refine ⟨true, z', hfall, hre.blocks, hre.nrFree, fun _ hnone => ?_⟩
      rcases rmqueueSmallest_spec (hre.wellFormed h) order mt with
        ⟨_, hempty⟩ | ⟨page, z'', hsmallest, _⟩
      · exact hlist (hempty o hlo hhi)
      · rw [hsmallest] at hnone
        cases hnone

/-! ## A pageblock that moves -/

/-- The free blocks of the pageblock of `page` in an area. -/
def inPageblock (cfg : BuddyConfig) (a : FreeArea) (page : Nat) : List Nat :=
  a.all.filter fun p => decide (p / 2 ^ cfg.pageblockOrder = page / 2 ^ cfg.pageblockOrder)

/-- The area when these blocks are on the list of the type. -/
def movedArea (cfg : BuddyConfig) (a : FreeArea) (page : Nat) (mt : MigrateType) : FreeArea where
  freeList t := (if t = mt then inPageblock cfg a page else []) ++ (a.freeList t).filter fun p =>
    !decide (p / 2 ^ cfg.pageblockOrder = page / 2 ^ cfg.pageblockOrder)
  nrFree := a.nrFree

/-- All free blocks of a pageblock go to the lists of the type, and their pages are reported. -/
def movePageblock (cfg : BuddyConfig) (z : Zone) (page : Nat) (mt : MigrateType) : Nat × Nat × Zone :=
  (((List.range cfg.maxOrder).map fun o => (inPageblock cfg (z.freeArea o) page).length * 2 ^ o).sum,
    0, { z with freeArea := fun o => movedArea cfg (z.freeArea o) page mt })

theorem all_movedArea (a : FreeArea) (page : Nat) (mt : MigrateType) :
    (movedArea cfg a page mt).all.Perm a.all := by
  have hmoved : (MigrateType.types.flatMap fun t => if t = mt then inPageblock cfg a page else []) =
      inPageblock cfg a page := by
    cases mt <;> simp [MigrateType.types]
  refine (List.flatMap_append_perm ..).symm.trans ?_
  rw [hmoved, ← List.filter_flatMap]
  exact List.filter_append_perm ..

theorem movePageblock_moves (cfg : BuddyConfig) : MovesPageblock cfg (movePageblock cfg) where
  rearranged z page mt _ := ⟨fun o _ => all_movedArea .., fun o _ => rfl, rfl⟩
  whole z page mt _ _ o _ p hp hin := by
    show p ∈ (if mt = mt then inPageblock cfg (z.freeArea o) page else []) ++ _
    rw [if_pos rfl]
    exact List.mem_append_left _ (List.mem_filter.mpr ⟨hp, decide_eq_true hin⟩)

/-- The surroundings of the allocator with such a `move_freepages_block`. -/
def movingEnv (cfg : BuddyConfig) : BuddyEnv where
  moveFreepagesBlock := movePageblock cfg
  changePageblockRange types page order mt p :=
    if page / 2 ^ cfg.pageblockOrder ≤ p ∧
      p < page / 2 ^ cfg.pageblockOrder + 2 ^ (order - cfg.pageblockOrder) then mt else types p
  setPageblockMigratetype types page mt p :=
    if p = page / 2 ^ cfg.pageblockOrder then mt else types p

/-- A reclaimable page is asked of a zone with one unmovable block: without a retry there is no answer
yet, with one there is a page. -/
theorem rmqueue_terminates_oneBlock :
    (rmqueue (movingEnv ⟨11, 9, false⟩) ⟨11, 9, false⟩ 0 .reclaimable 0 oneBlock).map
      (fun r => r.isSome) = .ok false ∧
    ∃ page z', rmqueue (movingEnv ⟨11, 9, false⟩) ⟨11, 9, false⟩ 0 .reclaimable 1 oneBlock =
      .ok (some (page, z')) ∧ page ≠ none := by
  refine ⟨by decide, ?_⟩
  obtain ⟨⟨page, z', hrun, hnone, _⟩, _⟩ := @rmqueue_terminates _ (movingEnv ⟨11, 9, false⟩) _
    (movePageblock_moves _) oneBlock_wellFormed 0 .reclaimable
  refine ⟨page, z', hrun 1 (Nat.le_refl 1), fun hpage => ?_⟩
  have hempty := hnone.mp hpage 3 (by decide) (by decide) .unmovable (by decide)
  exact absurd hempty (by decide)

end Rtfsc.Linux
