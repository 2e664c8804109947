import Rtfsc.Machine.Extents
import Mathlib.Algebra.Order.Ring.Nat
import Mathlib.Tactic.Ring

/-!
# Buddy allocator: the fast path

A zone keeps its free blocks on lists, one for each order and migrate type, and counts the blocks of
each order. `__rmqueue_smallest` takes the first block of the smallest sufficient order off the lists of
one type, and `expand` gives the upper half back at each order down to the requested one. Pages are
known by their page frame numbers. Debug guard pages are off, so `set_page_guard` is false; the
assertions on `bad_range` and tracing are left out.
-/

namespace Rtfsc.Linux

open Rtfsc.Machine

/-- `enum migratetype`. -/
inductive MigrateType
  | unmovable
  | movable
  | reclaimable
  | highatomic
  | cma
  | isolate
deriving DecidableEq, Repr

/-- The types, as they index `free_list`. -/
def MigrateType.types : List MigrateType :=
  [unmovable, movable, reclaimable, highatomic, cma, isolate]

theorem MigrateType.mem_types (mt : MigrateType) : mt ∈ types := by cases mt <;> decide

theorem MigrateType.nodup_types : types.Nodup := by decide

/-- What the configuration of the kernel fixes. -/
structure BuddyConfig where
  maxOrder : Nat
  pageblockOrder : Nat
  pageGroupByMobilityDisabled : Bool

/-- `struct free_area`. -/
structure FreeArea where
  freeList : MigrateType → List Nat
  nrFree : Nat

/-- What the allocator reads and writes of a zone and its pages: `pageOrder` is the order recorded in
a page that is marked as a free block. -/
structure Zone where
  freeArea : Nat → FreeArea
  pageOrder : Nat → Option Nat
  pcppageMigratetype : Nat → MigrateType
  pageblockMigratetype : Nat → MigrateType

namespace FreeArea

/-- The blocks of an area, whatever list they are on. -/
def all (a : FreeArea) : List Nat := MigrateType.types.flatMap a.freeList

theorem mem_all {a : FreeArea} {p : Nat} : p ∈ a.all ↔ ∃ mt, p ∈ a.freeList mt := by
  unfold all
  rw [List.mem_flatMap]
  exact ⟨fun ⟨mt, _, h⟩ => ⟨mt, h⟩, fun ⟨mt, h⟩ => ⟨mt, mt.mem_types, h⟩⟩

/-- `list_add`. -/
def listAdd (a : FreeArea) (page : Nat) (mt : MigrateType) : FreeArea :=
  { a with freeList := Function.update a.freeList mt (page :: a.freeList mt) }

/-- The lists when `list_del` has unlinked the page from the one that it is on. -/
def listDel (a : FreeArea) (page : Nat) : FreeArea :=
  { a with freeList := fun mt => (a.freeList mt).erase page }

theorem all_listAdd (a : FreeArea) (page : Nat) (mt : MigrateType) :
    (a.listAdd page mt).all.Perm (page :: a.all) := by
  have h := flatMap_update_perm MigrateType.nodup_types mt.mem_types a.freeList (page :: a.freeList mt)
  rw [List.cons_append] at h
  exact (List.perm_append_left_iff (a.freeList mt)).mp (h.trans List.perm_middle.symm)

theorem all_listDel {a : FreeArea} (h : a.all.Nodup) (page : Nat) :
    (a.listDel page).all = a.all.filter fun p => decide (p ≠ page) := by
  unfold all
  rw [List.filter_flatMap]
  refine List.flatMap_congr fun mt _ => ?_
  have hmt : (a.freeList mt).Nodup := (List.nodup_flatMap.mp h).1 mt mt.mem_types
  show (a.freeList mt).erase page = _
  rw [hmt.erase_eq_filter]
  refine List.filter_congr fun p _ => ?_
  rw [Bool.eq_iff_iff, bne_iff_ne, decide_eq_true_iff]

theorem all_listDel_perm {a : FreeArea} (h : a.all.Nodup) {page : Nat} (hp : page ∈ a.all) :
    a.all.Perm (page :: (a.listDel page).all) := by
  rw [all_listDel h]
  exact perm_cons_filter_ne (f := id) (by rwa [List.map_id]) hp

theorem all_listDel_of_not_mem {a : FreeArea} {page : Nat} (hp : page ∉ a.all) :
    a.listDel page = a := by
  cases a with
  | mk freeList nrFree =>
    unfold listDel
    congr 1
    funext mt
    exact List.erase_of_not_mem fun hmem => hp (mem_all.mpr ⟨mt, hmem⟩)

end FreeArea

namespace Zone

/-- `list_del(&page->lru)`. -/
def listDel (z : Zone) (page : Nat) : Zone :=
  { z with freeArea := fun o => (z.freeArea o).listDel page }

/-- `rmv_page_order`. -/
def rmvPageOrder (z : Zone) (page : Nat) : Zone :=
  { z with pageOrder := Function.update z.pageOrder page none }

/-- `set_page_order`. -/
def setPageOrder (z : Zone) (page order : Nat) : Zone :=
  { z with pageOrder := Function.update z.pageOrder page (some order) }

/-- `set_pcppage_migratetype`. -/
def setPcppageMigratetype (z : Zone) (page : Nat) (mt : MigrateType) : Zone :=
  { z with pcppageMigratetype := Function.update z.pcppageMigratetype page mt }

/-- An update of `zone->free_area[order]`. -/
def updateArea (z : Zone) (order : Nat) (a : FreeArea) : Zone :=
  { z with freeArea := Function.update z.freeArea order a }

/-- `list_add(&page->lru, &area->free_list[mt])` with the area of an order. -/
def listAdd (z : Zone) (page order : Nat) (mt : MigrateType) : Zone :=
  z.updateArea order ((z.freeArea order).listAdd page mt)

/-- `area->nr_free++` -/
def incNrFree (z : Zone) (order : Nat) : Zone :=
  z.updateArea order { z.freeArea order with nrFree := (z.freeArea order).nrFree + 1 }

/-- `area->nr_free--` -/
def decNrFree (z : Zone) (order : Nat) : Zone :=
  z.updateArea order { z.freeArea order with nrFree := (z.freeArea order).nrFree - 1 }

end Zone

/-- `expand`: `area`, `high` and `size` go down together until `high` is `low`. -/
def expand (page low : Nat) (mt : MigrateType) : (area high size : Nat) → Zone → Zone
  | _, 0, _, z => z
  | area, high + 1, size, z =>
    if high + 1 > low then
      let area := area - 1
      let size := size / 2
      expand page low mt area high size
        (((z.listAdd (page + size) area mt).incNrFree area).setPageOrder (page + size) high)
    else z

/-- The loop of `__rmqueue_smallest` over the orders that are left from `currentOrder` on. -/
def rmqueueSmallestFrom (order : Nat) (mt : MigrateType) : (left currentOrder : Nat) → Zone →
    Option Nat × Zone
  | 0, _, z => (none, z)
  | left + 1, currentOrder, z =>
    match ((z.freeArea currentOrder).freeList mt).head? with
    | none => rmqueueSmallestFrom order mt left (currentOrder + 1) z
    | some page =>
      let z := ((z.listDel page).rmvPageOrder page).decNrFree currentOrder
      let z := expand page order mt currentOrder currentOrder (2 ^ currentOrder) z
      (some page, z.setPcppageMigratetype page mt)

/-- `__rmqueue_smallest` -/
def rmqueueSmallest (cfg : BuddyConfig) (z : Zone) (order : Nat) (mt : MigrateType) :
    Option Nat × Zone :=
  rmqueueSmallestFrom order mt (cfg.maxOrder - order) order z

/-! ## Free blocks -/

/-- The pages of a block. -/
def block (page order : Nat) : Extent := ⟨page, 2 ^ order⟩

theorem hits_halves (page order b : Nat) : hits [block page (order + 1)] b =
    hits [block page order] b + hits [block (page + 2 ^ order) order] b := by
  unfold block
  rw [Nat.pow_succ, Nat.mul_two, hits_split]

/-- The free blocks of the zone. -/
def blocks (cfg : BuddyConfig) (z : Zone) : List Extent :=
  (List.range cfg.maxOrder).flatMap fun o => (z.freeArea o).all.map (block · o)

theorem mem_blocks {cfg : BuddyConfig} {z : Zone} {e : Extent} : e ∈ blocks cfg z ↔
    ∃ o < cfg.maxOrder, ∃ p ∈ (z.freeArea o).all, block p o = e := by
  simp only [blocks, List.mem_flatMap, List.mem_range, List.mem_map]

/-- The free lists are as they should be, while the blocks of `out` are in the hands of the code that
runs: blocks are aligned to their order, recorded with it and counted, and no two have a page in
common. -/
structure Holds (cfg : BuddyConfig) (z : Zone) (out : List Extent) : Prop where
  aligned : ∀ o < cfg.maxOrder, ∀ p ∈ (z.freeArea o).all, 2 ^ o ∣ p
  recorded : ∀ o < cfg.maxOrder, ∀ p ∈ (z.freeArea o).all, z.pageOrder p = some o
  counted : ∀ o < cfg.maxOrder, (z.freeArea o).nrFree = (z.freeArea o).all.length
  apart : (out ++ blocks cfg z).Pairwise Extent.Apart

/-- Free lists as they should be. -/
abbrev WellFormed (cfg : BuddyConfig) (z : Zone) : Prop := Holds cfg z []

variable {cfg : BuddyConfig} {z z' : Zone} {out out' : List Extent} {o page low high : Nat}
  {mt : MigrateType}

theorem blocks_congr (h : ∀ o < cfg.maxOrder, (z'.freeArea o).all = (z.freeArea o).all) :
    blocks cfg z' = blocks cfg z := by
  refine List.flatMap_congr fun o ho => ?_
  rw [h o (List.mem_range.mp ho)]

@[simp] theorem Zone.freeArea_updateArea_self (z : Zone) (o : Nat) (a : FreeArea) :
    (z.updateArea o a).freeArea o = a := Function.update_self ..

theorem Zone.freeArea_updateArea_of_ne {o' : Nat} (h : o' ≠ o) (z : Zone) (a : FreeArea) :
    (z.updateArea o a).freeArea o' = z.freeArea o' := Function.update_of_ne h ..

@[simp] theorem Zone.freeArea_setPageOrder (z : Zone) (page order : Nat) :
    (z.setPageOrder page order).freeArea = z.freeArea := rfl

@[simp] theorem Zone.freeArea_rmvPageOrder (z : Zone) (page : Nat) :
    (z.rmvPageOrder page).freeArea = z.freeArea := rfl

/-- The area when a block has been put at the head of a list and counted. -/
def FreeArea.put (a : FreeArea) (page : Nat) (mt : MigrateType) : FreeArea :=
  ⟨(a.listAdd page mt).freeList, a.nrFree + 1⟩

theorem FreeArea.all_put (a : FreeArea) (page : Nat) (mt : MigrateType) :
    (a.put page mt).all.Perm (page :: a.all) := a.all_listAdd page mt

theorem Zone.incNrFree_listAdd (z : Zone) (page o : Nat) (mt : MigrateType) :
    (z.listAdd page o mt).incNrFree o = z.updateArea o ((z.freeArea o).put page mt) := by
  simp [Zone.incNrFree, Zone.listAdd, Zone.updateArea, FreeArea.put, FreeArea.listAdd]

/-- The area when a block has been unlinked and counted down. -/
def FreeArea.drop (a : FreeArea) (page : Nat) : FreeArea :=
  ⟨(a.listDel page).freeList, a.nrFree - 1⟩

theorem FreeArea.all_drop (a : FreeArea) (page : Nat) :
    (a.drop page).all = (a.listDel page).all := rfl

/-- When the blocks of one area change, the others stay. -/
theorem blocks_updateArea (z : Zone) (ho : o < cfg.maxOrder) (a : FreeArea) :
    ((z.freeArea o).all.map (block · o) ++ blocks cfg (z.updateArea o a)).Perm
      (a.all.map (block · o) ++ blocks cfg z) := by
  have hmap : (fun o' => ((z.updateArea o a).freeArea o').all.map (block · o')) =
      Function.update (fun o' => (z.freeArea o').all.map (block · o')) o (a.all.map (block · o)) := by
    funext o'
    by_cases h : o' = o
    · subst h
      rw [Zone.freeArea_updateArea_self, Function.update_self]
    · rw [Zone.freeArea_updateArea_of_ne h, Function.update_of_ne h]
  unfold blocks
  rw [hmap]
  exact flatMap_update_perm List.nodup_range (List.mem_range.mpr ho)
    (fun o' => (z.freeArea o').all.map (block · o')) _

namespace Holds

theorem nodup_addr (h : Holds cfg z out) : ((blocks cfg z).map Extent.addr).Nodup := by
  refine Machine.nodup_addr (List.pairwise_append.mp h.apart).2.1 fun e he => ?_
  obtain ⟨o, _, p, _, rfl⟩ := mem_blocks.mp he
  exact Nat.two_pow_pos o

theorem nodup (h : Holds cfg z out) (ho : o < cfg.maxOrder) : (z.freeArea o).all.Nodup := by
  have hnd := h.nodup_addr
  unfold blocks at hnd
  rw [List.map_flatMap, List.nodup_flatMap] at hnd
  have hmap := hnd.1 o (List.mem_range.mpr ho)
  rw [List.map_map] at hmap
  exact hmap.of_map

/-- A block is free in one order only. -/
theorem order_unique {o' : Nat} (h : Holds cfg z out) (ho : o < cfg.maxOrder)
    (ho' : o' < cfg.maxOrder) (hp : page ∈ (z.freeArea o).all) (hp' : page ∈ (z.freeArea o').all) :
    o' = o :=
  Option.some.inj ((h.recorded o' ho' page hp').symm.trans (h.recorded o ho page hp))

/-- What is free begins outside of the blocks that are in the hands of the code. -/
theorem addr_ne {e : Extent} {p b : Nat} (h : Holds cfg z out) (he : e ∈ out) (hb : e.Has b)
    (ho : o < cfg.maxOrder) (hp : p ∈ (z.freeArea o).all) : p ≠ b := by
  rintro rfl
  have hfree : block p o ∈ blocks cfg z := mem_blocks.mpr ⟨o, ho, p, hp, rfl⟩
  refine (List.pairwise_append.mp h.apart).2.2 e he _ hfree p hb ?_
  exact ⟨Nat.le_refl p, Nat.lt_add_of_pos_right (Nat.two_pow_pos o)⟩

/-- The blocks in the hands of the code may be cut and joined. -/
theorem congr (h : Holds cfg z out) (hout : ∀ b, hits out' b = hits out b) : Holds cfg z out' := by
  refine { h with apart := (pairwise_apart_congr fun b => ?_).mp h.apart }
  rw [hits_append, hits_append, hout]

theorem setPcppageMigratetype (h : Holds cfg z out) :
    Holds cfg (z.setPcppageMigratetype page mt) out := { h with }

/-- A block in the hands of the code goes to the head of a list, counted and recorded. -/
theorem give (h : Holds cfg z (block page o :: out)) (ho : o < cfg.maxOrder) (hal : 2 ^ o ∣ page)
    (mt : MigrateType) :
    Holds cfg (((z.listAdd page o mt).incNrFree o).setPageOrder page o) out ∧
      (blocks cfg (((z.listAdd page o mt).incNrFree o).setPageOrder page o)).Perm
        (block page o :: blocks cfg z) := by
  rw [Zone.incNrFree_listAdd]
  have hall := (z.freeArea o).all_put page mt
  have hperm : (blocks cfg ((z.updateArea o ((z.freeArea o).put page mt)).setPageOrder page o)).Perm
      (block page o :: blocks cfg z) := by
    have hupd := blocks_updateArea z ho ((z.freeArea o).put page mt)
    refine (List.perm_append_left_iff ((z.freeArea o).all.map (block · o))).mp (hupd.trans ?_)
    exact ((hall.map (block · o)).append_right _).trans List.perm_middle.symm
  have hfresh {o' p : Nat} (ho' : o' < cfg.maxOrder) (hp : p ∈ (z.freeArea o').all) : p ≠ page :=
    h.addr_ne List.mem_cons_self
      ⟨Nat.le_refl page, Nat.lt_add_of_pos_right (Nat.two_pow_pos o)⟩ ho' hp
  have hmem {o' p : Nat} (hp : p ∈ ((z.updateArea o ((z.freeArea o).put page mt)).freeArea o').all) :
      (o' = o ∧ p = page) ∨ p ∈ (z.freeArea o').all := by
    by_cases heq : o' = o
    · subst heq
      rw [Zone.freeArea_updateArea_self] at hp
      rcases List.mem_cons.mp (hall.mem_iff.mp hp) with rfl | hp
      · exact .inl ⟨rfl, rfl⟩
      · exact .inr hp
    · rw [Zone.freeArea_updateArea_of_ne heq] at hp
      exact .inr hp
  refine ⟨⟨fun o' ho' p hp => ?_, fun o' ho' p hp => ?_, fun o' ho' => ?_, ?_⟩, hperm⟩
  · rcases hmem hp with ⟨rfl, rfl⟩ | hp
    · exact hal
    · exact h.aligned o' ho' p hp
  · show Function.update z.pageOrder page (some o) p = some o'
    rcases hmem hp with ⟨rfl, rfl⟩ | hp
    · rw [Function.update_self]
    · rw [Function.update_of_ne (hfresh ho' hp)]
      exact h.recorded o' ho' p hp
  · rw [Zone.freeArea_setPageOrder]
    by_cases heq : o' = o
    · subst heq
      rw [Zone.freeArea_updateArea_self, hall.length_eq, List.length_cons, ← h.counted o' ho']
      rfl
    · rw [Zone.freeArea_updateArea_of_ne heq]
      exact h.counted o' ho'
  · refine (pairwise_apart_congr fun b => ?_).mp h.apart
    rw [hits_append, hits_append, hits_cons, hits_perm hperm, hits_cons (block page o) (blocks cfg z)]
    omega

/-- What `list_del` and the count leave of the areas. -/
theorem freeArea_take (h : Holds cfg z out) (ho : o < cfg.maxOrder)
    (hp : page ∈ (z.freeArea o).all) {o' : Nat} (ho' : o' < cfg.maxOrder) :
    (((z.listDel page).rmvPageOrder page).decNrFree o).freeArea o' =
      (z.updateArea o ((z.freeArea o).drop page)).freeArea o' := by
  by_cases heq : o' = o
  · subst heq
    rw [Zone.freeArea_updateArea_self]
    exact Function.update_self ..
  · rw [Zone.freeArea_updateArea_of_ne heq]
    refine (Function.update_of_ne heq ..).trans ?_
    exact FreeArea.all_listDel_of_not_mem fun hp' => heq (h.order_unique ho ho' hp hp')

/-- A free block is unlinked, its record removed and its area counted down: it is in the hands of the
code. -/
theorem take (h : Holds cfg z out) (ho : o < cfg.maxOrder) (hp : page ∈ (z.freeArea o).all) :
    Holds cfg (((z.listDel page).rmvPageOrder page).decNrFree o) (block page o :: out) ∧
      (block page o :: blocks cfg (((z.listDel page).rmvPageOrder page).decNrFree o)).Perm
        (blocks cfg z) := by
  have hdel := FreeArea.all_listDel_perm (h.nodup ho) hp
  have hperm : (block page o :: blocks cfg (((z.listDel page).rmvPageOrder page).decNrFree o)).Perm
      (blocks cfg z) := by
    rw [blocks_congr fun o' ho' => congrArg FreeArea.all (h.freeArea_take ho hp ho')]
    have hupd := blocks_updateArea z ho ((z.freeArea o).drop page)
    refine (List.perm_append_left_iff (((z.freeArea o).drop page).all.map (block · o))).mp ?_
    exact (List.perm_middle.trans ((hdel.map (block · o)).append_right _).symm).trans hupd
  have hmem {o' p : Nat} (ho' : o' < cfg.maxOrder)
      (hp' : p ∈ ((((z.listDel page).rmvPageOrder page).decNrFree o).freeArea o').all) :
      p ∈ (z.freeArea o').all ∧ p ≠ page := by
    rw [h.freeArea_take ho hp ho'] at hp'
    by_cases heq : o' = o
    · subst heq
      rw [Zone.freeArea_updateArea_self, FreeArea.all_drop, FreeArea.all_listDel (h.nodup ho),
        List.mem_filter, decide_eq_true_iff] at hp'
      exact hp'
    · rw [Zone.freeArea_updateArea_of_ne heq] at hp'
      refine ⟨hp', ?_⟩
      rintro rfl
      exact heq (h.order_unique ho ho' hp hp')
  refine ⟨⟨fun o' ho' p hp' => ?_, fun o' ho' p hp' => ?_, fun o' ho' => ?_, ?_⟩, hperm⟩
  · exact h.aligned o' ho' p (hmem ho' hp').1
  · show Function.update z.pageOrder page none p = some o'
    rw [Function.update_of_ne (hmem ho' hp').2]
    exact h.recorded o' ho' p (hmem ho' hp').1
  · rw [h.freeArea_take ho hp ho']
    by_cases heq : o' = o
    · subst heq
      have hlen := hdel.length_eq
      rw [List.length_cons, ← h.counted o' ho'] at hlen
      rw [Zone.freeArea_updateArea_self]
      exact Nat.sub_eq_of_eq_add hlen
    · rw [Zone.freeArea_updateArea_of_ne heq]
      exact h.counted o' ho'
  · refine (pairwise_apart_congr fun b => ?_).mp h.apart
    rw [hits_append, ← hits_perm hperm, hits_cons (block page o) (blocks cfg _), hits_append,
      hits_cons (block page o) out]
    omega

end Holds

/-- The halves that `expand` gives back and the block that is left tile the block that it got. -/
theorem expand_holds (h : Holds cfg z (block page high :: out)) (hal : 2 ^ high ∣ page)
    (hle : low ≤ high) (hhigh : high < cfg.maxOrder) (mt : MigrateType) :
    Holds cfg (expand page low mt high high (2 ^ high) z) (block page low :: out) ∧
      ∀ b, hits (block page low :: blocks cfg (expand page low mt high high (2 ^ high) z)) b =
        hits (block page high :: blocks cfg z) b := by
  induction high generalizing z with
  | zero =>
    obtain rfl := Nat.le_zero.mp hle
    exact ⟨h, fun b => rfl⟩
  | succ high ih =>
    unfold expand
    split
    · next hlow =>
      have hsize : 2 ^ (high + 1) / 2 = 2 ^ high := by
        rw [Nat.pow_succ, Nat.mul_div_cancel _ (by decide)]
      simp only [Nat.add_sub_cancel, hsize]
      have hdvd : 2 ^ high ∣ page := Nat.dvd_trans (Nat.pow_dvd_pow 2 (Nat.le_succ high)) hal
      have hhalves : Holds cfg z (block (page + 2 ^ high) high :: block page high :: out) := by
        refine h.congr fun b => ?_
        rw [hits_cons, hits_cons (block page high), hits_cons (block page (high + 1)), hits_halves]
        omega
      obtain ⟨hgiven, hperm⟩ := hhalves.give (Nat.lt_of_succ_lt hhigh)
        (Nat.dvd_add hdvd (Nat.dvd_refl _)) mt
      obtain ⟨hdone, hhits⟩ := ih hgiven hdvd (Nat.le_of_lt_succ hlow) (Nat.lt_of_succ_lt hhigh)
      refine ⟨hdone, fun b => (hhits b).trans ?_⟩
      rw [hits_cons, hits_perm hperm, hits_cons (block (page + 2 ^ high) high),
        hits_cons (block page (high + 1)), hits_halves, Nat.add_assoc]
    · next hlow =>
      obtain rfl := Nat.le_antisymm hle (Nat.not_lt.mp hlow)
      exact ⟨h, fun b => rfl⟩

/-- The zone when `page` has been taken from the lists of order `o` and cut down to `order`. -/
def taken (z : Zone) (page order o : Nat) (mt : MigrateType) : Zone :=
  (expand page order mt o o (2 ^ o)
    (((z.listDel page).rmvPageOrder page).decNrFree o)).setPcppageMigratetype page mt

/-- The loop finds nothing when the lists are empty, else the first block of the first list that is
not. -/
theorem rmqueueSmallestFrom_cases (order : Nat) (mt : MigrateType) (left cur : Nat) (z : Zone) :
    (rmqueueSmallestFrom order mt left cur z = (none, z) ∧
      ∀ o, cur ≤ o → o < cur + left → (z.freeArea o).freeList mt = []) ∨
    ∃ o page, cur ≤ o ∧ o < cur + left ∧ ((z.freeArea o).freeList mt).head? = some page ∧
      (∀ o', cur ≤ o' → o' < o → (z.freeArea o').freeList mt = []) ∧
      rmqueueSmallestFrom order mt left cur z = (some page, taken z page order o mt) := by
  induction left generalizing cur with
  | zero => exact .inl ⟨rfl, fun o hle hlt => absurd hlt (Nat.not_lt.mpr hle)⟩
  | succ left ih =>
    unfold rmqueueSmallestFrom
    split
    · next hhead =>
      have hempty := List.head?_eq_none_iff.mp hhead
      have hfrom {P : Nat → Prop} (hcur : P cur) {k : Nat} (h : ∀ o, cur + 1 ≤ o → o < k → P o) :
          ∀ o, cur ≤ o → o < k → P o := by
        intro o hle hlt
        rcases Nat.eq_or_lt_of_le hle with rfl | hlt'
        · exact hcur
        · exact h o hlt' hlt
      rw [Nat.add_comm left, ← Nat.add_assoc]
      rcases ih (cur + 1) with ⟨hnone, hall⟩ | ⟨o, page, hle, hlt, hpage, hall, hsome⟩
      · exact .inl ⟨hnone, hfrom hempty hall⟩
      · exact .inr ⟨o, page, Nat.le_of_succ_le hle, hlt, hpage, hfrom hempty hall, hsome⟩
    · next page hhead =>
      refine .inr ⟨cur, page, Nat.le_refl cur, Nat.lt_add_of_pos_right (Nat.succ_pos left), hhead,
        fun o' hle hlt => absurd hlt (Nat.not_lt.mpr hle), rfl⟩

/-- The same for `__rmqueue_smallest`. -/
theorem rmqueueSmallest_cases (cfg : BuddyConfig) (z : Zone) (order : Nat) (mt : MigrateType) :
    (rmqueueSmallest cfg z order mt = (none, z) ∧
      ∀ o, order ≤ o → o < cfg.maxOrder → (z.freeArea o).freeList mt = []) ∨
    ∃ o page, order ≤ o ∧ o < cfg.maxOrder ∧ ((z.freeArea o).freeList mt).head? = some page ∧
      (∀ o', order ≤ o' → o' < o → (z.freeArea o').freeList mt = []) ∧
      rmqueueSmallest cfg z order mt = (some page, taken z page order o mt) := by
  have h := rmqueueSmallestFrom_cases order mt (cfg.maxOrder - order) order z
  rw [← rmqueueSmallest] at h
  rcases Nat.le_total order cfg.maxOrder with hle | hle
  · rwa [Nat.add_sub_cancel' hle] at h
  · refine .inl ⟨?_, fun o ho ho' => absurd ho' (Nat.not_lt.mpr (Nat.le_trans hle ho))⟩
    rw [rmqueueSmallest, Nat.sub_eq_zero_of_le hle]
    rfl

/-- A block that is taken and cut down leaves the zone as it should be, and tiles, together with what
is free then, the pages that were free before. -/
theorem taken_holds (h : WellFormed cfg z) {order : Nat} (hle : order ≤ o) (ho : o < cfg.maxOrder)
    (hp : page ∈ (z.freeArea o).all) (mt : MigrateType) :
    Holds cfg (taken z page order o mt) [block page order] ∧
      ∀ b, hits (block page order :: blocks cfg (taken z page order o mt)) b =
        hits (blocks cfg z) b := by
  obtain ⟨htake, hperm⟩ := h.take ho hp
  obtain ⟨hdone, hhits⟩ := expand_holds htake (h.aligned o ho page hp) hle ho mt
  refine ⟨hdone.setPcppageMigratetype, fun b => ?_⟩
  rw [← hits_perm hperm, ← hhits b]
  rfl

/-- `__rmqueue_smallest` on free lists as they should be. It finds nothing exactly when the lists of the
type have no sufficient block. Otherwise the page is the first block of the smallest sufficient order,
aligned to the request; its block and the blocks that are free then have no page in common and have
exactly the pages that were free before; and the free lists are as they should be again. -/
theorem rmqueueSmallest_tiles (cfg : BuddyConfig) (z : Zone) (order : Nat) (mt : MigrateType)
    (h : WellFormed cfg z) :
    ((rmqueueSmallest cfg z order mt).1 = none ↔
      ∀ o, order ≤ o → o < cfg.maxOrder → (z.freeArea o).freeList mt = []) ∧
    ∀ page z', rmqueueSmallest cfg z order mt = (some page, z') →
      (∃ o, order ≤ o ∧ o < cfg.maxOrder ∧ ((z.freeArea o).freeList mt).head? = some page ∧
        ∀ o', order ≤ o' → o' < o → (z.freeArea o').freeList mt = []) ∧
      2 ^ order ∣ page ∧
      (block page order :: blocks cfg z').Pairwise Extent.Apart ∧
      (∀ b, (∃ e ∈ block page order :: blocks cfg z', e.Has b) ↔ ∃ e ∈ blocks cfg z, e.Has b) ∧
      WellFormed cfg z' := by
  rcases rmqueueSmallest_cases cfg z order mt with
    ⟨hnone, hall⟩ | ⟨o, page, hle, ho, hhead, hall, hsome⟩
  · rw [hnone]
    exact ⟨iff_of_true rfl hall, fun page z' heq => by cases heq⟩
  · have hp : page ∈ (z.freeArea o).all := FreeArea.mem_all.mpr ⟨mt, List.mem_of_mem_head? hhead⟩
    obtain ⟨hdone, hhits⟩ := taken_holds h hle ho hp mt
    rw [hsome]
    refine ⟨iff_of_false (Option.some_ne_none page) fun hempty => ?_, ?_⟩
    · rw [hempty o hle ho] at hhead
      cases hhead
    · rintro page' z' heq
      cases heq
      exact ⟨⟨o, hle, ho, hhead, hall⟩,
        Nat.dvd_trans (Nat.pow_dvd_pow 2 hle) (h.aligned o ho page hp), hdone.apart,
        covers_congr hhits, { hdone with apart := (List.pairwise_cons.mp hdone.apart).2 }⟩

/-- A zone with one free block: the pages 8 to 15, unmovable. -/
def oneBlock : Zone where
  freeArea o := if o = 3 then ⟨fun mt => if mt = .unmovable then [8] else [], 1⟩ else ⟨fun _ => [], 0⟩
  pageOrder p := if p = 8 then some 3 else none
  pcppageMigratetype _ := .unmovable
  pageblockMigratetype _ := .unmovable

theorem oneBlock_wellFormed : WellFormed ⟨11, 9, false⟩ oneBlock where
  aligned := by decide
  recorded := by decide
  counted := by decide
  apart := by
    rw [List.nil_append, show blocks ⟨11, 9, false⟩ oneBlock = [block 8 3] by decide]
    exact List.pairwise_singleton ..

/-- One page is asked of eight: page 8 is returned, the rest is given back as blocks of 1, 2 and 4. -/
theorem rmqueueSmallest_tiles_oneBlock :
    (rmqueueSmallest ⟨11, 9, false⟩ oneBlock 0 .unmovable).1 = some 8 ∧
      blocks ⟨11, 9, false⟩ (rmqueueSmallest ⟨11, 9, false⟩ oneBlock 0 .unmovable).2 =
        [block 9 0, block 10 1, block 12 2] ∧
      WellFormed ⟨11, 9, false⟩ (rmqueueSmallest ⟨11, 9, false⟩ oneBlock 0 .unmovable).2 := by
  refine ⟨by decide, by decide, ?_⟩
  exact ((rmqueueSmallest_tiles ⟨11, 9, false⟩ oneBlock 0 .unmovable
    oneBlock_wellFormed).2 8 _ (Prod.ext (by decide) rfl)).2.2.2.2

end Rtfsc.Linux
