import Rtfsc.Machine.Extents
import Rtfsc.Machine.Outcome
import Mathlib.Algebra.Order.Ring.Nat
import Mathlib.Algebra.BigOperators.Group.List.Basic

/-!
# The hand-over from bootmem to the buddy allocator

`free_all_bootmem_core` walks over the pages of a node in steps that end at multiples of 64 and frees the
pages whose bit in the boot-time bitmap is clear. Bit 0 of the bitmap is the first page of the node, so
a step may need two words of it. Page frame numbers are below 2 ^ 52 and sums of them do not wrap.
-/

namespace Rtfsc.Linux

open Rtfsc.Machine

/-- `bootmem_data_t`. The bitmap is an array of `unsigned long`. -/
structure BootmemData where
  nodeBootmemMap : Option (List (BitVec 64))
  nodeMinPfn : Nat
  nodeLowPfn : Nat
deriving DecidableEq

/-- A call of `__free_pages_bootmem`; the page is known by its frame number. -/
structure FreeCall where
  page : Nat
  pfn : Nat
  order : Nat
deriving DecidableEq

/-- The pages that a call frees. -/
def FreeCall.extent (c : FreeCall) : Extent := ⟨c.page, 2 ^ c.order⟩

/-- `map[i]` -/
def readWord (map : List (BitVec 64)) (i : Nat) : Outcome (BitVec 64) :=
  match map[i]? with
  | some w => .ok w
  | none => .error (.outOfBounds i)

/-- `ALIGN(x, BITS_PER_LONG)` -/
def alignLong (x : Nat) : Nat := (x + 63) / 64 * 64

/-- `vec`: the inverted bits of the map from page `start` on. -/
def bootmemVec (map : List (BitVec 64)) (minPfn endPfn start : Nat) : Outcome (BitVec 64) := do
  let idx := start - minPfn
  let shift := idx % 64
  let word ← readWord map (idx / 64)
  let vec := ~~~word
  if shift = 0 then return vec
  else
    let vec := vec >>> shift
    if endPfn - start ≥ 64 then
      let next ← readWord map (idx / 64 + 1)
      return vec ||| (~~~next <<< (64 - shift))
    else return vec

/-- The inner loop, `left` pages before the next step; `cur` counts up with the bits of `vec`. -/
def freeBits : (left : Nat) → BitVec 64 → (cur : Nat) → List FreeCall
  | 0, _, _ => []
  | left + 1, vec, cur =>
    if vec = 0 then []
    else
      (if vec.getLsbD 0 then [⟨cur, cur, 0⟩] else []) ++ freeBits left (vec >>> 1) (cur + 1)

/-- The outer loop, with `count` and the calls so far; `none` when it goes on after `fuel` steps. -/
def bootmemLoop (map : List (BitVec 64)) (minPfn endPfn : Nat) :
    (fuel start count : Nat) → List FreeCall → Outcome (Option (Nat × List FreeCall))
  | 0, start, count, calls => if start < endPfn then .ok none else .ok (some (count, calls))
  | fuel + 1, start, count, calls =>
    if start < endPfn then do
      let vec ← bootmemVec map minPfn endPfn start
      if start % 64 = 0 ∧ vec = BitVec.allOnes 64 then
        bootmemLoop map minPfn endPfn fuel (start + 64) (count + 64) (calls ++ [⟨start, start, 6⟩])
      else
        let next := alignLong (start + 1)
        let freed := freeBits (next - start) vec start
        bootmemLoop map minPfn endPfn fuel next (count + freed.length) (calls ++ freed)
    else .ok (some (count, calls))

/-- What `free_all_bootmem_core` has done: the number that it returns, the calls of its loop, the calls
for the pages of the bitmap, and the node behind it. -/
structure HandOver where
  count : Nat
  freed : List FreeCall
  own : List FreeCall
  node : BootmemData
deriving DecidableEq

/-- `free_all_bootmem_core`; the bitmap begins in page `mapPage`, and `bootmapPages` is
`bootmem_bootmap_pages`. -/
def freeAllBootmemCore (mapPage : Nat) (bootmapPages : Nat → Nat) (fuel : Nat) (b : BootmemData) :
    Outcome (Option HandOver) :=
  match b.nodeBootmemMap with
  | none => .ok (some ⟨0, [], [], b⟩)
  | some map => do
    match ← bootmemLoop map b.nodeMinPfn b.nodeLowPfn fuel b.nodeMinPfn 0 [] with
    | none => return none
    | some (count, freed) =>
      let pages := bootmapPages (b.nodeLowPfn - b.nodeMinPfn)
      return some ⟨count + pages, freed,
        (List.range pages).map fun i => ⟨mapPage + i, b.nodeMinPfn + i, 0⟩,
        { b with nodeBootmemMap := none }⟩

/-! ## Bits and pages -/

/-- Bit `i` of the bitmap; what is past its last word counts as set. -/
def reserved (map : List (BitVec 64)) (i : Nat) : Bool :=
  match map[i / 64]? with
  | some w => w.getLsbD (i % 64)
  | none => true

variable {map : List (BitVec 64)} {minPfn endPfn start left cur p i fuel count : Nat}
  {vec w : BitVec 64} {calls : List FreeCall}

theorem reserved_of_word (h : map[i / 64]? = some w) : reserved map i = w.getLsbD (i % 64) := by
  rw [reserved, h]

/-- The pages of the inner loop are those whose bit is set in `vec`. -/
theorem hits_freeBits (hleft : left ≤ 64) : hits ((freeBits left vec cur).map FreeCall.extent) p =
    if cur ≤ p ∧ p < cur + left ∧ vec.getLsbD (p - cur) then 1 else 0 := by
  induction left generalizing vec cur with
  | zero =>
    rw [if_neg (by omega)]
    rfl
  | succ left ih =>
    unfold freeBits
    split
    · next hzero =>
      subst hzero
      rw [if_neg (by simp)]
      rfl
    · have hhead : hits ((if vec.getLsbD 0 then [FreeCall.mk cur cur 0] else []).map FreeCall.extent) p =
          if p = cur ∧ vec.getLsbD 0 then 1 else 0 := by
        by_cases hbit : vec.getLsbD 0
        · rw [if_pos hbit]
          show hits [⟨cur, 2 ^ 0⟩] p = _
          rw [hits_single]
          have hiff : (Extent.mk cur (2 ^ 0)).Has p ↔ p = cur ∧ vec.getLsbD 0 = true := by
            simp only [Extent.Has, hbit, and_true]
            omega
          exact if_congr hiff rfl rfl
        · rw [if_neg hbit, if_neg fun h => hbit h.2]
          rfl
      rw [List.map_append, hits_append, hhead, ih (Nat.le_of_succ_le hleft)]
      have hshift : (vec >>> 1).getLsbD (p - (cur + 1)) = vec.getLsbD (1 + (p - (cur + 1))) :=
        BitVec.getLsbD_ushiftRight ..
      rw [hshift]
      rcases Nat.lt_trichotomy p cur with hlt | rfl | hlt
      · rw [if_neg (by omega), if_neg (by omega), if_neg (by omega)]
      · simp
      · have hsub : 1 + (p - (cur + 1)) = p - cur := by omega
        rw [hsub, if_neg (by omega), Nat.zero_add]
        refine if_congr ?_ rfl rfl
        constructor
        · rintro ⟨hlo, hhi, hbit⟩
          exact ⟨by omega, by omega, hbit⟩
        · rintro ⟨hlo, hhi, hbit⟩
          exact ⟨by omega, by omega, hbit⟩

/-- Every call of the inner loop frees one page. -/
theorem order_freeBits : ∀ c ∈ freeBits left vec cur, c.order = 0 := by
  induction left generalizing vec cur with
  | zero =>
    intro c hc
    cases hc
  | succ left ih =>
    intro c hc
    unfold freeBits at hc
    split at hc
    · cases hc
    · rcases List.mem_append.mp hc with hc | hc
      · split at hc
        · rw [List.mem_singleton.mp hc]
        · cases hc
      · exact ih c hc

/-- A step reads inside of the bitmap, and finds the bits of its pages: all of them when it needs one
word, or when it is not in the last 64 pages; else those of the first word. -/
theorem bootmemVec_ok (hmin : minPfn ≤ start) (hstart : start < endPfn)
    (hwords : (endPfn - minPfn + 63) / 64 ≤ map.length) :
    ∃ vec, bootmemVec map minPfn endPfn start = .ok vec ∧ ∀ i < 64, vec.getLsbD i =
      (!reserved map (start - minPfn + i) && decide ((start - minPfn) % 64 = 0 ∨
        i < 64 - (start - minPfn) % 64 ∨ 64 ≤ endPfn - start)) := by
  have hfirst : (start - minPfn) / 64 < map.length := by omega
  obtain ⟨word, hword⟩ : ∃ word, map[(start - minPfn) / 64]? = some word :=
    ⟨_, List.getElem?_eq_getElem hfirst⟩
  have hin {i : Nat} (hi : (start - minPfn) % 64 + i < 64) :
      reserved map (start - minPfn + i) = word.getLsbD ((start - minPfn) % 64 + i) := by
    have hdiv : (start - minPfn + i) / 64 = (start - minPfn) / 64 := by omega
    have hmod : (start - minPfn + i) % 64 = (start - minPfn) % 64 + i := by omega
    rw [reserved_of_word (hdiv ▸ hword), hmod]
  have hread : readWord map ((start - minPfn) / 64) = .ok word := by rw [readWord, hword]
  unfold bootmemVec
  simp only [hread, ok_bind, pure_eq_ok]
  split
  · next hshift =>
    refine ⟨_, rfl, fun i hi => ?_⟩
    have hbit := hin (i := i) (by omega)
    rw [hbit, BitVec.getLsbD_not, decide_eq_true hi, hshift, Nat.zero_add]
    simp
  · next hshift =>
    have hlow {i : Nat} (hi : i < 64) : ((~~~word) >>> ((start - minPfn) % 64)).getLsbD i =
        (!reserved map (start - minPfn + i) && decide (i < 64 - (start - minPfn) % 64)) := by
      rw [BitVec.getLsbD_ushiftRight, BitVec.getLsbD_not]
      by_cases hfit : (start - minPfn) % 64 + i < 64
      · rw [hin hfit, decide_eq_true hfit, decide_eq_true (by omega)]
        simp
      · rw [decide_eq_false hfit, decide_eq_false (by omega)]
        simp
    split
    · next hfar =>
      have hsecond : (start - minPfn) / 64 + 1 < map.length := by omega
      obtain ⟨next, hnext⟩ : ∃ next, map[(start - minPfn) / 64 + 1]? = some next :=
        ⟨_, List.getElem?_eq_getElem hsecond⟩
      have hread' : readWord map ((start - minPfn) / 64 + 1) = .ok next := by rw [readWord, hnext]
      simp only [hread', ok_bind]
      refine ⟨_, rfl, fun i hi => ?_⟩
      rw [BitVec.getLsbD_or, hlow hi, BitVec.getLsbD_shiftLeft, decide_eq_true hi]
      by_cases hfit : i < 64 - (start - minPfn) % 64
      · simp [hfit]
      · have hdiv : (start - minPfn + i) / 64 = (start - minPfn) / 64 + 1 := by omega
        have hmod : (start - minPfn + i) % 64 = i - (64 - (start - minPfn) % 64) := by omega
        rw [reserved_of_word (hdiv ▸ hnext), hmod, BitVec.getLsbD_not,
          decide_eq_true (show i - (64 - (start - minPfn) % 64) < 64 by omega)]
        simp [hfit, show 64 ≤ endPfn - start from hfar]
    · next hnear =>
      refine ⟨_, rfl, fun i hi => ?_⟩
      rw [hlow hi]
      simp [hshift, show ¬64 ≤ endPfn - start from hnear]

/-! ## The loop -/

/-- The page is in the last step, which is not the first one, and its bit is in the second of the two
words that the step would need. -/
def InSecondWord (minPfn endPfn p : Nat) : Prop :=
  minPfn % 64 ≠ 0 ∧ minPfn < p / 64 * 64 ∧ endPfn < p / 64 * 64 + 64 ∧ minPfn % 64 ≤ p % 64

instance : Decidable (InSecondWord minPfn endPfn p) := by
  unfold InSecondWord
  infer_instance

/-- The pages that the calls free, counted. -/
def pagesFreed (calls : List FreeCall) : Nat := (calls.map fun c => 2 ^ c.order).sum

theorem pagesFreed_append (calls calls' : List FreeCall) :
    pagesFreed (calls ++ calls') = pagesFreed calls + pagesFreed calls' := by
  unfold pagesFreed
  rw [List.map_append, List.sum_append]

theorem pagesFreed_of_order_zero (h : ∀ c ∈ calls, c.order = 0) :
    pagesFreed calls = calls.length := by
  induction calls with
  | nil => rfl
  | cons c calls ih =>
    rw [List.forall_mem_cons] at h
    have hc : pagesFreed [c] = 1 := by
      show 2 ^ c.order + 0 = 1
      rw [h.1]
      rfl
    rw [← List.singleton_append, pagesFreed_append, hc, ih h.2, List.length_append]
    rfl

/-- A page that is to be freed, and whose bit the loop sees. -/
def Freed (map : List (BitVec 64)) (minPfn endPfn p : Nat) : Prop :=
  minPfn ≤ p ∧ reserved map (p - minPfn) = false ∧ ¬InSecondWord minPfn endPfn p

instance : Decidable (Freed map minPfn endPfn p) := by
  unfold Freed
  infer_instance

theorem Freed.lt (h : Freed map minPfn endPfn p)
    (hpast : ∀ i, endPfn - minPfn ≤ i → reserved map i = true) : p < endPfn := by
  obtain ⟨hmin, hfree, _⟩ := h
  by_contra hge
  rw [hpast (p - minPfn) (by omega)] at hfree
  cases hfree

/-- The pages of one step are those of its 64 that are to be freed and whose bit it sees. -/
theorem freed_iff_vec (hmin : minPfn ≤ start) (hplace : start = minPfn ∨ start % 64 = 0)
    (hpast : ∀ i, endPfn - minPfn ≤ i → reserved map i = true)
    (hvec : ∀ i < 64, vec.getLsbD i = (!reserved map (start - minPfn + i) && decide
      ((start - minPfn) % 64 = 0 ∨ i < 64 - (start - minPfn) % 64 ∨ 64 ≤ endPfn - start)))
    (hlo : start ≤ p) (hhi : p < alignLong (start + 1)) :
    vec.getLsbD (p - start) = true ↔ Freed map minPfn endPfn p := by
  unfold alignLong at hhi
  have hsub : start - minPfn + (p - start) = p - minPfn := by omega
  rw [hvec (p - start) (by omega), hsub, Bool.and_eq_true, Bool.not_eq_true', decide_eq_true_iff]
  unfold Freed InSecondWord
  constructor
  · rintro ⟨hfree, hseen⟩
    refine ⟨Nat.le_trans hmin hlo, hfree, ?_⟩
    omega
  · rintro ⟨_, hfree, hsecond⟩
    have hend : p < endPfn := Freed.lt ⟨Nat.le_trans hmin hlo, hfree, hsecond⟩ hpast
    refine ⟨hfree, ?_⟩
    omega

/-- What one step frees, whether it goes in one call or page by page. -/
theorem hits_step (hmin : minPfn ≤ start) (hplace : start = minPfn ∨ start % 64 = 0)
    (hpast : ∀ i, endPfn - minPfn ≤ i → reserved map i = true)
    (hvec : ∀ i < 64, vec.getLsbD i = (!reserved map (start - minPfn + i) && decide
      ((start - minPfn) % 64 = 0 ∨ i < 64 - (start - minPfn) % 64 ∨ 64 ≤ endPfn - start))) (p : Nat) :
    hits ((freeBits (alignLong (start + 1) - start) vec start).map FreeCall.extent) p =
      if start ≤ p ∧ p < alignLong (start + 1) ∧ Freed map minPfn endPfn p then 1 else 0 := by
  have hnext : start < alignLong (start + 1) ∧ alignLong (start + 1) ≤ start + 64 := by
    unfold alignLong
    omega
  rw [hits_freeBits (by omega), Nat.add_sub_cancel' (Nat.le_of_lt hnext.1)]
  refine if_congr ?_ rfl rfl
  constructor
  · rintro ⟨hlo, hhi, hbit⟩
    exact ⟨hlo, hhi, (freed_iff_vec hmin hplace hpast hvec hlo hhi).mp hbit⟩
  · rintro ⟨hlo, hhi, hfreed⟩
    exact ⟨hlo, hhi, (freed_iff_vec hmin hplace hpast hvec hlo hhi).mpr hfreed⟩

/-- From a step on, the loop ends without a read outside of the bitmap; it frees, once, exactly the pages
that are to be freed and whose bit it sees, and counts them. -/
theorem bootmemLoop_ok (count : Nat) (calls : List FreeCall)
    (hwords : (endPfn - minPfn + 63) / 64 ≤ map.length)
    (hpast : ∀ i, endPfn - minPfn ≤ i → reserved map i = true) (hmin : minPfn ≤ start)
    (hplace : start = minPfn ∨ start % 64 = 0) {n : Nat} (hn : endPfn - start ≤ n) :
    ∃ count' calls', (∀ fuel, n ≤ fuel → bootmemLoop map minPfn endPfn fuel start count calls =
        .ok (some (count', calls'))) ∧
      count' + pagesFreed calls = count + pagesFreed calls' ∧
      ∀ p, hits (calls'.map FreeCall.extent) p = hits (calls.map FreeCall.extent) p +
        if start ≤ p ∧ Freed map minPfn endPfn p then 1 else 0 := by
  have hdone {start : Nat} (hend : ¬start < endPfn) (p : Nat) :
      ¬(start ≤ p ∧ Freed map minPfn endPfn p) := fun h =>
    hend (Nat.lt_of_le_of_lt h.1 (h.2.lt hpast))
  have hstop {start : Nat} (hend : ¬start < endPfn) (fuel count : Nat) (calls : List FreeCall) :
      bootmemLoop map minPfn endPfn fuel start count calls = .ok (some (count, calls)) := by
    cases fuel <;> exact if_neg hend
  induction n generalizing start count calls with
  | zero =>
    have hend : ¬start < endPfn := by omega
    refine ⟨count, calls, fun fuel _ => hstop hend fuel count calls, rfl, fun p => ?_⟩
    rw [if_neg (hdone hend p), Nat.add_zero]
  | succ n ih =>
    by_cases hend : start < endPfn
    · obtain ⟨vec, hok, hvec⟩ := bootmemVec_ok hmin hend hwords
      have hnext : start < alignLong (start + 1) ∧ alignLong (start + 1) % 64 = 0 := by
        unfold alignLong
        omega
      have hstep := hits_step hmin hplace hpast hvec
      have hrest (count : Nat) (calls : List FreeCall) :=
        @ih (alignLong (start + 1)) count calls (by omega) (.inr hnext.2) (by omega)
      have hsplit (p : Nat) : (if start ≤ p ∧ Freed map minPfn endPfn p then 1 else 0) =
          (if start ≤ p ∧ p < alignLong (start + 1) ∧ Freed map minPfn endPfn p then 1 else 0) +
            if alignLong (start + 1) ≤ p ∧ Freed map minPfn endPfn p then 1 else 0 := by
        by_cases hfreed : Freed map minPfn endPfn p
        · simp only [hfreed, and_true]
          split_ifs <;> omega
        · simp only [hfreed, and_false, if_false]
      by_cases hfull : start % 64 = 0 ∧ vec = BitVec.allOnes 64
      · have halign : alignLong (start + 1) = start + 64 := by
          have hmul := hfull.1
          unfold alignLong
          omega
        obtain ⟨count', calls', hrun, hcount, hhits⟩ := hrest (count + 64) (calls ++ [⟨start, start, 6⟩])
        rw [halign] at hrun
        refine ⟨count', calls', fun fuel hfuel => ?_, ?_, fun p => ?_⟩
        · obtain ⟨f, rfl⟩ := Nat.exists_eq_add_of_le' (Nat.le_trans (Nat.le_add_left 1 n) hfuel)
          rw [bootmemLoop, if_pos hend, hok, ok_bind, if_pos hfull]
          exact hrun f (Nat.le_of_succ_le_succ hfuel)
        · have hone : pagesFreed [⟨start, start, 6⟩] = 64 := rfl
          rw [pagesFreed_append, hone] at hcount
          omega
        · have hblock : hits ([FreeCall.mk start start 6].map FreeCall.extent) p =
              if start ≤ p ∧ p < alignLong (start + 1) ∧ Freed map minPfn endPfn p then 1 else 0 := by
            show hits [⟨start, 2 ^ 6⟩] p = _
            rw [hits_single, halign]
            refine if_congr ?_ rfl rfl
            constructor
            · rintro ⟨hlo, hhi⟩
              have hlt : p < start + 64 := hhi
              refine ⟨hlo, hlt, (freed_iff_vec hmin hplace hpast hvec hlo (halign ▸ hlt)).mp ?_⟩
              rw [hfull.2, BitVec.getLsbD_allOnes, decide_eq_true_iff]
              omega
            · rintro ⟨hlo, hhi, _⟩
              exact ⟨hlo, hhi⟩
          rw [hhits, List.map_append, hits_append, hblock, hsplit p, Nat.add_assoc]
      · obtain ⟨count', calls', hrun, hcount, hhits⟩ := hrest
          (count + (freeBits (alignLong (start + 1) - start) vec start).length)
          (calls ++ freeBits (alignLong (start + 1) - start) vec start)
        refine ⟨count', calls', fun fuel hfuel => ?_, ?_, fun p => ?_⟩
        · obtain ⟨f, rfl⟩ := Nat.exists_eq_add_of_le' (Nat.le_trans (Nat.le_add_left 1 n) hfuel)
          rw [bootmemLoop, if_pos hend, hok, ok_bind, if_neg hfull]
          exact hrun f (Nat.le_of_succ_le_succ hfuel)
        · rw [pagesFreed_append, pagesFreed_of_order_zero order_freeBits] at hcount
          omega
        · rw [hhits, List.map_append, hits_append, hstep p, hsplit p, Nat.add_assoc]
    · refine ⟨count, calls, fun fuel _ => hstop hend fuel count calls, rfl, fun p => ?_⟩
      rw [if_neg (hdone hend p), Nat.add_zero]

/-! ## The hand-over -/

/-- A node whose bitmap has a bit for each page, and whose bits past the last page are set. -/
structure BootmemData.WellFormed (b : BootmemData) (map : List (BitVec 64)) : Prop where
  hasMap : b.nodeBootmemMap = some map
  min_le : b.nodeMinPfn ≤ b.nodeLowPfn
  words : (b.nodeLowPfn - b.nodeMinPfn + 63) / 64 = map.length
  past : ∀ i, b.nodeLowPfn - b.nodeMinPfn ≤ i → reserved map i = true

/-- The page is one of the node and its bit is clear. -/
def BootmemData.Clear (b : BootmemData) (map : List (BitVec 64)) (p : Nat) : Prop :=
  b.nodeMinPfn ≤ p ∧ p < b.nodeLowPfn ∧ reserved map (p - b.nodeMinPfn) = false

instance (b : BootmemData) (map : List (BitVec 64)) (p : Nat) : Decidable (b.Clear map p) := by
  unfold BootmemData.Clear
  infer_instance

/-- What the hand-over is for: it ends, frees every page whose bit is clear once and no other one, and
returns the number of pages that it has freed, those of the bitmap among them. -/
def HandsOver (mapPage : Nat) (bootmapPages : Nat → Nat) (b : BootmemData)
    (map : List (BitVec 64)) : Prop :=
  ∃ h, (∀ fuel, b.nodeLowPfn - b.nodeMinPfn ≤ fuel →
      freeAllBootmemCore mapPage bootmapPages fuel b = .ok (some h)) ∧
    (∀ p, hits (h.freed.map FreeCall.extent) p = if b.Clear map p then 1 else 0) ∧
    h.count = pagesFreed h.freed + pagesFreed h.own

/-- Every page whose bit is clear is one whose bit the loop sees. -/
def NoneInSecondWord (b : BootmemData) (map : List (BitVec 64)) : Prop :=
  ∀ p, b.Clear map p → ¬InSecondWord b.nodeMinPfn b.nodeLowPfn p

/-- The hand-over always ends, without a read outside of the bitmap, and returns what it has freed. It
frees the pages whose bit is clear, but for those in the second word of the last step. -/
theorem freeAllBootmemCore_ok {b : BootmemData} (h : b.WellFormed map) (mapPage : Nat)
    (bootmapPages : Nat → Nat) : ∃ r, (∀ fuel, b.nodeLowPfn - b.nodeMinPfn ≤ fuel →
      freeAllBootmemCore mapPage bootmapPages fuel b = .ok (some r)) ∧
    (∀ p, hits (r.freed.map FreeCall.extent) p =
      if b.Clear map p ∧ ¬InSecondWord b.nodeMinPfn b.nodeLowPfn p then 1 else 0) ∧
    r.count = pagesFreed r.freed + pagesFreed r.own := by
  obtain ⟨count, calls, hrun, hcount, hhits⟩ := bootmemLoop_ok 0 []
    (Nat.le_of_eq h.words) h.past (Nat.le_refl b.nodeMinPfn) (.inl rfl) (Nat.le_refl _)
  have hown (pages : Nat) : pagesFreed ((List.range pages).map fun i =>
      FreeCall.mk (mapPage + i) (b.nodeMinPfn + i) 0) = pages := by
    rw [pagesFreed_of_order_zero, List.length_map, List.length_range]
    intro c hc
    obtain ⟨i, _, rfl⟩ := List.mem_map.mp hc
    rfl
  refine ⟨⟨count + bootmapPages (b.nodeLowPfn - b.nodeMinPfn), calls,
    (List.range (bootmapPages (b.nodeLowPfn - b.nodeMinPfn))).map fun i =>
      ⟨mapPage + i, b.nodeMinPfn + i, 0⟩, { b with nodeBootmemMap := none }⟩,
    fun fuel hfuel => ?_, fun p => ?_, ?_⟩
  · simp only [freeAllBootmemCore, h.hasMap, hrun fuel hfuel, ok_bind, pure_eq_ok]
  · rw [hhits p]
    show 0 + _ = _
    rw [Nat.zero_add]
    refine if_congr ?_ rfl rfl
    constructor
    · rintro ⟨hlo, hfreed⟩
      exact ⟨⟨hlo, hfreed.lt h.past, hfreed.2.1⟩, hfreed.2.2⟩
    · rintro ⟨⟨hlo, _, hfree⟩, hsecond⟩
      exact ⟨hlo, hlo, hfree, hsecond⟩
  · show count + _ = pagesFreed calls + _
    have hzero : pagesFreed [] = 0 := rfl
    rw [hown]
    omega

/-- The hand-over does what it is for exactly when no page that is to be freed has its bit in the second
word of the last step. -/
theorem freeAllBootmemCore_handsOver_iff (b : BootmemData) (map : List (BitVec 64))
    (h : b.WellFormed map) (mapPage : Nat) (bootmapPages : Nat → Nat) :
    HandsOver mapPage bootmapPages b map ↔ NoneInSecondWord b map := by
  obtain ⟨r, hrun, hhits, hcount⟩ := freeAllBootmemCore_ok h mapPage bootmapPages
  constructor
  · rintro ⟨r', hrun', hhits', _⟩ p hclear hsecond
    have hsame : r' = r := by
      have heq := (hrun' _ (Nat.le_refl _)).symm.trans (hrun _ (Nat.le_refl _))
      exact Option.some.inj (Except.ok.inj heq)
    subst hsame
    have hone := (hhits' p).symm.trans (hhits p)
    rw [if_pos hclear, if_neg fun hseen => hseen.2 hsecond] at hone
    cases hone
  · intro hnone
    refine ⟨r, hrun, fun p => ?_, hcount⟩
    rw [hhits p]
    refine if_congr ?_ rfl rfl
    exact ⟨fun hseen => hseen.1, fun hclear => ⟨hclear, hnone p hclear⟩⟩

/-- Bits past the last word count as set, so that only those of the words need a look. -/
theorem past_of_words {n : Nat} (h : ∀ i < map.length * 64, n ≤ i → reserved map i = true) (i : Nat)
    (hi : n ≤ i) : reserved map i = true := by
  rcases Nat.lt_or_ge i (map.length * 64) with hlt | hge
  · exact h i hlt hi
  · have hnone : map[i / 64]? = none := List.getElem?_eq_none (by omega)
    rw [reserved, hnone]

/-- A node that begins at a multiple of 64, with the pages 64 to 67 and 128 clear. -/
def alignedNode : BootmemData := ⟨some [0xFFFFFFFFFFFFFFF0#64, 0xFFFFFFFFFFFFFFFE#64], 64, 129⟩

theorem freeAllBootmemCore_handsOver_iff_alignedNode :
    HandsOver 7 (fun _ => 1) alignedNode [0xFFFFFFFFFFFFFFF0#64, 0xFFFFFFFFFFFFFFFE#64] := by
  refine (freeAllBootmemCore_handsOver_iff alignedNode _
    ⟨rfl, by decide, rfl, past_of_words (by decide)⟩ 7 fun _ => 1).mpr fun p _ hsecond => ?_
  exact hsecond.1 rfl

/-- A node that begins at page 1 and ends with page 65, the only one whose bit is clear. -/
def unalignedNode : BootmemData := ⟨some [0xFFFFFFFFFFFFFFFF#64, 0xFFFFFFFFFFFFFFFE#64], 1, 66⟩

/-- The step from page 64 on needs bit 63 of the first word and bit 0 of the second, for page 65. There
are less than 64 pages left, so the second word is not read: page 65 is never freed. -/
theorem freeAllBootmemCore_unalignedNode :
    unalignedNode.WellFormed [0xFFFFFFFFFFFFFFFF#64, 0xFFFFFFFFFFFFFFFE#64] ∧
    unalignedNode.Clear [0xFFFFFFFFFFFFFFFF#64, 0xFFFFFFFFFFFFFFFE#64] 65 ∧
    ¬HandsOver 7 (fun _ => 1) unalignedNode [0xFFFFFFFFFFFFFFFF#64, 0xFFFFFFFFFFFFFFFE#64] := by
  refine ⟨⟨rfl, by decide, rfl, past_of_words (by decide)⟩, by decide, ?_⟩
  rintro ⟨r, hrun, hhits, _⟩
  have hnothing : freeAllBootmemCore 7 (fun _ => 1) 65 unalignedNode =
      .ok (some ⟨1, [], [⟨7, 1, 0⟩], ⟨none, 1, 66⟩⟩) := by decide
  have hr := Option.some.inj (Except.ok.inj ((hrun 65 (by decide)).symm.trans hnothing))
  have hone := hhits 65
  rw [hr, if_pos (by decide)] at hone
  cases hone

end Rtfsc.Linux
