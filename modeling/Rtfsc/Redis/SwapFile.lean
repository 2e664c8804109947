import Rtfsc.Machine.Outcome
import Mathlib.Data.Finset.Card
import Mathlib.Data.Nat.Bitwise
import Mathlib.Order.Interval.Finset.Nat

/-!
# redis: the pages of the swap file

`vm.c`: the bitmap of used pages with its counter, and the search for contiguous free pages. A page
is a bit of a byte of `vm_bitmap`.
-/

namespace Rtfsc.Redis

open Rtfsc.Machine

/-- Why the process, or a step of it, does not go on. -/
inductive Stop
  /-- The step cannot be taken now: the thread waits, or the allocator returns no address in use. -/
  | disabled
  /-- A pointer to freed memory, or to something of another kind. -/
  | badPointer
  /-- A pointer to a freed I/O job. -/
  | freedJob
  /-- A list that has been released is read. -/
  | freedList
  /-- `redisPanic` of `decrRefCount`. -/
  | refcount
  /-- Calls nested deeper than the model follows. -/
  | tooDeep
  /-- The assert of `vmMarkPageUsed`. -/
  | pageInUse
  /-- The assert of `vmMarkPageFree`. -/
  | pageNotInUse
  /-- An assert about the storage or the count of the object a function is called with. -/
  | wrongStorage
  /-- `redisAssert(1 != 1)` of `vmCancelThreadedIOJob`. -/
  | jobNotFound
  /-- The assert on `io_processed`. -/
  | noProcessedJob
  /-- The assert on `de` in `vmThreadedIOCompletedJob`. -/
  | noEntry
  /-- The assert on the storage of the value that has been written. -/
  | notSwapping
  /-- An assert of `dontWaitForSwappedKey`. -/
  | notWaiting
deriving DecidableEq, Repr

/-- `vm_pages`, `vm_bitmap`, `vm_next_page`, `vm_near_pages` and `vm_stats_used_pages`. -/
structure SwapFile where
  pages : Nat
  bitmap : Nat → UInt8
  nextPage : Nat
  nearPages : Nat
  usedPages : Int

namespace SwapFile

/-- `1 << (page & 7)`. -/
def pageMask (page : Nat) : UInt8 := 1 <<< UInt8.ofNat (page % 8)

variable (f : SwapFile)

/-- `vmFreePage`. -/
def vmFreePage (page : Nat) : Bool := f.bitmap (page / 8) &&& pageMask page == 0

/-- `vmMarkPageUsed`. -/
def vmMarkPageUsed (page : Nat) : Except Stop SwapFile := do
  check (f.vmFreePage page = true) .pageInUse
  return { f with
    bitmap := Function.update f.bitmap (page / 8) (f.bitmap (page / 8) ||| pageMask page) }

/-- `vmMarkPageFree`. -/
def vmMarkPageFree (page : Nat) : Except Stop SwapFile := do
  check (f.vmFreePage page = false) .pageNotInUse
  return { f with
    bitmap := Function.update f.bitmap (page / 8) (f.bitmap (page / 8) &&& ~~~ pageMask page) }

/-- The loop of `vmMarkPagesUsed` and `vmMarkPagesFree`: `count` pages from `page` on. -/
def markPages (mark : SwapFile → Nat → Except Stop SwapFile) :
    Nat → SwapFile → Nat → Except Stop SwapFile
  | 0, f, _ => return f
  | count + 1, f, page => do
    let f ← mark f page
    markPages mark count f (page + 1)

/-- `vmMarkPagesUsed`. -/
def vmMarkPagesUsed (page count : Nat) : Except Stop SwapFile := do
  let f ← markPages vmMarkPageUsed count f page
  return { f with usedPages := f.usedPages + count }

/-- `vmMarkPagesFree`. -/
def vmMarkPagesFree (page count : Nat) : Except Stop SwapFile := do
  let f ← markPages vmMarkPageFree count f page
  return { f with usedPages := f.usedPages - count }

/-- `REDIS_VM_MAX_NEAR_PAGES`. -/
def maxNearPages : Nat := 65536

/-- `REDIS_VM_MAX_RANDOM_JUMP`. -/
def maxRandomJump : Nat := 4096

/-- The search loop of `vmFindContiguousPages`: the page it ends at, the last one of the `n`. Every
second iteration at the latest moves `offset` on, so `2 * vm_pages` of them are enough. -/
def findLoop (n base : Nat) (random : Nat → Nat) :
    (fuel offset sinceJump numfree draws : Nat) → Option Nat
  | 0, _, _, _, _ => none
  | fuel + 1, offset, sinceJump, numfree, draws =>
    if offset < f.pages then
      let page := base + offset
      -- past the last page the search restarts from page zero
      let numfree := if page ≥ f.pages ∧ page - f.pages = 0 then 0 else numfree
      let page := if page ≥ f.pages then page - f.pages else page
      if f.vmFreePage page = true ∧ numfree + 1 = n then some page
      else
        let numfree := if f.vmFreePage page = true then numfree + 1 else 0
        if numfree = 0 ∧ sinceJump + 1 ≥ maxRandomJump / 4 then
          findLoop n base random fuel (offset + random draws % maxRandomJump) 0 numfree (draws + 1)
        else findLoop n base random fuel (offset + 1) (sinceJump + 1) numfree draws
    else none

/-- `vmFindContiguousPages`: the first of `n` free pages, or `none` for `REDIS_ERR`. -/
def vmFindContiguousPages (n : Nat) (random : Nat → Nat) : Option Nat × SwapFile :=
  let f := if f.nearPages = maxNearPages then { f with nearPages := 0, nextPage := 0 } else f
  let f := { f with nearPages := f.nearPages + 1 }
  match findLoop f n f.nextPage random (2 * f.pages + 2) 0 0 0 0 with
  | some page => (some (page - (n - 1)), { f with nextPage := page + 1 })
  | none => (none, f)

/-! ## Bits -/

/-- The page is one of `count` pages from `first` on. -/
def Covers (first count page : Nat) : Prop := first ≤ page ∧ page < first + count

instance (first count page : Nat) : Decidable (Covers first count page) :=
  inferInstanceAs (Decidable (_ ∧ _))

theorem testBit_pageMask (page i : Nat) : (pageMask page).toNat.testBit i = decide (page % 8 = i) := by
  have hlt : page % 8 < 8 := Nat.mod_lt _ (by decide)
  have hbit : (UInt8.ofNat (page % 8)).toNat = page % 8 := UInt8.toNat_ofNat_of_lt' (by
    show page % 8 < 256
    omega)
  have hpow : 2 ^ (page % 8) < 2 ^ 8 := Nat.pow_lt_pow_right (by decide) hlt
  have hmask : (pageMask page).toNat = 2 ^ (page % 8) := by
    rw [pageMask, UInt8.toNat_shiftLeft, hbit, Nat.mod_eq_of_lt hlt, UInt8.toNat_one,
      Nat.shiftLeft_eq, Nat.one_mul]
    exact Nat.mod_eq_of_lt hpow
  rw [hmask, Nat.testBit_two_pow]

/-- A page is free when its bit is clear. -/
theorem vmFreePage_eq (page : Nat) :
    f.vmFreePage page = !(f.bitmap (page / 8)).toNat.testBit (page % 8) := by
  have h : f.bitmap (page / 8) &&& pageMask page = 0 ↔
      (f.bitmap (page / 8)).toNat.testBit (page % 8) = false := by
    rw [← UInt8.toNat_inj, UInt8.toNat_and, UInt8.toNat_zero]
    constructor
    · intro h0
      have hb := congrArg (fun n => n.testBit (page % 8)) h0
      simpa [Nat.testBit_and, testBit_pageMask] using hb
    · intro hb
      apply Nat.eq_of_testBit_eq
      intro i
      rw [Nat.testBit_and, testBit_pageMask, Nat.zero_testBit]
      by_cases hi : page % 8 = i
      · subst hi
        rw [hb, Bool.false_and]
      · rw [decide_eq_false hi, Bool.and_false]
  rw [vmFreePage, Bool.eq_iff_iff, beq_iff_eq, h, Bool.not_eq_true']

/-- Setting a page's bit in its byte changes that page alone. -/
theorem vmFreePage_update {page p : Nat} {b : UInt8} {v : Bool}
    (hb : ∀ i, i < 8 → b.toNat.testBit i =
      if page % 8 = i then v else (f.bitmap (page / 8)).toNat.testBit i) :
    vmFreePage { f with bitmap := Function.update f.bitmap (page / 8) b } p =
      if p = page then !v else f.vmFreePage p := by
  rw [vmFreePage_eq, vmFreePage_eq]
  dsimp only
  by_cases hbyte : p / 8 = page / 8
  · rw [hbyte, Function.update_self, hb _ (Nat.mod_lt _ (by decide))]
    by_cases hp : p = page
    · subst hp
      rw [if_pos rfl, if_pos rfl]
    · have hne : page % 8 ≠ p % 8 := by omega
      rw [if_neg hp, if_neg hne]
  · have hp : p ≠ page := by
      rintro rfl
      exact hbyte rfl
    rw [Function.update_of_ne hbyte, if_neg hp]

/-- The pages whose bit is set. -/
def Used (p : Nat) : Prop := f.vmFreePage p = false

instance (p : Nat) : Decidable (f.Used p) := inferInstanceAs (Decidable (_ = false))

/-- Two swap files that differ in the bitmap and the counter at most. -/
structure SameLayout (f f' : SwapFile) : Prop where
  pages : f'.pages = f.pages
  nextPage : f'.nextPage = f.nextPage
  nearPages : f'.nearPages = f.nearPages

variable {f}

theorem vmMarkPageUsed_eq {page : Nat} (h : f.vmFreePage page = true) :
    ∃ f', f.vmMarkPageUsed page = .ok f' ∧ (∀ p, f'.Used p ↔ p = page ∨ f.Used p) ∧
      f'.usedPages = f.usedPages ∧ f.SameLayout f' := by
  refine ⟨{ f with bitmap :=
    Function.update f.bitmap (page / 8) (f.bitmap (page / 8) ||| pageMask page) }, ?_, ?_, rfl,
    rfl, rfl, rfl⟩
  · rw [vmMarkPageUsed, check_pos h]
    rfl
  · intro p
    unfold Used
    rw [vmFreePage_update f (v := true)]
    · split
      · next hp => simp [hp]
      · next hp => simp [hp]
    · intro i _
      rw [UInt8.toNat_or, Nat.testBit_or, testBit_pageMask]
      split
      · next hi => simp [hi]
      · next hi => simp [hi]

theorem vmMarkPageFree_eq {page : Nat} (h : f.vmFreePage page = false) :
    ∃ f', f.vmMarkPageFree page = .ok f' ∧ (∀ p, f'.Used p ↔ p ≠ page ∧ f.Used p) ∧
      f'.usedPages = f.usedPages ∧ f.SameLayout f' := by
  refine ⟨{ f with bitmap :=
    Function.update f.bitmap (page / 8) (f.bitmap (page / 8) &&& ~~~ pageMask page) }, ?_, ?_, rfl,
    rfl, rfl, rfl⟩
  · rw [vmMarkPageFree, check_pos h]
    rfl
  · intro p
    unfold Used
    rw [vmFreePage_update f (v := false)]
    · split
      · next hp => simp [hp]
      · next hp => simp [hp]
    · intro i hi
      have hnot : (~~~ pageMask page).toNat.testBit i = !decide (page % 8 = i) := by
        have hsize : (~~~ pageMask page).toNat = 2 ^ 8 - ((pageMask page).toNat + 1) := by
          rw [UInt8.toNat_not]
          show 256 - 1 - _ = _
          omega
        rw [hsize, Nat.testBit_two_pow_sub_succ (UInt8.toNat_lt _), testBit_pageMask,
          decide_eq_true hi, Bool.true_and]
      rw [UInt8.toNat_and, Nat.testBit_and, hnot]
      split
      · next hp => simp [hp]
      · next hp => simp [hp]

theorem SameLayout.trans {f₁ f₂ f₃ : SwapFile} (h : SameLayout f₁ f₂) (h' : SameLayout f₂ f₃) :
    SameLayout f₁ f₃ :=
  ⟨h'.pages.trans h.pages, h'.nextPage.trans h.nextPage, h'.nearPages.trans h.nearPages⟩

theorem covers_zero (first p : Nat) : ¬ Covers first 0 p := by
  rintro ⟨hle, hlt⟩
  omega

theorem covers_succ (first count p : Nat) :
    Covers first (count + 1) p ↔ p = first ∨ Covers (first + 1) count p := by
  unfold Covers
  omega

/-- `vmMarkPagesUsed` adds free pages, or stops at one that is in use. -/
theorem vmMarkPagesUsed_ends (f : SwapFile) (page count : Nat) :
    Ends (fun e => e = .pageInUse ∧ ∃ p, Covers page count p ∧ f.Used p)
      (fun f' => (∀ p, Covers page count p → ¬ f.Used p) ∧
        (∀ p, f'.Used p ↔ Covers page count p ∨ f.Used p) ∧
        f'.usedPages = f.usedPages + count ∧ f.SameLayout f') (f.vmMarkPagesUsed page count) := by
  have hloop : ∀ (count : Nat) (f : SwapFile) (page : Nat),
      Ends (fun e => e = .pageInUse ∧ ∃ p, Covers page count p ∧ f.Used p)
        (fun f' => (∀ p, Covers page count p → ¬ f.Used p) ∧
          (∀ p, f'.Used p ↔ Covers page count p ∨ f.Used p) ∧
          f'.usedPages = f.usedPages ∧ f.SameLayout f') (markPages vmMarkPageUsed count f page) := by
    intro count
    induction count with
    | zero =>
      intro f page
      refine Ends.pure ⟨fun p hp => absurd hp (covers_zero page p), fun p => ?_, rfl, rfl, rfl, rfl⟩
      exact ⟨.inr, fun h => h.resolve_left (covers_zero page p)⟩
    | succ count ih =>
      intro f page
      rw [markPages]
      cases hfree : f.vmFreePage page with
      | false =>
        have hstop : f.vmMarkPageUsed page = .error .pageInUse := by
          rw [vmMarkPageUsed, hfree]
          rfl
        rw [hstop]
        exact ⟨rfl, page, (covers_succ page count page).mpr (.inl rfl), hfree⟩
      | true =>
        obtain ⟨f₁, hf₁, hused, hcount, hlayout⟩ := vmMarkPageUsed_eq hfree
        have hpage : ¬ f.Used page := by
          unfold Used
          rw [hfree]
          exact Bool.noConfusion
        rw [hf₁]
        refine (ih f₁ (page + 1)).mono ?_ ?_
        · rintro f' ⟨hclear, hused', hcount', hlayout'⟩
          refine ⟨fun p hp => ?_, fun p => ?_, hcount'.trans hcount, hlayout.trans hlayout'⟩
          · rcases (covers_succ page count p).mp hp with rfl | hp
            · exact hpage
            · exact fun hu => hclear p hp ((hused p).mpr (.inr hu))
          · rw [hused', hused, covers_succ]
            tauto
        · rintro e ⟨he, p, hp, hu⟩
          refine ⟨he, p, (covers_succ page count p).mpr (.inr hp), ?_⟩
          rcases (hused p).mp hu with rfl | hu
          · exact absurd hp.1 (by omega)
          · exact hu
  refine (hloop count f page).bind ?_
  rintro f' - ⟨hclear, hused, hcount, hlayout⟩
  exact Ends.pure ⟨hclear, hused, by rw [← hcount], hlayout.1, hlayout.2, hlayout.3⟩

/-- `vmMarkPagesFree` takes used pages away, or stops at one that is free. -/
theorem vmMarkPagesFree_ends (f : SwapFile) (page count : Nat) :
    Ends (fun e => e = .pageNotInUse ∧ ∃ p, Covers page count p ∧ ¬ f.Used p)
      (fun f' => (∀ p, Covers page count p → f.Used p) ∧
        (∀ p, f'.Used p ↔ ¬ Covers page count p ∧ f.Used p) ∧
        f'.usedPages = f.usedPages - count ∧ f.SameLayout f') (f.vmMarkPagesFree page count) := by
  have hloop : ∀ (count : Nat) (f : SwapFile) (page : Nat),
      Ends (fun e => e = .pageNotInUse ∧ ∃ p, Covers page count p ∧ ¬ f.Used p)
        (fun f' => (∀ p, Covers page count p → f.Used p) ∧
          (∀ p, f'.Used p ↔ ¬ Covers page count p ∧ f.Used p) ∧
          f'.usedPages = f.usedPages ∧ f.SameLayout f') (markPages vmMarkPageFree count f page) := by
    intro count
    induction count with
    | zero =>
      intro f page
      refine Ends.pure ⟨fun p hp => absurd hp (covers_zero page p), fun p => ?_, rfl, rfl, rfl, rfl⟩
      exact ⟨fun h => ⟨covers_zero page p, h⟩, And.right⟩
    | succ count ih =>
      intro f page
      rw [markPages]
      cases hfree : f.vmFreePage page with
      | true =>
        have hstop : f.vmMarkPageFree page = .error .pageNotInUse := by
          rw [vmMarkPageFree, hfree]
          rfl
        rw [hstop]
        refine ⟨rfl, page, (covers_succ page count page).mpr (.inl rfl), ?_⟩
        unfold Used
        rw [hfree]
        exact Bool.noConfusion
      | false =>
        obtain ⟨f₁, hf₁, hused, hcount, hlayout⟩ := vmMarkPageFree_eq hfree
        rw [hf₁]
        refine (ih f₁ (page + 1)).mono ?_ ?_
        · rintro f' ⟨hin, hused', hcount', hlayout'⟩
          refine ⟨fun p hp => ?_, fun p => ?_, hcount'.trans hcount, hlayout.trans hlayout'⟩
          · rcases (covers_succ page count p).mp hp with rfl | hp
            · exact hfree
            · exact ((hused p).mp (hin p hp)).2
          · rw [hused', hused, covers_succ]
            tauto
        · rintro e ⟨he, p, hp, hu⟩
          refine ⟨he, p, (covers_succ page count p).mpr (.inr hp), fun hu' => hu ?_⟩
          refine (hused p).mpr ⟨?_, hu'⟩
          rintro rfl
          exact absurd hp.1 (by omega)
  refine (hloop count f page).bind ?_
  rintro f' - ⟨hin, hused, hcount, hlayout⟩
  exact Ends.pure ⟨hin, hused, by rw [← hcount], hlayout.1, hlayout.2, hlayout.3⟩

/-- `vm_stats_used_pages` is the number of used pages. -/
def Tallied (f : SwapFile) : Prop :=
  ∃ s : Finset Nat, (∀ p, p ∈ s ↔ f.Used p) ∧ f.usedPages = s.card

theorem Tallied.used {f f' : SwapFile} {page count : Nat} (h : f.Tallied)
    (hclear : ∀ p, Covers page count p → ¬ f.Used p)
    (hused : ∀ p, f'.Used p ↔ Covers page count p ∨ f.Used p)
    (hcount : f'.usedPages = f.usedPages + count) : f'.Tallied := by
  obtain ⟨s, hs, hcard⟩ := h
  have hdisj : Disjoint (Finset.Ico page (page + count)) s := by
    rw [Finset.disjoint_left]
    intro p hp hps
    exact hclear p (Finset.mem_Ico.mp hp) ((hs p).mp hps)
  refine ⟨Finset.Ico page (page + count) ∪ s, fun p => ?_, ?_⟩
  · rw [Finset.mem_union, Finset.mem_Ico, hs, hused]
    exact Iff.rfl
  · rw [Finset.card_union_of_disjoint hdisj, Nat.card_Ico, hcount, hcard]
    omega

theorem Tallied.freed {f f' : SwapFile} {page count : Nat} (h : f.Tallied)
    (hin : ∀ p, Covers page count p → f.Used p)
    (hused : ∀ p, f'.Used p ↔ ¬ Covers page count p ∧ f.Used p)
    (hcount : f'.usedPages = f.usedPages - count) : f'.Tallied := by
  obtain ⟨s, hs, hcard⟩ := h
  have hsub : Finset.Ico page (page + count) ⊆ s := fun p hp =>
    (hs p).mpr (hin p (Finset.mem_Ico.mp hp))
  refine ⟨s \ Finset.Ico page (page + count), fun p => ?_, ?_⟩
  · rw [Finset.mem_sdiff, Finset.mem_Ico, hs, hused]
    exact and_comm
  · have hle := Finset.card_le_card hsub
    rw [Finset.card_sdiff_of_subset hsub, hcount, hcard]
    rw [Nat.card_Ico] at hle ⊢
    omega

/-! ## The search -/

/-- The page at the search position `pos`, which runs on past the last page. -/
def wrap (f : SwapFile) (pos : Nat) : Nat := if pos ≥ f.pages then pos - f.pages else pos

/-- The `numfree` pages in front of the search position are free. At the position where the search
wraps there is nothing in front of it. -/
def Behind (f : SwapFile) (pos numfree : Nat) : Prop :=
  pos ≠ f.pages → numfree ≤ f.wrap pos ∧ ∀ i < numfree, f.vmFreePage (f.wrap pos - 1 - i) = true

theorem Behind.zero (f : SwapFile) (pos : Nat) : Behind f pos 0 :=
  fun _ => ⟨Nat.zero_le _, fun _ h => absurd h (Nat.not_lt_zero _)⟩

/-- One more free page. -/
theorem Behind.succ {f : SwapFile} {pos numfree : Nat} (h : numfree ≤ f.wrap pos ∧
    ∀ i < numfree, f.vmFreePage (f.wrap pos - 1 - i) = true)
    (hfree : f.vmFreePage (f.wrap pos) = true) : Behind f (pos + 1) (numfree + 1) := by
  intro hpos
  have hwrap : f.wrap (pos + 1) = f.wrap pos + 1 := by
    unfold wrap
    split
    · next hge => split <;> omega
    · next hge => rw [if_neg (by omega)]
  rw [hwrap]
  refine ⟨by omega, fun i hi => ?_⟩
  rcases i with _ | i
  · exact hfree
  · have hi' := h.2 i (by omega)
    have hpage : f.wrap pos + 1 - 1 - (i + 1) = f.wrap pos - 1 - i := by omega
    rw [hpage]
    exact hi'

/-- What the search finds ends `n` free pages. -/
theorem findLoop_free {f : SwapFile} {n base : Nat} {random : Nat → Nat} (hbase : base ≤ f.pages)
    {fuel offset sinceJump numfree draws page : Nat} (hb : Behind f (base + offset) numfree)
    (h : findLoop f n base random fuel offset sinceJump numfree draws = some page) :
    page < f.pages ∧ n ≤ page + 1 ∧ 0 < n ∧ ∀ i < n, f.vmFreePage (page - i) = true := by
  induction fuel generalizing offset sinceJump numfree draws with
  | zero => cases h
  | succ fuel ih =>
    rw [findLoop] at h
    split at h
    swap
    · cases h
    next hoffset =>
    -- the pages in front of this one, once the count is reset at page zero
    obtain ⟨m, hm, hbehind⟩ : ∃ m, (if base + offset ≥ f.pages ∧ base + offset - f.pages = 0 then 0
        else numfree) = m ∧ m ≤ f.wrap (base + offset) ∧
        ∀ i < m, f.vmFreePage (f.wrap (base + offset) - 1 - i) = true := by
      refine ⟨_, rfl, ?_⟩
      by_cases hzero : base + offset ≥ f.pages ∧ base + offset - f.pages = 0
      · rw [if_pos hzero]
        exact ⟨Nat.zero_le _, fun _ hi => absurd hi (Nat.not_lt_zero _)⟩
      · rw [if_neg hzero]
        exact hb (by omega)
    have hwrap : (if base + offset ≥ f.pages then base + offset - f.pages else base + offset) =
        f.wrap (base + offset) := rfl
    dsimp only at h
    rw [hm, hwrap] at h
    have hlt : f.wrap (base + offset) < f.pages := by
      unfold wrap
      split <;> omega
    split at h
    · next hfound =>
      cases h
      refine ⟨hlt, by omega, by omega, fun i hi => ?_⟩
      rcases i with _ | i
      · exact hfound.1
      · have hi' := hbehind.2 i (by omega)
        have hpage : f.wrap (base + offset) - (i + 1) = f.wrap (base + offset) - 1 - i := by omega
        rw [hpage]
        exact hi'
    · have hnext : Behind f (base + (offset + 1))
          (if f.vmFreePage (f.wrap (base + offset)) = true then m + 1 else 0) := by
        split
        · next hfree => exact Behind.succ hbehind hfree
        · exact Behind.zero f _
      generalize (if f.vmFreePage (f.wrap (base + offset)) = true then m + 1 else 0) = m' at h hnext
      split at h
      · next hjump =>
        rw [hjump.1] at h
        exact ih (Behind.zero f _) h
      · exact ih hnext h

/-- `vmFindContiguousPages` returns pages that are all free and leaves the bitmap alone. -/
theorem vmFindContiguousPages_spec {f : SwapFile} {n : Nat} {random : Nat → Nat}
    (hnext : f.nextPage ≤ f.pages) {r : Option Nat} {f' : SwapFile}
    (h : f.vmFindContiguousPages n random = (r, f')) :
    f'.pages = f.pages ∧ f'.bitmap = f.bitmap ∧ f'.usedPages = f.usedPages ∧
      f'.nextPage ≤ f'.pages ∧
      ∀ first, r = some first → ∀ p, Covers first n p → ¬ f.Used p := by
  unfold vmFindContiguousPages at h
  generalize hf₀ : (if f.nearPages = maxNearPages then { f with nearPages := 0, nextPage := 0 }
    else f) = f₀ at h
  have h₀ : f₀.pages = f.pages ∧ f₀.bitmap = f.bitmap ∧ f₀.usedPages = f.usedPages ∧
      f₀.nextPage ≤ f₀.pages := by
    rw [← hf₀]
    split
    · exact ⟨rfl, rfl, rfl, Nat.zero_le _⟩
    · exact ⟨rfl, rfl, rfl, hnext⟩
  obtain ⟨hpages, hbitmap, hused, hle⟩ := h₀
  dsimp only at h
  split at h
  · next page hfind =>
    cases h
    obtain ⟨hlt, hn, hpos, hfree⟩ :=
      findLoop_free (f := { f₀ with nearPages := f₀.nearPages + 1 }) hle (Behind.zero _ _) hfind
    refine ⟨hpages, hbitmap, hused, hlt, fun first hfirst p hp hu => ?_⟩
    cases hfirst
    have hcover : page - (n - 1) ≤ p ∧ p < page - (n - 1) + n := hp
    have hi := hfree (page - p) (by omega)
    have hp' : page - (page - p) = p := by omega
    rw [hp'] at hi
    have hf : f.vmFreePage p = true := by
      unfold vmFreePage at hi ⊢
      rw [← hbitmap]
      exact hi
    unfold Used at hu
    rw [hf] at hu
    exact Bool.noConfusion hu
  · cases h
    exact ⟨hpages, hbitmap, hused, hle, fun first hfirst => nomatch hfirst⟩

end SwapFile

end Rtfsc.Redis
