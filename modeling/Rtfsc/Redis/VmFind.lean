import Rtfsc.Redis.SwapFile
import Mathlib.Logic.Relation

/-!
# redis: the search for free pages

The loop of `vmFindContiguousPages` one iteration after the other. A jump may be of length zero, and then
the next iteration tests the same page again; two jumps never follow each other.
-/

namespace Rtfsc.Redis.SwapFile

/-- The variables of the loop. `draws` is how often `random` has been called. -/
structure Scan where
  offset : Nat
  sinceJump : Nat
  numfree : Nat
  draws : Nat

/-- How an iteration ends. -/
inductive Turn
  | next (s : Scan)
  | found (page : Nat)
  | exhausted

variable {f f' : SwapFile} {n base fuel : Nat} {random : Nat → Nat} {s t : Scan} {r : Option Nat}

/-- The page that an iteration tests. -/
def Scan.page (f : SwapFile) (base : Nat) (s : Scan) : Nat := f.wrap (base + s.offset)

/-- What is left of `numfree` at that page: what was found on the tail is not contiguous with page zero. -/
def Scan.kept (f : SwapFile) (base : Nat) (s : Scan) : Nat :=
  if base + s.offset ≥ f.pages ∧ s.page f base = 0 then 0 else s.numfree

/-- `numfree` after the test. -/
def Scan.counted (f : SwapFile) (base : Nat) (s : Scan) : Nat :=
  if f.vmFreePage (s.page f base) = true then s.kept f base + 1 else 0

/-- One iteration of the loop, its condition included. -/
def Scan.turn (f : SwapFile) (n base : Nat) (random : Nat → Nat) (s : Scan) : Turn :=
  if s.offset < f.pages then
    if f.vmFreePage (s.page f base) = true ∧ s.kept f base + 1 = n then .found (s.page f base)
    else if s.counted f base = 0 ∧ s.sinceJump + 1 ≥ maxRandomJump / 4 then
      .next ⟨s.offset + random s.draws % maxRandomJump, 0, s.counted f base, s.draws + 1⟩
    else .next ⟨s.offset + 1, s.sinceJump + 1, s.counted f base, s.draws⟩
  else .exhausted

/-- The loop is its iterations. -/
theorem findLoop_succ (f : SwapFile) (n base : Nat) (random : Nat → Nat) (fuel : Nat) (s : Scan) :
    findLoop f n base random (fuel + 1) s.offset s.sinceJump s.numfree s.draws =
      match s.turn f n base random with
      | .next t => findLoop f n base random fuel t.offset t.sinceJump t.numfree t.draws
      | .found page => some page
      | .exhausted => none := by
  have hzero : (base + s.offset ≥ f.pages ∧ base + s.offset - f.pages = 0) ↔
      (base + s.offset ≥ f.pages ∧ s.page f base = 0) :=
    and_congr_right fun hge => by rw [Scan.page, wrap, if_pos hge]
  have hpage : (if base + s.offset ≥ f.pages then base + s.offset - f.pages else base + s.offset) =
      s.page f base := rfl
  have hkept : (if base + s.offset ≥ f.pages ∧ s.page f base = 0 then 0 else s.numfree) =
      s.kept f base := rfl
  have hcounted : (if f.vmFreePage (s.page f base) = true then s.kept f base + 1 else 0) =
      s.counted f base := rfl
  rw [findLoop, Scan.turn]
  simp only [hzero, hpage, hkept, hcounted]
  split
  · split
    · rfl
    · split
      · rfl
      · rfl
  · rfl

/-- The end of the loop is as near as `2 * vm_pages` iterations, and one more where the next one may
jump. -/
def Scan.distance (f : SwapFile) (s : Scan) : Nat :=
  2 * (f.pages - s.offset) + if s.sinceJump + 1 ≥ maxRandomJump / 4 then 1 else 0

theorem Scan.distance_lt (h : s.turn f n base random = .next t) : t.distance f < s.distance f := by
  unfold Scan.turn at h
  split at h
  · rename_i hoffset
    split at h
    · cases h
    · split at h
      · rename_i hjump
        have hstart : ¬(0 + 1 ≥ maxRandomJump / 4) := by decide
        cases h
        unfold Scan.distance
        dsimp only
        rw [if_pos hjump.2, if_neg hstart]
        omega
      · cases h
        unfold Scan.distance
        dsimp only
        split <;> omega
  · cases h

/-- Some iterations lead from one state of the loop to another. -/
def Reaches (f : SwapFile) (n base : Nat) (random : Nat → Nat) : Scan → Scan → Prop :=
  Relation.ReflTransGen fun s t => s.turn f n base random = .next t

/-- With enough fuel the loop ends at its condition or at a page. -/
theorem findLoop_reaches (n base : Nat) (random : Nat → Nat) (hfuel : s.distance f < fuel) :
    ∃ t, Reaches f n base random s t ∧ (t.turn f n base random = .exhausted ∧
        findLoop f n base random fuel s.offset s.sinceJump s.numfree s.draws = none ∨
      ∃ page, t.turn f n base random = .found page ∧
        findLoop f n base random fuel s.offset s.sinceJump s.numfree s.draws = some page) := by
  induction fuel generalizing s with
  | zero => exact absurd hfuel (Nat.not_lt_zero _)
  | succ fuel ih =>
    rw [findLoop_succ]
    cases hturn : s.turn f n base random with
    | next u =>
      have hless := Scan.distance_lt hturn
      obtain ⟨t, hreach, hend⟩ := ih (s := u) (by omega)
      exact ⟨t, .head hturn hreach, hend⟩
    | found page => exact ⟨s, .refl, .inr ⟨page, hturn, rfl⟩⟩
    | exhausted => exact ⟨s, .refl, .inl ⟨hturn, rfl⟩⟩

theorem Scan.page_lt (hbase : base ≤ f.pages) (hoffset : s.offset < f.pages) :
    s.page f base < f.pages := by
  unfold Scan.page wrap
  split <;> omega

/-- Where the search starts. -/
def searchBase (f : SwapFile) : Nat := if f.nearPages = maxNearPages then 0 else f.nextPage

theorem searchBase_le (h : f.nextPage ≤ f.pages) : f.searchBase ≤ f.pages := by
  unfold searchBase
  split
  · exact Nat.zero_le _
  · exact h

/-- The loop at the start. -/
def Scan.start : Scan := ⟨0, 0, 0, 0⟩

theorem Scan.turn_congr (hpages : f'.pages = f.pages) (hbitmap : f'.bitmap = f.bitmap) :
    s.turn f' n base random = s.turn f n base random := by
  unfold Scan.turn Scan.counted Scan.kept Scan.page wrap vmFreePage
  rw [hpages, hbitmap]

/-- What `vmFindContiguousPages` makes of its loop. -/
theorem vmFindContiguousPages_loop (f : SwapFile) (n : Nat) (random : Nat → Nat) :
    ∃ f₁ : SwapFile, f₁.pages = f.pages ∧ f₁.bitmap = f.bitmap ∧
      f.vmFindContiguousPages n random =
        match findLoop f₁ n f.searchBase random (2 * f.pages + 2) 0 0 0 0 with
        | some page => (some (page - (n - 1)), { f₁ with nextPage := page + 1 })
        | none => (none, f₁) := by
  unfold vmFindContiguousPages searchBase
  split
  · exact ⟨{ f with nearPages := 1, nextPage := 0 }, rfl, rfl, rfl⟩
  · exact ⟨{ f with nearPages := f.nearPages + 1 }, rfl, rfl, rfl⟩

/-- The search ends, tests pages of the file only, and the pages it reports are free and in front of the
end of the file, where the next search starts right after them. -/
theorem vmFindContiguousPages_search (hnext : f.nextPage ≤ f.pages) :
    (∃ t, Reaches f n f.searchBase random Scan.start t ∧
      (t.turn f n f.searchBase random = .exhausted ∧ (f.vmFindContiguousPages n random).1 = none ∨
        ∃ page, t.turn f n f.searchBase random = .found page ∧
          (f.vmFindContiguousPages n random).1 = some (page - (n - 1)))) ∧
    (∀ t, Reaches f n f.searchBase random Scan.start t → t.offset < f.pages →
      t.page f f.searchBase < f.pages) ∧
    ∀ first, (f.vmFindContiguousPages n random).1 = some first →
      first + n ≤ f.pages ∧ (∀ p, Covers first n p → f.vmFreePage p = true) ∧
      (f.vmFindContiguousPages n random).2.nextPage = first + n ∧
      1 ≤ (f.vmFindContiguousPages n random).2.nextPage ∧
      (f.vmFindContiguousPages n random).2.nextPage ≤ f.pages := by
  have hbase := searchBase_le hnext
  obtain ⟨f₁, hpages, hbitmap, hfind⟩ := vmFindContiguousPages_loop f n random
  have hturn (t : Scan) : t.turn f₁ n f.searchBase random = t.turn f n f.searchBase random :=
    Scan.turn_congr hpages hbitmap
  refine ⟨?_, fun t _ hoffset => Scan.page_lt hbase hoffset, fun first hfirst => ?_⟩
  · have hfuel : Scan.start.distance f₁ < 2 * f.pages + 2 := by
      unfold Scan.distance
      rw [hpages, if_neg (show ¬(Scan.start.sinceJump + 1 ≥ maxRandomJump / 4) by decide)]
      exact Nat.lt_of_le_of_lt (Nat.mul_le_mul_left 2 (Nat.sub_le _ _)) (by omega)
    obtain ⟨t, hreach, hend⟩ := findLoop_reaches n f.searchBase random hfuel
    unfold Reaches at hreach ⊢
    simp only [hturn] at hreach hend
    refine ⟨t, hreach, ?_⟩
    rcases hend with ⟨hexhausted, hloop⟩ | ⟨page, hfound, hloop⟩
    · refine .inl ⟨hexhausted, ?_⟩
      rw [hfind, show findLoop f₁ n f.searchBase random (2 * f.pages + 2) 0 0 0 0 = none from hloop]
    · refine .inr ⟨page, hfound, ?_⟩
      rw [hfind, show findLoop f₁ n f.searchBase random (2 * f.pages + 2) 0 0 0 0 = some page
        from hloop]
  · cases hloop : findLoop f₁ n f.searchBase random (2 * f.pages + 2) 0 0 0 0 with
    | none =>
      rw [hfind, hloop] at hfirst
      cases hfirst
    | some page =>
      rw [hfind, hloop] at hfirst ⊢
      obtain ⟨hlt, hn, hpos, hfree⟩ := findLoop_free (hpages ▸ hbase) (Behind.zero _ _) hloop
      cases hfirst
      rw [hpages] at hlt
      -- the subtraction of the source never goes below zero
      have hlast : page - (n - 1) + n = page + 1 := by omega
      rw [hlast]
      refine ⟨hlt, fun p hp => ?_, rfl, Nat.succ_pos page, hlt⟩
      have hcover : page - (n - 1) ≤ p ∧ p < page - (n - 1) + n := hp
      have hp' : page - (page - p) = p := by omega
      have hi := hfree (page - p) (by omega)
      rw [hp'] at hi
      unfold vmFreePage at hi ⊢
      rwa [hbitmap] at hi

/-- Two pages of four are free, the search starts behind the last page. -/
theorem vmFindContiguousPages_search_four :
    ∃ t, Reaches ⟨4, fun _ => 9, 4, 0, 2⟩ 2 4 (fun _ => 0) Scan.start t ∧
      t.turn ⟨4, fun _ => 9, 4, 0, 2⟩ 2 4 (fun _ => 0) = .found 2 := by
  obtain ⟨⟨t, hreach, hend⟩, -, -⟩ :=
    @vmFindContiguousPages_search ⟨4, fun _ => 9, 4, 0, 2⟩ 2 (fun _ => 0) (Nat.le_refl 4)
  have hresult : ((⟨4, fun _ => 9, 4, 0, 2⟩ : SwapFile).vmFindContiguousPages 2 fun _ => 0).1 =
      some 1 := by decide
  refine ⟨t, hreach, ?_⟩
  rcases hend with ⟨-, hnone⟩ | ⟨page, hfound, hsome⟩
  · rw [hresult] at hnone
    cases hnone
  · rw [hresult] at hsome
    have hpage : page = 2 := by
      have := Option.some.inj hsome
      omega
    rwa [hpage] at hfound

end Rtfsc.Redis.SwapFile
