import Rtfsc.Stl.Heap

/-!
# Insertion sort

The insertion sorts of `__final_insertion_sort`. `__unguarded_linear_insert` has no bound of its own: it
stops because the first cell of the range is not greater than the value (`linearInsert_spec`). While it
runs the cells are sorted but for the one that the value has left (`SortedOff`).
-/

namespace Rtfsc.Stl

open Rtfsc.Machine

variable {α : Type}

/-! ## The code -/

section Code

variable (less : StrictWeak α) (lo hi : Nat)

/-- The loop of `__unguarded_linear_insert`, where `__next` is the cell before `__last`, and the write behind
it. -/
def linearInsert (val : α) (c : Nat → α) : Nat → Option (Nat → α)
  | 0 => none
  | next + 1 => do
    let x ← loadIn lo hi c next
    if less.lt val x then do
      let c ← storeIn lo hi c (next + 1) x
      linearInsert val c next
    else storeIn lo hi c (next + 1) val

/-- `__unguarded_linear_insert` -/
def unguardedLinearInsert (last : Nat) (c : Nat → α) : Option (Nat → α) := do
  let val ← loadIn lo hi c last
  linearInsert less lo hi val c last

/-- `_GLIBCXX_MOVE_BACKWARD3` by one cell: `n` cells from `first` on, the last one first. -/
def moveBackward (first : Nat) : Nat → (Nat → α) → Option (Nat → α)
  | 0, c => some c
  | n + 1, c => do
    let x ← loadIn lo hi c (first + n)
    let c ← storeIn lo hi c (first + (n + 1)) x
    moveBackward first n c

/-- What `__insertion_sort` does for one `__i`. -/
def insertOne (first i : Nat) (c : Nat → α) : Option (Nat → α) := do
  let x ← loadIn lo hi c i
  let least ← loadIn lo hi c first
  if less.lt x least then do
    let c ← moveBackward lo hi first (i - first) c
    storeIn lo hi c first x
  else unguardedLinearInsert less lo hi i c

/-- A loop over `n` cells from `i` on. -/
def forCells (body : Nat → (Nat → α) → Option (Nat → α)) : Nat → Nat → (Nat → α) → Option (Nat → α)
  | 0, _, c => some c
  | n + 1, i, c => do
    let c ← body i c
    forCells body n (i + 1) c

/-- `__insertion_sort` -/
def insertionSort (first last : Nat) (c : Nat → α) : Option (Nat → α) :=
  if first = last then some c
  else forCells (insertOne less lo hi first) (last - (first + 1)) (first + 1) c

/-- `__unguarded_insertion_sort` -/
def unguardedInsertionSort (first last : Nat) (c : Nat → α) : Option (Nat → α) :=
  forCells (unguardedLinearInsert less lo hi) (last - first) first c

end Code

variable {less : StrictWeak α} {lo hi first last h n i : Nat} {v : α} {c : Nat → α}

/-! ## What the functions do -/

/-- With a cell at `first` that is not greater than the value no access is before it, and it stays as it is. -/
theorem linearInsert_spec (hlo : lo ≤ first) (hfirst : first < h) (hn : h < n) (hhi : n ≤ hi)
    (hsent : less.lt v (c first) = false) (hole : SortedOff less first n h v c) :
    ∃ c', linearInsert less lo hi v c h = some c' ∧
      Rearranged first n (Function.update c h v) c' ∧ SortedOn less first n c' ∧
      c' first = c first := by
  induction h generalizing c with
  | zero => omega
  | succ next ih =>
    rw [linearInsert, loadIn_of_mem (by omega) (by omega)]
    simp only [Option.bind_eq_bind, Option.bind_some]
    rw [storeIn_of_mem (by omega) (by omega), storeIn_of_mem (by omega) (by omega)]
    cases hlt : less.lt v (c next) with
    | true =>
      have hne : first ≠ next := by
        rintro rfl
        rw [hsent] at hlt
        exact Bool.false_ne_true hlt
      have hsame : Function.update c (next + 1) (c next) first = c first :=
        Function.update_of_ne (by omega) ..
      obtain ⟨c', hc', hperm, hsorted, hkept⟩ := ih (c := Function.update c (next + 1) (c next))
        (by omega) (by omega) (by rwa [hsame]) (hole.move (by omega) hlt)
      refine ⟨c', ?_, (Rearranged.move (by omega) (by omega)).trans hperm, hsorted, hkept.trans hsame⟩
      rwa [if_pos rfl, Option.bind_some]
    | false =>
      refine ⟨_, if_neg Bool.false_ne_true, Rearranged.refl, hole.finish fun i _ hi => ?_,
        Function.update_of_ne (by omega) ..⟩
      obtain rfl : i = next := by omega
      exact hlt

theorem unguardedLinearInsert_spec (hlo : lo ≤ first) (hfirst : first < i) (hi' : i < hi)
    (hsent : less.lt (c i) (c first) = false) (hsorted : SortedOn less first i c) :
    ∃ c', unguardedLinearInsert less lo hi i c = some c' ∧ Rearranged first (i + 1) c c' ∧
      SortedOn less first (i + 1) c' ∧ c' first = c first := by
  obtain ⟨c', hc', hperm, hrest⟩ :=
    linearInsert_spec hlo hfirst (Nat.lt_succ_self i) hi' hsent hsorted.sortedOff
  rw [Function.update_eq_self] at hperm
  refine ⟨c', ?_, hperm, hrest⟩
  rw [unguardedLinearInsert, loadIn_of_mem (by omega) hi']
  exact hc'

/-- A value in the hole goes to the front, and the cells in between go one up. -/
theorem moveBackward_spec (hlo : lo ≤ first) (hhi : first + n < hi)
    (hole : SortedOff less first last (first + n) v c) (hn : first + n < last)
    (hless : ∀ i, first ≤ i → i < first + n → less.lt v (c i) = true) :
    ∃ c', moveBackward lo hi first n c = some c' ∧
      Rearranged first last (Function.update c (first + n) v) (Function.update c' first v) ∧
      SortedOn less first last (Function.update c' first v) := by
  induction n generalizing c with
  | zero => exact ⟨c, rfl, Rearranged.refl, hole.finish fun i hi hi' => by omega⟩
  | succ n ih =>
    rw [moveBackward, loadIn_of_mem (by omega) (by omega)]
    simp only [Option.bind_eq_bind, Option.bind_some]
    rw [storeIn_of_mem (by omega) (by omega)]
    have hmoved := SortedOff.move (h := first + n) hole (by omega) (hless _ (by omega) (by omega))
    obtain ⟨c', hc', hperm, hsorted⟩ := ih (by omega) hmoved (by omega) fun i hi hi' => by
      rw [Function.update_of_ne (by omega)]
      exact hless i hi (by omega)
    exact ⟨c', hc', (Rearranged.move (by omega) (by omega)).trans hperm, hsorted⟩

theorem insertOne_spec (hlo : lo ≤ first) (hfirst : first < i) (hi' : i < hi)
    (hsorted : SortedOn less first i c) :
    ∃ c', insertOne less lo hi first i c = some c' ∧ Rearranged first (i + 1) c c' ∧
      SortedOn less first (i + 1) c' := by
  rw [insertOne, loadIn_of_mem (by omega) hi', loadIn_of_mem hlo (by omega)]
  simp only [Option.bind_eq_bind, Option.bind_some]
  cases hlt : less.lt (c i) (c first) with
  | true =>
    have hadd : first + (i - first) = i := by omega
    -- what is less than the first cell is less than all of the sorted ones
    have hall : ∀ j, first ≤ j → j < i → less.lt (c i) (c j) = true := by
      intro j hj hji
      rcases eq_or_ne first j with rfl | hne
      · exact hlt
      · cases hcj : less.lt (c i) (c j) with
        | true => rfl
        | false =>
          rw [less.notTrans hcj (hsorted first j (Nat.le_refl _) (by omega) hji)] at hlt
          exact absurd hlt Bool.false_ne_true
    have hole : SortedOff less first (i + 1) (first + (i - first)) (c i) c := by
      rw [hadd]
      exact hsorted.sortedOff
    obtain ⟨c', hc', hperm, hsorted'⟩ :=
      moveBackward_spec hlo (show first + (i - first) < hi by omega) hole (by omega) (by rwa [hadd])
    rw [hadd, Function.update_eq_self] at hperm
    refine ⟨_, ?_, hperm, hsorted'⟩
    rw [if_pos rfl, hc', Option.bind_some, storeIn_of_mem hlo (by omega)]
  | false =>
    obtain ⟨c', hc', hperm, hsorted', -⟩ := unguardedLinearInsert_spec hlo hfirst hi' hlt hsorted
    exact ⟨c', hc', hperm, hsorted'⟩

/-- One cell after the other is inserted. -/
theorem insertOnes_spec (hlo : lo ≤ first) (hfirst : first < i) (hhi : i + n ≤ hi)
    (hsorted : SortedOn less first i c) :
    ∃ c', forCells (insertOne less lo hi first) n i c = some c' ∧ Rearranged first (i + n) c c' ∧
      SortedOn less first (i + n) c' := by
  induction n generalizing i c with
  | zero => exact ⟨c, rfl, Rearranged.refl, hsorted⟩
  | succ n ih =>
    obtain ⟨c₁, hc₁, hperm₁, hsorted₁⟩ := insertOne_spec hlo hfirst (show i < hi by omega) hsorted
    obtain ⟨c', hc', hperm, hsorted'⟩ := ih (by omega) (show i + 1 + n ≤ hi by omega) hsorted₁
    rw [show i + 1 + n = i + (n + 1) by omega] at hperm hsorted'
    refine ⟨c', ?_, (hperm₁.mono (Nat.le_refl _) (by omega)).trans hperm, hsorted'⟩
    rw [forCells, hc₁]
    exact hc'

theorem insertionSort_spec (less : StrictWeak α) (c : Nat → α) (hlo : lo ≤ first) (hle : first ≤ last)
    (hhi : last ≤ hi) :
    ∃ c', insertionSort less lo hi first last c = some c' ∧ Rearranged first last c c' ∧
      SortedOn less first last c' := by
  unfold insertionSort
  split
  next heq => exact ⟨c, rfl, Rearranged.refl, fun i j hi hij hj => by omega⟩
  next hne =>
    have hadd : first + 1 + (last - (first + 1)) = last := by omega
    have hone : SortedOn less first (first + 1) c := fun i j hi hij hj => by omega
    obtain ⟨c', hc', hperm, hsorted⟩ :=
      insertOnes_spec hlo (Nat.lt_succ_self first) (show first + 1 + (last - (first + 1)) ≤ hi by omega)
        hone
    rw [hadd] at hperm hsorted
    exact ⟨c', hc', hperm, hsorted⟩

/-- Without a bound, when no cell is less than the first one. -/
theorem unguardedInserts_spec (hlo : lo ≤ first) (hfirst : first < i) (hhi : i + n ≤ hi)
    (hsent : ∀ j, i ≤ j → j < i + n → less.lt (c j) (c first) = false)
    (hsorted : SortedOn less first i c) :
    ∃ c', forCells (unguardedLinearInsert less lo hi) n i c = some c' ∧
      Rearranged first (i + n) c c' ∧ SortedOn less first (i + n) c' := by
  induction n generalizing i c with
  | zero => exact ⟨c, rfl, Rearranged.refl, hsorted⟩
  | succ n ih =>
    obtain ⟨c₁, hc₁, hperm₁, hsorted₁, hkept⟩ :=
      unguardedLinearInsert_spec hlo hfirst (show i < hi by omega)
        (hsent i (Nat.le_refl _) (by omega)) hsorted
    obtain ⟨c', hc', hperm, hsorted'⟩ := ih (i := i + 1) (by omega) (by omega)
      (fun j hj hj' => by
        rw [hkept, hperm₁.outside (by omega)]
        exact hsent j (by omega) (by omega)) hsorted₁
    rw [show i + 1 + n = i + (n + 1) by omega] at hperm hsorted'
    refine ⟨c', ?_, (hperm₁.mono (Nat.le_refl _) (by omega)).trans hperm, hsorted'⟩
    rw [forCells, hc₁]
    exact hc'

theorem unguardedInsertionSort_spec (hlo : lo ≤ first) (hfirst : first < i) (hle : i ≤ last)
    (hhi : last ≤ hi) (hsent : ∀ j, i ≤ j → j < last → less.lt (c j) (c first) = false)
    (hsorted : SortedOn less first i c) :
    ∃ c', unguardedInsertionSort less lo hi i last c = some c' ∧ Rearranged first last c c' ∧
      SortedOn less first last c' := by
  have hadd : i + (last - i) = last := by omega
  have hspec := unguardedInserts_spec hlo hfirst (show i + (last - i) ≤ hi by omega) (by rwa [hadd])
    hsorted
  rwa [hadd] at hspec

end Rtfsc.Stl
