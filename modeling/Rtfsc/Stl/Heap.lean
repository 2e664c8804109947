import Rtfsc.Machine.HeapOrder

/-!
# Heap algorithms

The heap functions that `__sort` and `priority_queue` use. Cells are numbered, and a range is given by the
numbers of its first cell and of the one behind it. Every access has bounds: an access outside of them ends
the computation. A value that is moved from a cell leaves the cell as it was; it is overwritten before it
is read again.
-/

namespace Rtfsc.Stl

open Rtfsc.Machine

variable {α : Type}

/-! ## Accesses -/

/-- A read within bounds. -/
def loadIn (lo hi : Nat) (c : Nat → α) (p : Nat) : Option α :=
  if lo ≤ p ∧ p < hi then some (c p) else none

/-- A write within bounds. -/
def storeIn (lo hi : Nat) (c : Nat → α) (p : Nat) (x : α) : Option (Nat → α) :=
  if lo ≤ p ∧ p < hi then some (Function.update c p x) else none

variable {lo hi p : Nat} {c : Nat → α} {x : α}

theorem loadIn_of_mem (hlo : lo ≤ p) (hhi : p < hi) : loadIn lo hi c p = some (c p) :=
  if_pos ⟨hlo, hhi⟩

theorem storeIn_of_mem (hlo : lo ≤ p) (hhi : p < hi) :
    storeIn lo hi c p x = some (Function.update c p x) :=
  if_pos ⟨hlo, hhi⟩

/-! ## The code -/

variable (less : StrictWeak α)

/-- `__push_heap`. The bounds of the heap are not among its arguments; no access is at or behind `hi`. -/
def pushHeap (first hi top : Nat) (value : α) (c : Nat → α) (hole : Nat) : Option (Nat → α) :=
  if _h : hole > top then do
    let parent := (hole - 1) / 2
    let x ← loadIn first hi c (first + parent)
    if less.lt x value then do
      let c ← storeIn first hi c (first + hole) x
      pushHeap first hi top value c parent
    else storeIn first hi c (first + hole) value
  else storeIn first hi c (first + hole) value
termination_by hole

/-- The loop of `__adjust_heap`, where `__secondChild` is `__holeIndex` each time: the cells and the
hole. -/
def sinkHole (first len : Nat) (c : Nat → α) (hole : Nat) : Option ((Nat → α) × Nat) :=
  if _h : hole < (len - 1) / 2 then do
    let right ← loadIn first (first + len) c (first + 2 * (hole + 1))
    let left ← loadIn first (first + len) c (first + (2 * (hole + 1) - 1))
    if less.lt right left then do
      let c ← storeIn first (first + len) c (first + hole) left
      sinkHole first len c (2 * (hole + 1) - 1)
    else do
      let c ← storeIn first (first + len) c (first + hole) right
      sinkHole first len c (2 * (hole + 1))
  else some (c, hole)
termination_by len - hole

/-- The step of `__adjust_heap` for a last parent with one child. -/
def sinkLast (first len : Nat) (c : Nat → α) (hole : Nat) : Option ((Nat → α) × Nat) :=
  if len % 2 = 0 ∧ (hole : Int) = ((len : Int) - 2) / 2 then do
    let left ← loadIn first (first + len) c (first + (2 * (hole + 1) - 1))
    let c ← storeIn first (first + len) c (first + hole) left
    return (c, 2 * (hole + 1) - 1)
  else some (c, hole)

/-- `__adjust_heap` -/
def adjustHeap (first holeIndex len : Nat) (value : α) (c : Nat → α) : Option (Nat → α) := do
  let (c, hole) ← sinkHole less first len c holeIndex
  let (c, hole) ← sinkLast first len c hole
  pushHeap less first (first + len) holeIndex value c hole

/-- The loop of `__make_heap`. -/
def makeHeapFrom (first len : Nat) (c : Nat → α) : Nat → Option (Nat → α)
  | 0 => do
    let value ← loadIn first (first + len) c first
    adjustHeap less first 0 len value c
  | parent + 1 => do
    let value ← loadIn first (first + len) c (first + (parent + 1))
    let c ← adjustHeap less first (parent + 1) len value c
    makeHeapFrom first len c parent

/-- `__make_heap` -/
def makeHeap (first last : Nat) (c : Nat → α) : Option (Nat → α) :=
  if last - first < 2 then some c
  else makeHeapFrom less first (last - first) c ((last - first - 2) / 2)

/-- `__pop_heap`, in a range that ends before `hi`. -/
def popHeap (hi first last result : Nat) (c : Nat → α) : Option (Nat → α) := do
  let value ← loadIn first hi c result
  let top ← loadIn first hi c first
  let c ← storeIn first hi c result top
  adjustHeap less first 0 (last - first) value c

/-! ## What the functions do -/

section Shift

variable {first h : Nat}

/-- The cells from `first` on. -/
def cellsFrom (first : Nat) (c : Nat → α) : Nat → α := fun i => c (first + i)

theorem cellsFrom_update :
    cellsFrom first (Function.update c (first + h) x) = Function.update (cellsFrom first c) h x := by
  funext i
  unfold cellsFrom
  rcases eq_or_ne i h with rfl | hne
  · rw [Function.update_self, Function.update_self]
  · rw [Function.update_of_ne (by omega), Function.update_of_ne hne]

theorem cellsFrom_apply {i : Nat} : cellsFrom first c i = c (first + i) := rfl

end Shift

variable {first len hole : Nat}

/-- A value goes up from the hole. No access is outside of the range, whatever is in it; with the order off
the hole the result is a heap. -/
theorem pushHeap_spec (first top : Nat) (value : α) (c : Nat → α) (hlen : hole < len) :
    ∃ c', pushHeap less first (first + len) top value c hole = some c' ∧
      Rearranged first (first + len) (Function.update c (first + hole) value) c' ∧
      (HoleUp less top len hole value (cellsFrom first c) → Under top hole →
        HeapFrom less top len (cellsFrom first c')) := by
  induction hole using Nat.strongRecOn generalizing c with
  | _ hole ih =>
    have hstore : storeIn first (first + len) c (first + hole) value =
        some (Function.update c (first + hole) value) :=
      storeIn_of_mem (by omega) (by omega)
    rw [pushHeap]
    split
    next hlt =>
      have hparent : (hole - 1) / 2 < hole := by omega
      dsimp only
      rw [loadIn_of_mem (by omega) (by omega)]
      cases hless : less.lt (c (first + (hole - 1) / 2)) value with
      | true =>
        obtain ⟨c', hc', hperm, hheap⟩ := ih _ hparent
          (Function.update c (first + hole) (c (first + (hole - 1) / 2))) (by omega)
        refine ⟨c', ?_, ?_, fun ho hu => ?_⟩
        · simp only [Option.bind_eq_bind, Option.bind_some, hless, if_true]
          rw [storeIn_of_mem (by omega) (by omega)]
          exact hc'
        · exact (Rearranged.move (by omega) (by omega)).trans hperm
        · refine hheap ?_ (hu.parent hlt)
          rw [cellsFrom_update]
          exact ho.move hlen hu hlt hless
      | false =>
        refine ⟨_, ?_, Rearranged.refl, fun ho _ => ?_⟩
        · simp only [Option.bind_eq_bind, Option.bind_some, hless, Bool.false_eq_true, if_false]
          exact hstore
        · rw [cellsFrom_update]
          exact ho.finish fun _ => hless
    next hle =>
      refine ⟨_, hstore, Rearranged.refl, fun ho _ => ?_⟩
      rw [cellsFrom_update]
      exact ho.finish fun hlt => absurd hlt hle

/-- The hole sinks, and stays under the position where it began. -/
theorem sinkHole_spec (first top : Nat) (c : Nat → α) (hlen : hole < len) :
    ∃ c' hole', sinkHole less first len c hole = some (c', hole') ∧ hole' < len ∧
      (∀ x, Rearranged first (first + len) (Function.update c (first + hole) x)
        (Function.update c' (first + hole') x)) ∧ ¬hole' < (len - 1) / 2 ∧
      (Under top hole → HoleDown less top len hole (cellsFrom first c) →
        Under top hole' ∧ HoleDown less top len hole' (cellsFrom first c')) := by
  induction hrest : len - hole using Nat.strongRecOn generalizing c hole with
  | _ rest ih =>
    rw [sinkHole]
    split
    next hlt =>
      rw [loadIn_of_mem (by omega) (by omega), loadIn_of_mem (by omega) (by omega)]
      -- the same for both children: the one that is taken is not less than the other
      have hchild : ∀ k, (k = 2 * (hole + 1) ∨ k = 2 * (hole + 1) - 1) →
          (∀ i, i = 2 * (hole + 1) ∨ i = 2 * (hole + 1) - 1 →
            less.lt (c (first + k)) (c (first + i)) = false) →
          ∃ c' hole', sinkHole less first len
              (Function.update c (first + hole) (c (first + k))) k = some (c', hole') ∧
            hole' < len ∧
            (∀ x, Rearranged first (first + len) (Function.update c (first + hole) x)
              (Function.update c' (first + hole') x)) ∧ ¬hole' < (len - 1) / 2 ∧
            (Under top hole → HoleDown less top len hole (cellsFrom first c) →
              Under top hole' ∧ HoleDown less top len hole' (cellsFrom first c')) := by
        intro k hk hmax
        have hkp : heapParent k = hole := by
          unfold heapParent
          omega
        obtain ⟨c', hole', hc', hlt', hperm, hstop, hheap⟩ := ih (len - k) (by omega)
          (Function.update c (first + hole) (c (first + k))) (show k < len by omega) rfl
        refine ⟨c', hole', hc', hlt', fun x => ?_, hstop, fun hu ho => ?_⟩
        · exact (Rearranged.move (by omega) (by omega)).trans (hperm x)
        · refine hheap (.child (by omega) (by rwa [hkp])) ?_
          rw [cellsFrom_update]
          refine ho.move hu.le (by omega) (by omega) hkp fun i _ hi0 hi => hmax i ?_
          rw [heapParent_eq_iff hi0] at hi
          omega
      simp only [Option.bind_eq_bind, Option.bind_some]
      cases hless : less.lt (c (first + 2 * (hole + 1))) (c (first + (2 * (hole + 1) - 1))) with
      | true =>
        obtain ⟨c', hole', hc', hrest'⟩ := hchild (2 * (hole + 1) - 1) (.inr rfl) fun i hi => by
          rcases hi with rfl | rfl
          · exact StrictWeak.asymm hless
          · exact less.irrefl _
        refine ⟨c', hole', ?_, hrest'⟩
        rw [if_pos rfl, storeIn_of_mem (by omega) (by omega)]
        exact hc'
      | false =>
        obtain ⟨c', hole', hc', hrest'⟩ := hchild (2 * (hole + 1)) (.inl rfl) fun i hi => by
          rcases hi with rfl | rfl
          · exact less.irrefl _
          · exact hless
        refine ⟨c', hole', ?_, hrest'⟩
        rw [if_neg Bool.false_ne_true, storeIn_of_mem (by omega) (by omega)]
        exact hc'
    next hstop => exact ⟨c, hole, rfl, hlen, fun _ => Rearranged.refl, hstop, fun hu ho => ⟨hu, ho⟩⟩

/-- Behind the last step the hole is at a leaf. -/
theorem sinkLast_spec (first top : Nat) (c : Nat → α) (hlen : hole < len) (hstop : ¬hole < (len - 1) / 2) :
    ∃ c' hole', sinkLast first len c hole = some (c', hole') ∧ hole' < len ∧
      (∀ x, Rearranged first (first + len) (Function.update c (first + hole) x)
        (Function.update c' (first + hole') x)) ∧
      (∀ i, i < len → 0 < i → heapParent i ≠ hole') ∧
      (Under top hole → HoleDown less top len hole (cellsFrom first c) →
        Under top hole' ∧ HoleDown less top len hole' (cellsFrom first c')) := by
  unfold sinkLast
  split
  next hlast =>
    obtain ⟨heven, hhole⟩ := hlast
    have hk : 2 * (hole + 1) - 1 + 1 = len := by omega
    have hkp : heapParent (2 * (hole + 1) - 1) = hole := by
      unfold heapParent
      omega
    rw [loadIn_of_mem (by omega) (by omega)]
    simp only [Option.bind_eq_bind, Option.bind_some]
    rw [storeIn_of_mem (by omega) (by omega)]
    refine ⟨_, _, rfl, by omega, fun x => Rearranged.move (by omega) (by omega), ?_, fun hu ho => ?_⟩
    · intro i hi hi0 hp
      rw [heapParent_eq_iff hi0] at hp
      omega
    · refine ⟨.child (by omega) (by rwa [hkp]), ?_⟩
      rw [cellsFrom_update]
      refine ho.move hu.le (by omega) (by omega) hkp fun i hi hi0 hp => ?_
      rw [heapParent_eq_iff hi0] at hp
      obtain rfl : i = 2 * (hole + 1) - 1 := by omega
      exact less.irrefl _
  next hlast =>
    refine ⟨c, hole, rfl, hlen, fun _ => Rearranged.refl, ?_, fun hu ho => ⟨hu, ho⟩⟩
    intro i hi hi0 hp
    rw [heapParent_eq_iff hi0] at hp
    refine hlast ?_
    omega

/-- `__adjust_heap` reads and writes only below `len`. The value takes the place of the one at the top of
the heap that it makes. -/
theorem adjustHeap_spec (first : Nat) (value : α) (c : Nat → α) (hlen : hole < len) :
    ∃ c', adjustHeap less first hole len value c = some c' ∧
      Rearranged first (first + len) (Function.update c (first + hole) value) c' ∧
      (HeapFrom less (hole + 1) len (cellsFrom first c) →
        HeapFrom less hole len (cellsFrom first c')) := by
  obtain ⟨c₁, hole₁, h₁, hlt₁, hperm₁, hstop, hheap₁⟩ :=
    sinkHole_spec less first hole c hlen
  obtain ⟨c₂, hole₂, h₂, hlt₂, hperm₂, hleaf, hheap₂⟩ :=
    sinkLast_spec less first hole c₁ hlt₁ hstop
  obtain ⟨c₃, h₃, hperm₃, hheap₃⟩ :=
    pushHeap_spec less first hole value c₂ hlt₂
  refine ⟨c₃, ?_, ((hperm₁ value).trans (hperm₂ value)).trans hperm₃, fun hheap => ?_⟩
  · unfold adjustHeap
    simp only [h₁, h₂, Option.bind_eq_bind, Option.bind_some]
    exact h₃
  · obtain ⟨hu₁, ho₁⟩ := hheap₁ .self hheap.holeDown
    obtain ⟨hu₂, ho₂⟩ := hheap₂ hu₁ ho₁
    exact hheap₃ (ho₂.holeUp hleaf) hu₂

/-- One parent after the other, from the last one to the first. -/
theorem makeHeapFrom_spec {parent : Nat} {c : Nat → α} (hlen : parent < len)
    (hheap : HeapFrom less (parent + 1) len (cellsFrom first c)) :
    ∃ c', makeHeapFrom less first len c parent = some c' ∧ Rearranged first (first + len) c c' ∧
      HeapFrom less 0 len (cellsFrom first c') := by
  induction parent generalizing c with
  | zero =>
    obtain ⟨c', hc', hperm, hheap'⟩ :=
      adjustHeap_spec less first (c first) c hlen
    rw [Nat.add_zero, Function.update_eq_self] at hperm
    refine ⟨c', ?_, hperm, hheap' hheap⟩
    rw [makeHeapFrom, loadIn_of_mem (by omega) (by omega)]
    exact hc'
  | succ parent ih =>
    obtain ⟨c₁, hc₁, hperm₁, hheap₁⟩ :=
      adjustHeap_spec less first (c (first + (parent + 1))) c hlen
    rw [Function.update_eq_self] at hperm₁
    obtain ⟨c', hc', hperm, hheap'⟩ := ih (by omega) (hheap₁ hheap)
    refine ⟨c', ?_, hperm₁.trans hperm, hheap'⟩
    rw [makeHeapFrom, loadIn_of_mem (by omega) (by omega)]
    simp only [Option.bind_eq_bind, Option.bind_some, hc₁]
    exact hc'

theorem makeHeap_spec {last : Nat} (c : Nat → α) (hle : first ≤ last) :
    ∃ c', makeHeap less first last c = some c' ∧ Rearranged first last c c' ∧
      HeapFrom less 0 (last - first) (cellsFrom first c') := by
  unfold makeHeap
  split
  next hshort =>
    refine ⟨c, rfl, Rearranged.refl, fun i hi hi0 _ => ?_⟩
    omega
  next hlong =>
    have hheap : HeapFrom less ((last - first - 2) / 2 + 1) (last - first) (cellsFrom first c) := by
      intro i hi hi0 hp
      unfold heapParent at hp
      omega
    have hmake := makeHeapFrom_spec less (by omega) hheap
    rwa [Nat.add_sub_cancel' hle] at hmake

/-- The greatest element goes to `result`, behind the heap, and the one from there into the heap. -/
theorem popHeap_spec {hi last result : Nat} {c : Nat → α} (hlt : first < last) (hresult : last ≤ result)
    (hhi : result < hi) (hheap : HeapFrom less 0 (last - first) (cellsFrom first c)) :
    ∃ c', popHeap less hi first last result c = some c' ∧ Rearranged first (result + 1) c c' ∧
      HeapFrom less 0 (last - first) (cellsFrom first c') ∧ c' result = c first ∧
      ∀ i, last ≤ i → i ≠ result → c' i = c i := by
  have hsame : ∀ i < last - first,
      cellsFrom first (Function.update c result (c first)) i = cellsFrom first c i :=
    fun i hi => Function.update_of_ne (by omega) ..
  have hheap₁ : HeapFrom less 1 (last - first)
      (cellsFrom first (Function.update c result (c first))) := by
    intro i hi hi0 _
    have := heapParent_lt hi0
    rw [hsame i hi, hsame _ (by omega)]
    exact hheap i hi hi0 (Nat.zero_le _)
  obtain ⟨c', hc', hperm, hheap'⟩ :=
    adjustHeap_spec less first (c result) (Function.update c result (c first))
      (show 0 < last - first by omega)
  rw [Nat.add_zero, Nat.add_sub_cancel' (Nat.le_of_lt hlt)] at hperm
  have hbehind : ∀ i, last ≤ i → c' i = Function.update c result (c first) i := by
    intro i hi
    rw [hperm.outside (by omega), Function.update_of_ne (by omega)]
  refine ⟨c', ?_, ?_, hheap' hheap₁, ?_, fun i hi hne => ?_⟩
  · unfold popHeap
    rw [loadIn_of_mem (by omega) hhi, loadIn_of_mem (by omega) (by omega)]
    simp only [Option.bind_eq_bind, Option.bind_some]
    rw [storeIn_of_mem (by omega) hhi]
    exact hc'
  · exact (Rearranged.swap (by omega) (by omega)).trans (hperm.mono (Nat.le_refl _) (by omega))
  · rw [hbehind _ hresult, Function.update_self]
  · rw [hbehind i hi, Function.update_of_ne hne]

/-- A new element behind a heap goes up to its place. -/
theorem pushHeap_last {c : Nat → α} (hheap : HeapFrom less 0 len (cellsFrom first c)) :
    ∃ c', pushHeap less first (first + (len + 1)) 0 (c (first + len)) c len = some c' ∧
      Rearranged first (first + (len + 1)) c c' ∧ HeapFrom less 0 (len + 1) (cellsFrom first c') := by
  obtain ⟨c', hc', hperm, hheap'⟩ :=
    pushHeap_spec less first 0 (c (first + len)) c (Nat.lt_succ_self len)
  rw [Function.update_eq_self] at hperm
  exact ⟨c', hc', hperm, hheap' hheap.holeUp (Under.of_zero len)⟩

end Rtfsc.Stl
