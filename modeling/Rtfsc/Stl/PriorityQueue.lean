import Rtfsc.Machine.Run
import Rtfsc.Stl.Heap

/-!
# Priority queues

`priority_queue` over the heap functions. The cells of its sequence are numbered from 0. What a queue holds
is what it was built from and what was pushed, without what was popped (`Holds.run`), and `top()` is no less
than any of it (`Holds.top_max`).
-/

namespace Rtfsc.Stl

open Rtfsc.Machine

variable {α : Type}

/-- The sequence `c`: its cells and `c.size()`. -/
structure PriorityQueue (α : Type) where
  cells : Nat → α
  size : Nat

namespace PriorityQueue

variable (less : StrictWeak α) (q : PriorityQueue α)

/-! ## The code -/

/-- `std::push_heap` -/
def stdPushHeap (first last : Nat) (c : Nat → α) : Option (Nat → α) := do
  let value ← loadIn first last c (last - 1)
  pushHeap less first last 0 value c (last - first - 1)

/-- `std::pop_heap` -/
def stdPopHeap (first last : Nat) (c : Nat → α) : Option (Nat → α) :=
  if last - first > 1 then popHeap less last first (last - 1) (last - 1) c else some c

/-- The constructor, for what is in `c` then. -/
def ofRange (cells : Nat → α) (size : Nat) : Option (PriorityQueue α) := do
  let cells ← makeHeap less 0 size cells
  return ⟨cells, size⟩

/-- `top`. There is none in an empty queue. -/
def top : Option α := if q.size = 0 then none else some (q.cells 0)

/-- `push` -/
def push (x : α) : Option (PriorityQueue α) := do
  let cells ← stdPushHeap less 0 (q.size + 1) (Function.update q.cells q.size x)
  return ⟨cells, q.size + 1⟩

/-- `pop`. It may not be called for an empty queue. -/
def pop : Option (PriorityQueue α) :=
  if q.size = 0 then none
  else do
    let cells ← stdPopHeap less 0 q.size q.cells
    return ⟨cells, q.size - 1⟩

/-! ## Runs -/

/-- `pop x` is for a call of `pop` when `top()` is `x`. -/
inductive Event (α : Type)
  | push (x : α)
  | pop (x : α)

def Step (q : PriorityQueue α) : Event α → PriorityQueue α → Prop
  | .push x, q' => q.push less x = some q'
  | .pop x, q' => q.top = some x ∧ q.pop less = some q'

def elems : List α := (List.range' 0 q.size).map q.cells

def pushed (es : List (Event α)) : List α :=
  es.filterMap fun
    | .push x => some x
    | .pop _ => none

def popped (es : List (Event α)) : List α :=
  es.filterMap fun
    | .push _ => none
    | .pop x => some x

/-- The queue is a heap of what it began with and of the elements pushed and not yet popped. -/
structure Holds (initial : List α) (es : List (Event α)) : Prop where
  heap : HeapFrom less 0 q.size (cellsFrom 0 q.cells)
  perm : (q.elems ++ popped es).Perm (initial ++ pushed es)

variable {less} {q} {q' : PriorityQueue α} {initial : List α} {es : List (Event α)} {x : α}

theorem elems_snoc (c : Nat → α) {size : Nat} :
    (List.range' 0 (size + 1)).map c = elems ⟨c, size⟩ ++ [c size] := by
  rw [List.range'_concat, List.map_append]
  simp [elems]

theorem elems_update :
    (List.range' 0 (q.size + 1)).map (Function.update q.cells q.size x) = q.elems ++ [x] := by
  have helems : elems ⟨Function.update q.cells q.size x, q.size⟩ = q.elems := by
    simp only [elems]
    refine List.map_congr_left fun i hi => ?_
    rw [List.mem_range'_1] at hi
    exact Function.update_of_ne (by omega) ..
  rw [elems_snoc, helems, Function.update_self]

theorem mem_elems {y : α} : y ∈ q.elems ↔ ∃ i < q.size, q.cells i = y := by
  simp [elems]

/-- A new element is put into its place. -/
theorem push_spec (hheap : HeapFrom less 0 q.size (cellsFrom 0 q.cells)) :
    ∃ q', q.push less x = some q' ∧ HeapFrom less 0 q'.size (cellsFrom 0 q'.cells) ∧
      q'.elems.Perm (q.elems ++ [x]) := by
  have hsame : ∀ i < q.size, Function.update q.cells q.size x i = q.cells i :=
    fun i hi => Function.update_of_ne (by omega) ..
  have hheap₁ : HeapFrom less 0 q.size (cellsFrom 0 (Function.update q.cells q.size x)) := by
    intro i hi hi0 hp
    have hlt := heapParent_lt hi0
    simp only [cellsFrom, Nat.zero_add]
    rw [hsame i hi, hsame _ (by omega)]
    simpa [cellsFrom] using hheap i hi hi0 hp
  obtain ⟨c', hc', hperm, hheap'⟩ := pushHeap_last less hheap₁
  simp only [Nat.zero_add] at hc' hperm
  refine ⟨⟨c', q.size + 1⟩, ?_, hheap', ?_⟩
  · unfold push stdPushHeap
    rw [loadIn_of_mem (Nat.zero_le _) (by omega)]
    simp only [Nat.add_sub_cancel, Nat.sub_zero, Option.bind_eq_bind, Option.bind_some, hc']
    rfl
  · rw [← elems_update]
    exact hperm.perm

/-- One occurrence of the top is taken out. -/
theorem pop_spec (hpos : 0 < q.size) (hheap : HeapFrom less 0 q.size (cellsFrom 0 q.cells)) :
    ∃ q', q.pop less = some q' ∧ HeapFrom less 0 q'.size (cellsFrom 0 q'.cells) ∧
      (q'.elems ++ [q.cells 0]).Perm q.elems := by
  unfold pop
  rw [if_neg (Nat.pos_iff_ne_zero.mp hpos)]
  have hall : ∀ c : Nat → α, (List.range' 0 q.size).map c =
      elems ⟨c, q.size - 1⟩ ++ [c (q.size - 1)] := by
    intro c
    rw [← elems_snoc c, Nat.sub_add_cancel hpos]
  by_cases hone : q.size > 1
  · obtain ⟨c', hc', hperm, hheap', htop, -⟩ :=
      popHeap_spec less (show 0 < q.size - 1 by omega) (Nat.le_refl _)
        (show q.size - 1 < q.size by omega) (hheap.mono (Nat.le_refl _) (by omega))
    rw [Nat.sub_add_cancel hpos] at hperm
    refine ⟨⟨c', q.size - 1⟩, ?_, hheap', ?_⟩
    · unfold stdPopHeap
      rw [Nat.sub_zero, if_pos hone, hc']
      rfl
    · rw [← htop, ← hall]
      exact hperm.perm
  · have hsize : q.size - 1 = 0 := by omega
    refine ⟨⟨q.cells, q.size - 1⟩, ?_, hheap.mono (Nat.le_refl _) (Nat.sub_le q.size 1), ?_⟩
    · unfold stdPopHeap
      rw [Nat.sub_zero, if_neg hone]
      rfl
    · rw [← hsize, ← hall]
      exact List.Perm.refl _

namespace Holds

theorem of_range {size : Nat} {cells : Nat → α} (h : ofRange less cells size = some q) :
    q.Holds less ((List.range' 0 size).map cells) [] := by
  obtain ⟨c, hc, hperm, hheap⟩ := makeHeap_spec less cells (Nat.zero_le size)
  unfold ofRange at h
  rw [hc] at h
  cases h
  refine ⟨hheap, ?_⟩
  rw [show popped ([] : List (Event α)) = [] from rfl, show pushed ([] : List (Event α)) = [] from rfl,
    List.append_nil, List.append_nil]
  exact hperm.perm

theorem step {e : Event α} (h : q.Holds less initial es) (hstep : Step less q e q') :
    q'.Holds less initial (es ++ [e]) := by
  cases e with
  | push x =>
    obtain ⟨p, hp, hheap, hperm⟩ := push_spec (x := x) h.heap
    obtain rfl : p = q' := Option.some.inj (hp.symm.trans hstep)
    refine ⟨hheap, ?_⟩
    have hpopped : popped (es ++ [.push x]) = popped es := by simp [popped]
    have hpushed : pushed (es ++ [.push x]) = pushed es ++ [x] := by simp [pushed]
    rw [hpopped, hpushed, ← List.append_assoc]
    calc (p.elems ++ popped es).Perm ((q.elems ++ [x]) ++ popped es) := hperm.append_right _
      _ |>.Perm ((q.elems ++ popped es) ++ [x]) := by
        rw [List.append_assoc, List.append_assoc]
        exact List.perm_append_comm.append_left _
      _ |>.Perm _ := h.perm.append_right _
  | pop x =>
    obtain ⟨htop, hpop⟩ := hstep
    unfold top at htop
    split at htop
    · cases htop
    next hne =>
      cases htop
      obtain ⟨p, hp, hheap, hperm⟩ := pop_spec (Nat.pos_iff_ne_zero.mpr hne) h.heap
      obtain rfl : p = q' := Option.some.inj (hp.symm.trans hpop)
      refine ⟨hheap, ?_⟩
      have hpopped : popped (es ++ [.pop (q.cells 0)]) = popped es ++ [q.cells 0] := by simp [popped]
      have hpushed : pushed (es ++ [.pop (q.cells 0)]) = pushed es := by simp [pushed]
      rw [hpopped, hpushed]
      refine List.Perm.trans ?_ h.perm
      refine List.Perm.trans ?_ (hperm.append_right (popped es))
      rw [List.append_assoc]
      exact List.perm_append_comm.append_left _

theorem run {q₀ : PriorityQueue α} (h₀ : q₀.Holds less initial []) (hrun : Run (Step less) q₀ es q) :
    q.Holds less initial es :=
  hrun.invariant (I := fun es q => q.Holds less initial es) h₀ fun _ _ _ _ h hstep => h.step hstep

/-- No element is greater than the top. -/
theorem top_max (h : q.Holds less initial es) (htop : q.top = some x) :
    x ∈ q.elems ∧ ∀ y ∈ q.elems, less.lt x y = false := by
  unfold top at htop
  split at htop
  · cases htop
  next hne =>
    cases htop
    refine ⟨mem_elems.mpr ⟨0, Nat.pos_iff_ne_zero.mpr hne, rfl⟩, fun y hy => ?_⟩
    obtain ⟨i, hi, rfl⟩ := mem_elems.mp hy
    simpa [cellsFrom] using h.heap.under (.of_zero i) hi

end Holds

/-- The heap functions keep to their ranges, rearrange what is in them and make heaps; `top()` is a maximum
of the elements pushed and not yet popped, after every sequence of pushes and pops. -/
theorem heap_operations (less : StrictWeak α) :
    (∀ first last (c : Nat → α), first ≤ last →
      ∃ c', makeHeap less first last c = some c' ∧ Rearranged first last c c' ∧
        HeapFrom less 0 (last - first) (cellsFrom first c')) ∧
    (∀ first len (c : Nat → α), HeapFrom less 0 len (cellsFrom first c) →
      ∃ c', stdPushHeap less first (first + (len + 1)) c = some c' ∧
        Rearranged first (first + (len + 1)) c c' ∧ HeapFrom less 0 (len + 1) (cellsFrom first c')) ∧
    (∀ first last result (c : Nat → α), first < last → last ≤ result →
      HeapFrom less 0 (last - first) (cellsFrom first c) →
      ∃ c', popHeap less (result + 1) first last result c = some c' ∧
        Rearranged first (result + 1) c c' ∧ HeapFrom less 0 (last - first) (cellsFrom first c') ∧
        c' result = c first ∧ ∀ i, last ≤ i → i ≠ result → c' i = c i) ∧
    (∀ first hole len value (c : Nat → α), hole < len →
      ∃ c', adjustHeap less first hole len value c = some c' ∧
        Rearranged first (first + len) (Function.update c (first + hole) value) c' ∧
        (HeapFrom less (hole + 1) len (cellsFrom first c) →
          HeapFrom less hole len (cellsFrom first c'))) ∧
    ∀ size (cells : Nat → α), ∃ q₀, ofRange less cells size = some q₀ ∧
      ∀ es q, Run (Step less) q₀ es q →
        (q.elems ++ popped es).Perm ((List.range' 0 size).map cells ++ pushed es) ∧
        (∀ x, q.top = some x → x ∈ q.elems ∧ ∀ y ∈ q.elems, less.lt x y = false) ∧
        (∀ x, ∃ q', Step less q (.push x) q') ∧
        (q.elems ≠ [] → ∃ x q', Step less q (.pop x) q') := by
  refine ⟨fun first last c hle => makeHeap_spec less c hle, fun first len c hheap => ?_,
    fun first last result c hlt hle hheap => popHeap_spec less hlt hle (Nat.lt_succ_self result) hheap,
    fun first hole len value c hlt => adjustHeap_spec less first value c hlt, fun size cells => ?_⟩
  · obtain ⟨c', hc', hrest⟩ := pushHeap_last less hheap
    refine ⟨c', ?_, hrest⟩
    unfold stdPushHeap
    rw [loadIn_of_mem (by omega) (by omega)]
    rwa [Nat.add_sub_cancel_left, ← Nat.add_assoc, Nat.add_sub_cancel, Nat.add_sub_cancel,
      Option.bind_eq_bind, Option.bind_some, Nat.add_assoc]
  · obtain ⟨c, hc, -⟩ := makeHeap_spec less cells (Nat.zero_le size)
    have hof : ofRange less cells size = some ⟨c, size⟩ := by
      unfold ofRange
      rw [hc]
      rfl
    refine ⟨⟨c, size⟩, hof, fun es q hrun => ?_⟩
    have h := (Holds.of_range hof).run hrun
    refine ⟨h.perm, fun x => h.top_max, fun x => ?_, fun hne => ?_⟩
    · obtain ⟨q', hq', -⟩ := push_spec (x := x) h.heap
      exact ⟨q', hq'⟩
    · have hpos : q.size ≠ 0 := by
        intro hzero
        exact hne (by simp [elems, hzero])
      obtain ⟨q', hq', -⟩ := pop_spec (Nat.pos_iff_ne_zero.mpr hpos) h.heap
      exact ⟨q.cells 0, q', if_neg hpos, hq'⟩

theorem heap_operations_two :
    ∃ q₀ q, ofRange natLess (fun _ => 0) 0 = some q₀ ∧
      Run (Step natLess) q₀ ([] ++ [.push 3] ++ [.push 5]) q ∧ q.elems.Perm [3, 5] ∧
      ∀ x, q.top = some x → x ∈ q.elems ∧ ∀ y ∈ q.elems, natLess.lt x y = false := by
  obtain ⟨-, -, -, -, hqueue⟩ := heap_operations natLess
  obtain ⟨q₀, hq₀, hruns⟩ := hqueue 0 fun _ => 0
  obtain ⟨q₁, hstep₁⟩ := (hruns [] q₀ .nil).2.2.1 3
  obtain ⟨q₂, hstep₂⟩ := (hruns _ q₁ (.snoc .nil hstep₁)).2.2.1 5
  have hrun : Run (Step natLess) q₀ ([] ++ [.push 3] ++ [.push 5]) q₂ := (Run.nil.snoc hstep₁).snoc hstep₂
  obtain ⟨hperm, hmax, -⟩ := hruns _ q₂ hrun
  refine ⟨q₀, q₂, hq₀, hrun, ?_, hmax⟩
  simpa [pushed, popped] using hperm

end PriorityQueue

end Rtfsc.Stl
