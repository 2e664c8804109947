import Mathlib.Data.List.Basic
import Mathlib.Logic.Function.Basic

/-!
# Chains of links

Nodes that are linked one to the next, from a head on. A chain only depends on the links of its own
nodes.
-/

namespace Rtfsc.Machine

variable {α : Type} {next next' : α → Option α} {head : Option α} {a b : α} {l l' : List α}

/-- The nodes of `l` are linked in their order from `head` on, and the last one to nothing. -/
def Links (next : α → Option α) : Option α → List α → Prop
  | head, [] => head = none
  | head, a :: l => head = some a ∧ Links next (next a) l

namespace Links

theorem congr (h : Links next head l) (hsame : ∀ a ∈ l, next' a = next a) : Links next' head l := by
  induction l generalizing head with
  | nil => exact h
  | cons a l ih =>
    obtain ⟨hhead, htail⟩ := h
    refine ⟨hhead, ?_⟩
    rw [hsame a List.mem_cons_self]
    exact ih htail fun b hb => hsame b (List.mem_cons_of_mem a hb)

/-- Links outside of the chain may be written. -/
theorem update [DecidableEq α] (h : Links next head l) (ha : a ∉ l) (v : Option α) :
    Links (Function.update next a v) head l := by
  refine h.congr fun b hb => ?_
  have hne : b ≠ a := by
    rintro rfl
    exact ha hb
  rw [Function.update_of_ne hne]

/-- A node that is linked to the head becomes the head. -/
theorem push [DecidableEq α] (h : Links next head l) (ha : a ∉ l) :
    Links (Function.update next a head) (some a) (a :: l) := by
  refine ⟨rfl, ?_⟩
  rw [Function.update_self]
  exact h.update ha head

/-- The head and the links say which nodes they are. -/
theorem unique (h : Links next head l) (h' : Links next head l') : l = l' := by
  induction l generalizing head l' with
  | nil =>
    cases l' with
    | nil => rfl
    | cons b l' => exact nomatch h.symm.trans h'.1
  | cons a l ih =>
    cases l' with
    | nil => exact nomatch h'.symm.trans h.1
    | cons b l' =>
      cases Option.some.inj (h.1.symm.trans h'.1)
      rw [ih h.2 h'.2]

theorem head_eq_none (h : Links next head l) : head = none ↔ l = [] := by
  cases l with
  | nil => exact iff_of_true h rfl
  | cons a l =>
    rw [h.1]
    exact iff_of_false (Option.some_ne_none a) (List.cons_ne_nil a l)

end Links

/-! ## Parts of a chain -/

/-- From `a` on the nodes of `l` are linked in their order, and `e` is the last one. What that one is linked
to is left open. -/
def Segment (next : α → Option α) : α → List α → α → Prop
  | a, [], e => a = e
  | a, b :: l, e => next a = some b ∧ Segment next b l e

namespace Segment

variable {e : α}

theorem mem (h : Segment next a l e) : e ∈ a :: l := by
  induction l generalizing a with
  | nil =>
    cases h
    exact List.mem_cons_self
  | cons b l ih => exact List.mem_cons_of_mem a (ih h.2)

theorem congr (h : Segment next a l e) (hsame : ∀ b ∈ a :: l, next' b = next b) :
    Segment next' a l e := by
  induction l generalizing a with
  | nil => exact h
  | cons b l ih =>
    refine ⟨(hsame a List.mem_cons_self).trans h.1, ih h.2 fun c hc => ?_⟩
    exact hsame c (List.mem_cons_of_mem a hc)

/-- The link of the last node may be written. -/
theorem updateLast [DecidableEq α] (h : Segment next a l e) (hnodup : (a :: l).Nodup)
    (v : Option α) : Segment (Function.update next e v) a l e := by
  induction l generalizing a with
  | nil => exact h
  | cons b l ih =>
    rw [List.nodup_cons] at hnodup
    refine ⟨?_, ih h.2 hnodup.2⟩
    rw [Function.update_of_ne (ne_of_mem_of_not_mem h.2.mem hnodup.1).symm]
    exact h.1

/-- Linked to the head of a chain, the nodes come in front of it. -/
theorem links (h : Segment next a l e) (he : next e = head) (hl : Links next head l') :
    Links next (some a) (a :: l ++ l') := by
  induction l generalizing a with
  | nil =>
    cases h
    refine ⟨rfl, ?_⟩
    rw [he]
    exact hl
  | cons b l ih =>
    refine ⟨rfl, ?_⟩
    rw [h.1]
    exact ih h.2

/-- A chain that is not empty, up to its last node. -/
theorem of_links (h : Links next (some a) (a :: l)) (he : (a :: l).getLast? = some e) :
    Segment next a l e ∧ next e = none := by
  induction l generalizing a with
  | nil =>
    cases Option.some.inj he
    exact ⟨rfl, h.2⟩
  | cons b l ih =>
    rw [List.getLast?_cons_cons] at he
    have hnext : next a = some b := h.2.1
    obtain ⟨hseg, hlast⟩ := ih (by rw [← hnext]; exact h.2) he
    exact ⟨⟨hnext, hseg⟩, hlast⟩

end Segment

end Rtfsc.Machine
