import Rtfsc.Machine.CachedTree

/-!
# Slots in a tree

A node of a tree has a slot for a child on either side. Between two nodes that follow each other there is
exactly one slot that is vacant: that on the right of the first one, or that on the left of the second
one; and what is linked there comes between them.
-/

namespace Rtfsc.Machine

open BinaryTree

variable {α : Type} [DecidableEq α]

/-- The tree below a node on its left. -/
def leftOf (a : α) : BinaryTree α → Option (BinaryTree α)
  | .nil => none
  | .node b l r => if b = a then some l else (leftOf a l).or (leftOf a r)

/-- The tree below a node on its right. -/
def rightOf (a : α) : BinaryTree α → Option (BinaryTree α)
  | .nil => none
  | .node b l r => if b = a then some r else (rightOf a l).or (rightOf a r)

/-- A node is linked on the left of another one, in place of what is there. -/
def linkLeft (a x : α) : BinaryTree α → BinaryTree α
  | .nil => .nil
  | .node b l r =>
    if b = a then .node b (.node x .nil .nil) r else .node b (linkLeft a x l) (linkLeft a x r)

/-- A node is linked on the right of another one, in place of what is there. -/
def linkRight (a x : α) : BinaryTree α → BinaryTree α
  | .nil => .nil
  | .node b l r =>
    if b = a then .node b l (.node x .nil .nil) else .node b (linkRight a x l) (linkRight a x r)

variable {a b x : α} {t : BinaryTree α} {l l₁ l₂ : List α}

theorem leftOf_eq_none (h : a ∉ inorder t) : leftOf a t = none := by
  induction t with
  | nil => rfl
  | node b l r ihl ihr =>
    rw [inorder_node, List.mem_append, List.mem_cons, not_or, not_or] at h
    rw [leftOf, if_neg (Ne.symm h.2.1), ihl h.1, ihr h.2.2]
    rfl

theorem rightOf_eq_none (h : a ∉ inorder t) : rightOf a t = none := by
  induction t with
  | nil => rfl
  | node b l r ihl ihr =>
    rw [inorder_node, List.mem_append, List.mem_cons, not_or, not_or] at h
    rw [rightOf, if_neg (Ne.symm h.2.1), ihl h.1, ihr h.2.2]
    rfl

theorem linkLeft_of_not_mem (h : a ∉ inorder t) : linkLeft a x t = t := by
  induction t with
  | nil => rfl
  | node b l r ihl ihr =>
    rw [inorder_node, List.mem_append, List.mem_cons, not_or, not_or] at h
    rw [linkLeft, if_neg (Ne.symm h.2.1), ihl h.1, ihr h.2.2]

theorem linkRight_of_not_mem (h : a ∉ inorder t) : linkRight a x t = t := by
  induction t with
  | nil => rfl
  | node b l r ihl ihr =>
    rw [inorder_node, List.mem_append, List.mem_cons, not_or, not_or] at h
    rw [linkRight, if_neg (Ne.symm h.2.1), ihl h.1, ihr h.2.2]

omit [DecidableEq α] in
/-- Where a node is in a tree without duplicates: at the root, on its left or on its right. -/
theorem node_cases {c : α} {l r : BinaryTree α} (hnodup : (inorder (.node c l r)).Nodup)
    (ha : a ∈ inorder (.node c l r)) :
    (c = a ∧ a ∉ inorder l ∧ a ∉ inorder r) ∨ (c ≠ a ∧ a ∈ inorder l ∧ a ∉ inorder r) ∨
      (c ≠ a ∧ a ∉ inorder l ∧ a ∈ inorder r) := by
  rw [inorder_node, List.nodup_append, List.nodup_cons] at hnodup
  obtain ⟨-, ⟨hc, -⟩, hapart⟩ := hnodup
  rw [inorder_node, List.mem_append, List.mem_cons] at ha
  rcases ha with ha | rfl | ha
  · refine .inr (.inl ⟨?_, ha, fun hr => hapart a ha a (List.mem_cons_of_mem _ hr) rfl⟩)
    exact fun heq => hapart a ha c List.mem_cons_self heq.symm
  · exact .inl ⟨rfl, fun hl => hapart a hl a List.mem_cons_self rfl, hc⟩
  · refine .inr (.inr ⟨fun heq => hc (heq ▸ ha), fun hl => ?_, ha⟩)
    exact hapart a hl a (List.mem_cons_of_mem _ ha) rfl

omit [DecidableEq α] in
theorem node_left {c : α} {l r : BinaryTree α} (hnodup : (inorder (.node c l r)).Nodup)
    (ha : a ∈ inorder l) : c ≠ a ∧ a ∉ inorder r := by
  rcases node_cases hnodup (List.mem_append_left _ ha) with ⟨-, hna, -⟩ | ⟨hc, -, hr⟩ | ⟨-, hna, -⟩
  · exact absurd ha hna
  · exact ⟨hc, hr⟩
  · exact absurd ha hna

omit [DecidableEq α] in
theorem node_right {c : α} {l r : BinaryTree α} (hnodup : (inorder (.node c l r)).Nodup)
    (ha : a ∈ inorder r) : c ≠ a ∧ a ∉ inorder l := by
  rcases node_cases hnodup (List.mem_append_right _ (List.mem_cons_of_mem _ ha)) with
    ⟨-, -, hna⟩ | ⟨-, -, hna⟩ | ⟨hc, hl, -⟩
  · exact absurd ha hna
  · exact absurd ha hna
  · exact ⟨hc, hl⟩

theorem leftOf_left {c : α} {l r : BinaryTree α} (hc : c ≠ a) (hr : a ∉ inorder r) :
    leftOf a (.node c l r) = leftOf a l := by
  rw [leftOf, if_neg hc, leftOf_eq_none hr, Option.or_none]

theorem leftOf_right {c : α} {l r : BinaryTree α} (hc : c ≠ a) (hl : a ∉ inorder l) :
    leftOf a (.node c l r) = leftOf a r := by
  rw [leftOf, if_neg hc, leftOf_eq_none hl, Option.none_or]

theorem rightOf_left {c : α} {l r : BinaryTree α} (hc : c ≠ a) (hr : a ∉ inorder r) :
    rightOf a (.node c l r) = rightOf a l := by
  rw [rightOf, if_neg hc, rightOf_eq_none hr, Option.or_none]

theorem rightOf_right {c : α} {l r : BinaryTree α} (hc : c ≠ a) (hl : a ∉ inorder l) :
    rightOf a (.node c l r) = rightOf a r := by
  rw [rightOf, if_neg hc, rightOf_eq_none hl, Option.none_or]

omit [DecidableEq α] in
theorem nodup_left {c : α} {l r : BinaryTree α} (h : (inorder (.node c l r)).Nodup) :
    (inorder l).Nodup := (List.nodup_append.mp h).1

omit [DecidableEq α] in
theorem nodup_right {c : α} {l r : BinaryTree α} (h : (inorder (.node c l r)).Nodup) :
    (inorder r).Nodup := (List.nodup_cons.mp (List.nodup_append.mp h).2.1).2

/-! ## What is linked at a vacant slot -/

omit [DecidableEq α] in
/-- There is one way to split a list without duplicates at one of its elements. -/
theorem split_unique {m₁ m₂ : List α} (hnodup : (l₁ ++ a :: l₂).Nodup)
    (h : l₁ ++ a :: l₂ = m₁ ++ a :: m₂) : l₁ = m₁ ∧ l₂ = m₂ := by
  rw [List.nodup_middle, List.nodup_cons, List.mem_append, not_or] at hnodup
  obtain ⟨h₁, -, h₂⟩ := (List.append_cons_inj_of_notMem hnodup.1.1 hnodup.1.2).mp h
  exact ⟨h₁, h₂⟩

theorem exists_inorder_linkRight (hnodup : (inorder t).Nodup) (h : rightOf a t = some .nil) :
    ∃ l₁ l₂, inorder t = l₁ ++ a :: l₂ ∧ inorder (linkRight a x t) = l₁ ++ a :: x :: l₂ := by
  induction t with
  | nil => cases h
  | node c l r ihl ihr =>
    have ha : a ∈ inorder (.node c l r) := by
      by_contra ha
      rw [rightOf_eq_none ha] at h
      cases h
    rcases node_cases hnodup ha with ⟨rfl, -, -⟩ | ⟨hc, hl, hr⟩ | ⟨hc, hl, hr⟩
    · rw [rightOf, if_pos rfl] at h
      cases h
      exact ⟨inorder l, [], rfl, by rw [linkRight, if_pos rfl]; rfl⟩
    · rw [rightOf_left hc hr] at h
      obtain ⟨l₁, l₂, hsplit, hlink⟩ := ihl (nodup_left hnodup) h
      refine ⟨l₁, l₂ ++ c :: inorder r, ?_, ?_⟩
      · rw [inorder_node, hsplit, List.append_assoc]
        rfl
      · rw [linkRight, if_neg hc, linkRight_of_not_mem hr, inorder_node, hlink, List.append_assoc]
        rfl
    · rw [rightOf_right hc hl] at h
      obtain ⟨l₁, l₂, hsplit, hlink⟩ := ihr (nodup_right hnodup) h
      refine ⟨inorder l ++ c :: l₁, l₂, ?_, ?_⟩
      · rw [inorder_node, hsplit, List.append_assoc]
        rfl
      · rw [linkRight, if_neg hc, linkRight_of_not_mem hl, inorder_node, hlink, List.append_assoc]
        rfl

theorem exists_inorder_linkLeft (hnodup : (inorder t).Nodup) (h : leftOf a t = some .nil) :
    ∃ l₁ l₂, inorder t = l₁ ++ a :: l₂ ∧ inorder (linkLeft a x t) = l₁ ++ x :: a :: l₂ := by
  induction t with
  | nil => cases h
  | node c l r ihl ihr =>
    have ha : a ∈ inorder (.node c l r) := by
      by_contra ha
      rw [leftOf_eq_none ha] at h
      cases h
    rcases node_cases hnodup ha with ⟨rfl, -, -⟩ | ⟨hc, hl, hr⟩ | ⟨hc, hl, hr⟩
    · rw [leftOf, if_pos rfl] at h
      cases h
      exact ⟨[], inorder r, rfl, by rw [linkLeft, if_pos rfl]; rfl⟩
    · rw [leftOf_left hc hr] at h
      obtain ⟨l₁, l₂, hsplit, hlink⟩ := ihl (nodup_left hnodup) h
      refine ⟨l₁, l₂ ++ c :: inorder r, ?_, ?_⟩
      · rw [inorder_node, hsplit, List.append_assoc]
        rfl
      · rw [linkLeft, if_neg hc, linkLeft_of_not_mem hr, inorder_node, hlink, List.append_assoc]
        rfl
    · rw [leftOf_right hc hl] at h
      obtain ⟨l₁, l₂, hsplit, hlink⟩ := ihr (nodup_right hnodup) h
      refine ⟨inorder l ++ c :: l₁, l₂, ?_, ?_⟩
      · rw [inorder_node, hsplit, List.append_assoc]
        rfl
      · rw [linkLeft, if_neg hc, linkLeft_of_not_mem hl, inorder_node, hlink, List.append_assoc]
        rfl

/-- A node at a vacant slot on the right comes behind. -/
theorem inorder_linkRight (hnodup : (inorder t).Nodup) (h : rightOf a t = some .nil)
    (ht : inorder t = l₁ ++ a :: l₂) : inorder (linkRight a x t) = l₁ ++ a :: x :: l₂ := by
  obtain ⟨m₁, m₂, hsplit, hlink⟩ := exists_inorder_linkRight (x := x) hnodup h
  obtain ⟨rfl, rfl⟩ := split_unique (ht ▸ hnodup) (ht.symm.trans hsplit)
  exact hlink

/-- A node at a vacant slot on the left comes in front. -/
theorem inorder_linkLeft (hnodup : (inorder t).Nodup) (h : leftOf a t = some .nil)
    (ht : inorder t = l₁ ++ a :: l₂) : inorder (linkLeft a x t) = l₁ ++ x :: a :: l₂ := by
  obtain ⟨m₁, m₂, hsplit, hlink⟩ := exists_inorder_linkLeft (x := x) hnodup h
  obtain ⟨rfl, rfl⟩ := split_unique (ht ▸ hnodup) (ht.symm.trans hsplit)
  exact hlink

/-! ## Which slots are vacant -/

omit [DecidableEq α] in
theorem inorder_eq_nil : inorder t = [] ↔ t = .nil := by
  cases t with
  | nil => exact iff_of_true rfl rfl
  | node c l r =>
    refine iff_of_false (fun h => ?_) nofun
    rw [inorder_node, List.append_eq_nil_iff] at h
    cases h.2

/-- The first node has nothing on its left. -/
theorem leftOf_head (hnodup : (inorder t).Nodup) (ht : inorder t = a :: l) :
    leftOf a t = some .nil := by
  induction t generalizing l with
  | nil => cases ht
  | node c u r ihu ihr =>
    rw [inorder_node] at ht
    cases hu : inorder u with
    | nil =>
      rw [hu] at ht
      cases ht
      rw [leftOf, if_pos rfl, inorder_eq_nil.mp hu]
    | cons b m =>
      rw [hu] at ht
      cases ht
      obtain ⟨hc, hr⟩ := node_left hnodup (hu ▸ List.mem_cons_self)
      rw [leftOf_left hc hr]
      exact ihu (nodup_left hnodup) hu

/-- The last node has nothing on its right. -/
theorem rightOf_last (hnodup : (inorder t).Nodup) (ht : inorder t = l ++ [a]) :
    rightOf a t = some .nil := by
  induction t generalizing l with
  | nil =>
    have := congrArg List.length ht
    rw [List.length_append] at this
    cases this
  | node c u r ihu ihr =>
    have hlast : (inorder (.node c u r)).getLast? = some a := by
      rw [ht, List.getLast?_concat]
    rcases List.eq_nil_or_concat' (inorder r) with hr | ⟨m, b, hr⟩
    · rw [inorder_node, hr, List.getLast?_concat] at hlast
      cases hlast
      rw [rightOf, if_pos rfl, inorder_eq_nil.mp hr]
    · rw [inorder_node, hr, ← List.cons_append, ← List.append_assoc, List.getLast?_concat] at hlast
      cases hlast
      obtain ⟨hc, hl⟩ := node_right hnodup (hr ▸ List.mem_append_right _ List.mem_cons_self)
      rw [rightOf_right hc hl]
      exact ihr (nodup_right hnodup) hr

/-- Of two nodes that follow each other, the first one has nothing on its right, or the second one has
nothing on its left. -/
theorem vacant_between (hnodup : (inorder t).Nodup) (ht : inorder t = l₁ ++ a :: b :: l₂) :
    rightOf a t = some .nil ∨ leftOf b t = some .nil := by
  induction t generalizing l₁ l₂ with
  | nil =>
    have := congrArg List.length ht
    rw [List.length_append] at this
    cases this
  | node c u r ihu ihr =>
    -- the root is the first one, or both are on one side, or the root is the second one
    have hroot (hr : inorder r = b :: l₂) : leftOf b (.node c u r) = some .nil := by
      obtain ⟨hc, hl⟩ := node_right hnodup (hr ▸ List.mem_cons_self)
      rw [leftOf_right hc hl]
      exact leftOf_head (nodup_right hnodup) hr
    rw [inorder_node, List.append_eq_append_iff] at ht
    rcases ht with ⟨m, -, hr⟩ | ⟨m, hu, hr⟩
    · cases m with
      | nil =>
        obtain ⟨-, hr⟩ := List.cons.inj hr
        exact .inr (hroot hr)
      | cons d m =>
        obtain ⟨-, hr⟩ := List.cons.inj hr
        have hmem : ∀ d ∈ a :: b :: l₂, d ∈ inorder r := fun d hd =>
          hr ▸ List.mem_append_right _ hd
        obtain ⟨hca, hla⟩ := node_right hnodup (hmem a List.mem_cons_self)
        obtain ⟨hcb, hlb⟩ := node_right hnodup (hmem b (List.mem_cons_of_mem _ List.mem_cons_self))
        rw [rightOf_right hca hla, leftOf_right hcb hlb]
        exact ihr (nodup_right hnodup) hr
    · rcases m with _ | ⟨d, _ | ⟨e, m⟩⟩
      · obtain ⟨-, hr⟩ := List.cons.inj hr
        exact .inr (hroot hr.symm)
      · obtain ⟨rfl, -⟩ := List.cons.inj hr
        obtain ⟨hc, hna⟩ := node_left hnodup (hu ▸ List.mem_append_right _ List.mem_cons_self)
        rw [rightOf_left hc hna]
        exact .inl (rightOf_last (nodup_left hnodup) hu)
      · obtain ⟨rfl, htail⟩ := List.cons.inj hr
        obtain ⟨rfl, -⟩ := List.cons.inj htail
        have hmem : ∀ d ∈ a :: b :: m, d ∈ inorder u := fun d hd =>
          hu ▸ List.mem_append_right _ hd
        obtain ⟨hca, hra⟩ := node_left hnodup (hmem a List.mem_cons_self)
        obtain ⟨hcb, hrb⟩ := node_left hnodup (hmem b (List.mem_cons_of_mem _ List.mem_cons_self))
        rw [rightOf_left hca hra, leftOf_left hcb hrb]
        exact ihu (nodup_left hnodup) hu

end Rtfsc.Machine
