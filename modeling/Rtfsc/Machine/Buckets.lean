import Rtfsc.Machine.Chains

/-!
# Buckets in one chain

Hash tables that keep the nodes of all buckets in one chain: those of a bucket are next to each other
(`Grouped`), and the table knows for each bucket the node before its first one (`before`). A node comes in
before the first one of its bucket or behind another one of it, and here is what either changes, and what
changes when nodes go.
-/

namespace Rtfsc.Machine

variable {α β : Type}

/-! ## Groups -/

/-- Elements with one value of `f` are next to each other. -/
def Grouped (f : α → β) : List α → Prop
  | [] => True
  | x :: l => (∀ y ∈ l, f y = f x → ∃ z, l.head? = some z ∧ f z = f x) ∧ Grouped f l

namespace Grouped

variable {f : α → β} {A B l l' : List α} {p x y z : α}

/-- A new value comes in front. -/
theorem cons (h : Grouped f l) (hnew : ∀ y ∈ l, f y ≠ f p) : Grouped f (p :: l) :=
  ⟨fun y hy heq => absurd heq (hnew y hy), h⟩

theorem right (h : Grouped f (A ++ B)) : Grouped f B := by
  induction A with
  | nil => exact h
  | cons a A ih => exact ih h.2

/-- What is between two elements of a group is of it. -/
theorem between (h : Grouped f (A ++ x :: B)) (hz : z ∈ A) (hy : y ∈ B) (heq : f y = f z) :
    f x = f z := by
  obtain ⟨A₁, A₂, rfl⟩ := List.append_of_mem hz
  rw [List.append_assoc, List.cons_append] at h
  have hfrom := h.right
  clear h hz
  induction A₂ generalizing z with
  | nil =>
    obtain ⟨w, hw, hwz⟩ := hfrom.1 y (List.mem_cons_of_mem x hy) heq
    cases hw
    exact hwz
  | cons a A ih =>
    have hmem : y ∈ a :: (A ++ x :: B) := by simp [hy]
    obtain ⟨w, hw, hwz⟩ := hfrom.1 y hmem heq
    cases hw
    exact (ih (heq.trans hwz.symm) hfrom.2).trans hwz

/-- With one more element in front of one of its group. -/
theorem insertBefore (h : Grouped f (A ++ x :: B)) (hp : f p = f x) : Grouped f (A ++ p :: x :: B) := by
  induction A with
  | nil => exact ⟨fun _ _ _ => ⟨x, rfl, hp.symm⟩, h⟩
  | cons a A ih =>
    refine ⟨fun y hy heq => ?_, ih h.2⟩
    have hold : ∃ y ∈ A ++ x :: B, f y = f a := by
      rcases List.mem_append.mp hy with hy | hy
      · exact ⟨y, List.mem_append_left _ hy, heq⟩
      rcases List.mem_cons.mp hy with rfl | hy
      · exact ⟨x, by simp, hp.symm.trans heq⟩
      · exact ⟨y, List.mem_append_right A hy, heq⟩
    obtain ⟨y', hy', heq'⟩ := hold
    obtain ⟨z, hz, hza⟩ := h.1 y' hy' heq'
    cases A with
    | nil =>
      cases hz
      exact ⟨p, rfl, hp.trans hza⟩
    | cons => exact ⟨z, hz, hza⟩

/-- With one more element behind one of its group. -/
theorem insertAfter (h : Grouped f (A ++ x :: B)) (hp : f p = f x) : Grouped f (A ++ x :: p :: B) := by
  induction A with
  | nil =>
    refine ⟨fun _ _ _ => ⟨p, rfl, hp⟩, fun y hy heq => ?_, h.2⟩
    rw [hp] at heq ⊢
    exact h.1 y hy heq
  | cons a A ih =>
    refine ⟨fun y hy heq => ?_, ih h.2⟩
    have hold : ∃ y ∈ A ++ x :: B, f y = f a := by
      rcases List.mem_append.mp hy with hy | hy
      · exact ⟨y, List.mem_append_left _ hy, heq⟩
      rcases List.mem_cons.mp hy with rfl | hy
      · exact ⟨y, by simp, heq⟩
      rcases List.mem_cons.mp hy with rfl | hy
      · exact ⟨x, by simp, hp.symm.trans heq⟩
      · exact ⟨y, by simp [hy], heq⟩
    obtain ⟨y', hy', heq'⟩ := hold
    obtain ⟨z, hz, hza⟩ := h.1 y' hy' heq'
    cases A with
    | nil => exact ⟨z, hz, hza⟩
    | cons => exact ⟨z, hz, hza⟩

/-- A new value comes in where no group is on both sides. -/
theorem insertNew (h : Grouped f (A ++ B)) (hnew : ∀ y ∈ A ++ B, f y ≠ f p)
    (hapart : ∀ z ∈ A, ∀ y ∈ B, f y ≠ f z) : Grouped f (A ++ p :: B) := by
  induction A with
  | nil => exact h.cons hnew
  | cons a A ih =>
    refine ⟨fun y hy heq => ?_, ih h.2 (fun y hy => hnew y (List.mem_cons_of_mem a hy))
      fun z hz => hapart z (List.mem_cons_of_mem a hz)⟩
    rcases List.mem_append.mp hy with hy | hy
    · obtain ⟨z, hz, hza⟩ := h.1 y (List.mem_append_left B hy) heq
      cases A with
      | nil => cases hy
      | cons => exact ⟨z, hz, hza⟩
    rcases List.mem_cons.mp hy with rfl | hy
    · exact absurd heq.symm (hnew a List.mem_cons_self)
    · exact absurd heq (hapart a List.mem_cons_self y hy)

/-- What is behind elements of other groups has none of its own before them. -/
theorem apart {M : List α} (h : Grouped f (A ++ (M ++ B))) (hz : z ∈ M) (hy : y ∈ B) (hne : f y ≠ f z) :
    ∀ a ∈ A, f a ≠ f y := by
  intro a ha heq
  obtain ⟨C, D, rfl⟩ := List.append_of_mem hz
  have hsplit : A ++ ((C ++ z :: D) ++ B) = (A ++ C) ++ z :: (D ++ B) := by simp
  rw [hsplit] at h
  have hmid := h.between (List.mem_append_left C ha) (List.mem_append_right D hy) heq.symm
  exact hne (heq.symm.trans hmid.symm)

theorem of_between
    (h : ∀ A x B, l = A ++ x :: B → ∀ z ∈ A, ∀ y ∈ B, f y = f z → f x = f z) : Grouped f l := by
  induction l with
  | nil => exact trivial
  | cons x l ih =>
    refine ⟨fun y hy heq => ?_, ih fun A z B hl w hw y hy heq => ?_⟩
    · cases l with
      | nil => cases hy
      | cons z l =>
        refine ⟨z, rfl, ?_⟩
        rcases List.mem_cons.mp hy with rfl | hy
        · exact heq
        · exact h [x] z l rfl x List.mem_cons_self y hy heq
    · exact h (x :: A) z B (by rw [hl]; rfl) w (List.mem_cons_of_mem x hw) y hy heq

/-- Fewer elements in the same order. -/
theorem sublist (h : Grouped f l) (hsub : l'.Sublist l) : Grouped f l' := by
  refine of_between fun A x B hl z hz y hy heq => ?_
  rw [hl, List.append_sublist_iff] at hsub
  obtain ⟨l₁, l₂, rfl, hA, hB⟩ := hsub
  obtain ⟨r₁, r₂, rfl, hx, htail⟩ := List.cons_sublist_iff.mp hB
  obtain ⟨C, D, rfl⟩ := List.append_of_mem hx
  have hsplit : l₁ ++ (C ++ x :: D ++ r₂) = (l₁ ++ C) ++ x :: (D ++ r₂) := by simp
  rw [hsplit] at h
  exact h.between (List.mem_append_left C (hA.subset hz)) (List.mem_append_right D (htail.subset hy)) heq

end Grouped

/-! ## The node before a bucket -/

/-- The last one of the elements, or else the one before them. -/
def lastOf : Option α → List α → Option α
  | pred, [] => pred
  | _, x :: l => lastOf (some x) l

theorem lastOf_concat (pred : Option α) (l : List α) (x : α) : lastOf pred (l ++ [x]) = some x := by
  induction l generalizing pred with
  | nil => rfl
  | cons y l ih => exact ih (some y)

theorem lastOf_ne_none {l : List α} (h : l ≠ []) : lastOf none l ≠ none := by
  obtain rfl | ⟨l, x, rfl⟩ := List.eq_nil_or_concat l
  · exact absurd rfl h
  · rw [List.concat_eq_append, lastOf_concat]
    exact Option.some_ne_none x

/-- Without duplicates the last one says which of the first elements they are. -/
theorem lastOf_eq_iff {A B : List α} (hnodup : (A ++ B).Nodup) :
    lastOf none (A ++ B) = lastOf none A ↔ B = [] := by
  refine ⟨fun h => ?_, fun h => by rw [h, List.append_nil]⟩
  rcases List.eq_nil_or_concat B with rfl | ⟨B, y, rfl⟩
  · rfl
  rw [List.concat_eq_append] at h hnodup
  rw [← List.append_assoc, lastOf_concat] at h
  rcases List.eq_nil_or_concat A with rfl | ⟨A, x, rfl⟩
  · cases h
  · rw [List.concat_eq_append, lastOf_concat] at h
    cases h
    simp [List.nodup_append] at hnodup

variable [DecidableEq β]

/-- The node before the first one of bucket `b`, of nodes behind `pred`; nothing if there are none of it. -/
def before (f : α → β) (b : β) : Option α → List α → Option (Option α)
  | _, [] => none
  | pred, x :: l => if f x = b then some pred else before f b (some x) l

section Before

variable {f : α → β} {b : β} {pred pred' q : Option α} {A B l : List α} {p x y : α}

theorem before_eq_none : before f b pred l = none ↔ ∀ x ∈ l, f x ≠ b := by
  induction l generalizing pred with
  | nil => simp [before]
  | cons x l ih =>
    rw [before, List.forall_mem_cons]
    split
    next heq => exact iff_of_false (Option.some_ne_none _) fun h => h.1 heq
    next hne => exact ih.trans (and_iff_right hne).symm

theorem before_eq_some (h : before f b pred l = some q) :
    ∃ A x B, l = A ++ x :: B ∧ f x = b ∧ (∀ a ∈ A, f a ≠ b) ∧ lastOf pred A = q := by
  induction l generalizing pred with
  | nil => cases h
  | cons x l ih =>
    rw [before] at h
    split at h
    next heq =>
      cases h
      exact ⟨[], x, l, rfl, heq, fun a ha => absurd ha List.not_mem_nil, rfl⟩
    next hne =>
      obtain ⟨A, y, B, rfl, hy, hA, hq⟩ := ih h
      exact ⟨x :: A, y, B, rfl, hy, List.forall_mem_cons.mpr ⟨hne, hA⟩, hq⟩

theorem before_append_of_not_mem (h : ∀ a ∈ A, f a ≠ b) :
    before f b pred (A ++ B) = before f b (lastOf pred A) B := by
  induction A generalizing pred with
  | nil => rfl
  | cons a A ih =>
    rw [List.forall_mem_cons] at h
    rw [List.cons_append, before, if_neg h.1]
    exact ih h.2

theorem before_append_of_mem (h : ∃ a ∈ A, f a = b) :
    before f b pred (A ++ B) = before f b pred A := by
  induction A generalizing pred with
  | nil => simp at h
  | cons a A ih =>
    rw [List.cons_append, before, before]
    split
    · rfl
    next hne =>
      obtain ⟨x, hx, hxb⟩ := h
      rcases List.mem_cons.mp hx with rfl | hx
      · exact absurd hxb hne
      · exact ih ⟨x, hx, hxb⟩

/-- Only the bucket of the first element knows what is before. -/
theorem before_pred_cons (pred : Option α) :
    before f b pred' (x :: l) =
      Function.update (fun b => before f b pred (x :: l)) (f x) (some pred') b := by
  rw [before]
  split
  next heq => rw [← heq, Function.update_self]
  next hne =>
    rw [Function.update_of_ne (Ne.symm hne), before, if_neg hne]

/-- A node of a new bucket comes in front. -/
theorem before_cons_new (hnew : ∀ x ∈ l, f x ≠ f p) :
    (fun b => before f b none (p :: l)) =
      match l.head? with
      | none => Function.update (fun b => before f b none l) (f p) (some none)
      | some y => Function.update (Function.update (fun b => before f b none l) (f p) (some none)) (f y)
        (some (some p)) := by
  funext b
  rw [before]
  cases l with
  | nil =>
    dsimp only [List.head?_nil]
    split
    next heq => rw [← heq, Function.update_self]
    next hne => rw [Function.update_of_ne (Ne.symm hne)]; rfl
  | cons y l =>
    dsimp only [List.head?_cons]
    split
    next heq =>
      have hy := hnew y List.mem_cons_self
      rw [← heq, Function.update_of_ne hy.symm, Function.update_self]
    next hne =>
      rw [before_pred_cons none]
      rcases eq_or_ne b (f y) with rfl | hby
      · rw [Function.update_self, Function.update_self]
      · rw [Function.update_of_ne hby, Function.update_of_ne hby, Function.update_of_ne (Ne.symm hne)]

/-- A node comes in before the first one of its bucket. -/
theorem before_insertBefore (hp : f p = f x) :
    before f b pred (A ++ p :: x :: B) = before f b pred (A ++ x :: B) := by
  by_cases hmem : ∃ a ∈ A, f a = b
  · rw [before_append_of_mem hmem, before_append_of_mem hmem]
  have hnot : ∀ a ∈ A, f a ≠ b := fun a ha heq => hmem ⟨a, ha, heq⟩
  rw [before_append_of_not_mem hnot, before_append_of_not_mem hnot, before, before, before, hp]
  split <;> rfl

/-- What a node that comes in behind another one of its bucket may change. -/
theorem before_insertAfter (pred : Option α) (A B : List α) (b : β) (hp : f p = f x) :
    (∃ a ∈ A ++ [x], f a = b) ∧ before f b pred (A ++ x :: p :: B) = before f b pred (A ++ x :: B) ∨
      (∀ a ∈ A ++ [x], f a ≠ b) ∧ before f b pred (A ++ x :: p :: B) = before f b (some p) B ∧
        before f b pred (A ++ x :: B) = before f b (some x) B := by
  have hsplit : ∀ C : List α, A ++ x :: C = (A ++ [x]) ++ C := fun C => by simp
  by_cases hmem : ∃ a ∈ A ++ [x], f a = b
  · refine .inl ⟨hmem, ?_⟩
    rw [hsplit (p :: B), hsplit B, before_append_of_mem hmem, before_append_of_mem hmem]
  · have hnot : ∀ a ∈ A ++ [x], f a ≠ b := fun a ha heq => hmem ⟨a, ha, heq⟩
    have hxb : f x ≠ b := hnot x (by simp)
    refine .inr ⟨hnot, ?_, ?_⟩
    · rw [hsplit (p :: B), before_append_of_not_mem hnot, lastOf_concat, before, if_neg (hp ▸ hxb)]
    · rw [hsplit B, before_append_of_not_mem hnot, lastOf_concat]

/-- Not behind the last one of a bucket, or behind the last one of all. -/
theorem before_insertAfter_same (hp : f p = f x) (hhead : ∀ y, B.head? = some y → f y = f x) :
    before f b pred (A ++ x :: p :: B) = before f b pred (A ++ x :: B) := by
  rcases before_insertAfter pred A B b hp with
    ⟨-, hsame⟩ | ⟨hnot, hnew, hold⟩
  · exact hsame
  · rw [hnew, hold]
    cases B with
    | nil => rfl
    | cons y B =>
      have hyb : f y ≠ b := (hhead y rfl).symm ▸ hnot x (by simp)
      rw [before, before, if_neg hyb, if_neg hyb]

/-- Behind the last one of a bucket, before the one of `y`, which has another node before it then. -/
theorem before_insertAfter_last (hgroup : Grouped f (A ++ x :: B)) (hp : f p = f x)
    (hhead : B.head? = some y) (hne : f y ≠ f x) :
    (fun b => before f b pred (A ++ x :: p :: B)) =
      Function.update (fun b => before f b pred (A ++ x :: B)) (f y) (some (some p)) := by
  have hnotbefore : ∀ a ∈ A ++ [x], f a ≠ f y := by
    intro a ha hay
    rcases List.mem_append.mp ha with ha | ha
    · exact hne (hay.symm.trans (hgroup.between ha (List.mem_of_mem_head? hhead) hay.symm).symm)
    · rw [List.mem_singleton.mp ha] at hay
      exact hne hay.symm
  obtain ⟨B, rfl⟩ : ∃ B', B = y :: B' := by
    cases B with
    | nil => cases hhead
    | cons z B =>
      cases hhead
      exact ⟨B, rfl⟩
  funext b
  rcases before_insertAfter pred A (y :: B) b hp with
    ⟨⟨a, ha, hab⟩, hsame⟩ | ⟨hnot, hnew, hold⟩
  · have hby : b ≠ f y := fun heq => hnotbefore a ha (hab.trans heq)
    rw [hsame, Function.update_of_ne hby]
  · rw [hnew, before_pred_cons (some x)]
    rcases eq_or_ne b (f y) with rfl | hby
    · rw [Function.update_self, Function.update_self]
    · rw [Function.update_of_ne hby, Function.update_of_ne hby, hold]

end Before

/-! ## Nodes that go -/

section Remove

variable {f : α → β} {b c : β} {A M B : List α} {y : α}

/-- The bucket of the nodes that go in front of `B` knows the node before them. -/
theorem before_eq_lastOf (hnodup : (A ++ B).Nodup) (hhead : B.head? = some y) :
    before f (f y) none (A ++ B) = some (lastOf none A) ↔ ∀ a ∈ A, f a ≠ f y := by
  obtain ⟨B, rfl⟩ : ∃ B', B = y :: B' := ⟨B.tail, List.eq_cons_of_mem_head? hhead⟩
  refine ⟨fun h a ha heq => ?_, fun h => ?_⟩
  · obtain ⟨C, x, D, hsplit, hx, hC, hlast⟩ :=
      before_eq_some ((before_append_of_mem ⟨a, ha, heq⟩).symm.trans h)
    rw [hsplit] at hlast hnodup
    have hnodup' : (C ++ x :: D).Nodup := (List.nodup_append.mp hnodup).1
    exact absurd ((lastOf_eq_iff hnodup').mp hlast.symm) (List.cons_ne_nil x D)
  · rw [before_append_of_not_mem h, before, if_pos rfl]

theorem before_remove_of_mem (h : ∃ a ∈ A, f a = b) :
    before f b none (A ++ B) = before f b none (A ++ (M ++ B)) := by
  rw [before_append_of_mem h, before_append_of_mem h]

theorem before_remove_head (hhead : B.head? = some y) (hA : ∀ a ∈ A, f a ≠ f y) :
    before f (f y) none (A ++ B) = some (lastOf none A) := by
  obtain ⟨B, rfl⟩ : ∃ B', B = y :: B' := ⟨B.tail, List.eq_cons_of_mem_head? hhead⟩
  rw [before_append_of_not_mem hA, before, if_pos rfl]

/-- What is before the buckets when the nodes `M` of the bucket `c` have gone: what was before, where the
bucket has nodes in `A`; else the last one of `A`, where `B` begins with it. -/
theorem before_remove (hgroup : Grouped f (A ++ (M ++ B))) (hM : M ≠ []) (hrun : ∀ m ∈ M, f m = c) (b : β) :
    (∃ a ∈ A, f a = b) ∧ (b ≠ c → ∀ y, B.head? = some y → f y ≠ b) ∧
        before f b none (A ++ B) = before f b none (A ++ (M ++ B)) ∨
      (∀ a ∈ A, f a ≠ b) ∧
        ((∃ y, B.head? = some y ∧ f y = b) ∧ before f b none (A ++ B) = some (lastOf none A) ∨
          (∀ y, B.head? = some y → f y ≠ b) ∧
            before f b none (A ++ B) = if b = c then none else before f b none (A ++ (M ++ B))) := by
  obtain ⟨m, hm⟩ := List.exists_mem_of_ne_nil M hM
  by_cases hA : ∃ a ∈ A, f a = b
  · refine .inl ⟨hA, fun hb y hy heq => ?_, before_remove_of_mem hA⟩
    obtain ⟨a, ha, hab⟩ := hA
    have hne : f y ≠ f m := fun hym => hb (heq.symm.trans (hym.trans (hrun m hm)))
    exact hgroup.apart hm (List.mem_of_mem_head? hy) hne a ha (hab.trans heq.symm)
  have hnot : ∀ a ∈ A, f a ≠ b := fun a ha heq => hA ⟨a, ha, heq⟩
  refine .inr ⟨hnot, ?_⟩
  by_cases hhead : ∃ y, B.head? = some y ∧ f y = b
  · refine .inl ⟨hhead, ?_⟩
    obtain ⟨y, hy, rfl⟩ := hhead
    exact before_remove_head hy hnot
  have hfirst : ∀ y, B.head? = some y → f y ≠ b := fun y hy heq => hhead ⟨y, hy, heq⟩
  refine .inr ⟨hfirst, ?_⟩
  split
  next hbc =>
    subst hbc
    rw [before_eq_none, List.forall_mem_append]
    refine ⟨hnot, fun z hz hzb => ?_⟩
    cases B with
    | nil => cases hz
    | cons y B =>
      rcases List.mem_cons.mp hz with rfl | hz
      · exact hfirst z rfl hzb
      · exact hfirst y rfl ((hgroup.right.between hm hz (hzb.trans (hrun m hm).symm)).trans (hrun m hm))
  next hbc =>
    have hnotM : ∀ m ∈ M, f m ≠ b := fun m hm heq => hbc (heq.symm.trans (hrun m hm))
    rw [before_append_of_not_mem hnot, before_append_of_not_mem hnot, before_append_of_not_mem hnotM]
    cases B with
    | nil => rfl
    | cons y B =>
      have hyb := hfirst y rfl
      rw [before, before, if_neg hyb, if_neg hyb]

end Remove

end Rtfsc.Machine
