import Rtfsc.Machine.Links

/-!
# Several chains over one field

Nodes with one link each, in any number of chains that have no node in common. Nodes are put into
a chain and taken out of it by writing the link of the node in front, or the head.
-/

namespace Rtfsc.Machine

variable {α ι : Type} {next : α → Option α} {head prev p : Option α} {a b : α} {l l₁ l₂ : List α}

/-! ## Walks -/

/-- The walk from `p` on to the first node at which it does not go on, or to the end, with the node in
front of it. It gives nothing when it takes more than `fuel` steps. -/
def walk (next : α → Option α) (goesOn : α → Bool) :
    Nat → Option α → Option α → Option (Option α × Option α)
  | _, prev, none => some (prev, none)
  | 0, _, some _ => none
  | fuel + 1, prev, some p =>
    if goesOn p then walk next goesOn fuel (some p) (next p) else some (prev, some p)

theorem walk_eq {goesOn : α → Bool} {fuel : Nat} (h : Links next p l) (hfuel : l.length ≤ fuel) :
    walk next goesOn fuel prev p =
      some ((l.takeWhile goesOn).getLast?.or prev, (l.dropWhile goesOn).head?) := by
  induction l generalizing p prev fuel with
  | nil =>
    cases (show p = none from h)
    cases fuel <;> rfl
  | cons a l ih =>
    obtain ⟨rfl, hl⟩ := h
    cases fuel with
    | zero => cases hfuel
    | succ fuel =>
      rw [walk]
      cases hgo : goesOn a with
      | false => simp [hgo]
      | true =>
        rw [if_pos rfl, ih hl (Nat.le_of_succ_le_succ hfuel)]
        simp only [List.takeWhile_cons_of_pos hgo, List.dropWhile_cons_of_pos hgo,
          List.getLast?_cons]
        cases (l.takeWhile goesOn).getLast? <;> rfl

/-! ## One chain -/

namespace Links

theorem head_eq (h : Links next head l) : head = l.head? := by
  cases l with
  | nil => exact h
  | cons a l => exact h.1

theorem suffix (h : Links next head (l₁ ++ l₂)) : Links next l₂.head? l₂ := by
  induction l₁ generalizing head with
  | nil => exact h.head_eq ▸ h
  | cons b l₁ ih => exact ih h.2

theorem next_eq (h : Links next head (l₁ ++ a :: l₂)) : next a = l₂.head? := by
  induction l₁ generalizing head with
  | nil => exact h.2.head_eq
  | cons b l₁ ih => exact ih h.2

variable [DecidableEq α]

/-- A node is put behind another one. -/
theorem insertBehind (h : Links next head (l₁ ++ b :: l₂)) (hnodup : (l₁ ++ b :: l₂).Nodup)
    (ha : a ∉ l₁ ++ b :: l₂) :
    Links (Function.update (Function.update next a (next b)) b (some a)) head
      (l₁ ++ b :: a :: l₂) := by
  induction l₁ generalizing head with
  | nil =>
    obtain ⟨hhead, htail⟩ := h
    rw [List.nil_append, List.nodup_cons] at hnodup
    rw [List.nil_append, List.mem_cons, not_or] at ha
    refine ⟨hhead, ?_, ?_⟩
    · rw [Function.update_self]
    · rw [Function.update_of_ne ha.1, Function.update_self]
      exact (htail.update ha.2 _).update hnodup.1 _
  | cons c l₁ ih =>
    rw [List.cons_append, List.nodup_cons] at hnodup
    rw [List.cons_append, List.mem_cons, not_or] at ha
    have hcb : c ≠ b := fun heq => hnodup.1 (heq ▸ List.mem_append_right _ List.mem_cons_self)
    refine ⟨h.1, ?_⟩
    rw [Function.update_of_ne hcb, Function.update_of_ne (Ne.symm ha.1)]
    exact ih h.2 hnodup.2 ha.2

/-- The node behind another one is taken out. -/
theorem removeBehind (h : Links next head (l₁ ++ b :: a :: l₂))
    (hnodup : (l₁ ++ b :: a :: l₂).Nodup) :
    Links (Function.update next b (next a)) head (l₁ ++ b :: l₂) := by
  induction l₁ generalizing head with
  | nil =>
    obtain ⟨hhead, -, htail⟩ := h
    rw [List.nil_append, List.nodup_cons, List.mem_cons, not_or] at hnodup
    refine ⟨hhead, ?_⟩
    rw [Function.update_self]
    exact htail.update hnodup.1.2 _
  | cons c l₁ ih =>
    rw [List.cons_append, List.nodup_cons] at hnodup
    have hcb : c ≠ b := fun heq => hnodup.1 (heq ▸ List.mem_append_right _ List.mem_cons_self)
    refine ⟨h.1, ?_⟩
    rw [Function.update_of_ne hcb]
    exact ih h.2 hnodup.2

/-- All the nodes between another one and the rest are taken out. -/
theorem cutBehind (h : Links next head (l₁ ++ b :: (l ++ l₂))) (hnodup : (l₁ ++ b :: (l ++ l₂)).Nodup) :
    Links (Function.update next b l₂.head?) head (l₁ ++ b :: l₂) := by
  induction l₁ generalizing head with
  | nil =>
    obtain ⟨hhead, htail⟩ := h
    rw [List.nil_append, List.nodup_cons, List.mem_append, not_or] at hnodup
    refine ⟨hhead, ?_⟩
    rw [Function.update_self]
    exact htail.suffix.update hnodup.1.2 _
  | cons c l₁ ih =>
    rw [List.cons_append, List.nodup_cons] at hnodup
    have hcb : c ≠ b := fun heq => hnodup.1 (heq ▸ List.mem_append_right _ List.mem_cons_self)
    refine ⟨h.1, ?_⟩
    rw [Function.update_of_ne hcb]
    exact ih h.2 hnodup.2

end Links

/-! ## All chains -/

/-- The chains are linked, no node is twice in one, and none is in two. -/
structure Chains (next : α → Option α) (head : ι → Option α) (chain : ι → List α) : Prop where
  links : ∀ i, Links next (head i) (chain i)
  nodup : ∀ i, (chain i).Nodup
  apart : ∀ i j a, a ∈ chain i → a ∈ chain j → i = j

namespace Chains

variable {head : ι → Option α} {chain : ι → List α} {i : ι}

/-- What is on none of the chains may be linked in any way. -/
theorem write [DecidableEq α] (h : Chains next head chain) (ha : ∀ j, a ∉ chain j) (v : Option α) :
    Chains (Function.update next a v) head chain :=
  ⟨fun j => (h.links j).update (ha j) v, h.nodup, h.apart⟩

variable [DecidableEq ι]

/-- One chain is replaced by a chain of its nodes and of nodes on none. -/
theorem replace {next' : α → Option α} {v : Option α} (h : Chains next head chain)
    (hlinks : Links next' v l) (hnodup : l.Nodup)
    (hold : ∀ a ∈ l, ∀ j, a ∈ chain j → j = i)
    (hsame : ∀ j, j ≠ i → ∀ a ∈ chain j, next' a = next a) :
    Chains next' (Function.update head i v) (Function.update chain i l) where
  links j := by
    rcases eq_or_ne j i with rfl | hne
    · rw [Function.update_self, Function.update_self]
      exact hlinks
    · rw [Function.update_of_ne hne, Function.update_of_ne hne]
      exact (h.links j).congr (hsame j hne)
  nodup j := by
    rcases eq_or_ne j i with rfl | hne
    · rw [Function.update_self]
      exact hnodup
    · rw [Function.update_of_ne hne]
      exact h.nodup j
  apart j k a hj hk := by
    rcases eq_or_ne j i with rfl | hji <;> rcases eq_or_ne k j with rfl | hkj
    · rfl
    · rw [Function.update_self] at hj
      rw [Function.update_of_ne hkj] at hk
      exact (hold a hj k hk).symm
    · rfl
    · rw [Function.update_of_ne hji] at hj
      rcases eq_or_ne k i with rfl | hki
      · rw [Function.update_self] at hk
        exact hold a hk j hj
      · rw [Function.update_of_ne hki] at hk
        exact h.apart j k a hj hk

/-- A chain keeps some of its nodes, and no link is written but theirs. -/
theorem shrink {next' : α → Option α} {v : Option α} (h : Chains next head chain)
    (hlinks : Links next' v l) (hsub : l.Sublist (chain i))
    (hsame : ∀ a, a ∉ chain i → next' a = next a) :
    Chains next' (Function.update head i v) (Function.update chain i l) :=
  h.replace hlinks (hsub.nodup (h.nodup i)) (fun a ha j hj => h.apart j i a hj (hsub.subset ha))
    fun j hne a ha => hsame a fun hi => hne (h.apart j i a ha hi)

/-- The head of a chain is taken off. -/
theorem pop (h : Chains next head chain) (hi : chain i = a :: l) :
    Chains next (Function.update head i (next a)) (Function.update chain i l) := by
  have hlinks := h.links i
  rw [hi] at hlinks
  exact h.shrink hlinks.2 (hi ▸ List.sublist_cons_self a l) fun _ _ => rfl

variable [DecidableEq α]

/-- A node becomes the head of a chain. -/
theorem push (h : Chains next head chain) (ha : ∀ j, a ∉ chain j) :
    Chains (Function.update next a (head i)) (Function.update head i (some a))
      (Function.update chain i (a :: chain i)) := by
  refine h.replace ((h.links i).push (ha i)) (List.nodup_cons.mpr ⟨ha i, h.nodup i⟩)
    (fun b hb j hj => ?_) fun j _ b hb =>
      Function.update_of_ne (ne_of_mem_of_not_mem hb (ha j)) _ _
  rcases List.mem_cons.mp hb with rfl | hb
  · exact absurd hj (ha j)
  · exact h.apart j i b hj hb

/-- A node is put behind another one. -/
theorem insertBehind (h : Chains next head chain) (hi : chain i = l₁ ++ b :: l₂)
    (ha : ∀ j, a ∉ chain j) :
    Chains (Function.update (Function.update next a (next b)) b (some a)) head
      (Function.update chain i (l₁ ++ b :: a :: l₂)) := by
  have hlinks := h.links i
  have hnodup := h.nodup i
  have hai := ha i
  rw [hi] at hlinks hnodup hai
  have hperm : (l₁ ++ b :: a :: l₂).Perm (a :: (l₁ ++ b :: l₂)) :=
    ((List.Perm.swap a b l₂).append_left l₁).trans List.perm_middle
  have hb : b ∈ chain i := hi ▸ List.mem_append_right _ List.mem_cons_self
  have := h.replace (i := i) (hlinks.insertBehind hnodup hai)
    (hperm.nodup_iff.mpr (List.nodup_cons.mpr ⟨hai, hnodup⟩)) (fun c hc j hj => ?_)
    fun j hne c hc => ?_
  · rwa [Function.update_eq_self] at this
  · rcases List.mem_cons.mp (hperm.subset hc) with rfl | hc
    · exact absurd hj (ha j)
    · exact h.apart j i c hj (hi ▸ hc)
  · have hcb : c ≠ b := by
      rintro rfl
      exact hne (h.apart j i c hc hb)
    rw [Function.update_of_ne hcb, Function.update_of_ne (ne_of_mem_of_not_mem hc (ha j))]

/-- The node behind another one is taken out. -/
theorem removeBehind (h : Chains next head chain) (hi : chain i = l₁ ++ b :: a :: l₂) :
    Chains (Function.update next b (next a)) head
      (Function.update chain i (l₁ ++ b :: l₂)) := by
  have hlinks := h.links i
  have hnodup := h.nodup i
  rw [hi] at hlinks hnodup
  have hsub : (l₁ ++ b :: l₂).Sublist (chain i) := by
    rw [hi]
    exact List.Sublist.append_left ((List.sublist_cons_self a l₂).cons_cons b) l₁
  have := h.shrink (hlinks.removeBehind hnodup) hsub fun c hc =>
    Function.update_of_ne (fun heq : c = b => hc (hi ▸ heq ▸ by simp)) _ _
  rwa [Function.update_eq_self] at this

end Chains

end Rtfsc.Machine
