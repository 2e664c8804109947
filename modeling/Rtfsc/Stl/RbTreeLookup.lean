import Rtfsc.Stl.RbTreeHint

/-!
# Lookups

A sequence that is sorted by a strict weak order falls into the lesser keys, the equivalent ones and the
greater ones. `_M_lower_bound`, `_M_upper_bound`, `equal_range` and `find` come to where one part ends and
the next begins.
-/

namespace Rtfsc.Stl

open Rtfsc.Machine BinaryTree

variable {N K : Type}

/-! ## The functions -/

/-- The loop of `_M_lower_bound` and of `_M_upper_bound`: the last node at which it went left. -/
def boundFrom (goesLeft : N → Bool) : BinaryTree N → RbPtr N → RbPtr N
  | .nil, y => y
  | .node n l r, y => if goesLeft n then boundFrom goesLeft l (.node n) else boundFrom goesLeft r y

section Lookups

variable (key : N → K) (keyCompare : K → K → Bool)

/-- `_M_lower_bound` -/
def mLowerBound (x : BinaryTree N) (y : RbPtr N) (k : K) : RbPtr N :=
  boundFrom (fun n => !keyCompare (key n) k) x y

/-- `_M_upper_bound` -/
def mUpperBound (x : BinaryTree N) (y : RbPtr N) (k : K) : RbPtr N :=
  boundFrom (fun n => keyCompare k (key n)) x y

/-- The loop of `equal_range`. -/
def equalRangeFrom (k : K) : BinaryTree N → RbPtr N → RbPtr N × RbPtr N
  | .nil, y => (y, y)
  | .node n l r, y =>
    if keyCompare (key n) k then equalRangeFrom k r y
    else if keyCompare k (key n) then equalRangeFrom k l (.node n)
    else (mLowerBound key keyCompare l (.node n) k, mUpperBound key keyCompare r y k)

variable (t : RbTree N) (k : K)

/-- `lower_bound` -/
def lowerBound : RbPtr N := mLowerBound key keyCompare t.root .header k

/-- `upper_bound` -/
def upperBound : RbPtr N := mUpperBound key keyCompare t.root .header k

/-- `equal_range` -/
def equalRange : RbPtr N × RbPtr N := equalRangeFrom key keyCompare k t.root .header

/-- `find` -/
def find : RbPtr N :=
  match mLowerBound key keyCompare t.root .header k with
  | .node n => if keyCompare k (key n) then .header else .node n
  | _ => .header

end Lookups

/-! ## Sequences that fall into two parts -/

variable {key : N → K} {keyCompare : K → K → Bool} {goesLeft : N → Bool}
variable {front behind l : List N} {a n : N} {y : RbPtr N} {k : K}

/-- The pointer to the first of some nodes, or another one. -/
def firstOr (y : RbPtr N) : List N → RbPtr N
  | [] => y
  | n :: _ => .node n

theorem firstOr_header (l : List N) : firstOr .header l = firstPtr l := by
  cases l with
  | nil => rfl
  | cons n l => rfl

/-- The walk goes right in the first part and left in the second one. -/
structure Parts (goesLeft : N → Bool) (front behind : List N) : Prop where
  front : ∀ n ∈ front, goesLeft n = false
  behind : ∀ n ∈ behind, goesLeft n = true

/-- Where the walk goes left at a node, the second part has begun before it. -/
theorem Parts.left {l r : List N} (h : Parts goesLeft front behind)
    (hsplit : l ++ a :: r = front ++ behind) (ha : goesLeft a = true) :
    ∃ m, l = front ++ m ∧ behind = m ++ a :: r := by
  rcases List.append_eq_append_iff.mp hsplit with ⟨m, hfront, hbehind⟩ | ⟨m, hl, hbehind⟩
  · cases m with
    | nil => exact ⟨[], by simpa using hfront.symm, by simpa using hbehind.symm⟩
    | cons b m =>
      obtain ⟨rfl, -⟩ := List.cons.inj hbehind
      have hright := h.front a (by simp [hfront])
      rw [ha] at hright
      cases hright
  · exact ⟨m, hl, hbehind⟩

/-- Where the walk goes right at a node, the first part has not ended before it. -/
theorem Parts.right {l r : List N} (h : Parts goesLeft front behind)
    (hsplit : l ++ a :: r = front ++ behind) (ha : goesLeft a = false) :
    ∃ m, front = l ++ a :: m ∧ r = m ++ behind := by
  rcases List.append_eq_append_iff.mp hsplit with ⟨m, hfront, hbehind⟩ | ⟨m, hl, hbehind⟩
  · cases m with
    | nil =>
      have hbehind : behind = a :: r := hbehind.symm
      have hleft := h.behind a (hbehind ▸ List.mem_cons_self)
      rw [ha] at hleft
      cases hleft
    | cons b m =>
      obtain ⟨rfl, hr⟩ := List.cons.inj hbehind
      exact ⟨m, hfront, hr⟩
  · have hleft := h.behind a (by simp [hbehind])
    rw [ha] at hleft
    cases hleft

theorem boundFrom_eq {t : BinaryTree N} (h : Parts goesLeft front behind)
    (hsplit : inorder t = front ++ behind) : boundFrom goesLeft t y = firstOr y behind := by
  induction t generalizing front behind y with
  | nil =>
    obtain ⟨-, rfl⟩ := List.append_eq_nil_iff.mp hsplit.symm
    rfl
  | node a l r ihl ihr =>
    by_cases ha : goesLeft a = true
    · obtain ⟨m, hl, rfl⟩ := h.left hsplit ha
      rw [boundFrom, if_pos ha, ihl ⟨h.front, fun n hn => h.behind n (by simp [hn])⟩ hl]
      cases m with
      | nil => rfl
      | cons b m => rfl
    · rw [boundFrom, if_neg ha]
      obtain ⟨m, rfl, hr⟩ := h.right hsplit (Bool.eq_false_iff.mpr ha)
      exact ihr ⟨fun n hn => h.front n (by simp [hn]), h.behind⟩ hr

/-- A sequence in which the walk never goes right again falls into two parts. -/
theorem exists_parts (h : l.Pairwise fun a b => goesLeft a = true → goesLeft b = true) :
    ∃ front behind, l = front ++ behind ∧ Parts goesLeft front behind := by
  induction l with
  | nil => exact ⟨[], [], rfl, nofun, nofun⟩
  | cons a l ih =>
    obtain ⟨hall, hrest⟩ := List.pairwise_cons.mp h
    by_cases ha : goesLeft a = true
    · refine ⟨[], a :: l, rfl, nofun, fun n hn => ?_⟩
      rcases List.mem_cons.mp hn with rfl | hn
      · exact ha
      · exact hall n hn ha
    · obtain ⟨front, behind, rfl, hparts⟩ := ih hrest
      refine ⟨a :: front, behind, rfl, fun n hn => ?_, hparts.behind⟩
      rcases List.mem_cons.mp hn with rfl | hn
      · exact Bool.eq_false_iff.mpr ha
      · exact hparts.front n hn

/-! ## Sorted sequences -/

/-- No key comes before one that is in front of it. -/
def Sorted (key : N → K) (keyCompare : K → K → Bool) (l : List N) : Prop :=
  l.Pairwise fun a b => keyCompare (key b) (key a) = false

/-- The lesser, the equivalent and the greater keys. -/
structure Thirds (key : N → K) (keyCompare : K → K → Bool) (k : K) (lesser equal greater : List N) :
    Prop where
  lesser : ∀ n ∈ lesser, keyCompare (key n) k = true
  equal : ∀ n ∈ equal, Equivalent keyCompare (key n) k
  greater : ∀ n ∈ greater, keyCompare k (key n) = true

section Order

variable (horder : IsStrictWeakOrder K fun a b => keyCompare a b = true)

include horder

/-- Of two keys of which one comes before the other, every key is behind the first one or in front of the
second one. -/
theorem keyCompare_or {b c : K} (hbc : keyCompare b c = true) (a : K) :
    keyCompare b a = true ∨ keyCompare a c = true := by
  by_contra hnot
  obtain ⟨hba, hac⟩ := not_or.mp hnot
  have hab : ¬keyCompare a b = true := fun hab => hac (keyCompare_trans horder hab hbc)
  have hca : ¬keyCompare c a = true := fun hca => hba (keyCompare_trans horder hbc hca)
  exact (horder.incomp_trans b a c ⟨hba, hab⟩ ⟨hac, hca⟩).1 hbc

/-- A sorted sequence falls into the lesser, the equivalent and the greater keys. -/
theorem exists_thirds (hsorted : Sorted key keyCompare l) (k : K) :
    ∃ lesser equal greater, l = lesser ++ (equal ++ greater) ∧
      Thirds key keyCompare k lesser equal greater := by
  have hstays : l.Pairwise fun a b =>
      (!keyCompare (key a) k) = true → (!keyCompare (key b) k) = true := by
    refine hsorted.imp fun {a b} hba hak => ?_
    by_contra hbk
    rcases keyCompare_or horder (by simpa using hbk) (key a) with hlt | hlt
    · simp [hlt] at hba
    · simp [hlt] at hak
  obtain ⟨lesser, rest, rfl, hlower⟩ := exists_parts hstays
  have hstays : rest.Pairwise fun a b =>
      keyCompare k (key a) = true → keyCompare k (key b) = true := by
    refine (List.pairwise_append.mp hsorted).2.1.imp fun {a b} hba hka => ?_
    exact (keyCompare_or horder hka (key b)).resolve_right (by simp [hba])
  obtain ⟨equal, greater, rfl, hupper⟩ := exists_parts hstays
  refine ⟨lesser, equal, greater, rfl, ?_, ?_, hupper.behind⟩
  · intro n hn
    simpa using hlower.front n hn
  · intro n hn
    exact ⟨by simpa using hlower.behind n (by simp [hn]), hupper.front n hn⟩

theorem Thirds.lowerParts {lesser equal greater : List N}
    (h : Thirds key keyCompare k lesser equal greater) :
    Parts (fun n => !keyCompare (key n) k) lesser (equal ++ greater) where
  front n hn := by simp [h.lesser n hn]
  behind n hn := by
    rcases List.mem_append.mp hn with hn | hn
    · simp [(h.equal n hn).1]
    · simp [keyCompare_asymm horder (h.greater n hn)]

theorem Thirds.upperParts {lesser equal greater : List N}
    (h : Thirds key keyCompare k lesser equal greater) :
    Parts (fun n => keyCompare k (key n)) (lesser ++ equal) greater where
  front n hn := by
    rcases List.mem_append.mp hn with hn | hn
    · exact keyCompare_asymm horder (h.lesser n hn)
    · exact (h.equal n hn).2
  behind := h.greater

/-! ## Where the lookups come to -/

theorem equalRangeFrom_eq (t : BinaryTree N) (y : RbPtr N) (k : K) :
    equalRangeFrom key keyCompare k t y =
      (mLowerBound key keyCompare t y k, mUpperBound key keyCompare t y k) := by
  induction t generalizing y with
  | nil => rfl
  | node n l r ihl ihr =>
    unfold mLowerBound mUpperBound at *
    rw [equalRangeFrom, boundFrom, boundFrom]
    by_cases hnk : keyCompare (key n) k = true
    · simp [hnk, keyCompare_asymm horder hnk, ihr]
    · by_cases hkn : keyCompare k (key n) = true
      · simp [hnk, hkn, ihl]
      · simp [hnk, hkn, mLowerBound, mUpperBound]

section Tree

variable {t : RbTree N} {lesser equal greater : List N}
  (hthirds : Thirds key keyCompare k lesser equal greater)
  (hsplit : inorder t.root = lesser ++ (equal ++ greater))

include hthirds hsplit

theorem lowerBound_eq : lowerBound key keyCompare t k = firstPtr (equal ++ greater) := by
  unfold lowerBound mLowerBound
  rw [boundFrom_eq (hthirds.lowerParts horder) hsplit, firstOr_header]

theorem upperBound_eq : upperBound key keyCompare t k = firstPtr greater := by
  unfold upperBound mUpperBound
  rw [boundFrom_eq (hthirds.upperParts horder) (by rw [hsplit, List.append_assoc]), firstOr_header]

theorem find_eq : find key keyCompare t k = firstPtr equal := by
  have hlower := lowerBound_eq horder hthirds hsplit
  unfold lowerBound at hlower
  rw [find, hlower]
  cases equal with
  | nil =>
    cases greater with
    | nil => rfl
    | cons n greater => simp [firstPtr, hthirds.greater n List.mem_cons_self]
  | cons n equal => simp [firstPtr, (hthirds.equal n List.mem_cons_self).2]

end Tree

end Order

end Rtfsc.Stl
