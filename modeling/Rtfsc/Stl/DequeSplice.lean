import Rtfsc.Stl.DequeTape

/-!
# Insertion and erasure on the tape

An insertion moves the elements before or those behind, as many as fit to places where there were none
and the others to places where there were, and writes the new ones. There are four ways to do so, two for
each side, and after each of them the tape is the list with the new elements in it. An erasure moves the
elements of one side over those that go.
-/

namespace Rtfsc.Stl

open Rtfsc.Machine

variable {T : Type} {ms : MoveSem T} {t t₁ t₂ t₃ : Nat → Option T} {s n i j k : Nat}
  {xs ys zs : List T} {x : T}

/-! ## Lists with a part more or less -/

/-- The list with `ys` before index `i`. -/
def inserted (i : Nat) (ys xs : List T) : List T := xs.take i ++ ys ++ xs.drop i

/-- The list without the elements from `i` on, up to `j`. -/
def erased (i j : Nat) (xs : List T) : List T := xs.take i ++ xs.drop j

theorem length_inserted (hi : i ≤ xs.length) : (inserted i ys xs).length = ys.length + xs.length := by
  rw [inserted, List.length_append, List.length_append, List.length_take, List.length_drop]
  omega

theorem length_erased (hij : i ≤ j) (hj : j ≤ xs.length) :
    (erased i j xs).length + (j - i) = xs.length := by
  rw [erased, List.length_append, List.length_take, List.length_drop]
  omega

theorem getElem?_inserted_before (hi : i ≤ xs.length) (hk : k < i) :
    (inserted i ys xs)[k]? = xs[k]? := by
  rw [inserted, List.append_assoc, List.getElem?_append_left (by rw [List.length_take]; omega),
    List.getElem?_take_of_lt hk]

theorem getElem?_inserted_inside (hi : i ≤ xs.length) (hk : k < ys.length) :
    (inserted i ys xs)[i + k]? = ys[k]? := by
  have hlen : (xs.take i).length = i := List.length_take_of_le hi
  rw [inserted, List.append_assoc, List.getElem?_append_right (by omega), hlen,
    Nat.add_sub_cancel_left, List.getElem?_append_left hk]

theorem getElem?_inserted_after (hi : i ≤ xs.length) (hk : i ≤ k) :
    (inserted i ys xs)[ys.length + k]? = xs[k]? := by
  have hlen : (xs.take i ++ ys).length = i + ys.length := by
    rw [List.length_append, List.length_take_of_le hi]
  rw [inserted, List.getElem?_append_right (by omega), hlen, List.getElem?_drop]
  congr 1
  omega

theorem getElem?_erased_before (hi : i ≤ xs.length) (hk : k < i) : (erased i j xs)[k]? = xs[k]? := by
  rw [erased, List.getElem?_append_left (by rw [List.length_take]; omega), List.getElem?_take_of_lt hk]

theorem getElem?_erased_after (hi : i ≤ xs.length) (hij : i ≤ j) (hk : i ≤ k) :
    (erased i j xs)[k]? = xs[k + (j - i)]? := by
  have hlen : (xs.take i).length = i := List.length_take_of_le hi
  rw [erased, List.getElem?_append_right (by omega), hlen, List.getElem?_drop]
  congr 1
  omega

/-! ## Tapes -/

/-- A tape that holds the list, place by place. -/
theorem eq_laidFrom (hin : ∀ k < zs.length, t (s + k) = zs[k]?)
    (hout : ∀ p, p < s ∨ s + zs.length ≤ p → t p = none) : t = laidFrom s zs := by
  funext p
  by_cases hp : s ≤ p ∧ p < s + zs.length
  · obtain ⟨k, rfl⟩ := Nat.exists_eq_add_of_le hp.1
    rw [laidFrom_add, hin k (by omega)]
  · rw [hout p (by omega), laidFrom_eq_none (by omega)]

/-- The list with the new part, in its three parts. -/
theorem eq_laidFrom_inserted (hi : i ≤ xs.length) (hbefore : ∀ k < i, t (s + k) = xs[k]?)
    (hinside : ∀ k < ys.length, t (s + i + k) = ys[k]?)
    (hafter : ∀ k, i ≤ k → k < xs.length → t (s + ys.length + k) = xs[k]?)
    (hout : ∀ p, p < s ∨ s + ys.length + xs.length ≤ p → t p = none) :
    t = laidFrom s (inserted i ys xs) := by
  refine eq_laidFrom (fun k hk => ?_) fun p hp => hout p (by rw [length_inserted hi] at hp; omega)
  rw [length_inserted hi] at hk
  rcases Nat.lt_or_ge k i with hlt | hge
  · rw [hbefore k hlt, getElem?_inserted_before hi hlt]
  obtain ⟨m, rfl⟩ := Nat.exists_eq_add_of_le hge
  rcases Nat.lt_or_ge m ys.length with hlt | hge
  · rw [← Nat.add_assoc, hinside m hlt, getElem?_inserted_inside hi hlt]
  · obtain ⟨l, rfl⟩ := Nat.exists_eq_add_of_le hge
    have hplace : i + (ys.length + l) = ys.length + (i + l) := Nat.add_left_comm _ _ _
    rw [hplace, ← Nat.add_assoc, hafter (i + l) (Nat.le_add_right _ _) (by omega),
      getElem?_inserted_after hi (Nat.le_add_right _ _)]

theorem eq_laidFrom_erased (hij : i ≤ j) (hj : j ≤ xs.length) (hbefore : ∀ k < i, t (s + k) = xs[k]?)
    (hafter : ∀ k, j ≤ k → k < xs.length → t (s + i + (k - j)) = xs[k]?)
    (hout : ∀ p, p < s ∨ s + i + (xs.length - j) ≤ p → t p = none) : t = laidFrom s (erased i j xs) := by
  have hlen : (erased i j xs).length + (j - i) = xs.length := length_erased hij hj
  refine eq_laidFrom (fun k hk => ?_) fun p hp => hout p (by omega)
  rcases Nat.lt_or_ge k i with hlt | hge
  · rw [hbefore k hlt, getElem?_erased_before (hij.trans hj) hlt]
  · have hplace : s + k = s + i + (k + (j - i) - j) := by omega
    rw [hplace, hafter _ (by omega) (by omega), getElem?_erased_after (hij.trans hj) hij hge]

/-! ## Insertion -/

section Insertion

variable (hi : i ≤ xs.length) (hlen : ys.length = n)
include hi hlen

/-- The elements before go to the front, and those that move at all are at least as many as the new
ones. -/
theorem inserted_front_many (hn : n ≤ i)
    (h₁ : Shifted (s + n) s n (laidFrom (s + n) xs) t₁)
    (h₂ : Shifted (s + n + n) (s + n) (i - n) t₁ t₂)
    (h₃ : Written (s + i) n (ys[·]?) t₂ t₃) : t₃ = laidFrom s (inserted i ys xs) := by
  subst hlen
  refine eq_laidFrom_inserted hi (fun k hk => ?_) (fun k hk => ?_) (fun k hlo hhi => ?_) fun p hp => ?_
  · rw [h₃.kept _ (by omega)]
    rcases Nat.lt_or_ge k ys.length with hlt | hge
    · rw [h₂.kept _ (by omega) (by omega), h₁.dst _ (by omega) (by omega), Nat.add_sub_cancel_left,
        laidFrom_add]
    · rw [h₂.dst _ (by omega) (by omega), h₁.kept _ (by omega) (by omega),
        show s + ys.length + ys.length + (s + k - (s + ys.length)) = s + ys.length + k by omega,
        laidFrom_add]
  · rw [h₃.inside _ (by omega) (by omega), Nat.add_sub_cancel_left]
  · rw [h₃.kept _ (by omega), h₂.kept _ (by omega) (by omega), h₁.kept _ (by omega) (by omega),
      laidFrom_add]
  · rw [h₃.kept _ (by omega), h₂.kept _ (by omega) (by omega), h₁.kept _ (by omega) (by omega),
      laidFrom_eq_none (by omega)]

/-- All elements before go to new places, and some of the new ones do as well. -/
theorem inserted_front_few (hn : i ≤ n)
    (h₁ : Shifted (s + n) s i (laidFrom (s + n) xs) t₁)
    (h₂ : Written (s + i) (n - i) (ys[·]?) t₁ t₂)
    (h₃ : Written (s + n) i (fun k => ys[n - i + k]?) t₂ t₃) :
    t₃ = laidFrom s (inserted i ys xs) := by
  subst hlen
  refine eq_laidFrom_inserted hi (fun k hk => ?_) (fun k hk => ?_) (fun k hlo hhi => ?_) fun p hp => ?_
  · rw [h₃.kept _ (by omega), h₂.kept _ (by omega), h₁.dst _ (by omega) (by omega),
      Nat.add_sub_cancel_left, laidFrom_add]
  · rcases Nat.lt_or_ge k (ys.length - i) with hlt | hge
    · rw [h₃.kept _ (by omega), h₂.inside _ (by omega) (by omega), Nat.add_sub_cancel_left]
    · rw [h₃.inside _ (by omega) (by omega)]
      congr 1
      omega
  · rw [h₃.kept _ (by omega), h₂.kept _ (by omega), h₁.kept _ (by omega) (by omega), laidFrom_add]
  · rw [h₃.kept _ (by omega), h₂.kept _ (by omega), h₁.kept _ (by omega) (by omega),
      laidFrom_eq_none (by omega)]

/-- The elements behind go to the back. -/
theorem inserted_back_many (hn : i + n ≤ xs.length)
    (h₁ : Shifted (s + (xs.length - n)) (s + xs.length) n (laidFrom s xs) t₁)
    (h₂ : Shifted (s + i) (s + i + n) (xs.length - n - i) t₁ t₂)
    (h₃ : Written (s + i) n (ys[·]?) t₂ t₃) : t₃ = laidFrom s (inserted i ys xs) := by
  subst hlen
  refine eq_laidFrom_inserted hi (fun k hk => ?_) (fun k hk => ?_) (fun k hlo hhi => ?_) fun p hp => ?_
  · rw [h₃.kept _ (by omega), h₂.kept _ (by omega) (by omega), h₁.kept _ (by omega) (by omega),
      laidFrom_add]
  · rw [h₃.inside _ (by omega) (by omega), Nat.add_sub_cancel_left]
  · rw [h₃.kept _ (by omega)]
    rcases Nat.lt_or_ge k (xs.length - ys.length) with hlt | hge
    · rw [h₂.dst _ (by omega) (by omega), h₁.kept _ (by omega) (by omega),
        show s + i + (s + ys.length + k - (s + i + ys.length)) = s + k by omega, laidFrom_add]
    · rw [h₂.kept _ (by omega) (by omega), h₁.dst _ (by omega) (by omega),
        show s + (xs.length - ys.length) + (s + ys.length + k - (s + xs.length)) = s + k by omega,
        laidFrom_add]
  · rw [h₃.kept _ (by omega), h₂.kept _ (by omega) (by omega), h₁.kept _ (by omega) (by omega),
      laidFrom_eq_none (by omega)]

/-- The last ones of the new elements are written before the elements behind are moved. -/
theorem inserted_back_few (hn : xs.length ≤ i + n)
    (h₁ : Written (s + xs.length) (i + n - xs.length)
      (fun k => ys[xs.length - i + k]?) (laidFrom s xs) t₁)
    (h₂ : Shifted (s + i) (s + i + n) (xs.length - i) t₁ t₂)
    (h₃ : Written (s + i) (xs.length - i) (ys[·]?) t₂ t₃) : t₃ = laidFrom s (inserted i ys xs) := by
  subst hlen
  refine eq_laidFrom_inserted hi (fun k hk => ?_) (fun k hk => ?_) (fun k hlo hhi => ?_) fun p hp => ?_
  · rw [h₃.kept _ (by omega), h₂.kept _ (by omega) (by omega), h₁.kept _ (by omega), laidFrom_add]
  · rcases Nat.lt_or_ge k (xs.length - i) with hlt | hge
    · rw [h₃.inside _ (by omega) (by omega), Nat.add_sub_cancel_left]
    · rw [h₃.kept _ (by omega), h₂.kept _ (by omega) (by omega), h₁.inside _ (by omega) (by omega)]
      congr 1
      omega
  · rw [h₃.kept _ (by omega), h₂.dst _ (by omega) (by omega), h₁.kept _ (by omega),
      show s + i + (s + ys.length + k - (s + i + ys.length)) = s + k by omega, laidFrom_add]
  · rw [h₃.kept _ (by omega), h₂.kept _ (by omega) (by omega), h₁.kept _ (by omega),
      laidFrom_eq_none (by omega)]

omit hi in
/-- All new elements stand before the others. -/
theorem inserted_front_all (h : Written s n (ys[·]?) (laidFrom (s + n) xs) t₁) :
    t₁ = laidFrom s (inserted 0 ys xs) :=
  inserted_front_few (Nat.zero_le _) hlen (Nat.zero_le n) .zero h .zero

omit hi in
/-- All new elements stand behind the others. -/
theorem inserted_back_all (h : Written (s + xs.length) n (ys[·]?) (laidFrom s xs) t₁) :
    t₁ = laidFrom s (inserted xs.length ys xs) := by
  have hzero : xs.length - xs.length = 0 := Nat.sub_self _
  have hshift : Shifted (s + xs.length) (s + xs.length + n) (xs.length - xs.length) t₁ t₁ :=
    hzero.symm ▸ .zero
  refine inserted_back_few le_rfl hlen (Nat.le_add_right _ _) ?_ hshift (hzero.symm ▸ .zero)
  rw [Nat.add_sub_cancel_left]
  exact h.congr fun k _ => by rw [hzero, Nat.zero_add]

end Insertion

/-! ## Nothing to insert -/

/-- What is there after the elements of the shorter side have been moved to where they are. -/
def selfMoved (ms : MoveSem T) (i : Nat) (xs : List T) : List T :=
  if i < xs.length / 2 then (xs.take i).map ms.selfMove ++ xs.drop i
  else xs.take i ++ (xs.drop i).map ms.selfMove

/-- What an insertion in the middle leaves. Where there is nothing to insert, it moves elements to
where they are. -/
def insertedBy (ms : MoveSem T) (i : Nat) (ys xs : List T) : List T :=
  if ys.length = 0 then selfMoved ms i xs else inserted i ys xs

theorem length_insertedBy (hi : i ≤ xs.length) :
    (insertedBy ms i ys xs).length = ys.length + xs.length := by
  unfold insertedBy
  split
  next hzero =>
    rw [hzero, selfMoved]
    split <;> simp only [List.length_append, List.length_map, List.length_take, List.length_drop] <;>
      omega
  next => exact length_inserted hi

theorem selfMoved_front (hi : i < xs.length / 2)
    (h : Written s i (fun k => (laidFrom s xs (s + k)).map ms.selfMove) (laidFrom s xs) t) :
    t = laidFrom s (selfMoved ms i xs) := by
  have hlen : ((xs.take i).map ms.selfMove).length = i := by
    rw [List.length_map, List.length_take_of_le (by omega)]
  rw [selfMoved, if_pos hi]
  refine eq_laidFrom (fun k hk => ?_) fun p hp => ?_
  · rcases Nat.lt_or_ge k i with hlt | hge
    · rw [h.inside _ (by omega) (by omega), Nat.add_sub_cancel_left, laidFrom_add,
        List.getElem?_append_left (by omega), List.getElem?_map, List.getElem?_take_of_lt hlt]
    · rw [h.kept _ (by omega), laidFrom_add, List.getElem?_append_right (by omega), hlen,
        List.getElem?_drop, Nat.add_sub_cancel' hge]
  · rw [List.length_append, hlen, List.length_drop] at hp
    rw [h.kept _ (by omega), laidFrom_eq_none (by omega)]

theorem selfMoved_back (hfront : ¬i < xs.length / 2) (hi : i ≤ xs.length)
    (h : Written (s + i) (xs.length - i) (fun k => (laidFrom s xs (s + i + k)).map ms.selfMove)
      (laidFrom s xs) t) : t = laidFrom s (selfMoved ms i xs) := by
  have hlen : (xs.take i).length = i := List.length_take_of_le hi
  rw [selfMoved, if_neg hfront]
  refine eq_laidFrom (fun k hk => ?_) fun p hp => ?_
  · rw [List.length_append, hlen, List.length_map, List.length_drop] at hk
    rcases Nat.lt_or_ge k i with hlt | hge
    · rw [h.kept _ (by omega), laidFrom_add, List.getElem?_append_left (by omega),
        List.getElem?_take_of_lt hlt]
    · rw [h.inside _ (by omega) (by omega), Nat.add_assoc, laidFrom_add,
        List.getElem?_append_right (by omega), hlen, List.getElem?_map, List.getElem?_drop]
      congr 2
      omega
  · rw [List.length_append, hlen, List.length_map, List.length_drop] at hp
    rw [h.kept _ (by omega), laidFrom_eq_none (by omega)]

/-! ## One element -/

/-- One element is moved to a place before the first or behind the last. -/
theorem Shifted.one {p q : Nat} {z : T} (hp : t p = some x) (hne : p ≠ q) :
    Shifted p q 1 t (Function.update (Function.update t q (some x)) p (some z)) := by
  rw [Function.update_comm hne.symm]
  exact .cons hp (by omega) .zero

theorem Written.one {q : Nat} : Written q 1 ([x][·]?) t (Function.update t q (some x)) :=
  .cons rfl .zero

/-! ## Erasure -/

section Erasure

variable (hij : i ≤ j) (hj : j ≤ xs.length)
include hij hj

/-- The elements before go to the back, and the first ones are destroyed. -/
theorem erased_front (h₁ : Shifted s (s + (j - i)) i (laidFrom s xs) t₁)
    (h₂ : Written s (j - i) (fun _ => none) t₁ t₂) :
    t₂ = laidFrom (s + (j - i)) (erased i j xs) := by
  refine eq_laidFrom_erased hij hj (fun k hk => ?_) (fun k hlo hhi => ?_) fun p hp => ?_
  · rw [h₂.kept _ (by omega), h₁.dst _ (by omega) (by omega), Nat.add_sub_cancel_left, laidFrom_add]
  · rw [h₂.kept _ (by omega), h₁.kept _ (by omega) (by omega),
      show s + (j - i) + i + (k - j) = s + k by omega, laidFrom_add]
  · by_cases hin : s ≤ p ∧ p < s + (j - i)
    · exact h₂.inside p hin.1 hin.2
    · rw [h₂.kept _ (by omega), h₁.kept _ (by omega) (by omega), laidFrom_eq_none (by omega)]

/-- The elements behind go to the front, and the last ones are destroyed. -/
theorem erased_back (h₁ : Shifted (s + j) (s + i) (xs.length - j) (laidFrom s xs) t₁)
    (h₂ : Written (s + (xs.length - (j - i))) (j - i) (fun _ => none) t₁ t₂) :
    t₂ = laidFrom s (erased i j xs) := by
  refine eq_laidFrom_erased hij hj (fun k hk => ?_) (fun k hlo hhi => ?_) fun p hp => ?_
  · rw [h₂.kept _ (by omega), h₁.kept _ (by omega) (by omega), laidFrom_add]
  · rw [h₂.kept _ (by omega), h₁.dst _ (by omega) (by omega),
      show s + j + (s + i + (k - j) - (s + i)) = s + k by omega, laidFrom_add]
  · by_cases hin : s + (xs.length - (j - i)) ≤ p ∧ p < s + (xs.length - (j - i)) + (j - i)
    · exact h₂.inside p hin.1 hin.2
    · rw [h₂.kept _ (by omega), h₁.kept _ (by omega) (by omega), laidFrom_eq_none (by omega)]

end Erasure

end Rtfsc.Stl
