import Mathlib.Data.List.Nodup

/-!
# Lists of records with a key

A linked list of records that are found by a key. When no two records of the list have one key, the
list is a finite map: what is found after an insertion at the head, after the removal of the first
record with a key, and after a write to a record is what a map gives.
-/

namespace Rtfsc.Machine.Keyed

variable {α κ : Type} [DecidableEq κ] (key : α → κ)

/-- The first record with this key. -/
def lookup (k : κ) (l : List α) : Option α := l.find? fun a => key a = k

/-- The list without the first record with this key. -/
def remove (k : κ) (l : List α) : List α := l.eraseP fun a => key a = k

/-- A write to the records with this key. -/
def modify (k : κ) (f : α → α) (l : List α) : List α := l.map fun a => if key a = k then f a else a

variable {key} {k k' : κ} {a b : α} {l : List α} {f : α → α}

@[simp] theorem lookup_nil : lookup key k [] = none := rfl

theorem lookup_cons : lookup key k (a :: l) = if key a = k then some a else lookup key k l := by
  unfold lookup
  by_cases h : key a = k <;> simp [h]

theorem key_of_lookup (h : lookup key k l = some a) : key a = k := by
  simpa using List.find?_some h

theorem mem_of_lookup (h : lookup key k l = some a) : a ∈ l := List.mem_of_find?_eq_some h

theorem lookup_eq_none : lookup key k l = none ↔ k ∉ l.map key := by
  unfold lookup
  rw [List.find?_eq_none]
  simp

/-- In a list without duplicate keys a record is found by its key. -/
theorem lookup_of_mem (hl : (l.map key).Nodup) (h : a ∈ l) : lookup key (key a) l = some a := by
  induction l with
  | nil => cases h
  | cons b l ih =>
    obtain ⟨hnew, hl⟩ := List.nodup_cons.mp hl
    rw [lookup_cons]
    rcases List.mem_cons.mp h with rfl | h
    · exact if_pos rfl
    · have hne : key b ≠ key a := by
        intro heq
        exact hnew (heq ▸ List.mem_map_of_mem h)
      rw [if_neg hne]
      exact ih hl h

theorem remove_sublist : (remove key k l).Sublist l := List.eraseP_sublist

theorem remove_nodup (hl : (l.map key).Nodup) : ((remove key k l).map key).Nodup :=
  hl.sublist (remove_sublist.map key)

theorem lookup_remove (hl : (l.map key).Nodup) :
    lookup key k' (remove key k l) = if k' = k then none else lookup key k' l := by
  induction l with
  | nil => simp [remove]
  | cons b l ih =>
    obtain ⟨hnew, hl⟩ := List.nodup_cons.mp hl
    by_cases hb : key b = k
    · have hrest : remove key k (b :: l) = l := by simp [remove, hb]
      rw [hrest, lookup_cons]
      split
      · next heq =>
        subst heq
        rw [hb] at hnew
        exact lookup_eq_none.mpr hnew
      · next hne => rw [if_neg fun heq => hne (heq.symm.trans hb)]
    · have hrest : remove key k (b :: l) = b :: remove key k l := by simp [remove, hb]
      rw [hrest, lookup_cons, lookup_cons, ih hl]
      split
      · next heq =>
        rw [if_neg]
        rintro rfl
        exact hb heq
      · rfl

theorem modify_keys (hf : ∀ a, key (f a) = key a) : (modify key k f l).map key = l.map key := by
  unfold modify
  rw [List.map_map]
  refine List.map_congr_left fun a _ => ?_
  by_cases h : key a = k <;> simp [h, hf]

theorem lookup_modify (hf : ∀ a, key (f a) = key a) :
    lookup key k' (modify key k f l) =
      if k' = k then (lookup key k l).map f else lookup key k' l := by
  induction l with
  | nil => simp [modify]
  | cons b l ih =>
    have hcons : modify key k f (b :: l) = (if key b = k then f b else b) :: modify key k f l := rfl
    have hkey : key (if key b = k then f b else b) = key b := by
      split
      · exact hf b
      · rfl
    rw [hcons, lookup_cons, hkey, ih, lookup_cons, lookup_cons]
    by_cases hk : k' = k
    · subst hk
      by_cases hb : key b = k' <;> simp [hb]
    · by_cases hb : key b = k'
      · have hne : key b ≠ k := fun heq => hk (hb.symm.trans heq)
        rw [if_pos hb, if_neg hk, if_pos hb, if_neg hne]
      · rw [if_neg hb, if_neg hk, if_neg hb, if_neg hk]

theorem mem_modify (h : a ∈ modify key k f l) : a ∈ l ∨ ∃ b ∈ l, key b = k ∧ a = f b := by
  obtain ⟨b, hb, rfl⟩ := List.mem_map.mp h
  split
  · next hk => exact .inr ⟨b, hb, hk, rfl⟩
  · exact .inl hb

end Rtfsc.Machine.Keyed
