import Mathlib.Data.List.Perm.Basic
import Mathlib.Data.List.Nodup
import Mathlib.Data.Nat.ModEq

/-!
# What threads hold and what they have seen

Things that are each held at one place, and move from place to place. And what a thread has read of a
thing that others may meanwhile take away: it is still right as long as nothing was taken away.
-/

namespace Rtfsc.Machine

variable {α β ι : Type} {held held' : ι → List α} {whole : α → Prop} {i j : ι} {l : List α}

/-! ## Places -/

/-- Each thing of the whole is at one place, once; nothing else is anywhere. -/
structure Split (held : ι → List α) (whole : α → Prop) : Prop where
  cover : ∀ a, whole a ↔ ∃ i, a ∈ held i
  nodup : ∀ i, (held i).Nodup
  apart : ∀ i j a, a ∈ held i → a ∈ held j → i = j

namespace Split

/-- Things are moved from one place to another. -/
theorem move (h : Split held whole) (hij : i ≠ j) (hi : (held i).Perm (l ++ held' i))
    (hj : (held' j).Perm (l ++ held j)) (hsame : ∀ k, k ≠ i → k ≠ j → held' k = held k) :
    Split held' whole := by
  have hfrom : ∀ a, a ∈ held i ↔ a ∈ l ∨ a ∈ held' i := fun a => hi.mem_iff.trans List.mem_append
  have hto : ∀ a, a ∈ held' j ↔ a ∈ l ∨ a ∈ held j := fun a => hj.mem_iff.trans List.mem_append
  obtain ⟨hl, hi', hli⟩ := List.nodup_append.mp (hi.nodup_iff.mp (h.nodup i))
  have hback : ∀ k a, a ∈ held' k → a ∈ held k ∨ k = j ∧ a ∈ l := by
    intro k a ha
    rcases eq_or_ne k j with rfl | hkj
    · exact ((hto a).mp ha).symm.imp id fun hl => ⟨rfl, hl⟩
    · rcases eq_or_ne k i with rfl | hki
      · exact .inl ((hfrom a).mpr (.inr ha))
      · exact .inl (hsame k hki hkj ▸ ha)
  -- what is moved is no longer where it was
  have hgone : ∀ k a, a ∈ held' k → a ∈ l → k = j := by
    intro k a ha hal
    rcases hback k a ha with hk | ⟨rfl, -⟩
    · have hki := h.apart k i a hk ((hfrom a).mpr (.inl hal))
      subst hki
      exact absurd rfl (hli a hal a ha)
    · rfl
  refine ⟨fun a => (h.cover a).trans ⟨?_, ?_⟩, fun k => ?_, fun k m a hk hm => ?_⟩
  · rintro ⟨k, hk⟩
    rcases eq_or_ne k i with rfl | hki
    · rcases (hfrom a).mp hk with hal | ha
      · exact ⟨j, (hto a).mpr (.inl hal)⟩
      · exact ⟨k, ha⟩
    · rcases eq_or_ne k j with rfl | hkj
      · exact ⟨k, (hto a).mpr (.inr hk)⟩
      · exact ⟨k, (hsame k hki hkj).symm ▸ hk⟩
  · rintro ⟨k, hk⟩
    rcases hback k a hk with ha | ⟨-, hal⟩
    · exact ⟨k, ha⟩
    · exact ⟨i, (hfrom a).mpr (.inl hal)⟩
  · rcases eq_or_ne k j with rfl | hkj
    · refine hj.nodup_iff.mpr (List.nodup_append.mpr ⟨hl, h.nodup k, ?_⟩)
      rintro a hal b hb rfl
      exact hij (h.apart i k a ((hfrom a).mpr (.inl hal)) hb)
    · rcases eq_or_ne k i with rfl | hki
      · exact hi'
      · exact hsame k hki hkj ▸ h.nodup k
  · rcases hback k a hk with ha | ⟨rfl, hal⟩
    · rcases hback m a hm with ha' | ⟨rfl, hal⟩
      · exact h.apart k m a ha ha'
      · exact hgone k a hk hal
    · exact (hgone m a hm hal).symm

/-- The same things, listed in other ways. -/
theorem congr (h : Split held whole) (hsame : ∀ i, (held' i).Perm (held i)) : Split held' whole where
  cover a := (h.cover a).trans (exists_congr fun i => (hsame i).mem_iff.symm)
  nodup i := (hsame i).nodup_iff.mpr (h.nodup i)
  apart i j a hi hj := h.apart i j a ((hsame i).mem_iff.mp hi) ((hsame j).mem_iff.mp hj)

/-- One more thing comes in, at one of the places. -/
theorem add {a : α} (h : Split held whole) (ha : ¬whole a) (hi : (held' i).Perm (a :: held i))
    (hsame : ∀ k, k ≠ i → held' k = held k) : Split held' fun b => b = a ∨ whole b := by
  have hnone : ∀ k, a ∉ held k := fun k hk => ha ((h.cover a).mpr ⟨k, hk⟩)
  have hback : ∀ k b, b ∈ held' k ↔ k = i ∧ b = a ∨ b ∈ held k := by
    intro k b
    rcases eq_or_ne k i with rfl | hne
    · rw [hi.mem_iff, List.mem_cons]
      simp
    · rw [hsame k hne]
      simp [hne]
  refine ⟨fun b => ?_, fun k => ?_, fun k m b hk hm => ?_⟩
  · constructor
    · rintro (rfl | hb)
      · exact ⟨i, (hback i b).mpr (.inl ⟨rfl, rfl⟩)⟩
      · obtain ⟨k, hk⟩ := (h.cover b).mp hb
        exact ⟨k, (hback k b).mpr (.inr hk)⟩
    · rintro ⟨k, hk⟩
      rcases (hback k b).mp hk with ⟨-, hb⟩ | hk
      · exact .inl hb
      · exact .inr ((h.cover b).mpr ⟨k, hk⟩)
  · rcases eq_or_ne k i with rfl | hne
    · exact hi.nodup_iff.mpr (List.nodup_cons.mpr ⟨hnone k, h.nodup k⟩)
    · exact hsame k hne ▸ h.nodup k
  · rcases (hback k b).mp hk with ⟨rfl, hb⟩ | hk <;> rcases (hback m b).mp hm with ⟨rfl, hb'⟩ | hm
    · rfl
    · exact absurd (hb ▸ hm) (hnone m)
    · exact absurd (hb' ▸ hk) (hnone k)
    · exact h.apart k m b hk hm

end Split

/-! ## Readings -/

/-- What a thread has read of `a` when a counter was at `seen`. As long as the counter stays, `a` is a
member, and what was read of it is right. -/
def Noted (members : List α) (field : α → β) (counter seen : Nat) (a : α) (b : β) : Prop :=
  seen ≤ counter ∧ (seen = counter → a ∈ members ∧ field a = b)

variable {members members' : List α} {field field' : α → β} {counter counter' seen k : Nat} {a : α}
  {b : β}

/-- While the counter stays, members stay and their fields are not written. -/
theorem Noted.keep (h : Noted members field counter seen a b) (hle : counter ≤ counter')
    (hkeep : counter = counter' → ∀ c ∈ members, c ∈ members' ∧ field' c = field c) :
    Noted members' field' counter' seen a b := by
  refine ⟨h.1.trans hle, fun heq => ?_⟩
  have hcounter : counter = counter' := hle.antisymm (heq ▸ h.1)
  obtain ⟨hmem, hb⟩ := h.2 (heq.trans hcounter.symm)
  obtain ⟨hmem', hfield⟩ := hkeep hcounter a hmem
  exact ⟨hmem', hfield.trans hb⟩

/-- The low digits of a counter tell that it has stayed, as long as it has not gone all the way round. -/
theorem Noted.of_mod_eq (h : Noted members field counter seen a b) (hmod : seen % k = counter % k)
    (hlt : counter < seen + k) : a ∈ members ∧ field a = b := by
  refine h.2 (h.1.antisymm (Nat.le_of_not_lt fun hgt => ?_))
  have hdvd : k ∣ counter - seen := (Nat.modEq_iff_dvd' hgt.le).mp hmod
  have hle := Nat.le_of_dvd (Nat.sub_pos_of_lt hgt) hdvd
  omega

end Rtfsc.Machine
