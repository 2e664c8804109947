import Mathlib.Data.Finset.Basic
import Mathlib.Order.Interval.Set.Basic
import Mathlib.Data.Set.Function

/-!
# Segments in use

A table lists segments. The segments that are in use are those of a range of entries, each of another one
(`Owns`). The range grows and shrinks by one entry at each end, and it may be put elsewhere.
-/

namespace Rtfsc.Machine

variable {β : Type}

/-- The segments in use are those of the entries from `lo` to `hi`, one each. -/
def Owns (entry : Nat → β) (live : Finset β) (lo hi : Nat) : Prop :=
  Set.BijOn entry (Set.Icc lo hi) live

namespace Owns

variable {entry entry' : Nat → β} {live : Finset β} {lo lo' hi hi' i j : Nat} {c : β}

theorem mem (h : Owns entry live lo hi) (hlo : lo ≤ j) (hhi : j ≤ hi) : entry j ∈ live :=
  Finset.mem_coe.mp (h.mapsTo ⟨hlo, hhi⟩)

/-- Entries outside of the range have no part in it. -/
theorem congr (h : Owns entry live lo hi) (heq : ∀ j, lo ≤ j → j ≤ hi → entry' j = entry j) :
    Owns entry' live lo hi :=
  Set.BijOn.congr h fun j hj => (heq j hj.1 hj.2).symm

/-- The entries may stand elsewhere. -/
theorem move (h : Owns entry live lo hi) (hlen : hi' + lo = hi + lo')
    (heq : ∀ j, lo' ≤ j → j ≤ hi' → entry' j = entry (lo + (j - lo'))) :
    Owns entry' live lo' hi' := by
  have hshift : Set.BijOn (fun j => lo + (j - lo')) (Set.Icc lo' hi') (Set.Icc lo hi) := by
    refine ⟨fun j hj => ?_, fun i hi j hj hij => ?_, fun j hj => ⟨lo' + (j - lo), ?_, ?_⟩⟩
    · have := hj.1; have := hj.2
      exact ⟨Nat.le_add_right _ _, by dsimp only; omega⟩
    · have := hi.1; have := hj.1
      dsimp only at hij
      omega
    · have := hj.1; have := hj.2
      exact ⟨Nat.le_add_right _ _, by omega⟩
    · have := hj.1
      dsimp only
      omega
  exact (Set.BijOn.comp h hshift).congr fun j hj => (heq j hj.1 hj.2).symm

variable [DecidableEq β]

/-- One more at the end. -/
theorem pushBack (h : Owns entry live lo hi) (hle : lo ≤ hi + 1) (hc : entry (hi + 1) = c)
    (hfresh : c ∉ live) : Owns entry (insert c live) lo (hi + 1) := by
  have hset : Set.Icc lo (hi + 1) = insert (hi + 1) (Set.Icc lo hi) := by
    ext j
    simp only [Set.mem_Icc, Set.mem_insert_iff]
    omega
  subst hc
  unfold Owns
  rw [hset, Finset.coe_insert]
  exact Set.BijOn.insert h (mt Finset.mem_coe.mp hfresh)

/-- One more at the front. -/
theorem pushFront (h : Owns entry live (lo + 1) hi) (hle : lo ≤ hi) (hc : entry lo = c)
    (hfresh : c ∉ live) : Owns entry (insert c live) lo hi := by
  have hset : Set.Icc lo hi = insert lo (Set.Icc (lo + 1) hi) := by
    ext j
    simp only [Set.mem_Icc, Set.mem_insert_iff]
    omega
  subst hc
  unfold Owns
  rw [hset, Finset.coe_insert]
  exact Set.BijOn.insert h (mt Finset.mem_coe.mp hfresh)

/-- One less at the end. -/
theorem popBack (h : Owns entry live lo (hi + 1)) (hle : lo ≤ hi + 1) :
    Owns entry (live.erase (entry (hi + 1))) lo hi := by
  have hset : Set.Icc lo hi = Set.Icc lo (hi + 1) \ {hi + 1} := by
    ext j
    simp only [Set.mem_Icc, Set.mem_sdiff, Set.mem_singleton_iff]
    omega
  unfold Owns
  rw [hset, Finset.coe_erase]
  exact Set.BijOn.sdiff_singleton h ⟨hle, le_rfl⟩

/-- One less at the front. -/
theorem popFront (h : Owns entry live lo hi) (hle : lo ≤ hi) :
    Owns entry (live.erase (entry lo)) (lo + 1) hi := by
  have hset : Set.Icc (lo + 1) hi = Set.Icc lo hi \ {lo} := by
    ext j
    simp only [Set.mem_Icc, Set.mem_sdiff, Set.mem_singleton_iff]
    omega
  unfold Owns
  rw [hset, Finset.coe_erase]
  exact Set.BijOn.sdiff_singleton h ⟨le_rfl, hle⟩

end Owns

end Rtfsc.Machine
