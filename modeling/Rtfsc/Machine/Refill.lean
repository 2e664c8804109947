import Mathlib.Data.List.Perm.Basic

/-!
# Writing batches over one array

An array that is filled from its start again and again keeps of each batch what no later one was laid
over. `front` is what stands at the start in the end, `lost` what was overwritten.
-/

namespace Rtfsc.Machine

variable {α : Type}

/-- The array with a batch written to its start. -/
def refill (a b : List α) : List α := b ++ a.drop b.length

/-- What stands at the start after some batches, and what they were laid over. -/
structure Laid (α : Type) where
  front : List α
  lost : List α

/-- One more batch. -/
def Laid.lay (s : Laid α) (b : List α) : Laid α :=
  ⟨refill s.front b, s.lost ++ s.front.take b.length⟩

/-- The batches, one over the other. -/
def laid (bs : List (List α)) : Laid α := bs.foldl Laid.lay ⟨[], []⟩

variable {a b : List α} {bs : List (List α)} {s : Laid α}

theorem take_refill (a b : List α) : (refill a b).take b.length = b := List.take_left

/-- A batch goes to the front, and what it was laid over is lost. -/
theorem Laid.lay_perm (s : Laid α) (b : List α) :
    ((s.lay b).front ++ (s.lay b).lost).Perm (s.front ++ s.lost ++ b) := by
  have hfront : (s.front.drop b.length ++ s.front.take b.length).Perm s.front :=
    List.perm_append_comm.trans (List.Perm.of_eq (List.take_append_drop _ _))
  calc (b ++ s.front.drop b.length) ++ (s.lost ++ s.front.take b.length)
      |>.Perm (b ++ ((s.front.drop b.length ++ s.front.take b.length) ++ s.lost)) := by
        rw [List.append_assoc, List.append_assoc]
        exact (List.perm_append_comm.append_left _).append_left _
    _ |>.Perm (b ++ (s.front ++ s.lost)) := (hfront.append_right _).append_left _
    _ |>.Perm (s.front ++ s.lost ++ b) := List.perm_append_comm

theorem foldl_lay_perm (s : Laid α) (bs : List (List α)) :
    ((bs.foldl Laid.lay s).front ++ (bs.foldl Laid.lay s).lost).Perm
      (s.front ++ s.lost ++ bs.flatten) := by
  induction bs generalizing s with
  | nil => exact List.Perm.of_eq (List.append_nil _).symm
  | cons b bs ih =>
    refine (ih (s.lay b)).trans ?_
    rw [List.flatten_cons, ← List.append_assoc]
    exact (s.lay_perm b).append_right _

/-- What is at the front and what is lost are all batches together. -/
theorem laid_perm (bs : List (List α)) : ((laid bs).front ++ (laid bs).lost).Perm bs.flatten :=
  foldl_lay_perm ⟨[], []⟩ bs

/-- Behind the front, the array is as it was. -/
theorem foldl_refill (a : List α) (s : Laid α) (bs : List (List α)) :
    bs.foldl refill (refill a s.front) = refill a (bs.foldl Laid.lay s).front := by
  induction bs generalizing s with
  | nil => rfl
  | cons b bs ih =>
    have hstep : refill (refill a s.front) b = refill a (s.lay b).front := by
      unfold Laid.lay refill
      rw [List.drop_append, List.drop_drop, List.append_assoc, List.length_append, List.length_drop]
      congr 3
      omega
    rw [List.foldl_cons, hstep]
    exact ih (s.lay b)

theorem foldl_refill_eq (a : List α) (bs : List (List α)) :
    bs.foldl refill a = refill a (laid bs).front := foldl_refill a ⟨[], []⟩ bs

/-- The array holds the batches exactly when what they lost stands behind the front already. -/
theorem refilled_perm_iff (a : List α) (bs : List (List α)) :
    ((bs.foldl refill a).take bs.flatten.length).Perm bs.flatten ↔
      ((a.drop (laid bs).front.length).take (laid bs).lost.length).Perm (laid bs).lost := by
  have hall := laid_perm bs
  have hlen : bs.flatten.length = (laid bs).front.length + (laid bs).lost.length := by
    rw [← hall.length_eq, List.length_append]
  rw [foldl_refill_eq, refill, hlen, List.take_length_add_append]
  refine ⟨fun h => ?_, fun h => (h.append_left _).trans hall⟩
  exact (List.perm_append_left_iff _).mp (h.trans hall.symm)

end Rtfsc.Machine
