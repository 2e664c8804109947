import Mathlib.Algebra.BigOperators.Group.Finset.Basic
import Mathlib.Algebra.Order.BigOperators.Group.Finset
import Mathlib.Order.Interval.Finset.Nat
import Mathlib.Data.List.Count
import Mathlib.Algebra.GroupWithZero.Nat

/-!
# Extents that tile others

An extent is a run of addresses. Counting, for an address, how many extents of a list have it turns
questions about extents that move, are cut or joined into sums: two lists that have every address
equally often cover the same addresses, and a list is pairwise apart exactly when no address is counted
twice.
-/

namespace Rtfsc.Machine

/-- The addresses from `addr` to `addr + len`. -/
structure Extent where
  addr : Nat
  len : Nat
deriving DecidableEq, Repr

namespace Extent

/-- The extent has the address. -/
def Has (e : Extent) (b : Nat) : Prop := e.addr ≤ b ∧ b < e.addr + e.len

instance (e : Extent) (b : Nat) : Decidable (e.Has b) := by
  unfold Has
  infer_instance

/-- No address is in both. -/
def Apart (e f : Extent) : Prop := ∀ b, e.Has b → ¬f.Has b

/-- Every address of `e` is one of `f`. -/
def Inside (e f : Extent) : Prop := f.addr ≤ e.addr ∧ e.addr + e.len ≤ f.addr + f.len

theorem Apart.symm {e f : Extent} (h : e.Apart f) : f.Apart e := fun b hf he => h b he hf

theorem Inside.has {e f : Extent} {b : Nat} (h : e.Inside f) (hb : e.Has b) : f.Has b :=
  ⟨Nat.le_trans h.1 hb.1, Nat.lt_of_lt_of_le hb.2 h.2⟩

theorem Inside.trans {e f g : Extent} (h : e.Inside f) (h' : f.Inside g) : e.Inside g :=
  ⟨Nat.le_trans h'.1 h.1, Nat.le_trans h.2 h'.2⟩

end Extent

variable {l l' : List Extent} {e : Extent} {a b m n k s : Nat}

/-- How many extents of the list have the address. -/
def hits (l : List Extent) (b : Nat) : Nat := l.countP fun e => decide (e.Has b)

@[simp] theorem hits_nil (b : Nat) : hits [] b = 0 := rfl

theorem hits_cons (e : Extent) (l : List Extent) (b : Nat) :
    hits (e :: l) b = hits [e] b + hits l b := by
  rw [← List.singleton_append]
  exact List.countP_append

@[simp] theorem hits_append (l l' : List Extent) (b : Nat) :
    hits (l ++ l') b = hits l b + hits l' b := List.countP_append

theorem hits_perm (h : l.Perm l') (b : Nat) : hits l b = hits l' b := h.countP_eq _

theorem hits_pos : 0 < hits l b ↔ ∃ e ∈ l, e.Has b := by
  simp [hits, List.countP_pos_iff]

theorem hits_single (e : Extent) (b : Nat) : hits [e] b = if e.Has b then 1 else 0 := by
  simp [hits, List.countP_cons]

@[simp] theorem hits_empty (a b : Nat) : hits [⟨a, 0⟩] b = 0 := by
  rw [hits_single, if_neg]
  rintro ⟨hle, hlt⟩
  exact absurd hlt (Nat.not_lt.mpr hle)

/-- An extent is cut in two. -/
theorem hits_split (a m n b : Nat) : hits [⟨a, m + n⟩] b = hits [⟨a, m⟩] b + hits [⟨a + m, n⟩] b := by
  have hor : (Extent.mk a (m + n)).Has b ↔ (Extent.mk a m).Has b ∨ (Extent.mk (a + m) n).Has b := by
    simp only [Extent.Has]
    omega
  have hnot : ¬((Extent.mk a m).Has b ∧ (Extent.mk (a + m) n).Has b) := by
    simp only [Extent.Has]
    omega
  rw [hits_single, hits_single, hits_single, if_congr hor rfl rfl]
  by_cases hleft : (Extent.mk a m).Has b
  · rw [if_pos (.inl hleft), if_pos hleft, if_neg fun hright => hnot ⟨hleft, hright⟩]
  · rw [if_congr (or_iff_right hleft) rfl rfl, if_neg hleft, Nat.zero_add]

/-- `n` extents of length `s`, one behind the other. -/
def cells (a s : Nat) : Nat → List Extent
  | 0 => []
  | n + 1 => ⟨a, s⟩ :: cells (a + s) s n

theorem hits_cells (a s n b : Nat) : hits (cells a s n) b = hits [⟨a, s * n⟩] b := by
  induction n generalizing a with
  | zero => exact (hits_empty a b).symm
  | succ n ih => rw [cells, hits_cons, ih, Nat.mul_succ, Nat.add_comm (s * n), hits_split]

theorem inside_of_mem_cells (h : e ∈ cells a s n) : e.Inside ⟨a, s * n⟩ ∧ e.len = s := by
  induction n generalizing a with
  | zero => cases h
  | succ n ih =>
    rw [cells, List.mem_cons] at h
    rcases h with rfl | h
    · exact ⟨⟨Nat.le_refl a, Nat.add_le_add_left (Nat.le_mul_of_pos_right s (Nat.succ_pos n)) a⟩, rfl⟩
    · obtain ⟨⟨hlo, hhi⟩, hlen⟩ := ih h
      refine ⟨⟨Nat.le_of_add_right_le hlo, ?_⟩, hlen⟩
      show _ ≤ a + s * (n + 1)
      rw [Nat.mul_succ, Nat.add_comm (s * n), ← Nat.add_assoc]
      exact hhi

theorem has_cells (a s n b : Nat) : (∃ e ∈ cells a s n, e.Has b) ↔ (Extent.mk a (s * n)).Has b := by
  have hone : (∃ e ∈ [Extent.mk a (s * n)], e.Has b) ↔ (Extent.mk a (s * n)).Has b := by simp
  rw [← hone]
  exact ⟨fun h => hits_pos.mp (hits_cells a s n b ▸ hits_pos.mpr h),
    fun h => hits_pos.mp ((hits_cells a s n b).symm ▸ hits_pos.mpr h)⟩

/-- Cells are told apart by their addresses. -/
theorem map_addr_cells (a s n : Nat) :
    ((cells a s n).map Extent.addr).map (⟨·, s⟩) = cells a s n := by
  induction n generalizing a with
  | zero => rfl
  | succ n ih => rw [cells, List.map_cons, List.map_cons, ih]

/-! ## Lists that are pairwise apart -/

/-- Pairwise apart means that no address is counted twice. -/
theorem pairwise_apart_iff : l.Pairwise Extent.Apart ↔ ∀ b, hits l b ≤ 1 := by
  induction l with
  | nil => exact iff_of_true List.Pairwise.nil fun b => Nat.zero_le 1
  | cons e l ih =>
    rw [List.pairwise_cons, ih]
    constructor
    · rintro ⟨hhead, htail⟩ b
      rw [hits_cons, hits_single]
      split
      · next hb =>
        have hzero : hits l b = 0 := by
          refine Nat.eq_zero_of_not_pos fun hpos => ?_
          obtain ⟨f, hf, hfb⟩ := hits_pos.mp hpos
          exact hhead f hf b hb hfb
        rw [hzero]
      · rw [Nat.zero_add]
        exact htail b
    · intro h
      refine ⟨fun f hf b hb hfb => ?_, fun b => ?_⟩
      · have htwo := h b
        have hpos := hits_pos.mpr ⟨f, hf, hfb⟩
        rw [hits_cons, hits_single, if_pos hb] at htwo
        omega
      · have hle := h b
        rw [hits_cons] at hle
        exact Nat.le_trans (Nat.le_add_left _ _) hle

/-- Lists that have every address equally often are pairwise apart together. -/
theorem pairwise_apart_congr (h : ∀ b, hits l b = hits l' b) :
    l.Pairwise Extent.Apart ↔ l'.Pairwise Extent.Apart := by
  simp only [pairwise_apart_iff, h]

/-- Lists that have every address equally often cover the same addresses. -/
theorem covers_congr (h : ∀ b, hits l b = hits l' b) (b : Nat) :
    (∃ e ∈ l, e.Has b) ↔ ∃ e ∈ l', e.Has b := by
  rw [← hits_pos, ← hits_pos, h]

theorem sum_hits_single {lo hi : Nat} (h : lo ≤ e.addr) (h' : e.addr + e.len ≤ hi) :
    ∑ b ∈ Finset.Ico lo hi, hits [e] b = e.len := by
  simp only [hits_single]
  rw [← Finset.sum_filter, ← Finset.card_eq_sum_ones]
  have hfilter : (Finset.Ico lo hi).filter (e.Has ·) = Finset.Ico e.addr (e.addr + e.len) := by
    ext b
    rw [Finset.mem_filter, Finset.mem_Ico, Finset.mem_Ico]
    exact ⟨fun hb => hb.2, fun hb => ⟨⟨Nat.le_trans h hb.1, Nat.lt_of_lt_of_le hb.2 h'⟩, hb⟩⟩
  rw [hfilter, Nat.card_Ico, Nat.add_sub_cancel_left]

/-- Extents that are pairwise apart have no more addresses than the interval that they lie in. -/
theorem sum_len_le (lo hi : Nat) (hin : ∀ e ∈ l, lo ≤ e.addr ∧ e.addr + e.len ≤ hi)
    (hapart : l.Pairwise Extent.Apart) : (l.map Extent.len).sum ≤ hi - lo := by
  have hsum : ∑ b ∈ Finset.Ico lo hi, hits l b = (l.map Extent.len).sum := by
    clear hapart
    induction l with
    | nil => simp
    | cons e l ih =>
      obtain ⟨hlo, hhi⟩ := hin e (List.mem_cons_self ..)
      simp only [hits_cons e l]
      rw [Finset.sum_add_distrib, sum_hits_single hlo hhi,
        ih fun f hf => hin f (List.mem_cons_of_mem _ hf), List.map_cons, List.sum_cons]
  rw [← hsum]
  calc
    ∑ b ∈ Finset.Ico lo hi, hits l b ≤ ∑ b ∈ Finset.Ico lo hi, 1 :=
      Finset.sum_le_sum fun b _ => pairwise_apart_iff.mp hapart b
    _ = hi - lo := by rw [← Finset.card_eq_sum_ones, Nat.card_Ico]

/-! ## Lists kept under keys -/

section Keys

variable {κ α : Type} [DecidableEq κ] {ks : List κ} {k : κ}

/-- When the list of one key is replaced, what was under it and the new whole are the new list and the
old whole. -/
theorem flatMap_update_perm (hnd : ks.Nodup) (hk : k ∈ ks) (f : κ → List α) (l : List α) :
    (f k ++ ks.flatMap (Function.update f k l)).Perm (l ++ ks.flatMap f) := by
  induction ks with
  | nil => cases hk
  | cons j ks ih =>
    obtain ⟨hj, hnd⟩ := List.nodup_cons.mp hnd
    rw [List.flatMap_cons, List.flatMap_cons]
    rcases List.mem_cons.mp hk with rfl | hk
    · have hrest : ks.flatMap (Function.update f k l) = ks.flatMap f := by
        refine List.flatMap_congr fun i hi => ?_
        have hik : i ≠ k := by
          rintro rfl
          exact hj hi
        rw [Function.update_of_ne hik]
      rw [Function.update_self, hrest]
      exact List.perm_append_comm_assoc (f k) l _
    · have hne : j ≠ k := by
        rintro rfl
        exact hj hk
      rw [Function.update_of_ne hne]
      calc
        f k ++ (f j ++ ks.flatMap (Function.update f k l))
        _ |>.Perm (f j ++ (f k ++ ks.flatMap (Function.update f k l))) :=
          List.perm_append_comm_assoc ..
        _ |>.Perm (f j ++ (l ++ ks.flatMap f)) := (ih hnd hk).append_left _
        _ |>.Perm (l ++ (f j ++ ks.flatMap f)) := List.perm_append_comm_assoc ..

end Keys

/-- Where no two members have the same image, filtering an image out takes one member away. -/
theorem perm_cons_filter_ne {α β : Type} [DecidableEq β] {f : α → β} {l : List α} {a : α}
    (hnd : (l.map f).Nodup) (ha : a ∈ l) : l.Perm (a :: l.filter fun x => decide (f x ≠ f a)) := by
  induction l with
  | nil => cases ha
  | cons x l ih =>
    rw [List.map_cons, List.nodup_cons] at hnd
    rcases List.mem_cons.mp ha with rfl | ha
    · rw [List.filter_cons_of_neg (by simp), List.filter_eq_self.mpr]
      intro y hy
      refine decide_eq_true fun heq => hnd.1 ?_
      exact heq ▸ List.mem_map_of_mem hy
    · have hne : f x ≠ f a := fun heq => hnd.1 (heq ▸ List.mem_map_of_mem ha)
      rw [List.filter_cons_of_pos (by simpa using hne)]
      exact ((ih hnd.2 ha).cons x).trans (List.Perm.swap ..)

/-- Extents that have addresses and are pairwise apart begin at different addresses. -/
theorem nodup_addr (hapart : l.Pairwise Extent.Apart) (hlen : ∀ e ∈ l, 0 < e.len) :
    (l.map Extent.addr).Nodup := by
  refine List.pairwise_map.mpr (hapart.imp_of_mem fun {e f} he hf hef heq => ?_)
  exact hef e.addr ⟨Nat.le_refl _, Nat.lt_add_of_pos_right (hlen e he)⟩
    ⟨Nat.le_of_eq heq.symm, heq ▸ Nat.lt_add_of_pos_right (hlen f hf)⟩

end Rtfsc.Machine
