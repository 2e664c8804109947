import Mathlib.Algebra.BigOperators.Group.List.Basic
import Mathlib.Algebra.GroupWithZero.Nat
import Mathlib.Data.List.AList

/-!
# Tables and their totals

A table is a finite map that can be summed over: `total f t` adds up a weight of every entry. What a
program counts in a table, references, pages, jobs of a kind, is a total, and the lemmas say how it
moves when one entry is written or erased.
-/

namespace Rtfsc.Machine

/-- A finite map. -/
abbrev Table (κ ν : Type) := AList fun _ : κ => ν

variable {κ ν : Type} [DecidableEq κ] {t : Table κ ν} {k k' : κ} {v v' : ν} {f g : κ → ν → Nat}

/-- The sum of the weight `f` over the entries. -/
def total (f : κ → ν → Nat) (t : Table κ ν) : Nat := (t.entries.map fun e => f e.1 e.2).sum

omit [DecidableEq κ] in
@[simp] theorem total_empty : total f (∅ : Table κ ν) = 0 := rfl

/-- Taking one entry out of the sum. -/
theorem total_of_lookup (h : t.lookup k = some v) (f : κ → ν → Nat) :
    total f t = f k v + total f (t.erase k) := by
  have hmem : (⟨k, v⟩ : Sigma fun _ : κ => ν) ∈ t.entries := AList.mem_lookup_iff.mp h
  obtain ⟨b, l₁, l₂, -, hl, herase⟩ := List.exists_of_kerase (List.mem_keys_of_mem hmem)
  have hb : b = v := by
    have hb' : (⟨k, b⟩ : Sigma fun _ : κ => ν) ∈ t.entries := by
      rw [hl]
      exact List.mem_append_right _ (List.mem_cons_self ..)
    have hlookup := AList.mem_lookup_iff.mpr hb'
    rw [Option.mem_def, h] at hlookup
    exact (Option.some.inj hlookup).symm
  subst hb
  have herase' : (t.erase k).entries = l₁ ++ l₂ := herase
  rw [total, total, herase', hl, List.map_append, List.map_append, List.sum_append, List.sum_append,
    List.map_cons, List.sum_cons]
  dsimp only
  omega

theorem total_insert (t : Table κ ν) (k : κ) (v : ν) (f : κ → ν → Nat) :
    total f (t.insert k v) = f k v + total f (t.erase k) := by
  rw [total, AList.entries_insert, List.map_cons, List.sum_cons]
  rfl

theorem erase_of_lookup_none (h : t.lookup k = none) : t.erase k = t := by
  apply AList.ext
  exact List.kerase_of_notMem_keys (AList.lookup_eq_none.mp h)

theorem total_insert_new (h : t.lookup k = none) (v : ν) (f : κ → ν → Nat) :
    total f (t.insert k v) = f k v + total f t := by
  rw [total_insert, erase_of_lookup_none h]

/-- Overwriting an entry moves the total from its old weight to the new one. -/
theorem total_replace (h : t.lookup k = some v) (v' : ν) (f : κ → ν → Nat) :
    total f (t.insert k v') + f k v = total f t + f k v' := by
  rw [total_insert, total_of_lookup h]
  omega

omit [DecidableEq κ] in
theorem total_congr_entries (h : ∀ e ∈ t.entries, f e.1 e.2 = g e.1 e.2) : total f t = total g t :=
  congrArg List.sum (List.map_congr_left h)

/-- Weights that agree on the entries have the same total. -/
theorem total_congr (h : ∀ k v, t.lookup k = some v → f k v = g k v) : total f t = total g t :=
  total_congr_entries fun _ he => h _ _ (AList.mem_lookup_iff.mpr he)

theorem le_total (h : t.lookup k = some v) (f : κ → ν → Nat) : f k v ≤ total f t := by
  rw [total_of_lookup h]
  omega

theorem total_eq_zero : total f t = 0 ↔ ∀ k v, t.lookup k = some v → f k v = 0 := by
  constructor
  · intro h k v hk
    have := le_total hk f
    omega
  · intro h
    rw [total_congr (g := fun _ _ => 0) h]
    simp [total]

/-- A positive total has an entry of positive weight. -/
theorem exists_of_total_pos (h : 0 < total f t) : ∃ k v, t.lookup k = some v ∧ 0 < f k v := by
  by_contra hne
  refine absurd (total_eq_zero.mpr fun k v hk => ?_) (Nat.pos_iff_ne_zero.mp h)
  by_contra hf
  exact hne ⟨k, v, hk, Nat.pos_of_ne_zero hf⟩

omit [DecidableEq κ] in
theorem total_add (f g : κ → ν → Nat) (t : Table κ ν) :
    total (fun k v => f k v + g k v) t = total f t + total g t := by
  unfold total
  induction t.entries with
  | nil => rfl
  | cons e l ih =>
    simp only [List.map_cons, List.sum_cons] at ih ⊢
    omega

theorem total_mono (h : ∀ k v, t.lookup k = some v → f k v ≤ g k v) : total f t ≤ total g t := by
  have hsub : ∀ l : List (Sigma fun _ : κ => ν), (∀ e ∈ l, f e.1 e.2 ≤ g e.1 e.2) →
      (l.map fun e => f e.1 e.2).sum ≤ (l.map fun e => g e.1 e.2).sum := by
    intro l hl
    induction l with
    | nil => exact le_refl _
    | cons e l ih =>
      have he := hl e (List.mem_cons_self ..)
      have hl' := ih fun e' he' => hl e' (List.mem_cons_of_mem _ he')
      rw [List.map_cons, List.map_cons, List.sum_cons, List.sum_cons]
      omega
  exact hsub _ fun _ he => h _ _ (AList.mem_lookup_iff.mpr he)

omit [DecidableEq κ] in
/-- Counting keys is a total. -/
theorem countP_keys (p : κ → Bool) (t : Table κ ν) :
    t.keys.countP p = total (fun k _ => if p k = true then 1 else 0) t := by
  unfold total AList.keys List.keys
  induction t.entries with
  | nil => rfl
  | cons e l ih =>
    rw [List.map_cons, List.map_cons, List.countP_cons, List.sum_cons, ih, Nat.add_comm]

theorem keys_insert_perm_new (h : t.lookup k = none) (v : ν) :
    (t.insert k v).keys.Perm (k :: t.keys) := by
  rw [AList.keys_insert, List.erase_of_not_mem (AList.lookup_eq_none.mp h)]

theorem keys_insert_perm (h : t.lookup k = some v) (v' : ν) : (t.insert k v').keys.Perm t.keys := by
  rw [AList.keys_insert]
  refine (List.perm_cons_erase ?_).symm
  rw [← AList.mem_keys, ← AList.lookup_isSome, h]
  rfl

theorem keys_perm_cons_erase (h : t.lookup k = some v) : t.keys.Perm (k :: (t.erase k).keys) := by
  rw [AList.keys_erase]
  refine List.perm_cons_erase ?_
  rw [← AList.mem_keys, ← AList.lookup_isSome, h]
  rfl

theorem lookup_insert_eq (t : Table κ ν) (k k' : κ) (v : ν) :
    (t.insert k v).lookup k' = if k' = k then some v else t.lookup k' := by
  split
  · next h =>
    subst h
    exact AList.lookup_insert t
  · next h => exact AList.lookup_insert_ne h

theorem lookup_erase_eq (t : Table κ ν) (k k' : κ) :
    (t.erase k).lookup k' = if k' = k then none else t.lookup k' := by
  split
  · next h =>
    subst h
    exact AList.lookup_erase ..
  · next h => exact AList.lookup_erase_ne h

/-! ## Writing or erasing an entry -/

/-- The entry of a key becomes what is given: a value, or nothing. -/
def put (t : Table κ ν) (k : κ) : Option ν → Table κ ν
  | some v => t.insert k v
  | none => t.erase k

theorem lookup_put (t : Table κ ν) (k k' : κ) (n : Option ν) :
    (put t k n).lookup k' = if k' = k then n else t.lookup k' := by
  cases n with
  | some v => exact lookup_insert_eq t k k' v
  | none => exact lookup_erase_eq t k k'

/-- The total moves from the weight of the old entry to that of the new one. -/
theorem total_put (t : Table κ ν) (k : κ) (n : Option ν) (f : κ → ν → Nat) :
    total f (put t k n) + (t.lookup k).elim 0 (f k) = total f t + n.elim 0 (f k) := by
  have hold : total f t = (t.lookup k).elim 0 (f k) + total f (t.erase k) := by
    cases hk : t.lookup k with
    | some v => exact total_of_lookup hk f
    | none =>
      rw [erase_of_lookup_none hk]
      exact (Nat.zero_add _).symm
  have hnew : total f (put t k n) = n.elim 0 (f k) + total f (t.erase k) := by
    cases n with
    | some v => exact total_insert t k v f
    | none => exact (Nat.zero_add _).symm
  omega

end Rtfsc.Machine
