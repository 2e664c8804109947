import Rtfsc.Machine.LaidOut
import Rtfsc.Stl.DequeInsert

/-!
# Element loops on the tape

What the loops over elements do, as changes of what the places hold: a range is shifted (`Shifted`) or
written (`Written`).
-/

namespace Rtfsc.Stl

open Rtfsc.Machine

variable {T : Type}

/-- What is on `n` places from `p` on is on those from `q` on. On the other places of the first range
something is left behind. -/
structure Shifted (p q n : Nat) (t t' : Nat → Option T) : Prop where
  dst : ∀ x, q ≤ x → x < q + n → t' x = t (p + (x - q))
  src : ∀ x, p ≤ x → x < p + n → x < q ∨ q + n ≤ x → (t' x).isSome
  kept : ∀ x, x < q ∨ q + n ≤ x → x < p ∨ p + n ≤ x → t' x = t x

/-- `n` places from `q` on hold these values. -/
structure Written (q n : Nat) (vals : Nat → Option T) (t t' : Nat → Option T) : Prop where
  inside : ∀ x, q ≤ x → x < q + n → t' x = vals (x - q)
  kept : ∀ x, x < q ∨ q + n ≤ x → t' x = t x

variable {b : BufferSize} {entry : Nat → Nat} {region : Set Nat} {live : Finset Nat} {ms : MoveSem T}
  {cells : EltPtr → Option T} {t t' : Nat → Option T} {p q n m : Nat} {x : T}

/-! ## One element -/

theorem assignAt_laid (h : LaidOut (eltAt b entry) region cells t) (hp : (t p).isSome) :
    assignAt (eltAt b entry p) x cells = some (Function.update cells (eltAt b entry p) (some x)) ∧
      LaidOut (eltAt b entry) region (Function.update cells (eltAt b entry p) (some x))
        (Function.update t p (some x)) := by
  obtain ⟨y, hy⟩ := Option.isSome_iff_exists.mp hp
  exact ⟨if_pos (by rw [h.read hy]; rfl), h.store (h.mem hy) _⟩

theorem destroyAt_laid (h : LaidOut (eltAt b entry) region cells t) (hp : (t p).isSome) :
    destroyAt (eltAt b entry p) cells = some (Function.update cells (eltAt b entry p) none) ∧
      LaidOut (eltAt b entry) region (Function.update cells (eltAt b entry p) none)
        (Function.update t p none) := by
  obtain ⟨y, hy⟩ := Option.isSome_iff_exists.mp hp
  exact ⟨if_pos (by rw [h.read hy]; rfl), h.store (h.mem hy) _⟩

theorem constructAt_laid (h : LaidOut (eltAt b entry) region cells t) (hmem : p ∈ region)
    (hp : t p = none) (hlive : entry (p / b.elems) ∈ live) :
    constructAt live (eltAt b entry p) x cells =
        some (Function.update cells (eltAt b entry p) (some x)) ∧
      LaidOut (eltAt b entry) region (Function.update cells (eltAt b entry p) (some x))
        (Function.update t p (some x)) :=
  ⟨if_pos ⟨hlive, (h.at_cell p hmem).trans hp⟩, h.store hmem _⟩

/-- From one place to another. -/
theorem moveAssign_laid (ms : MoveSem T) (h : LaidOut (eltAt b entry) region cells t) (hp : t p = some x)
    (hq : (t q).isSome) (hne : p ≠ q) :
    ∃ cells', moveAssign ms (eltAt b entry p) (eltAt b entry q) cells = some cells' ∧
      LaidOut (eltAt b entry) region cells'
        (Function.update (Function.update t p (some (ms.movedFrom x))) q (some x)) := by
  have hq' : (Function.update t p (some (ms.movedFrom x)) q).isSome := by
    rwa [Function.update_of_ne hne.symm]
  obtain ⟨y, hy⟩ := Option.isSome_iff_exists.mp hq
  have hcell : eltAt b entry p ≠ eltAt b entry q := fun heq =>
    hne (h.inj (h.mem hp) (h.mem hy) heq)
  obtain ⟨hrun, hlaid⟩ := assignAt_laid (x := x) (h.store (h.mem hp) (some (ms.movedFrom x))) hq'
  refine ⟨_, ?_, hlaid⟩
  rw [moveAssign, h.read hp]
  exact (if_neg hcell).trans hrun

/-- To the same place. -/
theorem moveAssign_self (ms : MoveSem T) (h : LaidOut (eltAt b entry) region cells t) (hp : t p = some x) :
    ∃ cells', moveAssign ms (eltAt b entry p) (eltAt b entry p) cells = some cells' ∧
      LaidOut (eltAt b entry) region cells' (Function.update t p (some (ms.selfMove x))) := by
  obtain ⟨hrun, hlaid⟩ := assignAt_laid (x := ms.selfMove x) h (Option.isSome_of_eq_some hp)
  refine ⟨_, ?_, hlaid⟩
  rw [moveAssign, h.read hp]
  exact (if_pos rfl).trans hrun

theorem moveConstruct_laid (ms : MoveSem T) (h : LaidOut (eltAt b entry) region cells t) (hp : t p = some x)
    (hmem : q ∈ region) (hq : t q = none) (hlive : entry (q / b.elems) ∈ live) :
    ∃ cells', moveConstruct live ms (eltAt b entry p) (eltAt b entry q) cells = some cells' ∧
      LaidOut (eltAt b entry) region cells'
        (Function.update (Function.update t p (some (ms.movedFrom x))) q (some x)) := by
  have hne : q ≠ p := by
    rintro rfl
    rw [hp] at hq
    cases hq
  have hq' : Function.update t p (some (ms.movedFrom x)) q = none := by
    rwa [Function.update_of_ne hne]
  obtain ⟨hrun, hlaid⟩ := constructAt_laid (x := x) (h.store (h.mem hp) (some (ms.movedFrom x))) hmem
    hq' hlive
  refine ⟨_, ?_, hlaid⟩
  rw [moveConstruct, h.read hp]
  exact hrun

/-! ## Ranges, place by place -/

/-- An element is moved from place to place. -/
def movePlace (b : BufferSize) (entry : Nat → Nat) (ms : MoveSem T) (p q : Nat)
    (cells : EltPtr → Option T) : Option (EltPtr → Option T) :=
  moveAssign ms (eltAt b entry p) (eltAt b entry q) cells

/-- What was on a place, or something else. -/
theorem isSome_update {y : Nat} (h : (t y).isSome) : (Function.update t p (some x) y).isSome := by
  rcases eq_or_ne y p with rfl | hne
  · rw [Function.update_self]
    rfl
  · rwa [Function.update_of_ne hne]

namespace Shifted

theorem zero : Shifted p q 0 t t :=
  ⟨fun _ _ _ => by omega, fun _ _ _ => by omega, fun _ _ _ => rfl⟩

theorem move_other {z w : T} {y : Nat} (hp : y ≠ p) (hq : y ≠ q) :
    Function.update (Function.update t p (some z)) q (some w) y = t y := by
  rw [Function.update_of_ne hq, Function.update_of_ne hp]

/-- The first one is moved first. -/
theorem cons {z : T} (hp : t p = some x) (hside : q < p ∨ p + (n + 1) ≤ q)
    (h : Shifted (p + 1) (q + 1) n (Function.update (Function.update t p (some z)) q (some x)) t') :
    Shifted p q (n + 1) t t' := by
  refine ⟨fun y hlo hhi => ?_, fun y hlo hhi hout => ?_, fun y hq hp => ?_⟩
  · rcases Nat.eq_or_lt_of_le hlo with rfl | hlt
    · rw [h.kept q (by omega) (by omega), Function.update_self, Nat.sub_self, Nat.add_zero, hp]
    · rw [h.dst y hlt (by omega), move_other (by omega) (by omega)]
      congr 1
      omega
  · rcases Nat.eq_or_lt_of_le hlo with rfl | hlt
    · rw [h.kept p (by omega) (by omega), Function.update_of_ne (by omega), Function.update_self]
      rfl
    · exact h.src y hlt (by omega) (by omega)
  · rw [h.kept y (by omega) (by omega), move_other (by omega) (by omega)]

/-- The last one is moved first. -/
theorem snoc {z : T} (hp : t (p + n) = some x) (hside : p < q ∨ q + (n + 1) ≤ p)
    (h : Shifted p q n (Function.update (Function.update t (p + n) (some z)) (q + n) (some x)) t') :
    Shifted p q (n + 1) t t' := by
  refine ⟨fun y hlo hhi => ?_, fun y hlo hhi hout => ?_, fun y hq hp => ?_⟩
  · rcases Nat.eq_or_lt_of_le (by omega : y ≤ q + n) with rfl | hlt
    · rw [h.kept _ (by omega) (by omega), Function.update_self, Nat.add_sub_cancel_left, hp]
    · rw [h.dst y hlo hlt, move_other (by omega) (by omega)]
  · rcases Nat.eq_or_lt_of_le (by omega : y ≤ p + n) with rfl | hlt
    · rw [h.kept _ (by omega) (by omega), Function.update_of_ne (by omega), Function.update_self]
      rfl
    · exact h.src y hlo hlt (by omega)
  · rw [h.kept y (by omega) (by omega), move_other (by omega) (by omega)]

/-- No element is lost. -/
theorem isSome (h : Shifted p q n t t') (hsrc : ∀ y, p ≤ y → y < p + n → (t y).isSome) {y : Nat}
    (hy : (t y).isSome) : (t' y).isSome := by
  by_cases hdst : q ≤ y ∧ y < q + n
  · rw [h.dst y hdst.1 hdst.2]
    exact hsrc _ (by omega) (by omega)
  by_cases hin : p ≤ y ∧ y < p + n
  · exact h.src y hin.1 hin.2 (by omega)
  · rwa [h.kept y (by omega) (by omega)]

end Shifted

namespace Written

variable {vals : Nat → Option T}

theorem zero : Written q 0 vals t t :=
  ⟨fun _ _ _ => by omega, fun _ _ => rfl⟩

theorem cons {v : Option T} (hv : vals 0 = v)
    (h : Written (q + 1) n (fun k => vals (k + 1)) (Function.update t q v) t') :
    Written q (n + 1) vals t t' := by
  refine ⟨fun y hlo hhi => ?_, fun y hy => ?_⟩
  · rcases Nat.eq_or_lt_of_le hlo with rfl | hlt
    · rw [h.kept q (by omega), Function.update_self, Nat.sub_self, hv]
    · rw [h.inside y hlt (by omega)]
      congr 1
      omega
  · rw [h.kept y (by omega), Function.update_of_ne (by omega)]

theorem snoc {v : Option T} (hv : vals n = v)
    (h : Written q n vals (Function.update t (q + n) v) t') : Written q (n + 1) vals t t' := by
  refine ⟨fun y hlo hhi => ?_, fun y hy => ?_⟩
  · rcases Nat.eq_or_lt_of_le (by omega : y ≤ q + n) with rfl | hlt
    · rw [h.kept _ (by omega), Function.update_self, Nat.add_sub_cancel_left, hv]
    · exact h.inside y hlo hlt
  · rw [h.kept y (by omega), Function.update_of_ne (by omega)]

theorem congr {vals' : Nat → Option T} (h : Written q n vals t t') (heq : ∀ k < n, vals k = vals' k) :
    Written q n vals' t t' :=
  ⟨fun y hlo hhi => (h.inside y hlo hhi).trans (heq _ (by omega)), h.kept⟩

end Written

theorem eachPlace_move (ms : MoveSem T) (h : LaidOut (eltAt b entry) region cells t)
    (hsrc : ∀ y, p ≤ y → y < p + n → (t y).isSome) (hdst : ∀ y, q ≤ y → y < q + n → (t y).isSome)
    (hside : q < p ∨ p + n ≤ q) :
    ∃ cells' t', eachPlace (movePlace b entry ms) p q cells n = some cells' ∧
      LaidOut (eltAt b entry) region cells' t' ∧ Shifted p q n t t' := by
  induction n generalizing p q cells t with
  | zero => exact ⟨cells, t, rfl, h, .zero⟩
  | succ n ih =>
    obtain ⟨x, hx⟩ := Option.isSome_iff_exists.mp (hsrc p le_rfl (by omega))
    obtain ⟨cells₁, hrun₁, hlaid₁⟩ := moveAssign_laid ms h hx (hdst q le_rfl (by omega)) (by omega)
    obtain ⟨cells₂, t₂, hrun₂, hlaid₂, hshifted⟩ := ih (p := p + 1) (q := q + 1) hlaid₁
      (fun y hlo hhi => isSome_update (isSome_update (hsrc y (by omega) (by omega))))
      (fun y hlo hhi => isSome_update (isSome_update (hdst y (by omega) (by omega)))) (by omega)
    refine ⟨cells₂, t₂, ?_, hlaid₂, .cons hx hside hshifted⟩
    rw [eachPlace, movePlace, hrun₁]
    exact hrun₂

theorem eachPlaceBackward_move (ms : MoveSem T) (h : LaidOut (eltAt b entry) region cells t)
    (hsrc : ∀ y, p ≤ y → y < p + n → (t y).isSome) (hdst : ∀ y, q ≤ y → y < q + n → (t y).isSome)
    (hside : p < q ∨ q + n ≤ p) :
    ∃ cells' t', eachPlaceBackward (movePlace b entry ms) p q cells n = some cells' ∧
      LaidOut (eltAt b entry) region cells' t' ∧ Shifted p q n t t' := by
  induction n generalizing cells t with
  | zero => exact ⟨cells, t, rfl, h, .zero⟩
  | succ n ih =>
    obtain ⟨x, hx⟩ := Option.isSome_iff_exists.mp (hsrc (p + n) (by omega) (by omega))
    obtain ⟨cells₁, hrun₁, hlaid₁⟩ := moveAssign_laid ms h hx (hdst (q + n) (by omega) (by omega))
      (by omega)
    obtain ⟨cells₂, t₂, hrun₂, hlaid₂, hshifted⟩ := ih hlaid₁
      (fun y hlo hhi => isSome_update (isSome_update (hsrc y hlo (by omega))))
      (fun y hlo hhi => isSome_update (isSome_update (hdst y hlo (by omega)))) (by omega)
    refine ⟨cells₂, t₂, ?_, hlaid₂, .snoc hx hside hshifted⟩
    rw [eachPlaceBackward, movePlace, hrun₁]
    exact hrun₂

/-- To uninitialized places. -/
theorem eachPlace_construct (ms : MoveSem T) (live : Finset Nat)
    (h : LaidOut (eltAt b entry) region cells t)
    (hsrc : ∀ y, p ≤ y → y < p + n → (t y).isSome)
    (hdst : ∀ y, q ≤ y → y < q + n → y ∈ region ∧ t y = none ∧ entry (y / b.elems) ∈ live)
    (hside : q + n ≤ p ∨ p + n ≤ q) :
    ∃ cells' t', eachPlace (fun p q => moveConstruct live ms (eltAt b entry p) (eltAt b entry q)) p q
        cells n = some cells' ∧ LaidOut (eltAt b entry) region cells' t' ∧ Shifted p q n t t' := by
  induction n generalizing p q cells t with
  | zero => exact ⟨cells, t, rfl, h, .zero⟩
  | succ n ih =>
    obtain ⟨x, hx⟩ := Option.isSome_iff_exists.mp (hsrc p le_rfl (by omega))
    obtain ⟨hmem, hraw, hlive⟩ := hdst q le_rfl (by omega)
    obtain ⟨cells₁, hrun₁, hlaid₁⟩ := moveConstruct_laid ms h hx hmem hraw hlive
    obtain ⟨cells₂, t₂, hrun₂, hlaid₂, hshifted⟩ := ih (p := p + 1) (q := q + 1) hlaid₁
      (fun y hlo hhi => isSome_update (isSome_update (hsrc y (by omega) (by omega))))
      (fun y hlo hhi => by
        rw [Shifted.move_other (by omega) (by omega)]
        exact hdst y (by omega) (by omega)) (by omega)
    refine ⟨cells₂, t₂, ?_, hlaid₂, .cons hx (by omega) hshifted⟩
    rw [eachPlace, hrun₁]
    exact hrun₂

/-- To themselves. -/
theorem eachPlace_self (ms : MoveSem T) (h : LaidOut (eltAt b entry) region cells t)
    (hsrc : ∀ y, p ≤ y → y < p + n → (t y).isSome) :
    ∃ cells' t', eachPlace (movePlace b entry ms) p p cells n = some cells' ∧
      LaidOut (eltAt b entry) region cells' t' ∧
      Written p n (fun k => (t (p + k)).map ms.selfMove) t t' := by
  induction n generalizing p cells t with
  | zero => exact ⟨cells, t, rfl, h, .zero⟩
  | succ n ih =>
    obtain ⟨x, hx⟩ := Option.isSome_iff_exists.mp (hsrc p le_rfl (by omega))
    obtain ⟨cells₁, hrun₁, hlaid₁⟩ := moveAssign_self ms h hx
    obtain ⟨cells₂, t₂, hrun₂, hlaid₂, hwritten⟩ := ih (p := p + 1) hlaid₁
      (fun y hlo hhi => isSome_update (hsrc y (by omega) (by omega)))
    refine ⟨cells₂, t₂, ?_, hlaid₂, .cons (by rw [Nat.add_zero, hx]; rfl) (hwritten.congr fun k _ => ?_)⟩
    · rw [eachPlace, movePlace, hrun₁]
      exact hrun₂
    · rw [Function.update_of_ne (by omega), Nat.add_assoc, Nat.add_comm 1 k]

theorem eachPlaceBackward_self (ms : MoveSem T) (h : LaidOut (eltAt b entry) region cells t)
    (hsrc : ∀ y, p ≤ y → y < p + n → (t y).isSome) :
    ∃ cells' t', eachPlaceBackward (movePlace b entry ms) p p cells n = some cells' ∧
      LaidOut (eltAt b entry) region cells' t' ∧
      Written p n (fun k => (t (p + k)).map ms.selfMove) t t' := by
  induction n generalizing cells t with
  | zero => exact ⟨cells, t, rfl, h, .zero⟩
  | succ n ih =>
    obtain ⟨x, hx⟩ := Option.isSome_iff_exists.mp (hsrc (p + n) (by omega) (by omega))
    obtain ⟨cells₁, hrun₁, hlaid₁⟩ := moveAssign_self ms h hx
    obtain ⟨cells₂, t₂, hrun₂, hlaid₂, hwritten⟩ := ih hlaid₁
      (fun y hlo hhi => isSome_update (hsrc y hlo (by omega)))
    refine ⟨cells₂, t₂, ?_, hlaid₂, .snoc (by rw [hx]; rfl) (hwritten.congr fun k hk => ?_)⟩
    · rw [eachPlaceBackward, movePlace, hrun₁]
      exact hrun₂
    · rw [Function.update_of_ne (by omega)]

end Rtfsc.Stl
