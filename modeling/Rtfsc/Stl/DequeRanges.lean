import Rtfsc.Stl.Deque
import Rtfsc.Stl.DequeTape

/-!
# Ranges of a deque

The functions that move, fill, copy and destroy ranges of elements, one lemma for each: they come to an
end without touching an element that is not there, and the tape is as it should be.
-/

namespace Rtfsc.Stl

open Rtfsc.Machine

variable {T : Type} {b : BufferSize} {entry : Nat → Nat} {region : Set Nat} {ms : MoveSem T}
  {cells : EltPtr → Option T} {t t₁ t₂ : Nat → Option T} {p q n m i j : Nat} {v : Option T}

/-! ## Written ranges -/

namespace Written

/-- What comes behind. -/
theorem append (h₁ : Written q m (fun _ => v) t t₁) (h₂ : Written (q + m) n (fun _ => v) t₁ t₂) :
    Written q (m + n) (fun _ => v) t t₂ := by
  refine ⟨fun y hlo hhi => ?_, fun y hy => ?_⟩
  · rcases Nat.lt_or_ge y (q + m) with hlt | hge
    · rw [h₂.kept y (.inl hlt), h₁.inside y hlo hlt]
    · rw [h₂.inside y hge (by omega)]
  · rw [h₂.kept y (by omega), h₁.kept y (by omega)]

/-- What comes before. -/
theorem prepend (h₁ : Written (q + m) n (fun _ => v) t t₁) (h₂ : Written q m (fun _ => v) t₁ t₂) :
    Written q (m + n) (fun _ => v) t t₂ := by
  refine ⟨fun y hlo hhi => ?_, fun y hy => ?_⟩
  · rcases Nat.lt_or_ge y (q + m) with hlt | hge
    · rw [h₂.inside y hlo hlt]
    · rw [h₂.kept y (.inr hge), h₁.inside y hge (by omega)]
  · rw [h₂.kept y (by omega), h₁.kept y (by omega)]

end Written

/-! ## One buffer -/

section Act

variable {act : EltPtr → (EltPtr → Option T) → Option (EltPtr → Option T)}

/-- An element is assigned or destroyed: its place holds `v` then. -/
def Puts (b : BufferSize) (entry : Nat → Nat) (region : Set Nat)
    (act : EltPtr → (EltPtr → Option T) → Option (EltPtr → Option T)) (v : Option T) : Prop :=
  ∀ cells t p, LaidOut (eltAt b entry) region cells t → (t p).isSome →
    ∃ cells', act (eltAt b entry p) cells = some cells' ∧
      LaidOut (eltAt b entry) region cells' (Function.update t p v)

theorem puts_assignAt {x : T} : Puts b entry region (fun p => assignAt p x) (some x) :=
  fun _ _ _ h hp => ⟨_, assignAt_laid h hp⟩

theorem puts_destroyAt : Puts (T := T) b entry region destroyAt none :=
  fun _ _ _ h hp => ⟨_, destroyAt_laid h hp⟩

variable (hact : Puts b entry region act v)
include hact

theorem eachPtr_laid (h : LaidOut (eltAt b entry) region cells t)
    (hsome : ∀ y, p + i ≤ y → y < p + i + n → (t y).isSome) (hroom : p % b.elems + i + n ≤ b.elems) :
    ∃ cells' t', eachPtr act ((eltAt b entry p).add i) cells n = some cells' ∧
      LaidOut (eltAt b entry) region cells' t' ∧ Written (p + i) n (fun _ => v) t t' := by
  induction n generalizing i cells t with
  | zero => exact ⟨cells, t, rfl, h, .zero⟩
  | succ n ih =>
    obtain ⟨cells₁, hrun₁, hlaid₁⟩ := hact cells t (p + i) h (hsome _ le_rfl (by omega))
    obtain ⟨cells₂, t₂, hrun₂, hlaid₂, hwritten⟩ := ih (i := i + 1) hlaid₁
      (fun y hlo hhi => by
        rw [Function.update_of_ne (by omega)]
        exact hsome y (by omega) (by omega)) (by omega)
    refine ⟨cells₂, t₂, ?_, hlaid₂, .cons rfl hwritten⟩
    rw [eachPtr, ← eltAt_add (by omega), hrun₁, eltAt_add (by omega)]
    change eachPtr act (((eltAt b entry p).add i).add 1) cells₁ n = _
    rw [EltPtr.add_add]
    exact hrun₂

/-! ## Buffer by buffer -/

omit hact in
theorem eltAt_first : eltAt b entry (j * b.elems) = ⟨entry j, 0⟩ := by
  rw [eltAt, Nat.mul_div_cancel _ b.pos, Nat.mul_mod_left]

theorem betweenNodes_laid (h : LaidOut (eltAt b entry) region cells t)
    (hsome : ∀ y, j * b.elems ≤ y → y < (j + n) * b.elems → (t y).isSome) :
    ∃ cells' t', betweenNodes b entry act j cells n = some cells' ∧
      LaidOut (eltAt b entry) region cells' t' ∧
      Written (j * b.elems) (n * b.elems) (fun _ => v) t t' := by
  induction n generalizing j cells t with
  | zero => exact ⟨cells, t, rfl, h, by rw [Nat.zero_mul]; exact .zero⟩
  | succ n ih =>
    have hmul : (j + 1) * b.elems = j * b.elems + b.elems := Nat.succ_mul _ _
    have hle : (j + 1) * b.elems ≤ (j + (n + 1)) * b.elems := Nat.mul_le_mul_right _ (by omega)
    obtain ⟨cells₁, t₁, hrun₁, hlaid₁, hwritten₁⟩ := eachPtr_laid (p := j * b.elems) (i := 0)
      (n := b.elems) hact h (fun y hlo hhi => hsome y hlo (by omega))
      (by rw [Nat.mul_mod_left]; omega)
    obtain ⟨cells₂, t₂, hrun₂, hlaid₂, hwritten₂⟩ := ih (j := j + 1) hlaid₁ (fun y hlo hhi => by
      rw [hwritten₁.kept y (by omega)]
      exact hsome y (by omega) (by rwa [show j + (n + 1) = j + 1 + n by omega]))
    refine ⟨cells₂, t₂, ?_, hlaid₂, ?_⟩
    · rw [betweenNodes, ← eltAt_first]
      change (eachPtr act ((eltAt b entry (j * b.elems)).add 0) cells b.elems).bind _ = _
      rw [hrun₁]
      exact hrun₂
    · rw [hmul] at hwritten₂
      rw [Nat.succ_mul, Nat.add_comm]
      exact hwritten₁.append hwritten₂

theorem segmentedRange_laid (h : LaidOut (eltAt b entry) region cells t)
    (hsome : ∀ y, p ≤ y → y < p + n → (t y).isSome) :
    ∃ cells' t', segmentedRange b entry act (iterAt b entry p) (iterAt b entry (p + n)) cells =
        some cells' ∧ LaidOut (eltAt b entry) region cells' t' ∧ Written p n (fun _ => v) t t' := by
  have hp : p / b.elems * b.elems + p % b.elems = p := place_eq
  have hend : (p + n) / b.elems * b.elems + (p + n) % b.elems = p + n := place_eq
  have hlt : p % b.elems < b.elems := place_mod_lt
  have hlt' : (p + n) % b.elems < b.elems := place_mod_lt
  have hle : p / b.elems ≤ (p + n) / b.elems := Nat.div_le_div_right (Nat.le_add_right _ _)
  unfold segmentedRange
  rcases Nat.eq_or_lt_of_le hle with hsame | hless
  · -- one buffer
    rw [← hsame] at hend
    obtain ⟨cells', t', hrun, hlaid, hwritten⟩ := eachPtr_laid (p := p) (i := 0) (n := n) hact h
      hsome (by omega)
    refine ⟨cells', t', ?_, hlaid, hwritten⟩
    have hbetween : (iterAt b entry (p + n)).node - ((iterAt b entry p).node + 1) = 0 := by
      change (p + n) / b.elems - (p / b.elems + 1) = 0
      omega
    have hcount : (iterAt b entry (p + n)).cur.off - (iterAt b entry p).cur.off = n := by
      change (p + n) % b.elems - p % b.elems = n
      omega
    rw [hbetween, hcount]
    exact (if_neg (not_not_intro hsame)).trans hrun
  · obtain ⟨m, hm⟩ := Nat.exists_eq_add_of_le (Nat.succ_le_of_lt hless)
    have hbetween : (iterAt b entry (p + n)).node - ((iterAt b entry p).node + 1) = m := by
      change (p + n) / b.elems - (p / b.elems + 1) = m
      omega
    have hnext : (p / b.elems + 1) * b.elems = p + (b.elems - p % b.elems) := by
      rw [Nat.succ_mul]
      omega
    have hlast : (p + n) / b.elems * b.elems = p + (b.elems - p % b.elems + m * b.elems) := by
      rw [hm, Nat.add_mul, hnext, Nat.add_assoc]
    obtain ⟨cells₁, t₁, hrun₁, hlaid₁, hmiddle⟩ := betweenNodes_laid (j := p / b.elems + 1) (n := m)
      hact h (fun y hlo hhi => hsome y (by omega) (by rw [← hm] at hhi; omega))
    obtain ⟨cells₂, t₂, hrun₂, hlaid₂, hfirst⟩ := eachPtr_laid (p := p) (i := 0)
      (n := b.elems - p % b.elems) hact hlaid₁
      (fun y hlo hhi => by
        rw [hmiddle.kept y (by omega)]
        exact hsome y hlo (by omega)) (by omega)
    rw [hnext] at hmiddle
    have hfront := hmiddle.prepend hfirst
    obtain ⟨cells₃, t₃, hrun₃, hlaid₃, hback⟩ := eachPtr_laid (p := (p + n) / b.elems * b.elems)
      (i := 0) (n := (p + n) % b.elems) hact hlaid₂
      (fun y hlo hhi => by
        rw [hfront.kept y (by omega)]
        exact hsome y (by omega) (by omega)) (by rw [Nat.mul_mod_left]; omega)
    refine ⟨cells₃, t₃, ?_, hlaid₃, ?_⟩
    · rw [hbetween]
      change (betweenNodes b entry act (p / b.elems + 1) cells m).bind _ = _
      rw [hrun₁]
      refine (if_pos hless.ne).trans ?_
      change (eachPtr act ((eltAt b entry p).add 0) cells₁ (b.elems - p % b.elems)).bind _ = _
      rw [hrun₂]
      change eachPtr act (EltPtr.mk (entry ((p + n) / b.elems)) 0) cells₂ ((p + n) % b.elems) = _
      rw [← eltAt_first]
      exact hrun₃
    · rw [Nat.add_zero, hlast] at hback
      have hn : b.elems - p % b.elems + m * b.elems + (p + n) % b.elems = n := by omega
      exact hn ▸ hfront.append hback

end Act

/-! ## Moves in one buffer -/

section Moves

theorem movePtrs_eq (hp : p % b.elems + i + n ≤ b.elems) (hq : q % b.elems + i + n ≤ b.elems) :
    movePtrs ms ((eltAt b entry p).add i) ((eltAt b entry q).add i) cells n =
      eachPlace (movePlace b entry ms) (p + i) (q + i) cells n := by
  induction n generalizing i cells with
  | zero => rfl
  | succ n ih =>
    rw [movePtrs, eachPlace, movePlace, eltAt_add (by omega), eltAt_add (by omega)]
    congr 1
    funext cells
    rw [EltPtr.add_add, EltPtr.add_add]
    exact ih (by omega) (by omega)

theorem movePtrsBackward_eq (hp : p % b.elems + n ≤ b.elems) (hq : q % b.elems + n ≤ b.elems) :
    movePtrsBackward ms (eltAt b entry p) (eltAt b entry q) cells n =
      eachPlaceBackward (movePlace b entry ms) p q cells n := by
  induction n generalizing cells with
  | zero => rfl
  | succ n ih =>
    rw [movePtrsBackward, eachPlaceBackward, movePlace, eltAt_add (by omega), eltAt_add (by omega)]
    congr 1
    funext cells
    exact ih (by omega) (by omega)

theorem moveSegment_eq (cells : EltPtr → Option T) (hp : p % b.elems + n ≤ b.elems) (hq : q % b.elems + n ≤ b.elems) :
    moveSegment ms (eltAt b entry p) ((eltAt b entry p).add n) (eltAt b entry q) cells =
      eachPlace (movePlace b entry ms) p q cells n := by
  rw [moveSegment, EltPtr.add_off, Nat.add_sub_cancel_left]
  exact movePtrs_eq (i := 0) (by omega) (by omega)

theorem moveSegmentBackward_eq (cells : EltPtr → Option T) (hp : p % b.elems + n ≤ b.elems) (hq : q % b.elems + n ≤ b.elems) :
    moveSegmentBackward ms (eltAt b entry p) ((eltAt b entry p).add n) ((eltAt b entry q).add n) cells =
      eachPlaceBackward (movePlace b entry ms) p q cells n := by
  unfold moveSegmentBackward
  dsimp only
  rw [EltPtr.add_off, Nat.add_sub_cancel_left, EltPtr.add_off, if_pos (Nat.le_add_left _ _),
    EltPtr.add_sub]
  exact movePtrsBackward_eq hp hq

end Moves

/-! ## Ranges of a deque -/

theorem minus_iterAt_add : (iterAt b entry (p + n)).minus b (iterAt b entry p) = (n : Nat) := by
  rw [minus_iterAt]
  omega

theorem plus_iterAt_add : (iterAt b entry p).plus b entry (n : Nat) = iterAt b entry (p + n) :=
  plus_iterAt (Int.natCast_add p n)

namespace Deque

variable {env : DequeEnv} {d : Deque T} {lo hi : Nat} {ys : List T} {x : T}

theorem Held.withCells {cells' : EltPtr → Option T} {t' : Nat → Option T} (h : d.Held env lo hi t)
    (hlaid : LaidOut (eltAt env.buffer d.entry) (nodePlaces env.buffer lo hi) cells' t') :
    (d.withCells cells').Held env lo hi t' :=
  ⟨h.hi_lt, h.owns, hlaid⟩

theorem moveRange_eq :
    d.moveRange env ms (iterAt env.buffer d.entry p) (iterAt env.buffer d.entry (p + n))
        (iterAt env.buffer d.entry q) =
      (eachPlace (movePlace env.buffer d.entry ms) p q d.cells n).map d.withCells := by
  unfold moveRange
  dsimp only
  rw [minus_iterAt_add, Int.toNat_natCast,
    segmentedLoop_eq (fun i m c _ hp hq => moveSegment_eq c hp hq) le_rfl]
  cases eachPlace (movePlace env.buffer d.entry ms) p q d.cells n <;> rfl

theorem moveRangeBackward_eq :
    d.moveRangeBackward env ms (iterAt env.buffer d.entry p) (iterAt env.buffer d.entry (p + n))
        (iterAt env.buffer d.entry (q + n)) =
      (eachPlaceBackward (movePlace env.buffer d.entry ms) p q d.cells n).map d.withCells := by
  unfold moveRangeBackward
  dsimp only
  rw [minus_iterAt_add, Int.toNat_natCast,
    segmentedLoopBackward_eq (fun i m c _ hp hq => moveSegmentBackward_eq c hp hq) le_rfl]
  cases eachPlaceBackward (movePlace env.buffer d.entry ms) p q d.cells n <;> rfl

/-- Elements may be constructed where there are buffers and nothing else. -/
def Room (env : DequeEnv) (lo hi : Nat) (t : Nat → Option T) (q n : Nat) : Prop :=
  ∀ y, q ≤ y → y < q + n → y ∈ nodePlaces env.buffer lo hi ∧ t y = none

/-- A value that may be an element reads as `v`, also after there are more elements. -/
def Reads (x : Maker T) (cells : EltPtr → Option T) (v : T) : Prop :=
  ∀ cells', (∀ p y, cells p = some y → cells' p = some y) → x cells' = some v

namespace Held

/-- `move` takes the elements to where there are others. -/
theorem moveRange (h : d.Held env lo hi t) (ms : MoveSem T)
    (hsrc : ∀ y, p ≤ y → y < p + n → (t y).isSome) (hdst : ∀ y, q ≤ y → y < q + n → (t y).isSome)
    (hside : q < p ∨ p + n ≤ q) :
    ∃ cells' t', d.moveRange env ms (iterAt env.buffer d.entry p) (iterAt env.buffer d.entry (p + n))
        (iterAt env.buffer d.entry q) = some (d.withCells cells') ∧
      (d.withCells cells').Held env lo hi t' ∧ Shifted p q n t t' := by
  obtain ⟨cells', t', hrun, hlaid, hshifted⟩ := eachPlace_move ms h.laid hsrc hdst hside
  refine ⟨cells', t', ?_, h.withCells hlaid, hshifted⟩
  rw [moveRange_eq, hrun]
  rfl

theorem moveRangeBackward (h : d.Held env lo hi t) (ms : MoveSem T)
    (hsrc : ∀ y, p ≤ y → y < p + n → (t y).isSome) (hdst : ∀ y, q ≤ y → y < q + n → (t y).isSome)
    (hside : p < q ∨ q + n ≤ p) :
    ∃ cells' t', d.moveRangeBackward env ms (iterAt env.buffer d.entry p)
        (iterAt env.buffer d.entry (p + n)) (iterAt env.buffer d.entry (q + n)) =
          some (d.withCells cells') ∧
      (d.withCells cells').Held env lo hi t' ∧ Shifted p q n t t' := by
  obtain ⟨cells', t', hrun, hlaid, hshifted⟩ := eachPlaceBackward_move ms h.laid hsrc hdst hside
  refine ⟨cells', t', ?_, h.withCells hlaid, hshifted⟩
  rw [moveRangeBackward_eq, hrun]
  rfl

/-- Where the elements are already, each is moved to itself. -/
theorem moveRange_self (h : d.Held env lo hi t) (ms : MoveSem T)
    (hsrc : ∀ y, p ≤ y → y < p + n → (t y).isSome) :
    ∃ cells' t', d.moveRange env ms (iterAt env.buffer d.entry p) (iterAt env.buffer d.entry (p + n))
        (iterAt env.buffer d.entry p) = some (d.withCells cells') ∧
      (d.withCells cells').Held env lo hi t' ∧
      Written p n (fun k => (t (p + k)).map ms.selfMove) t t' := by
  obtain ⟨cells', t', hrun, hlaid, hwritten⟩ := eachPlace_self ms h.laid hsrc
  refine ⟨cells', t', ?_, h.withCells hlaid, hwritten⟩
  rw [moveRange_eq, hrun]
  rfl

theorem moveRangeBackward_self (h : d.Held env lo hi t) (ms : MoveSem T)
    (hsrc : ∀ y, p ≤ y → y < p + n → (t y).isSome) :
    ∃ cells' t', d.moveRangeBackward env ms (iterAt env.buffer d.entry p)
        (iterAt env.buffer d.entry (p + n)) (iterAt env.buffer d.entry (p + n)) =
          some (d.withCells cells') ∧
      (d.withCells cells').Held env lo hi t' ∧
      Written p n (fun k => (t (p + k)).map ms.selfMove) t t' := by
  obtain ⟨cells', t', hrun, hlaid, hwritten⟩ := eachPlaceBackward_self ms h.laid hsrc
  refine ⟨cells', t', ?_, h.withCells hlaid, hwritten⟩
  rw [moveRangeBackward_eq, hrun]
  rfl

theorem fill (h : d.Held env lo hi t) (x : T) (hsome : ∀ y, p ≤ y → y < p + n → (t y).isSome) :
    ∃ cells' t', d.fill env (iterAt env.buffer d.entry p) (iterAt env.buffer d.entry (p + n)) x =
        some (d.withCells cells') ∧
      (d.withCells cells').Held env lo hi t' ∧ Written p n (fun _ => some x) t t' := by
  obtain ⟨cells', t', hrun, hlaid, hwritten⟩ := segmentedRange_laid puts_assignAt h.laid hsome
  refine ⟨cells', t', ?_, h.withCells hlaid, hwritten⟩
  rw [Deque.fill, hrun]
  rfl

theorem destroyData (h : d.Held env lo hi t) (hsome : ∀ y, p ≤ y → y < p + n → (t y).isSome) :
    ∃ cells' t', d.destroyData env (iterAt env.buffer d.entry p) (iterAt env.buffer d.entry (p + n)) =
        some (d.withCells cells') ∧
      (d.withCells cells').Held env lo hi t' ∧ Written p n (fun _ => none) t t' := by
  obtain ⟨cells', t', hrun, hlaid, hwritten⟩ := segmentedRange_laid puts_destroyAt h.laid hsome
  refine ⟨cells', t', ?_, h.withCells hlaid, hwritten⟩
  rw [Deque.destroyData, hrun]
  rfl

theorem uninitializedMove (h : d.Held env lo hi t) (ms : MoveSem T)
    (hsrc : ∀ y, p ≤ y → y < p + n → (t y).isSome) (hroom : Room env lo hi t q n)
    (hside : q + n ≤ p ∨ p + n ≤ q) :
    ∃ cells' t', d.uninitializedMove env ms (iterAt env.buffer d.entry p)
        (iterAt env.buffer d.entry (p + n)) (iterAt env.buffer d.entry q) =
          some (iterAt env.buffer d.entry (q + n), d.withCells cells') ∧
      (d.withCells cells').Held env lo hi t' ∧ Shifted p q n t t' := by
  obtain ⟨cells', t', hrun, hlaid, hshifted⟩ := eachPlace_construct ms d.live
    h.laid hsrc (fun y hy hy' =>
      have hin := hroom y hy hy'
      ⟨hin.1, hin.2, h.owns.mem hin.1.1 hin.1.2⟩) hside
  refine ⟨cells', t', ?_, h.withCells hlaid, hshifted⟩
  rw [Deque.uninitializedMove, minus_iterAt_add, Int.toNat_natCast, eachIter_eq, hrun]
  rfl

theorem copyList (h : d.Held env lo hi t) (ys : List T)
    (hsome : ∀ y, p ≤ y → y < p + ys.length → (t y).isSome) :
    ∃ cells' t', d.copyList env (iterAt env.buffer d.entry p) ys = some (d.withCells cells') ∧
      (d.withCells cells').Held env lo hi t' ∧ Written p ys.length (ys[·]?) t t' := by
  induction ys generalizing d p t with
  | nil => exact ⟨d.cells, t, rfl, h, .zero⟩
  | cons y ys ih =>
    rw [List.length_cons] at hsome ⊢
    obtain ⟨hrun, hlaid⟩ := assignAt_laid (x := y) h.laid (hsome p le_rfl (by omega))
    obtain ⟨cells', t', hrun', hheld, hwritten⟩ := ih (p := p + 1) (h.withCells hlaid)
      (fun k hlo hhi => isSome_update (hsome k (by omega) (by omega)))
    refine ⟨cells', t', ?_, hheld, .cons rfl hwritten⟩
    rw [Deque.copyList]
    change (assignAt (eltAt env.buffer d.entry p) y d.cells).bind _ = _
    rw [hrun]
    change Deque.copyList env (d.withCells _) ((iterAt env.buffer d.entry p).next env.buffer d.entry)
      ys = _
    rw [next_iterAt]
    exact hrun'

theorem uninitializedCopy (h : d.Held env lo hi t) (ys : List T) (hroom : Room env lo hi t p ys.length) :
    ∃ cells' t', d.uninitializedCopy env (iterAt env.buffer d.entry p) ys =
        some (iterAt env.buffer d.entry (p + ys.length), d.withCells cells') ∧
      (d.withCells cells').Held env lo hi t' ∧ Written p ys.length (ys[·]?) t t' := by
  induction ys generalizing d p t with
  | nil => exact ⟨d.cells, t, rfl, h, .zero⟩
  | cons y ys ih =>
    rw [List.length_cons] at hroom ⊢
    obtain ⟨hmem, hraw⟩ := hroom p le_rfl (by omega)
    obtain ⟨hrun, hlaid⟩ := constructAt_laid (x := y) h.laid hmem hraw (h.owns.mem hmem.1 hmem.2)
    obtain ⟨cells', t', hrun', hheld, hwritten⟩ := ih (p := p + 1) (h.withCells hlaid)
      (fun k hlo hhi => by
        rw [Function.update_of_ne (by omega)]
        exact hroom k (by omega) (by omega))
    refine ⟨cells', t', ?_, hheld, .cons rfl hwritten⟩
    rw [Deque.uninitializedCopy]
    change (constructAt d.live (eltAt env.buffer d.entry p) y d.cells).bind _ = _
    rw [hrun]
    change Deque.uninitializedCopy env (d.withCells _)
      ((iterAt env.buffer d.entry p).next env.buffer d.entry) ys = _
    rw [next_iterAt, ← Nat.add_assoc, Nat.add_right_comm]
    exact hrun'

theorem fillUninitialized {x : Maker T} {v : T} (h : d.Held env lo hi t) (hx : Reads x d.cells v)
    (hroom : Room env lo hi t p n) :
    ∃ cells' t', d.fillUninitialized env x (iterAt env.buffer d.entry p) n = some (d.withCells cells') ∧
      (d.withCells cells').Held env lo hi t' ∧ Written p n (fun _ => some v) t t' := by
  induction n generalizing d p t with
  | zero => exact ⟨d.cells, t, rfl, h, .zero⟩
  | succ n ih =>
    obtain ⟨hmem, hraw⟩ := hroom p le_rfl (by omega)
    have hempty : d.cells (eltAt env.buffer d.entry p) = none := (h.laid.at_cell p hmem).trans hraw
    obtain ⟨hrun, hlaid⟩ := constructAt_laid (x := v) h.laid hmem hraw (h.owns.mem hmem.1 hmem.2)
    obtain ⟨cells', t', hrun', hheld, hwritten⟩ := ih (p := p + 1) (h.withCells hlaid)
      (fun cells' hkept => hx cells' fun r y hr => hkept r y (by
        have hne : r ≠ eltAt env.buffer d.entry p := by
          rintro rfl
          rw [hempty] at hr
          cases hr
        exact (Function.update_of_ne hne _ _).trans hr))
      (fun k hlo hhi => by
        rw [Function.update_of_ne (by omega)]
        exact hroom k (by omega) (by omega))
    refine ⟨cells', t', ?_, hheld, .cons rfl hwritten⟩
    rw [Deque.fillUninitialized, hx d.cells fun _ _ h => h]
    change (constructAt d.live (eltAt env.buffer d.entry p) v d.cells).bind _ = _
    rw [hrun]
    change Deque.fillUninitialized env x (d.withCells _)
      ((iterAt env.buffer d.entry p).next env.buffer d.entry) n = _
    rw [next_iterAt]
    exact hrun'

theorem uninitializedFill {x : Maker T} {v : T} (h : d.Held env lo hi t) (hx : Reads x d.cells v)
    (hroom : Room env lo hi t p n) :
    ∃ cells' t', d.uninitializedFill env (iterAt env.buffer d.entry p) (iterAt env.buffer d.entry (p + n))
        x = some (d.withCells cells') ∧
      (d.withCells cells').Held env lo hi t' ∧ Written p n (fun _ => some v) t t' := by
  rw [Deque.uninitializedFill, minus_iterAt_add, Int.toNat_natCast]
  exact h.fillUninitialized hx hroom

end Held

end Deque

end Rtfsc.Stl
