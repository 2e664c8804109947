import Rtfsc.Stl.Vec

/-!
# Insertion in place and erasure

What the loops over elements do to a storage, as `Shifted` and `Written` say it. Where there is room the
elements behind the position go to the back, and where elements go the ones behind them come to the front.
Each way ends with the list on the first slots.
-/

namespace Rtfsc.Stl

open Rtfsc.Machine

namespace Slots

variable {T : Type} {t t' u u' : Slots T} {p q n cap : Nat} {x : T}

/-! ## Loops over the slots -/

theorem moveAssign_of_ne (ms : MoveSem T) (hp : t p = some x) (hq : (t q).isSome) (hne : p ≠ q) :
    moveAssign ms p q t =
      some (Function.update (Function.update t p (some (ms.movedFrom x))) q (some x)) := by
  have hq' : (Function.update t p (some (ms.movedFrom x)) q).isSome := by
    rwa [Function.update_of_ne hne.symm]
  rw [moveAssign, hp]
  exact (if_neg hne).trans (if_pos hq')

theorem moveConstruct_of_none (ms : MoveSem T) (hp : t p = some x) (hq : t q = none) (hcap : q < cap) :
    moveConstruct cap ms p q t =
      some (Function.update (Function.update t p (some (ms.movedFrom x))) q (some x)) := by
  have hne : q ≠ p := by
    rintro rfl
    rw [hp] at hq
    cases hq
  have hq' : Function.update t p (some (ms.movedFrom x)) q = none := by
    rwa [Function.update_of_ne hne]
  rw [moveConstruct, hp]
  exact if_pos ⟨hcap, hq'⟩

theorem eachPlace_moveAssign (ms : MoveSem T)
    (hsrc : ∀ y, p ≤ y → y < p + n → (t y).isSome)
    (hdst : ∀ y, q ≤ y → y < q + n → (t y).isSome) (hside : q < p) :
    ∃ t', eachPlace (moveAssign ms) p q t n = some t' ∧ Shifted p q n t t' := by
  induction n generalizing p q t with
  | zero => exact ⟨t, rfl, .zero⟩
  | succ n ih =>
    obtain ⟨x, hx⟩ := Option.isSome_iff_exists.mp (hsrc p le_rfl (by omega))
    have hone := moveAssign_of_ne ms hx (hdst q le_rfl (by omega)) (by omega)
    obtain ⟨t', hrun, hshifted⟩ := ih (p := p + 1) (q := q + 1)
      (t := Function.update (Function.update t p (some (ms.movedFrom x))) q (some x))
      (fun y hlo hhi => isSome_update (isSome_update (hsrc y (by omega) (by omega))))
      (fun y hlo hhi => isSome_update (isSome_update (hdst y (by omega) (by omega)))) (by omega)
    refine ⟨t', ?_, .cons hx (.inl hside) hshifted⟩
    rw [eachPlace, hone]
    exact hrun

theorem eachPlaceBackward_moveAssign (ms : MoveSem T)
    (hsrc : ∀ y, p ≤ y → y < p + n → (t y).isSome)
    (hdst : ∀ y, q ≤ y → y < q + n → (t y).isSome) (hside : p < q) :
    ∃ t', eachPlaceBackward (moveAssign ms) p q t n = some t' ∧ Shifted p q n t t' := by
  induction n generalizing t with
  | zero => exact ⟨t, rfl, .zero⟩
  | succ n ih =>
    obtain ⟨x, hx⟩ := Option.isSome_iff_exists.mp (hsrc (p + n) (by omega) (by omega))
    have hone := moveAssign_of_ne ms hx (hdst (q + n) (by omega) (by omega)) (by omega)
    obtain ⟨t', hrun, hshifted⟩ := ih
      (t := Function.update (Function.update t (p + n) (some (ms.movedFrom x))) (q + n) (some x))
      (fun y hlo hhi => isSome_update (isSome_update (hsrc y hlo (by omega))))
      (fun y hlo hhi => isSome_update (isSome_update (hdst y hlo (by omega))))
    refine ⟨t', ?_, .snoc hx (.inl hside) hshifted⟩
    rw [eachPlaceBackward, hone]
    exact hrun

theorem eachPlace_moveConstruct (ms : MoveSem T)
    (hsrc : ∀ y, p ≤ y → y < p + n → (t y).isSome)
    (hdst : ∀ y, q ≤ y → y < q + n → t y = none) (hcap : q + n ≤ cap) (hside : p + n ≤ q) :
    ∃ t', eachPlace (moveConstruct cap ms) p q t n = some t' ∧ Shifted p q n t t' := by
  induction n generalizing p q t with
  | zero => exact ⟨t, rfl, .zero⟩
  | succ n ih =>
    obtain ⟨x, hx⟩ := Option.isSome_iff_exists.mp (hsrc p le_rfl (by omega))
    have hone := moveConstruct_of_none ms hx (hdst q le_rfl (by omega))
      (show q < cap by omega)
    obtain ⟨t', hrun, hshifted⟩ := ih (p := p + 1) (q := q + 1)
      (t := Function.update (Function.update t p (some (ms.movedFrom x))) q (some x))
      (fun y hlo hhi => isSome_update (isSome_update (hsrc y (by omega) (by omega))))
      (fun y hlo hhi => by
        rw [Shifted.move_other (by omega) (by omega)]
        exact hdst y (by omega) (by omega)) (by omega) (by omega)
    refine ⟨t', ?_, .cons hx (.inr hside) hshifted⟩
    rw [eachPlace, hone]
    exact hrun

theorem copy_written (ys : List T)
    (hdst : ∀ y, p ≤ y → y < p + ys.length → (t y).isSome) :
    ∃ t', copy ys p t = some t' ∧ Written p ys.length (ys[·]?) t t' := by
  induction ys generalizing p t with
  | nil => exact ⟨t, rfl, .zero⟩
  | cons x ys ih =>
    rw [List.length_cons] at hdst
    obtain ⟨t', hrun, hwritten⟩ := ih (p := p + 1) (t := Function.update t p (some x))
      fun y hlo hhi => isSome_update (hdst y (by omega) (by omega))
    refine ⟨t', ?_, .cons rfl hwritten⟩
    rw [copy, assign, if_pos (hdst p le_rfl (by omega))]
    exact hrun

theorem uninitializedCopy_written (ys : List T)
    (hdst : ∀ y, p ≤ y → y < p + ys.length → t y = none)
    (hcap : p + ys.length ≤ cap) :
    ∃ t', uninitializedCopy cap ys p t = some t' ∧ Written p ys.length (ys[·]?) t t' := by
  induction ys generalizing p t with
  | nil => exact ⟨t, rfl, .zero⟩
  | cons x ys ih =>
    rw [List.length_cons] at hdst hcap
    obtain ⟨t', hrun, hwritten⟩ := ih (p := p + 1) (t := Function.update t p (some x))
      (fun y hlo hhi => by
        rw [Function.update_of_ne (by omega)]
        exact hdst y (by omega) (by omega)) (by omega)
    refine ⟨t', ?_, .cons rfl hwritten⟩
    rw [uninitializedCopy, construct, if_pos ⟨by omega, hdst p le_rfl (by omega)⟩]
    exact hrun

theorem destroyRange_written (hlive : ∀ y, p ≤ y → y < p + n → (t y).isSome) :
    ∃ t', destroyRange p t n = some t' ∧ Written p n (fun _ => none) t t' := by
  induction n generalizing p t with
  | zero => exact ⟨t, rfl, .zero⟩
  | succ n ih =>
    obtain ⟨t', hrun, hwritten⟩ := ih (p := p + 1) (t := Function.update t p none) fun y hlo hhi => by
      rw [Function.update_of_ne (by omega)]
      exact hlive y (by omega) (by omega)
    refine ⟨t', ?_, .cons rfl hwritten⟩
    rw [destroyRange, destroy, if_pos (hlive p le_rfl (by omega))]
    exact hrun

/-- What has been written to empty slots is taken back. -/
theorem destroyRange_back {vals : Nat → Option T} (h : Written p n vals u u')
    (hvals : ∀ k < n, (vals k).isSome) (hraw : ∀ y, p ≤ y → y < p + n → u y = none) :
    destroyRange p u' n = some u := by
  obtain ⟨t', hrun, hback⟩ := destroyRange_written (p := p) (n := n) (t := u') fun y hlo hhi => by
    rw [h.inside y hlo hhi]
    exact hvals _ (by omega)
  have hsame : t' = u := by
    funext y
    by_cases hin : p ≤ y ∧ y < p + n
    · rw [hback.inside y hin.1 hin.2, hraw y hin.1 hin.2]
    · rw [hback.kept y (by omega), h.kept y (by omega)]
  rw [hrun, hsame]

theorem deallocate_empty (h : ∀ p < cap, t p = none) : deallocate cap t = some () :=
  if_pos fun p hp => h p (List.mem_range.1 hp)

end Slots

/-! ## Insertion -/

variable {T : Type} {env : VecEnv T} {v : Vec T} {xs ys : List T} {pos first last : Nat} {x : T}

namespace Vec

/-- The list is on the first slots, and there is nothing on the others. -/
structure Holds (v : Vec T) (xs : List T) : Prop where
  slots : v.slots = laidFrom 0 xs
  finish : v.finish = xs.length
  room : xs.length ≤ v.endOfStorage

theorem Holds.isSome (h : v.Holds xs) {y : Nat} (hy : y < xs.length) : (v.slots y).isSome := by
  rw [h.slots]
  exact laidFrom_isSome (Nat.zero_le y) (by omega)

theorem Holds.eq_none (h : v.Holds xs) {y : Nat} (hy : xs.length ≤ y) : v.slots y = none := by
  rw [h.slots]
  exact laidFrom_eq_none (.inr (by omega))

/-- The part behind the position has more elements than there are new ones. -/
theorem shift_many (h : v.Holds xs) (env : VecEnv T) {n : Nat} (hn : 0 < n) (hpos : pos + n ≤ xs.length)
    (hroom : xs.length + n ≤ v.endOfStorage) :
    ∃ t₁ t₂, Slots.uninitializedMove v.endOfStorage env.ms (xs.length - n) xs.length xs.length v.slots =
        some t₁ ∧
      Slots.moveBackward env.ms pos (xs.length - n) xs.length t₁ = some t₂ ∧
      Shifted (0 + (xs.length - n)) (0 + xs.length) n (laidFrom 0 xs) t₁ ∧
      Shifted (0 + pos) (0 + pos + n) (xs.length - n - pos) t₁ t₂ ∧
      ∀ y, y < xs.length → (t₂ y).isSome := by
  have hcount : xs.length - (xs.length - n) = n := by omega
  have hresult : xs.length - (xs.length - n - pos) = pos + n := by omega
  obtain ⟨t₁, hrun₁, hshift₁⟩ := Slots.eachPlace_moveConstruct env.ms (t := v.slots)
    (p := xs.length - n) (q := xs.length) (n := n) (fun y _ hhi => h.isSome (by omega))
    (fun y hlo _ => h.eq_none hlo) hroom (by omega)
  have hsome₁ : ∀ y, y < xs.length → (t₁ y).isSome := fun y hy =>
    hshift₁.isSome (fun z _ hhi => h.isSome (by omega)) (h.isSome hy)
  obtain ⟨t₂, hrun₂, hshift₂⟩ := Slots.eachPlaceBackward_moveAssign env.ms (t := t₁) (p := pos)
    (q := pos + n) (n := xs.length - n - pos) (fun y _ hhi => hsome₁ y (by omega))
    (fun y _ hhi => hsome₁ y (by omega)) (by omega)
  refine ⟨t₁, t₂, ?_, ?_, ?_, ?_, fun y hy => ?_⟩
  · rw [Slots.uninitializedMove, hcount]
    exact hrun₁
  · rw [Slots.moveBackward, hresult]
    exact hrun₂
  · rw [Nat.zero_add, Nat.zero_add, ← h.slots]
    exact hshift₁
  · rw [Nat.zero_add]
    exact hshift₂
  · exact hshift₂.isSome (fun z _ hhi => hsome₁ z (by omega)) (hsome₁ y hy)

theorem insertInPlace_holds (h : v.Holds xs) (env : VecEnv T) (hys : ys.length ≠ 0)
    (hpos : pos ≤ xs.length) (hroom : ys.length ≤ v.endOfStorage - xs.length) :
    ∃ v', v.insertInPlace env pos ys = some v' ∧ v'.Holds (inserted pos ys xs) := by
  have hfits : xs.length + ys.length ≤ v.endOfStorage := by
    have := h.room
    omega
  have hlen : (inserted pos ys xs).length = ys.length + xs.length := length_inserted hpos
  unfold insertInPlace
  rw [h.finish]
  dsimp only
  split
  · next hmany =>
    obtain ⟨t₁, t₂, hrun₁, hrun₂, hshift₁, hshift₂, hsome₂⟩ := shift_many h env (Nat.pos_of_ne_zero hys)
      (show pos + ys.length ≤ xs.length by omega) hfits
    obtain ⟨t₃, hrun₃, hwritten⟩ := Slots.copy_written ys (t := t₂) (p := pos)
      fun y _ hhi => hsome₂ y (by omega)
    refine ⟨⟨t₃, xs.length + ys.length, v.endOfStorage⟩, ?_, ?_, ?_, ?_⟩
    · rw [hrun₁]
      change (Slots.moveBackward env.ms pos (xs.length - ys.length) xs.length t₁).bind _ = _
      rw [hrun₂]
      change (Slots.copy ys pos t₂).bind _ = _
      rw [hrun₃]
      rfl
    · exact inserted_back_many hpos rfl (by omega) hshift₁ hshift₂ (by rw [Nat.zero_add]; exact hwritten)
    · exact (Nat.add_comm _ _).trans hlen.symm
    · rw [hlen, Nat.add_comm]
      exact hfits
  · next hfew =>
    have hdrop : (ys.drop (xs.length - pos)).length = pos + ys.length - xs.length := by
      rw [List.length_drop]
      omega
    have htake : (ys.take (xs.length - pos)).length = xs.length - pos :=
      List.length_take_of_le (Nat.le_of_not_lt hfew)
    obtain ⟨t₁, hrun₁, hwritten₁⟩ := Slots.uninitializedCopy_written (ys.drop (xs.length - pos))
      (t := v.slots) (p := xs.length) (fun y hlo _ => h.eq_none hlo)
      (show xs.length + (ys.drop (xs.length - pos)).length ≤ v.endOfStorage by rw [hdrop]; omega)
    rw [hdrop] at hwritten₁
    have hend : xs.length + (ys.length - (xs.length - pos)) = pos + ys.length := by omega
    have hsome₁ : ∀ y, y < xs.length → (t₁ y).isSome := fun y hy => by
      rw [hwritten₁.kept y (.inl hy)]
      exact h.isSome hy
    obtain ⟨t₂, hrun₂, hshift₂⟩ := Slots.eachPlace_moveConstruct env.ms (t := t₁) (p := pos)
      (q := pos + ys.length) (n := xs.length - pos)
      (fun y _ hhi => hsome₁ y (by omega))
      (fun y hlo _ => by
        rw [hwritten₁.kept y (by omega)]
        exact h.eq_none (by omega))
      (show pos + ys.length + (xs.length - pos) ≤ v.endOfStorage by omega) (by omega)
    obtain ⟨t₃, hrun₃, hwritten₃⟩ := Slots.copy_written (ys.take (xs.length - pos)) (t := t₂) (p := pos)
      fun y _ hhi =>
        hshift₂.isSome (fun z _ hz => hsome₁ z (by omega)) (hsome₁ y (by omega))
    rw [htake] at hwritten₃
    refine ⟨⟨t₃, pos + ys.length + (xs.length - pos), v.endOfStorage⟩, ?_, ?_, ?_, ?_⟩
    · rw [hrun₁, hend]
      change (Slots.uninitializedMove v.endOfStorage env.ms pos xs.length (pos + ys.length) t₁).bind _ = _
      rw [Slots.uninitializedMove, hrun₂]
      change (Slots.copy (ys.take (xs.length - pos)) pos t₂).bind _ = _
      rw [hrun₃]
      rfl
    · have hback : Written (0 + xs.length) (pos + ys.length - xs.length)
          (fun k => ys[xs.length - pos + k]?) (laidFrom 0 xs) t₁ := by
        rw [Nat.zero_add, ← h.slots]
        exact hwritten₁.congr fun k _ => List.getElem?_drop
      have hmoved : Shifted (0 + pos) (0 + pos + ys.length) (xs.length - pos) t₁ t₂ := by
        rw [Nat.zero_add]
        exact hshift₂
      refine inserted_back_few hpos rfl (by omega) hback hmoved ?_
      rw [Nat.zero_add]
      exact hwritten₃.congr fun k hk => List.getElem?_take_of_lt hk
    · dsimp only
      omega
    · dsimp only
      omega

theorem insertAux_holds (h : v.Holds xs) (env : VecEnv T) (hpos : pos < xs.length)
    (hroom : xs.length < v.endOfStorage) (x : T) :
    ∃ v', v.insertAux env pos x = some v' ∧ v'.Holds (inserted pos [x] xs) := by
  obtain ⟨t₁, t₂, hrun₁, hrun₂, hshift₁, hshift₂, hsome₂⟩ := shift_many h env Nat.one_pos
    (show pos + 1 ≤ xs.length by omega) hroom
  have hlen : (inserted pos [x] xs).length = 1 + xs.length := length_inserted hpos.le
  have hone : xs.length - (xs.length - 1) = 1 := by omega
  rw [Slots.uninitializedMove, hone] at hrun₁
  have hconstruct : Slots.moveConstruct v.endOfStorage env.ms (xs.length - 1) xs.length v.slots =
      some t₁ := (Option.bind_fun_some _).symm.trans hrun₁
  refine ⟨⟨Function.update t₂ pos (some x), xs.length + 1, v.endOfStorage⟩, ?_, ?_, ?_, ?_⟩
  · rw [insertAux, h.finish, hconstruct]
    change (Slots.moveBackward env.ms pos (xs.length - 1) xs.length t₁).bind _ = _
    rw [hrun₂]
    change (Slots.assign pos x t₂).bind _ = _
    rw [Slots.assign, if_pos (hsome₂ pos hpos)]
    rfl
  · refine inserted_back_many hpos.le rfl hpos hshift₁ hshift₂ ?_
    rw [Nat.zero_add]
    exact .one
  · exact (Nat.add_comm _ _).trans hlen.symm
  · rw [hlen, Nat.add_comm]
    exact hroom

/-- The element goes to the first free slot. -/
theorem construct_holds (h : v.Holds xs) (hroom : xs.length < v.endOfStorage) (x : T) :
    ∃ slots, Slots.construct v.endOfStorage xs.length x v.slots = some slots ∧
      Holds ⟨slots, xs.length + 1, v.endOfStorage⟩ (inserted xs.length [x] xs) := by
  have hlen : (inserted xs.length [x] xs).length = 1 + xs.length := length_inserted le_rfl
  refine ⟨Function.update v.slots xs.length (some x), if_pos ⟨hroom, h.eq_none le_rfl⟩, ?_, ?_, ?_⟩
  · refine inserted_back_all rfl ?_
    rw [Nat.zero_add, ← h.slots]
    exact .one
  · exact (Nat.add_comm _ _).trans hlen.symm
  · rw [hlen, Nat.add_comm]
    exact hroom

/-! ## Erasure -/

/-- The elements behind come to the front, and the last ones are destroyed. -/
theorem close_gap (h : v.Holds xs) (env : VecEnv T) (hle : first ≤ last) (hlast : last ≤ xs.length)
    (hne : first ≠ last) :
    ∃ t₁ t₂, (if last ≠ xs.length then Slots.move env.ms last xs.length first v.slots
        else some v.slots) = some t₁ ∧
      Slots.destroyRange (xs.length - (last - first)) t₁ (last - first) = some t₂ ∧
      t₂ = laidFrom 0 (erased first last xs) := by
  obtain ⟨t₁, hrun₁, hshift⟩ := Slots.eachPlace_moveAssign env.ms (t := v.slots) (p := last) (q := first)
    (n := xs.length - last) (fun y _ hhi => h.isSome (by omega)) (fun y _ hhi => h.isSome (by omega))
    (by omega)
  have hsome₁ : ∀ y, y < xs.length → (t₁ y).isSome := fun y hy =>
    hshift.isSome (fun z _ hhi => h.isSome (by omega)) (h.isSome hy)
  obtain ⟨t₂, hrun₂, hwritten⟩ := Slots.destroyRange_written (t := t₁)
    (p := xs.length - (last - first)) (n := last - first) fun y _ hhi => hsome₁ y (by omega)
  refine ⟨t₁, t₂, ?_, hrun₂, ?_⟩
  · rcases eq_or_ne last xs.length with rfl | hbefore
    · rw [Nat.sub_self] at hrun₁
      exact (if_neg (not_not.2 rfl)).trans hrun₁
    · exact (if_pos hbefore).trans hrun₁
  · have hmoved : Shifted (0 + last) (0 + first) (xs.length - last) (laidFrom 0 xs) t₁ := by
      rw [Nat.zero_add, Nat.zero_add, ← h.slots]
      exact hshift
    refine erased_back hle hlast hmoved ?_
    rw [Nat.zero_add]
    exact hwritten

theorem erase_holds (h : v.Holds xs) (env : VecEnv T) (hpos : pos < xs.length) :
    ∃ v', v.erase env pos = some (.returned v' pos) ∧ v'.Holds (erased pos (pos + 1) xs) := by
  obtain ⟨t₁, t₂, hrun₁, hrun₂, rfl⟩ := close_gap h env (show pos ≤ pos + 1 by omega) hpos (by omega)
  have hlen : (erased pos (pos + 1) xs).length + (pos + 1 - pos) = xs.length :=
    length_erased (Nat.le_succ pos) hpos
  have hroom := h.room
  rw [Nat.add_sub_cancel_left] at hrun₂ hlen
  have hdestroy : Slots.destroy (xs.length - 1) t₁ = some (laidFrom 0 (erased pos (pos + 1) xs)) :=
    (Option.bind_fun_some _).symm.trans hrun₂
  refine ⟨⟨_, xs.length - 1, v.endOfStorage⟩, ?_, rfl, ?_, ?_⟩
  · rw [erase, h.finish, hrun₁]
    change (Slots.destroy (xs.length - 1) t₁).bind _ = _
    rw [hdestroy]
    rfl
  · dsimp only
    omega
  · dsimp only
    omega

theorem eraseRange_holds (h : v.Holds xs) (env : VecEnv T) (hle : first ≤ last)
    (hlast : last ≤ xs.length) :
    ∃ v', v.eraseRange env first last = some (.returned v' first) ∧
      v'.Holds (erased first last xs) := by
  rcases eq_or_ne first last with rfl | hne
  · refine ⟨v, if_neg (not_not.2 rfl), ?_⟩
    rw [erased, List.take_append_drop]
    exact h
  obtain ⟨t₁, t₂, hrun₁, hrun₂, rfl⟩ := close_gap h env hle hlast hne
  have hlen : (erased first last xs).length + (last - first) = xs.length := length_erased hle hlast
  have hroom := h.room
  have hend : first + (xs.length - last) = xs.length - (last - first) := by omega
  have hcount : xs.length - (xs.length - (last - first)) = last - first := by omega
  have hsome : last - first ≠ 0 := by omega
  refine ⟨⟨_, xs.length - (last - first), v.endOfStorage⟩, ?_, rfl, ?_, ?_⟩
  · rw [eraseRange, if_pos hne, h.finish, hrun₁]
    change (eraseAtEnd ⟨t₁, xs.length, v.endOfStorage⟩ (first + (xs.length - last))).bind _ = _
    rw [hend, eraseAtEnd]
    dsimp only
    rw [hcount, if_pos hsome, hrun₂]
    rfl
  · dsimp only
    omega
  · dsimp only
    omega

end Vec

end Rtfsc.Stl
