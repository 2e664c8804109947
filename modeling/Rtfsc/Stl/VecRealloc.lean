import Rtfsc.Stl.VecInPlace

/-!
# A new storage

A loop that fills a part of the new storage reaches the end, or it throws and takes back what it has
built. Where the elements are moved they are only left behind in the old storage, but moves do not throw.
So `reallocAround`, which builds the new elements first, leaves the vector as it was where it throws.
`reallocThrough` moves the elements before the position first, and the copies come after them.
-/

namespace Rtfsc.Stl

open Rtfsc.Machine

variable {T : Type} {env : VecEnv T} {v : Vec T} {xs ys : List T} {pos p q n cap len : Nat}
  {t t' u u' : Slots T}

/-- What a transferred element leaves behind. -/
def leftBehind (env : VecEnv T) (x : T) : T := if env.moves then env.ms.movedFrom x else x

theorem Written.eq_of_copied (hmoves : env.moves = false)
    (h : Written p n (fun k => (t (p + k)).map (leftBehind env)) t t') : t' = t := by
  have hid : leftBehind env = id := by
    funext x
    rw [leftBehind, hmoves]
    rfl
  funext y
  by_cases hin : p ≤ y ∧ y < p + n
  · rw [h.inside y hin.1 hin.2, Nat.add_sub_cancel' hin.1, hid, Option.map_id_fun, id_eq]
  · exact h.kept y (by omega)

theorem Written.isSome_map {f : T → T} (h : Written p n (fun k => (t (p + k)).map f) t t') {y : Nat}
    (hy : (t y).isSome) : (t' y).isSome := by
  by_cases hin : p ≤ y ∧ y < p + n
  · rw [h.inside y hin.1 hin.2, Nat.add_sub_cancel' hin.1, Option.isSome_map]
    exact hy
  · rwa [h.kept y (by omega)]

/-! ## The loops -/

theorem buildLoop_run (env : VecEnv T) (ys : List T) (hraw : ∀ y, p ≤ y → y < p + ys.length → u y = none)
    (hcap : p + ys.length ≤ cap) :
    ∃ u' m threw, buildLoop env cap ys p u = some (u', p + m, threw) ∧ Written p m (ys[·]?) u u' ∧
      if threw then m < ys.length ∧ env.copyThrows (p + m) = true
      else m = ys.length ∧ ∀ k < ys.length, env.copyThrows (p + k) = false := by
  induction ys generalizing p u with
  | nil => exact ⟨u, 0, false, rfl, .zero, rfl, fun _ hk => absurd hk (Nat.not_lt_zero _)⟩
  | cons x ys ih =>
    rw [List.length_cons] at hraw hcap
    rcases hthrows : env.copyThrows p with _ | _
    · obtain ⟨u', m, threw, hrun, hwritten, hend⟩ := ih (p := p + 1)
        (u := Function.update u p (some x))
        (fun y hlo hhi => by
          rw [Function.update_of_ne (by omega)]
          exact hraw y (by omega) (by omega)) (by omega)
      refine ⟨u', m + 1, threw, ?_, .cons rfl hwritten, ?_⟩
      · rw [buildLoop, hthrows]
        change (Slots.construct cap p x u).bind _ = _
        rw [Slots.construct, if_pos ⟨by omega, hraw p le_rfl (by omega)⟩]
        refine hrun.trans ?_
        rw [Nat.add_assoc, Nat.add_comm 1 m]
      · have hplace : ∀ k, p + (k + 1) = p + 1 + k := fun k => by omega
        rw [hplace, List.length_cons]
        cases threw with
        | true => exact ⟨Nat.succ_lt_succ hend.1, hend.2⟩
        | false =>
          refine ⟨congrArg (· + 1) hend.1, fun k hk => ?_⟩
          cases k with
          | zero => exact hthrows
          | succ k =>
            rw [hplace]
            exact hend.2 k (Nat.lt_of_succ_lt_succ hk)
    · refine ⟨u, 0, true, ?_, .zero, Nat.succ_pos _, hthrows⟩
      rw [buildLoop, hthrows]
      rfl

theorem build_run (env : VecEnv T) (cap : Nat) (ys : List T)
    (hraw : ∀ y, p ≤ y → y < p + ys.length → u y = none)
    (hcap : p + ys.length ≤ cap) :
    (∃ u', build env cap ys p u = some (u', some (p + ys.length)) ∧
        Written p ys.length (ys[·]?) u u' ∧ ∀ k < ys.length, env.copyThrows (p + k) = false) ∨
      build env cap ys p u = some (u, none) ∧ ∃ k < ys.length, env.copyThrows (p + k) = true := by
  obtain ⟨u', m, threw, hrun, hwritten, hend⟩ := buildLoop_run env ys hraw hcap
  cases threw with
  | false =>
    obtain ⟨rfl, hnone⟩ := hend
    refine .inl ⟨u', ?_, hwritten, hnone⟩
    rw [build, hrun]
    rfl
  | true =>
    refine .inr ⟨?_, m, hend⟩
    have hback : Slots.destroyRange p u' m = some u := Slots.destroyRange_back hwritten
      (fun k hk => by
        rw [List.getElem?_eq_getElem (hk.trans hend.1)]
        rfl)
      fun y hlo hhi => hraw y hlo (by have := hend.1; omega)
    rw [build, hrun]
    change (Slots.destroyRange p u' (p + m - p)).bind _ = _
    rw [Nat.add_sub_cancel_left, hback]
    rfl

theorem transferLoop_run (env : VecEnv T)
    (hlive : ∀ y, p ≤ y → y < p + n → (t y).isSome)
    (hraw : ∀ y, q ≤ y → y < q + n → u y = none) (hcap : q + n ≤ cap) :
    ∃ t' u' m threw, transferLoop env cap n p q t u = some (t', u', q + m, threw) ∧
      Written q m (fun k => t (p + k)) u u' ∧
      Written p m (fun k => (t (p + k)).map (leftBehind env)) t t' ∧
      if threw then env.moves = false ∧ m < n ∧ env.copyThrows (q + m) = true else m = n := by
  induction n generalizing p q t u with
  | zero => exact ⟨t, u, 0, false, rfl, .zero, .zero, rfl⟩
  | succ n ih =>
    obtain ⟨x, hx⟩ := Option.isSome_iff_exists.mp (hlive p le_rfl (by omega))
    have hconstruct : Slots.construct cap q x u = some (Function.update u q (some x)) :=
      if_pos ⟨by omega, hraw q le_rfl (by omega)⟩
    by_cases hstops : env.moves = false ∧ env.copyThrows q = true
    · refine ⟨t, u, 0, true, ?_, .zero, .zero, hstops.1, Nat.succ_pos n, hstops.2⟩
      rw [transferLoop, hx, hstops.1, hstops.2]
      rfl
    obtain ⟨t', u', m, threw, hrun, hdst, hsrc, hend⟩ := ih (p := p + 1) (q := q + 1)
      (t := Function.update t p (some (leftBehind env x))) (u := Function.update u q (some x))
      (fun y hlo hhi => by
        rw [Function.update_of_ne (by omega)]
        exact hlive y (by omega) (by omega))
      (fun y hlo hhi => by
        rw [Function.update_of_ne (by omega)]
        exact hraw y (by omega) (by omega)) (by omega)
    have hnext : ∀ k, Function.update t p (some (leftBehind env x)) (p + 1 + k) = t (p + (k + 1)) :=
      fun k => by
        rw [Function.update_of_ne (by omega), Nat.add_assoc, Nat.add_comm 1 k]
    refine ⟨t', u', m + 1, threw, ?_, .cons hx (hdst.congr fun k _ => hnext k),
      .cons (by rw [Nat.add_zero, hx]; rfl) (hsrc.congr fun k _ => by rw [hnext]), ?_⟩
    · have hplace : q + 1 + m = q + (m + 1) := by omega
      rw [transferLoop, hx]
      rw [hplace] at hrun
      rcases hmoves : env.moves with _ | _
      · have hcopies : env.copyThrows q = false := by
          rcases hthrows : env.copyThrows q with _ | _
          · rfl
          · exact absurd ⟨hmoves, hthrows⟩ hstops
        have hsame : Function.update t p (some (leftBehind env x)) = t := by
          rw [leftBehind, hmoves, if_neg Bool.false_ne_true, ← hx, Function.update_eq_self]
        rw [hsame] at hrun
        rw [hcopies]
        change (Slots.construct cap q x u).bind _ = _
        rw [hconstruct]
        exact hrun
      · rw [leftBehind, hmoves, if_pos rfl] at hrun
        change (Slots.construct cap q x u).bind _ = _
        rw [hconstruct]
        exact hrun
    · cases threw with
      | true =>
        rw [Nat.add_assoc, Nat.add_comm 1 m] at hend
        exact ⟨hend.1, Nat.succ_lt_succ hend.2.1, hend.2.2⟩
      | false => exact congrArg (· + 1) hend

theorem transfer_run (env : VecEnv T) (cap : Nat) {first last : Nat} (hle : first ≤ last)
    (hlive : ∀ y, first ≤ y → y < last → (t y).isSome)
    (hraw : ∀ y, q ≤ y → y < q + (last - first) → u y = none) (hcap : q + (last - first) ≤ cap) :
    (∃ t' u', transfer env cap first last q t u = some (t', u', some (q + (last - first))) ∧
        Written q (last - first) (fun k => t (first + k)) u u' ∧
        Written first (last - first) (fun k => (t (first + k)).map (leftBehind env)) t t') ∨
      env.moves = false ∧ transfer env cap first last q t u = some (t, u, none) ∧
        ∃ k < last - first, env.copyThrows (q + k) = true := by
  obtain ⟨t', u', m, threw, hrun, hdst, hsrc, hend⟩ := transferLoop_run env (t := t)
    (p := first) (n := last - first) (fun y hlo hhi => hlive y hlo (by omega)) hraw hcap
  cases threw with
  | false =>
    obtain rfl : m = last - first := hend
    refine .inl ⟨t', u', ?_, hdst, hsrc⟩
    rw [transfer, hrun]
    rfl
  | true =>
    obtain ⟨hmoves, hlt, hthrows⟩ : env.moves = false ∧ m < last - first ∧
      env.copyThrows (q + m) = true := hend
    have hback : Slots.destroyRange q u' m = some u := Slots.destroyRange_back hdst
      (fun k hk => hlive _ (by omega) (by omega)) fun y hlo hhi => hraw y hlo (by omega)
    refine .inr ⟨hmoves, ?_, m, hlt, hthrows⟩
    rw [transfer, hrun]
    change (Slots.destroyRange q u' (q + m - q)).bind _ = _
    rw [Nat.add_sub_cancel_left, hback, hsrc.eq_of_copied hmoves]
    rfl

theorem relocate_run (env : VecEnv T) (cap : Nat)
    (hlive : ∀ y, p ≤ y → y < p + n → (t y).isSome)
    (hraw : ∀ y, q ≤ y → y < q + n → u y = none) (hcap : q + n ≤ cap) :
    ∃ t' u', relocate env cap n p q t u = some (t', u', q + n) ∧
      Written q n (fun k => t (p + k)) u u' ∧ Written p n (fun _ => none) t t' := by
  induction n generalizing p q t u with
  | zero => exact ⟨t, u, rfl, .zero, .zero⟩
  | succ n ih =>
    obtain ⟨x, hx⟩ := Option.isSome_iff_exists.mp (hlive p le_rfl (by omega))
    have hconstruct : Slots.construct cap q x u = some (Function.update u q (some x)) :=
      if_pos ⟨by omega, hraw q le_rfl (by omega)⟩
    have hdestroy : Slots.destroy p (Function.update t p (some (env.ms.movedFrom x))) =
        some (Function.update t p none) := by
      rw [Slots.destroy, Function.update_self, Function.update_idem]
      exact if_pos rfl
    obtain ⟨t', u', hrun, hdst, hsrc⟩ := ih (p := p + 1) (q := q + 1) (t := Function.update t p none)
      (u := Function.update u q (some x))
      (fun y hlo hhi => by
        rw [Function.update_of_ne (by omega)]
        exact hlive y (by omega) (by omega))
      (fun y hlo hhi => by
        rw [Function.update_of_ne (by omega)]
        exact hraw y (by omega) (by omega)) (by omega)
    refine ⟨t', u', ?_, .cons hx (hdst.congr fun k _ => ?_), .cons rfl hsrc⟩
    · rw [relocate, hx]
      change (Slots.construct cap q x u).bind _ = _
      rw [hconstruct]
      change (Slots.destroy p _).bind _ = _
      rw [hdestroy]
      refine hrun.trans ?_
      rw [Nat.add_assoc, Nat.add_comm 1 n]
    · rw [Function.update_of_ne (by omega), Nat.add_assoc, Nat.add_comm 1 k]

/-! ## The ways to end -/

namespace Vec

theorem giveUp_eq {first last : Nat} (hle : first ≤ last)
    (hlive : ∀ y, first ≤ y → y < last → (u y).isSome)
    (hraw : ∀ y, y < first ∨ last ≤ y → u y = none) :
    v.giveUp first last len t u = some (.threw { v with slots := t }) := by
  obtain ⟨u', hrun, hwritten⟩ := Slots.destroyRange_written (p := first) (n := last - first) (t := u)
    fun y hlo hhi => hlive y hlo (by omega)
  have hempty : Slots.deallocate len u' = some () := Slots.deallocate_empty fun y _ => by
    by_cases hin : first ≤ y ∧ y < last
    · exact hwritten.inside y hin.1 (by omega)
    · rw [hwritten.kept y (by omega), hraw y (by omega)]
  rw [giveUp, hrun]
  change (Slots.deallocate len u').bind _ = _
  rw [hempty]
  rfl

/-- Nothing has been built. -/
theorem giveUp_none : v.giveUp 0 0 len t (fun _ => none) = some (.threw { v with slots := t }) :=
  giveUp_eq le_rfl (fun _ _ hhi => absurd hhi (Nat.not_lt_zero _)) fun _ _ => rfl

theorem replaceStorage_holds (hpos : pos ≤ xs.length) (hlen : ys.length + xs.length ≤ len)
    (hold : ∀ y, t y = none) (hlaid : u = laidFrom 0 (inserted pos ys xs)) :
    ∃ v', v.replaceStorage pos (ys.length + xs.length) len t u = some (.returned v' pos) ∧
      v'.Holds (inserted pos ys xs) := by
  refine ⟨⟨u, ys.length + xs.length, len⟩, ?_, hlaid, (length_inserted hpos).symm, ?_⟩
  · rw [replaceStorage, Slots.deallocate_empty fun y _ => hold y]
    rfl
  · rw [length_inserted hpos]
    exact hlen

theorem Holds.slots_eq (h : v.Holds xs) (y : Nat) : v.slots y = xs[y]? := by
  rw [h.slots]
  exact laidFrom_of_le (Nat.zero_le y)

/-- The three parts of the new storage are filled. -/
theorem Holds.filled {u₁ u₂ u₃ : Slots T} (h : v.Holds xs) (hpos : pos ≤ xs.length)
    (hu₁ : Written pos ys.length (ys[·]?) (fun _ => none) u₁)
    (hu₂ : Written 0 pos (fun k => v.slots (0 + k)) u₁ u₂)
    (hu₃ : Written (pos + ys.length) (xs.length - pos) (fun k => t (pos + k)) u₂ u₃)
    (hkept : ∀ y, pos ≤ y → t y = v.slots y) : u₃ = laidFrom 0 (inserted pos ys xs) := by
  refine eq_laidFrom_inserted hpos (fun k hk => ?_) (fun k hk => ?_) (fun k hlo hhi => ?_) fun y hy => ?_
  · rw [hu₃.kept _ (by omega), hu₂.inside _ (by omega) (by omega), Nat.sub_zero, Nat.zero_add,
      Nat.zero_add, h.slots_eq]
  · rw [hu₃.kept _ (by omega), hu₂.kept _ (by omega), hu₁.inside _ (by omega) (by omega), Nat.zero_add,
      Nat.add_sub_cancel_left]
  · have hplace : pos + (0 + ys.length + k - (pos + ys.length)) = k := by omega
    rw [hu₃.inside _ (by omega) (by omega), hplace, hkept k hlo, h.slots_eq]
  · rw [hu₃.kept _ (by omega), hu₂.kept _ (by omega), hu₁.kept _ (by omega)]

/-- The first part may come first. -/
theorem Written.swap {u₁ u₂ : Slots T} {vals vals' : Nat → Option T}
    (hu₁ : Written p n vals u u₁) (hu₂ : Written q len vals' u₁ u₂) (hapart : p + n ≤ q) :
    ∃ u₁', Written q len vals' u u₁' ∧ Written p n vals u₁' u₂ := by
  refine ⟨fun y => if q ≤ y ∧ y < q + len then vals' (y - q) else u y, ⟨fun y hlo hhi => ?_, fun y hy => ?_⟩,
    ⟨fun y hlo hhi => ?_, fun y hy => ?_⟩⟩
  · exact if_pos ⟨hlo, hhi⟩
  · exact if_neg (by omega)
  · rw [hu₂.kept y (by omega), hu₁.inside y hlo hhi]
  · split
    · next hin => exact hu₂.inside y hin.1 hin.2
    · next hin => rw [hu₂.kept y (by omega), hu₁.kept y hy]

/-- The elements are moved or copied away and destroyed. -/
theorem Holds.destroyAll (h : v.Holds xs) (hsome : ∀ y < xs.length, (t y).isSome)
    (hkept : ∀ y, xs.length ≤ y → t y = v.slots y) :
    ∃ t', Slots.destroyRange 0 t xs.length = some t' ∧ ∀ y, t' y = none := by
  obtain ⟨t', hrun, hwritten⟩ := Slots.destroyRange_written (p := 0) (n := xs.length) (t := t)
    fun y _ hhi => hsome y (by omega)
  refine ⟨t', hrun, fun y => ?_⟩
  rcases Nat.lt_or_ge y xs.length with hlt | hge
  · exact hwritten.inside y (Nat.zero_le y) (by omega)
  · rw [hwritten.kept y (by omega), hkept y hge, h.eq_none hge]

/-- The call returns and the elements are there, or a copy throws and the vector is as it was. -/
def Safe (env : VecEnv T) (v : Vec T) (pos : Nat) (zs : List T) (r : Option (VecResult T)) : Prop :=
  (∃ v', r = some (.returned v' pos) ∧ v'.Holds zs) ∨
    r = some (.threw v) ∧ ∃ p < zs.length, env.copyThrows p = true

theorem Safe.thrown {r : Option (VecResult T)} (hpos : pos ≤ xs.length) (hthrows : env.copyThrows p = true)
    (hp : p < ys.length + xs.length) (hrun : r = some (.threw v)) :
    Safe env v pos (inserted pos ys xs) r :=
  .inr ⟨hrun, p, by rwa [length_inserted hpos], hthrows⟩

theorem reallocAround_relocates (h : v.Holds xs) (hpos : pos ≤ xs.length)
    (hlen : ys.length + xs.length ≤ len) {u₁ : Slots T}
    (hbuild : build env len ys pos (fun _ => none) = some (u₁, some (pos + ys.length)))
    (hu₁ : Written pos ys.length (ys[·]?) (fun _ => none) u₁) :
    Safe env v pos (inserted pos ys xs) (v.reallocAround env true pos ys len) := by
  obtain ⟨t₂, u₂, hfront, hu₂, ht₂⟩ := relocate_run env len (p := 0) (q := 0)
    (n := pos) (t := v.slots) (u := u₁) (fun y _ hhi => h.isSome (by omega))
    (fun y _ hhi => hu₁.kept y (by omega)) (by omega)
  obtain ⟨t₃, u₃, hback, hu₃, ht₃⟩ := relocate_run env len (p := pos)
    (q := pos + ys.length) (n := xs.length - pos) (t := t₂) (u := u₂)
    (fun y hlo hhi => by
      rw [ht₂.kept y (by omega)]
      exact h.isSome (by omega))
    (fun y hlo _ => by rw [hu₂.kept y (by omega), hu₁.kept y (by omega)]) (by omega)
  have hgone : ∀ y, t₃ y = none := fun y => by
    rcases Nat.lt_or_ge y pos with hlt | hge
    · rw [ht₃.kept y (by omega)]
      exact ht₂.inside y (Nat.zero_le y) (by omega)
    · rcases Nat.lt_or_ge y xs.length with hlt | hout
      · exact ht₃.inside y hge (by omega)
      · rw [ht₃.kept y (by omega), ht₂.kept y (by omega), h.eq_none hout]
  have hlaid := h.filled hpos hu₁ hu₂ hu₃ fun y hy => ht₂.kept y (by omega)
  obtain ⟨v', hreplace, hholds⟩ := replaceStorage_holds (v := v) hpos hlen hgone hlaid
  have hsum : pos + ys.length + (xs.length - pos) = ys.length + xs.length := by omega
  refine .inl ⟨v', ?_, hholds⟩
  rw [reallocAround, hbuild]
  change (relocate env len pos 0 0 v.slots u₁).bind _ = _
  rw [hfront]
  change (relocate env len (v.finish - pos) pos (0 + pos + ys.length) t₂ u₂).bind _ = _
  rw [h.finish, Nat.zero_add, hback, hsum]
  exact hreplace

theorem isSome_getElem (ys : List T) {k : Nat} (hk : k < ys.length) : (ys[k]?).isSome := by
  rw [List.getElem?_eq_getElem hk]
  rfl

/-- The front and the new elements are there: the elements behind come as well, or a copy of one of them
throws and everything in the new storage is destroyed. -/
theorem Holds.transferBack {u₁ u₂ : Slots T} (h : v.Holds xs) (env : VecEnv T) (hpos : pos ≤ xs.length)
    (hlen : ys.length + xs.length ≤ len)
    (hu₁ : Written pos ys.length (ys[·]?) (fun _ => none) u₁)
    (hu₂ : Written 0 pos (fun k => v.slots (0 + k)) u₁ u₂)
    (ht : Written 0 pos (fun k => (v.slots (0 + k)).map (leftBehind env)) v.slots t) :
    (∃ t₃ u₃ t₄ v', transfer env len pos xs.length (pos + ys.length) t u₂ =
          some (t₃, u₃, some (ys.length + xs.length)) ∧
        Slots.destroyRange 0 t₃ xs.length = some t₄ ∧
        v.replaceStorage pos (ys.length + xs.length) len t₄ u₃ = some (.returned v' pos) ∧
        v'.Holds (inserted pos ys xs)) ∨
      transfer env len pos xs.length (pos + ys.length) t u₂ = some (t, u₂, none) ∧
        v.giveUp 0 (pos + ys.length) len t u₂ = some (.threw v) ∧
        ∃ p < ys.length + xs.length, env.copyThrows p = true := by
  have hold : ∀ y < xs.length, (t y).isSome := fun y hy => ht.isSome_map (h.isSome hy)
  have hraw : ∀ y, pos + ys.length ≤ y → u₂ y = none := fun y hy => by
    rw [hu₂.kept y (by omega), hu₁.kept y (by omega)]
  have hsum : pos + ys.length + (xs.length - pos) = ys.length + xs.length := by omega
  obtain ⟨t₃, u₃, hback, hu₃, ht₃⟩ | ⟨hmoves, hback, k, hk, hthrows⟩ := transfer_run env len
    (q := pos + ys.length) (t := t) (u := u₂) hpos (fun y _ hhi => hold y hhi)
    (fun y hlo _ => hraw y hlo) (by omega)
  · obtain ⟨t₄, hdestroy, hgone⟩ := h.destroyAll (t := t₃) (fun y hy => ht₃.isSome_map (hold y hy))
      fun y hy => by rw [ht₃.kept y (by omega), ht.kept y (by omega)]
    have hlaid := h.filled hpos hu₁ hu₂ hu₃ fun y hy => ht.kept y (by omega)
    obtain ⟨v', hreplace, hholds⟩ := replaceStorage_holds (v := v) hpos hlen hgone hlaid
    rw [hsum] at hback
    exact .inl ⟨t₃, u₃, t₄, v', hback, hdestroy, hreplace, hholds⟩
  · refine .inr ⟨hback, ?_, pos + ys.length + k, by omega, hthrows⟩
    rw [ht.eq_of_copied hmoves]
    refine giveUp_eq (Nat.zero_le _) (fun y hlo hhi => ?_) fun y hy => hraw y (by omega)
    rcases Nat.lt_or_ge y pos with hlt | hge
    · rw [hu₂.inside y hlo (by omega)]
      exact h.isSome (by omega)
    · rw [hu₂.kept y (by omega), hu₁.inside y hge hhi]
      exact isSome_getElem ys (by omega)

theorem reallocAround_transfers (h : v.Holds xs) (hpos : pos ≤ xs.length)
    (hlen : ys.length + xs.length ≤ len) {u₁ : Slots T}
    (hbuild : build env len ys pos (fun _ => none) = some (u₁, some (pos + ys.length)))
    (hu₁ : Written pos ys.length (ys[·]?) (fun _ => none) u₁) :
    Safe env v pos (inserted pos ys xs) (v.reallocAround env false pos ys len) := by
  have hnew : ∀ y, pos ≤ y → y < pos + ys.length → (u₁ y).isSome := fun y hlo hhi => by
    rw [hu₁.inside y hlo hhi]
    exact isSome_getElem ys (by omega)
  obtain ⟨t₂, u₂, hfront, hu₂, ht₂⟩ | ⟨-, hfront, k, hk, hthrows⟩ := transfer_run env len (q := 0)
    (t := v.slots) (u := u₁) (Nat.zero_le pos) (fun y _ hhi => h.isSome (by omega))
    (fun y _ hhi => hu₁.kept y (by omega)) (by omega)
  swap
  · -- the copy to the front has thrown: what is there are the new elements
    refine .thrown hpos hthrows (by omega) ?_
    rw [reallocAround, hbuild]
    change (transfer env len 0 pos 0 v.slots u₁).bind _ = _
    rw [hfront]
    exact giveUp_eq (Nat.le_add_right _ _) hnew fun y hy => hu₁.kept y hy
  obtain ⟨t₃, u₃, t₄, v', hback, hdestroy, hreplace, hholds⟩ | ⟨hback, hgiveUp, p, hp, hthrows⟩ :=
    h.transferBack env hpos hlen hu₁ hu₂ ht₂
  · refine .inl ⟨v', ?_, hholds⟩
    rw [reallocAround, hbuild]
    change (transfer env len 0 pos 0 v.slots u₁).bind _ = _
    rw [hfront]
    change (transfer env len pos v.finish (0 + (pos - 0) + ys.length) t₂ u₂).bind _ = _
    rw [h.finish, Nat.sub_zero, Nat.zero_add, hback]
    change (Slots.destroyRange 0 t₃ xs.length).bind _ = _
    rw [hdestroy]
    exact hreplace
  · refine .thrown hpos hthrows hp ?_
    rw [reallocAround, hbuild]
    change (transfer env len 0 pos 0 v.slots u₁).bind _ = _
    rw [hfront]
    change (transfer env len pos v.finish (0 + (pos - 0) + ys.length) t₂ u₂).bind _ = _
    rw [h.finish, Nat.sub_zero, Nat.zero_add, hback]
    exact hgiveUp

theorem reallocAround_safe (h : v.Holds xs) (relocates : Bool) (hpos : pos ≤ xs.length)
    (hlen : ys.length + xs.length ≤ len) :
    Safe env v pos (inserted pos ys xs) (v.reallocAround env relocates pos ys len) := by
  obtain ⟨u₁, hbuild, hu₁, -⟩ | ⟨hbuild, k, hk, hthrows⟩ := build_run env len ys
    (p := pos) (u := fun _ => none) (fun _ _ _ => rfl) (by omega)
  · cases relocates with
    | true => exact reallocAround_relocates h hpos hlen hbuild hu₁
    | false => exact reallocAround_transfers h hpos hlen hbuild hu₁
  · refine .thrown hpos hthrows (by omega) ?_
    rw [reallocAround, hbuild]
    exact giveUp_none

/-- The elements before the position have been moved, and a copy has thrown. -/
def FrontMoved (env : VecEnv T) (pos : Nat) (ys : List T) : Prop :=
  env.moves = true ∧ ∃ k < ys.length, env.copyThrows (pos + k) = true

/-- Where that happens the elements are left behind. -/
theorem reallocThrough_frontMoved (h : v.Holds xs) (hpos : pos ≤ xs.length)
    (hlen : ys.length + xs.length ≤ len) (hmoved : FrontMoved env pos ys) :
    ∃ t, v.reallocThrough env pos ys len = some (.threw { v with slots := t }) ∧
      Written 0 pos (fun k => (v.slots (0 + k)).map env.ms.movedFrom) v.slots t := by
  obtain ⟨hmoves, k, hk, hthrows⟩ := hmoved
  obtain ⟨t₁, u₁, hfront, hu₁, ht₁⟩ | ⟨hcopies, -⟩ := transfer_run env len (q := 0)
    (t := v.slots) (u := fun _ => none) (Nat.zero_le pos) (fun y _ hhi => h.isSome (by omega))
    (fun _ _ _ => rfl) (by omega)
  swap
  · rw [hmoves] at hcopies
    cases hcopies
  obtain ⟨u₂, -, -, hnone⟩ | ⟨hbuild, -⟩ := build_run env len ys (p := pos) (u := u₁)
    (fun y hlo _ => hu₁.kept y (by omega)) (by omega)
  · rw [hnone k hk] at hthrows
    cases hthrows
  refine ⟨t₁, ?_, ?_⟩
  · rw [reallocThrough, hfront]
    change (build env len ys (0 + (pos - 0)) u₁).bind _ = _
    rw [Nat.sub_zero, Nat.zero_add, hbuild]
    refine giveUp_eq (Nat.zero_le _) (fun y hlo hhi => ?_) fun y hy => hu₁.kept y (by omega)
    rw [hu₁.inside y hlo (by omega)]
    exact h.isSome (by omega)
  · have hleft : leftBehind env = env.ms.movedFrom := by
      funext x
      rw [leftBehind, hmoves]
      rfl
    rw [hleft] at ht₁
    exact ht₁

theorem reallocThrough_safe (h : v.Holds xs) (hpos : pos ≤ xs.length)
    (hlen : ys.length + xs.length ≤ len) (hmoved : ¬FrontMoved env pos ys) :
    Safe env v pos (inserted pos ys xs) (v.reallocThrough env pos ys len) := by
  obtain ⟨t₁, u₁, hfront, hu₁, ht₁⟩ | ⟨-, hfront, k, hk, hthrows⟩ := transfer_run env len (q := 0)
    (t := v.slots) (u := fun _ => none) (Nat.zero_le pos) (fun y _ hhi => h.isSome (by omega))
    (fun _ _ _ => rfl) (by omega)
  swap
  · refine .thrown hpos hthrows (by omega) ?_
    rw [reallocThrough, hfront]
    exact giveUp_none
  obtain ⟨u₂, hbuild, hu₂, -⟩ | ⟨hbuild, k, hk, hthrows⟩ := build_run env len ys (p := pos) (u := u₁)
    (fun y hlo _ => hu₁.kept y (by omega)) (by omega)
  swap
  · -- the elements before the position have been copied, as they are not moved
    have hcopies : env.moves = false := Bool.eq_false_iff.2 fun hmoves =>
      hmoved ⟨hmoves, k, hk, hthrows⟩
    refine .thrown hpos hthrows (by omega) ?_
    rw [reallocThrough, hfront]
    change (build env len ys (0 + (pos - 0)) u₁).bind _ = _
    rw [Nat.sub_zero, Nat.zero_add, hbuild, ht₁.eq_of_copied hcopies]
    refine giveUp_eq (Nat.zero_le _) (fun y hlo hhi => ?_) fun y hy => hu₁.kept y (by omega)
    rw [hu₁.inside y hlo (by omega)]
    exact h.isSome (by omega)
  obtain ⟨u₁', hu₁', hu₂'⟩ := Written.swap hu₁ hu₂ (by omega)
  obtain ⟨t₃, u₃, t₄, v', hback, hdestroy, hreplace, hholds⟩ | ⟨hback, hgiveUp, p, hp, hthrows⟩ :=
    h.transferBack env hpos hlen hu₁' hu₂' ht₁
  · refine .inl ⟨v', ?_, hholds⟩
    rw [reallocThrough, hfront]
    change (build env len ys (0 + (pos - 0)) u₁).bind _ = _
    rw [Nat.sub_zero, Nat.zero_add, hbuild]
    change (transfer env len pos v.finish (pos + ys.length) t₁ u₂).bind _ = _
    rw [h.finish, hback]
    change (Slots.destroyRange 0 t₃ xs.length).bind _ = _
    rw [hdestroy]
    exact hreplace
  · refine .thrown hpos hthrows hp ?_
    rw [reallocThrough, hfront]
    change (build env len ys (0 + (pos - 0)) u₁).bind _ = _
    rw [Nat.sub_zero, Nat.zero_add, hbuild]
    change (transfer env len pos v.finish (pos + ys.length) t₁ u₂).bind _ = _
    rw [h.finish, hback]
    exact hgiveUp

end Vec

end Rtfsc.Stl
