import Rtfsc.Stl.VecRealloc

/-!
# Insertion and erasure: what is kept

A call returns with the list operation done, or it throws while it fills a new storage and the vector is
as it was. `runsRight_iff` has the calls of which this is true: `_M_range_insert` moves the elements before
the position to the new storage and then copies the new ones, and where such a copy throws nothing moves
them back. `_M_realloc_insert` and `_M_fill_insert` build the new ones first.
-/

namespace Rtfsc.Stl

open Rtfsc.Machine

variable {T : Type} {env : VecEnv T} {v : Vec T} {xs ys zs : List T} {pos n : Nat} {arg : ElemRef T}
  {op : VecOp T} {x : T}

/-! ## The list operations -/

def ElemRef.get (xs : List T) : ElemRef T → Option T
  | .value x => some x
  | .element k => xs[k]?

namespace VecOp

/-- The iterators and the element that is referred to are in the vector. -/
def Valid (xs : List T) : VecOp T → Prop
  | .insert pos arg => pos ≤ xs.length ∧ (arg.get xs).isSome
  | .fillInsert pos _ arg => pos ≤ xs.length ∧ (arg.get xs).isSome
  | .rangeInsert pos _ => pos ≤ xs.length
  | .erase pos => pos < xs.length
  | .eraseRange first last => first ≤ last ∧ last ≤ xs.length

/-- What becomes of the list. -/
def apply (xs : List T) : VecOp T → Option (List T)
  | .insert pos arg => (arg.get xs).map fun x => inserted pos [x] xs
  | .fillInsert pos n arg => (arg.get xs).map fun x => inserted pos (List.replicate n x) xs
  | .rangeInsert pos ys => some (inserted pos ys xs)
  | .erase pos => some (erased pos (pos + 1) xs)
  | .eraseRange first last => some (erased first last xs)

/-- Where the returned iterator points to. -/
def position : VecOp T → Nat
  | .insert pos _ => pos
  | .fillInsert pos _ _ => pos
  | .rangeInsert pos _ => pos
  | .erase pos => pos
  | .eraseRange first _ => first

/-- How many elements come in. -/
def count : VecOp T → Nat
  | .insert _ _ => 1
  | .fillInsert _ n _ => n
  | .rangeInsert _ ys => ys.length
  | .erase _ => 0
  | .eraseRange _ _ => 0

end VecOp

/-! ## The claim of the code -/

/-- There is no room for `n` elements, and `_M_check_len`, `_M_allocate` or a copy into the new storage
throws. -/
def MayThrow (env : VecEnv T) (v : Vec T) (n : Nat) : Prop :=
  v.endOfStorage - v.finish < n ∧
    (env.maxSize - v.finish < n ∨ env.allocThrows = true ∨ ∃ p < v.finish + n, env.copyThrows p = true)

/-- The call returns with the operation done, or it throws and the vector is as it was. -/
def RunsRight (env : VecEnv T) (v : Vec T) (xs : List T) (op : VecOp T) : Prop :=
  (∃ v' zs, v.run env op = some (.returned v' op.position) ∧ op.apply xs = some zs ∧ v'.Holds zs) ∨
    v.run env op = some (.threw v) ∧ MayThrow env v op.count

/-- A range is inserted through a new storage, to which the elements before it are moved; the copy of one
of the range throws, and a moved element is not what it was. -/
def LosesFront (env : VecEnv T) (v : Vec T) (xs : List T) : VecOp T → Prop
  | .rangeInsert pos ys =>
    v.endOfStorage - v.finish < ys.length ∧ ys.length ≤ env.maxSize - v.finish ∧
      env.allocThrows = false ∧ Vec.FrontMoved env pos ys ∧ ∃ x ∈ xs.take pos, env.ms.movedFrom x ≠ x
  | _ => False

namespace Vec

theorem Holds.read (h : v.Holds xs) (arg : ElemRef T) : v.read arg = arg.get xs := by
  cases arg with
  | value x => rfl
  | element k =>
    rw [Vec.read, ElemRef.get, h.finish, h.slots_eq]
    split
    · rfl
    · next hout => exact (List.getElem?_eq_none (Nat.le_of_not_lt hout)).symm

theorem checkLen_ge {len : Nat} (hn : n ≠ 0) (hlen : v.checkLen env n = some len) :
    n + v.finish ≤ len ∧ n ≤ env.maxSize - v.finish := by
  unfold checkLen at hlen
  split at hlen
  · cases hlen
  · next hfits =>
    dsimp only at hlen
    have hmax := Nat.le_max_right v.finish n
    split at hlen <;> cases hlen <;> omega

/-- There is a new storage, or the vector is as it was. -/
theorem withStorage_run (env : VecEnv T) (v : Vec T) (hn : n ≠ 0) (fill : Nat → Option (VecResult T)) :
    v.withStorage env n fill = some (.threw v) ∧
        (env.maxSize - v.finish < n ∨ env.allocThrows = true) ∨
      ∃ len, n + v.finish ≤ len ∧ v.withStorage env n fill = fill len ∧
        n ≤ env.maxSize - v.finish ∧ env.allocThrows = false := by
  unfold withStorage
  rcases hlen : v.checkLen env n with _ | len
  · refine .inl ⟨rfl, .inl (Classical.byContradiction fun hfits => ?_)⟩
    rw [checkLen, if_neg hfits] at hlen
    cases hlen
  · obtain ⟨hle, hfits⟩ := checkLen_ge hn hlen
    dsimp only
    rcases halloc : env.allocThrows with _ | _
    · exact .inr ⟨len, hle, rfl, hfits, rfl⟩
    · exact .inl ⟨rfl, .inr rfl⟩

end Vec

/-! ## Each function -/

/-- There is no room, and what is safe in a new storage is right. -/
theorem RunsRight.of_storage (h : v.Holds xs) (hn : op.count ≠ 0)
    (hfull : v.endOfStorage - v.finish < op.count) (happly : op.apply xs = some zs)
    (hlen : zs.length = op.count + xs.length) {fill : Nat → Option (VecResult T)}
    (hrun : v.run env op = v.withStorage env op.count fill)
    (hsafe : ∀ len, op.count + xs.length ≤ len → op.count ≤ env.maxSize - v.finish →
      env.allocThrows = false → Vec.Safe env v op.position zs (fill len)) :
    RunsRight env v xs op := by
  obtain ⟨hthrew, hwhy⟩ | ⟨len, hle, hfill, hfits, halloc⟩ := Vec.withStorage_run env v hn fill
  · exact .inr ⟨hrun.trans hthrew, hfull, hwhy.imp_right .inl⟩
  rw [h.finish] at hle
  obtain ⟨v', hreturned, hholds⟩ | ⟨hthrew, p, hp, hthrows⟩ := hsafe len hle hfits halloc
  · exact .inl ⟨v', zs, hrun.trans (hfill.trans hreturned), happly, hholds⟩
  · refine .inr ⟨hrun.trans (hfill.trans hthrew), hfull, .inr (.inr ⟨p, ?_, hthrows⟩)⟩
    rw [h.finish]
    omega

theorem runsRight_insert (h : v.Holds xs) (env : VecEnv T) (hpos : pos ≤ xs.length)
    (hx : arg.get xs = some x) : RunsRight env v xs (.insert pos arg) := by
  have hread : v.read arg = some x := (h.read arg).trans hx
  have happly : (VecOp.insert pos arg).apply xs = some (inserted pos [x] xs) := by
    rw [VecOp.apply, hx]
    rfl
  have hfinish := h.finish
  have hroom := h.room
  rcases eq_or_ne v.finish v.endOfStorage with hfull | hspare
  · refine .of_storage h Nat.one_ne_zero (show v.endOfStorage - v.finish < 1 by omega) happly
      (length_inserted hpos) (if_neg (not_not.2 hfull)) fun len hlen _ _ => ?_
    rw [hread]
    exact Vec.reallocAround_safe h env.relocates hpos hlen
  have hfree : xs.length < v.endOfStorage := by omega
  rcases Nat.eq_or_lt_of_le hpos with rfl | hlt
  · obtain ⟨slots, hconstruct, hholds⟩ := Vec.construct_holds h hfree x
    refine .inl ⟨_, _, ?_, happly, hholds⟩
    rw [Vec.run, Vec.insert, if_pos hspare, if_pos hfinish.symm, hread, hfinish]
    change (Slots.construct v.endOfStorage xs.length x v.slots).bind _ = _
    rw [hconstruct]
    rfl
  · obtain ⟨v', hrun, hholds⟩ := Vec.insertAux_holds h env hlt hfree x
    have hinside : ¬pos = v.finish := by omega
    refine .inl ⟨v', _, ?_, happly, hholds⟩
    rw [Vec.run, Vec.insert, if_pos hspare, if_neg hinside, hread]
    change (v.insertAux env pos x).bind _ = _
    rw [hrun]
    rfl

theorem runsRight_fillInsert (h : v.Holds xs) (env : VecEnv T) (hpos : pos ≤ xs.length) (n : Nat)
    (hx : arg.get xs = some x) : RunsRight env v xs (.fillInsert pos n arg) := by
  have hread : v.read arg = some x := (h.read arg).trans hx
  have hlen : (List.replicate n x).length = n := List.length_replicate
  have happly : (VecOp.fillInsert pos n arg).apply xs =
      some (inserted pos (List.replicate n x) xs) := by
    rw [VecOp.apply, hx]
    rfl
  rcases eq_or_ne n 0 with rfl | hn
  · have hrun : v.fillInsert env pos 0 arg = some (.returned v pos) := if_neg (not_not.2 rfl)
    refine .inl ⟨v, xs, hrun, happly.trans (congrArg some ?_), h⟩
    rw [inserted, List.replicate_zero, List.append_nil, List.take_append_drop]
  rcases Nat.lt_or_ge (v.endOfStorage - v.finish) n with hfull | hfits
  · refine .of_storage h hn hfull happly ((length_inserted hpos).trans (by rw [hlen]; rfl))
      ((if_pos hn).trans (if_neg (Nat.not_le.2 hfull))) fun len hle _ _ => ?_
    rw [hread]
    refine Vec.reallocAround_safe h false hpos ?_
    rw [hlen]
    exact hle
  · have hsome : (List.replicate n x).length ≠ 0 := by rwa [hlen]
    obtain ⟨v', hrun, hholds⟩ := Vec.insertInPlace_holds h env hsome hpos
      (by rw [hlen, ← h.finish]; exact hfits)
    refine .inl ⟨v', _, ?_, happly, hholds⟩
    rw [Vec.run, Vec.fillInsert, if_pos hn, if_pos hfits, hread]
    change (v.insertInPlace env pos (List.replicate n x)).bind _ = _
    rw [hrun]
    rfl

/-- The front is left behind, and it is what it was where moves leave its elements as they are. -/
theorem frontMoved_slots {t : Slots T} (h : v.Holds xs) (hpos : pos ≤ xs.length)
    (hleft : Written 0 pos (fun k => (v.slots (0 + k)).map env.ms.movedFrom) v.slots t) :
    t = v.slots ↔ ∀ x ∈ xs.take pos, env.ms.movedFrom x = x := by
  constructor
  · rintro rfl x hx
    obtain ⟨k, hk, rfl⟩ := List.mem_take_iff_getElem.1 hx
    have hkpos : k < pos := by omega
    have hklen : k < xs.length := by omega
    have hplace := hleft.inside k (Nat.zero_le k) (by omega)
    rw [Nat.sub_zero, Nat.zero_add, h.slots_eq, List.getElem?_eq_getElem hklen] at hplace
    exact (Option.some.inj hplace).symm
  · intro hsame
    funext y
    by_cases hy : y < pos
    · have hlen : y < xs.length := by omega
      have hmem : xs[y] ∈ xs.take pos := List.mem_take_iff_getElem.2 ⟨y, by omega, rfl⟩
      rw [hleft.inside y (Nat.zero_le y) (by omega), Nat.sub_zero, Nat.zero_add, h.slots_eq,
        List.getElem?_eq_getElem hlen]
      exact congrArg some (hsame _ hmem)
    · exact hleft.kept y (by omega)

theorem runsRight_rangeInsert (h : v.Holds xs) (hpos : pos ≤ xs.length)
    (hkept : ¬LosesFront env v xs (.rangeInsert pos ys)) : RunsRight env v xs (.rangeInsert pos ys) := by
  have hlength : (inserted pos ys xs).length = ys.length + xs.length := length_inserted hpos
  rcases eq_or_ne ys.length 0 with hzero | hn
  · have hrun : v.rangeInsert env pos ys = some (.returned v pos) := if_neg (not_not.2 hzero)
    refine .inl ⟨v, xs, hrun, congrArg some ?_, h⟩
    rw [inserted, List.eq_nil_of_length_eq_zero hzero, List.append_nil, List.take_append_drop]
  rcases Nat.lt_or_ge (v.endOfStorage - v.finish) ys.length with hfull | hfits
  · refine .of_storage h hn hfull rfl hlength ((if_pos hn).trans (if_neg (Nat.not_le.2 hfull)))
      fun len hle hsize halloc => ?_
    by_cases hmoved : Vec.FrontMoved env pos ys
    · obtain ⟨t, hrun, hleft⟩ := Vec.reallocThrough_frontMoved h hpos hle hmoved
      have hsame : t = v.slots := (frontMoved_slots h hpos hleft).2 fun x hx =>
        Classical.byContradiction fun hne => hkept ⟨hfull, hsize, halloc, hmoved, x, hx, hne⟩
      obtain ⟨-, k, hk, hthrows⟩ := hmoved
      rw [hsame] at hrun
      exact .thrown hpos hthrows (by omega) hrun
    · exact Vec.reallocThrough_safe h hpos hle hmoved
  · obtain ⟨v', hrun, hholds⟩ := Vec.insertInPlace_holds h env hn hpos (by rw [← h.finish]; exact hfits)
    refine .inl ⟨v', _, ?_, rfl, hholds⟩
    rw [Vec.run, Vec.rangeInsert, if_pos hn, if_pos hfits, hrun]
    rfl

theorem not_runsRight_of_losesFront (h : v.Holds xs) (hpos : pos ≤ xs.length)
    (hloses : LosesFront env v xs (.rangeInsert pos ys)) : ¬RunsRight env v xs (.rangeInsert pos ys) := by
  obtain ⟨hfull, hsize, halloc, hmoved, x, hx, hne⟩ := hloses
  have hn : ys.length ≠ 0 := by omega
  have hrange : v.run env (.rangeInsert pos ys) =
      v.withStorage env ys.length (v.reallocThrough env pos ys) :=
    (if_pos hn).trans (if_neg (Nat.not_le.2 hfull))
  obtain ⟨-, hwhy⟩ | ⟨len, hle, hfill, -⟩ := Vec.withStorage_run env v hn
    (v.reallocThrough env pos ys)
  · rw [halloc] at hwhy
    exact absurd (hwhy.resolve_right Bool.false_ne_true) (Nat.not_lt.2 hsize)
  rw [h.finish] at hle
  obtain ⟨t, hrun, hleft⟩ := Vec.reallocThrough_frontMoved h hpos hle hmoved
  have hthrew := hrange.trans (hfill.trans hrun)
  rintro (⟨v', zs, hreturned, -⟩ | ⟨hsame, -⟩)
  · exact nomatch hreturned.symm.trans hthrew
  · have hv : v = { v with slots := t } :=
      VecResult.threw.inj (Option.some.inj (hsame.symm.trans hthrew))
    have ht : t = v.slots := (congrArg Vec.slots hv).symm
    exact hne ((frontMoved_slots h hpos hleft).1 ht x hx)

/-! ## All of them -/

/-- Only the insertion of a range through a new storage loses elements. -/
theorem runsRight_iff (h : v.Holds xs) (hop : op.Valid xs) (env : VecEnv T) :
    RunsRight env v xs op ↔ ¬LosesFront env v xs op := by
  cases op with
  | insert pos arg =>
    obtain ⟨x, hx⟩ := Option.isSome_iff_exists.1 hop.2
    exact iff_of_true (runsRight_insert h env hop.1 hx) not_false
  | fillInsert pos n arg =>
    obtain ⟨x, hx⟩ := Option.isSome_iff_exists.1 hop.2
    exact iff_of_true (runsRight_fillInsert h env hop.1 n hx) not_false
  | rangeInsert pos ys =>
    exact ⟨fun hright hloses => not_runsRight_of_losesFront h hop hloses hright,
      runsRight_rangeInsert h hop⟩
  | erase pos =>
    obtain ⟨v', hrun, hholds⟩ := Vec.erase_holds h env hop
    exact iff_of_true (.inl ⟨v', _, hrun, rfl, hholds⟩) not_false
  | eraseRange first last =>
    obtain ⟨v', hrun, hholds⟩ := Vec.eraseRange_holds h env hop.1 hop.2
    exact iff_of_true (.inl ⟨v', _, hrun, rfl, hholds⟩) not_false

/-- Elements that are moved and become 0, and a copy to slot 2 of the new storage that throws. -/
def movingEnv : VecEnv Nat :=
  ⟨⟨fun _ => 0, id⟩, true, false, fun p => p = 2, 100, false⟩

/-- A vector without room. -/
def fullVec : Vec Nat := ⟨laidFrom 0 [1, 2], 2, 2⟩

theorem fullVec_holds : fullVec.Holds [1, 2] := ⟨rfl, rfl, le_rfl⟩

/-- The fill, of the vector's own first element, throws and takes everything back. -/
theorem runsRight_iff_fill : RunsRight movingEnv fullVec [1, 2] (.fillInsert 1 2 (.element 0)) :=
  (runsRight_iff fullVec_holds
    (show (VecOp.fillInsert 1 2 (.element 0)).Valid [1, 2] from ⟨by decide, rfl⟩) movingEnv).2 not_false

/-- The first element has been moved to the new storage when the copy throws, and it is 0. -/
theorem runsRight_rangeInsert_loses :
    fullVec.Holds [1, 2] ∧ (VecOp.rangeInsert 1 [8, 9]).Valid [1, 2] ∧
      ¬RunsRight movingEnv fullVec [1, 2] (.rangeInsert 1 [8, 9]) := by
  have hpos : 1 ≤ [1, 2].length := by decide
  refine ⟨fullVec_holds, hpos, not_runsRight_of_losesFront fullVec_holds hpos ?_⟩
  exact ⟨by decide, by decide, rfl, ⟨rfl, 1, by decide, rfl⟩, 1, by decide, by decide⟩

end Rtfsc.Stl
