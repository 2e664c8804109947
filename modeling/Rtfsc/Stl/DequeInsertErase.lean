import Rtfsc.Stl.DequeErased
import Rtfsc.Stl.DequeInsertMany
import Rtfsc.Stl.DequeInsertOne

/-!
# Insertion and erasure at every index

All forms of `insert` and `erase` put together. The insertion of no elements in the middle is the one that
does not always leave the deque as it should: it moves the elements of the shorter side to themselves,
which is harmless only if that leaves them as they are.
-/

namespace Rtfsc.Stl.Deque

open Rtfsc.Machine

variable {T : Type} {env : DequeEnv} {ms : MoveSem T} {d : Deque T} {s i j n : Nat} {xs ys zs : List T}
  {v : T} {x : Maker T}

/-! ## One element -/

theorem insert_inserts (h : d.Holds env s xs) (ms : MoveSem T) (hx : x d.cells = some v)
    (hi : i ≤ xs.length) :
    Inserts env xs 1 (d.insert env ms (iterAt env.buffer d.entry (s + i)) x) i
      (inserted i [v] xs) := by
  unfold insert
  by_cases hstart : i = 0
  · rw [if_pos ((h.cur_eq_start hi).mpr hstart)]
    subst hstart
    rcases h.pushFront hx with ⟨d', s', hrun, hholds, -⟩ | ⟨⟨d', hrun⟩, hno⟩ <;> rw [hrun]
    · exact .inl ⟨d', s', congrArg (fun it => some (it, d')) hholds.start, hholds⟩
    · exact .inr ⟨rfl, hno⟩
  rw [if_neg (mt (h.cur_eq_start hi).mp hstart)]
  by_cases hfinish : i = xs.length
  · rw [if_pos ((h.cur_eq_finish hi).mpr hfinish)]
    subst hfinish
    rcases h.pushBack hx with ⟨d', s', hrun, hholds, -⟩ | ⟨⟨d', hrun⟩, hno⟩ <;> rw [hrun]
    · have hlast : inserted xs.length [v] xs = xs ++ [v] := by
        rw [inserted, List.take_length, List.drop_length, List.append_nil]
      have hlen : s' + (xs ++ [v]).length = s' + xs.length + 1 := by
        rw [List.length_append, List.length_singleton, Nat.add_assoc]
      rw [hlast]
      refine .inl ⟨d', s', ?_, hholds⟩
      dsimp only
      rw [hholds.finish, hlen, prev, prev_iterAt]
    · exact .inr ⟨rfl, hno⟩
  rw [if_neg (mt (h.cur_eq_finish hi).mp hfinish)]
  by_cases hfront : i < xs.length / 2
  · exact insertAux_front h ms hx (Nat.pos_of_ne_zero hstart) hfront
  · exact insertAux_back h ms hx (Nat.lt_of_le_of_ne hi hfinish) hfront

/-! ## Many elements -/

/-- What an insertion leaves. -/
def insertion (ms : MoveSem T) (i : Nat) (ys xs : List T) : List T :=
  if i = 0 ∨ i = xs.length then inserted i ys xs else insertedBy ms i ys xs

theorem fillInsert_leaves (h : d.Holds env s xs) (ms : MoveSem T) (hx : Reads x d.cells v)
    (hi : i ≤ xs.length) :
    Leaves env xs n (d.fillInsert env ms (iterAt env.buffer d.entry (s + i)) n x)
      (insertion ms i (List.replicate n v) xs) := by
  unfold insertion
  by_cases hstart : i = 0
  · rw [if_pos (.inl hstart), hstart]
    exact fillInsert_front h hx
  by_cases hfinish : i = xs.length
  · subst hfinish
    rw [if_pos (.inr rfl)]
    exact fillInsert_back h (fun hnil => hstart (congrArg List.length hnil)) hx
  rw [if_neg (by rintro (heq | heq) <;> contradiction), fillInsert,
    if_neg (mt (h.cur_eq_start hi).mp hstart), if_neg (mt (h.cur_eq_finish hi).mp hfinish)]
  have hread : x d.cells = some v := hx d.cells fun _ _ hcell => hcell
  by_cases hfront : i < xs.length / 2
  · exact insertAuxFill_front h hread hfront
  · exact insertAuxFill_back h hread (Nat.lt_of_le_of_ne hi hfinish) hfront

theorem rangeInsertAux_leaves (h : d.Holds env s xs) (ms : MoveSem T) (hi : i ≤ xs.length) :
    Leaves env xs ys.length (d.rangeInsertAux env ms (iterAt env.buffer d.entry (s + i)) ys)
      (insertion ms i ys xs) := by
  unfold insertion
  by_cases hstart : i = 0
  · rw [if_pos (.inl hstart), hstart]
    exact rangeInsertAux_front h
  by_cases hfinish : i = xs.length
  · subst hfinish
    rw [if_pos (.inr rfl)]
    exact rangeInsertAux_back h (fun hnil => hstart (congrArg List.length hnil))
  rw [if_neg (by rintro (heq | heq) <;> contradiction), rangeInsertAux,
    if_neg (mt (h.cur_eq_start hi).mp hstart), if_neg (mt (h.cur_eq_finish hi).mp hfinish)]
  by_cases hfront : i < xs.length / 2
  · exact insertAuxRange_front h hfront
  · exact insertAuxRange_back h (Nat.lt_of_le_of_ne hi hfinish) hfront

/-- The next element is inserted behind the last one. -/
theorem inserted_cons (hi : i ≤ xs.length) {y : T} :
    inserted (i + 1) ys (inserted i [y] xs) = inserted i (y :: ys) xs := by
  have hlen : (xs.take i ++ [y]).length = i + 1 := by
    rw [List.length_append, List.length_take_of_le hi, List.length_singleton]
  rw [inserted, inserted, ← hlen, List.take_left, List.drop_left, inserted, List.append_assoc,
    List.append_assoc, List.append_assoc]
  rfl

theorem rangeInsertInput_leaves (h : d.Holds env s xs) (ms : MoveSem T) (hi : i ≤ xs.length) :
    Leaves env xs ys.length (d.rangeInsertInput env ms (iterAt env.buffer d.entry (s + i)) ys)
      (inserted i ys xs) := by
  induction ys generalizing d s i xs with
  | nil =>
    refine .inl ⟨d, s, rfl, ?_⟩
    rwa [inserted, List.append_nil, List.take_append_drop]
  | cons y ys ih =>
    have hlen : (inserted i [y] xs).length = 1 + xs.length := length_inserted hi
    rw [rangeInsertInput]
    rcases insert_inserts (x := fun _ => some y) h ms rfl hi with
      ⟨d', s', hrun, hholds⟩ | ⟨hrun, -, hno⟩
    · rw [hrun, ← inserted_cons hi]
      change Leaves env xs _ (rangeInsertInput env ms d'
        ((iterAt env.buffer d'.entry (s' + i)).next env.buffer d'.entry) ys) _
      rw [next_iterAt]
      rcases ih (i := i + 1) hholds (by omega) with hdone | ⟨hrun', -, hno⟩
      · exact .inl hdone
      · refine .inr ⟨hrun', Nat.succ_pos _, hno.imp_right fun hmax => ?_⟩
        rw [List.length_cons]
        omega
    · rw [hrun]
      refine .inr ⟨rfl, Nat.succ_pos _, hno.imp_right fun hmax => ?_⟩
      rw [List.length_cons]
      omega

/-! ## The returned iterator -/

/-- It is computed from the offset of the position. -/
theorem Leaves.inserts {result : Option (Deque T)} (h : d.Holds env s xs)
    (hleaves : Leaves env xs n result zs) :
    Inserts env xs n (do
      let d' ← result
      return (d'.plus env d'.start
        ((iterAt env.buffer d.entry (s + i)).minus env.buffer d.start), d')) i zs := by
  rcases hleaves with ⟨d', s', rfl, hholds⟩ | ⟨rfl, hno⟩
  · refine .inl ⟨d', s', ?_, hholds⟩
    rw [h.offset]
    change some (d'.plus env d'.start (i : Nat), d') = _
    rw [hholds.plus_start]
  · exact .inr ⟨rfl, hno⟩

theorem insertFill_inserts (h : d.Holds env s xs) (ms : MoveSem T) (hx : Reads x d.cells v)
    (hi : i ≤ xs.length) :
    Inserts env xs n (d.insertFill env ms (iterAt env.buffer d.entry (s + i)) n x) i
      (insertion ms i (List.replicate n v) xs) :=
  (fillInsert_leaves h ms hx hi).inserts h

theorem insertRange_inserts (h : d.Holds env s xs) (ms : MoveSem T) (hi : i ≤ xs.length) :
    Inserts env xs ys.length (d.insertRange env ms (iterAt env.buffer d.entry (s + i)) ys) i
      (insertion ms i ys xs) :=
  (rangeInsertAux_leaves h ms hi).inserts h

theorem insertInput_inserts (h : d.Holds env s xs) (ms : MoveSem T) (hi : i ≤ xs.length) :
    Inserts env xs ys.length (d.insertInput env ms (iterAt env.buffer d.entry (s + i)) ys) i
      (inserted i ys xs) :=
  (rangeInsertInput_leaves h ms hi).inserts h

/-! ## Nothing to insert -/

/-- The elements of the shorter side stay the same when they are moved to themselves. At the ends none
is. -/
def Harmless (ms : MoveSem T) (i : Nat) (xs : List T) : Prop :=
  i = 0 ∨ i = xs.length ∨
    ∀ y ∈ if i < xs.length / 2 then xs.take i else xs.drop i, ms.selfMove y = y

theorem map_eq_self {f : T → T} : xs.map f = xs ↔ ∀ y ∈ xs, f y = y := by
  conv_lhs => rhs; rw [← List.map_id xs]
  exact List.map_inj_left

theorem selfMoved_eq :
    selfMoved ms i xs = xs ↔
      ∀ y ∈ if i < xs.length / 2 then xs.take i else xs.drop i, ms.selfMove y = y := by
  unfold selfMoved
  split
  · rw [← map_eq_self]
    nth_rewrite 3 [← List.take_append_drop i xs]
    exact List.append_left_inj _
  · rw [← map_eq_self]
    nth_rewrite 3 [← List.take_append_drop i xs]
    exact List.append_right_inj _

theorem insertion_eq : insertion ms i ys xs = inserted i ys xs ↔ (ys.length = 0 → Harmless ms i xs) := by
  unfold insertion
  by_cases hend : i = 0 ∨ i = xs.length
  · rw [if_pos hend]
    exact iff_of_true rfl fun _ => hend.imp_right .inl
  rw [if_neg hend]
  by_cases hzero : ys.length = 0
  · have hsame : inserted i ys xs = xs := by
      rw [inserted, List.length_eq_zero_iff.mp hzero, List.append_nil, List.take_append_drop]
    rw [insertedBy_of_zero hzero, hsame, selfMoved_eq]
    refine ⟨fun hself _ => .inr (.inr hself), fun hharmless => ?_⟩
    rcases hharmless hzero with hstart | hfinish | hself
    · exact absurd (.inl hstart) hend
    · exact absurd (.inr hfinish) hend
    · exact hself
  · rw [insertedBy_of_pos (Nat.pos_of_ne_zero hzero)]
    exact iff_of_true rfl fun hys => absurd hys hzero

/-- A call leaves only one list, and it cannot throw where there is nothing to insert. -/
theorem Inserts.right_iff {result : Option (DequeIter × Deque T)} (hn : ys.length = n)
    (h : Inserts env xs n result i (insertion ms i ys xs)) :
    Inserts env xs n result i (inserted i ys xs) ↔ (n = 0 → Harmless ms i xs) := by
  subst hn
  rw [← insertion_eq]
  refine ⟨fun h' => ?_, fun heq => heq ▸ h⟩
  rcases h with hreturns | ⟨-, hpos, -⟩
  · rcases h' with hreturns' | ⟨-, hpos, -⟩
    · exact hreturns.unique hreturns'
    · exact insertion_eq.mpr fun hzero => absurd hzero hpos.ne'
  · exact insertion_eq.mpr fun hzero => absurd hzero hpos.ne'

/-! ## A deque with one buffer -/

/-- What `_M_initialize_map` and `push_back` leave as long as one buffer is enough. -/
def oneBuffer (b : BufferSize) (xs : List T) : Deque T where
  entry := fun _ => 0
  mapSize := initialMapSize
  start := iterAt b (fun _ => 0) (3 * b.elems)
  finish := iterAt b (fun _ => 0) (3 * b.elems + xs.length)
  live := {0}
  cells := fun p => if p.buf = 0 then xs[p.off]? else none
  calls := 2

theorem oneBuffer_holds (env : DequeEnv) (xs : List T) (hlt : xs.length < env.buffer.elems) :
    (oneBuffer env.buffer xs).Holds env (3 * env.buffer.elems) xs := by
  have hnode (k : Nat) (hk : k < env.buffer.elems) :
      (3 * env.buffer.elems + k) / env.buffer.elems = 3 := place_div hk
  have hfirst : 3 * env.buffer.elems / env.buffer.elems = 3 := Nat.mul_div_cancel _ env.buffer.pos
  have howns : Owns (fun _ => 0) ({0} : Finset Nat) 3 3 := by
    unfold Owns
    rw [Set.Icc_self, Finset.coe_singleton, Set.bijOn_singleton]
  have hlaid : LaidOut (eltAt env.buffer fun _ => 0) (nodePlaces env.buffer 3 3)
      (oneBuffer env.buffer xs).cells (laidFrom (3 * env.buffer.elems) xs) := by
    refine ⟨eltAt_injOn howns, fun p hp => ?_, fun c hc => ?_, fun p hp => laidFrom_eq_none ?_⟩
    · have hplace : p / env.buffer.elems * env.buffer.elems + p % env.buffer.elems = p := place_eq
      rw [Nat.le_antisymm hp.2 hp.1] at hplace
      change xs[p % env.buffer.elems]? = _
      conv_rhs => rw [← hplace]
      rw [laidFrom_add]
    · change (if c.buf = 0 then xs[c.off]? else none) = none
      split
      next hbuf =>
        refine List.getElem?_eq_none (Nat.le_of_not_lt fun hoff => ?_)
        have hin : c.off < env.buffer.elems := hoff.trans hlt
        refine hc (3 * env.buffer.elems + c.off) ⟨(hnode _ hin).ge, (hnode _ hin).le⟩ ?_
        rw [eltAt, place_mod hin, ← hbuf]
      next => rfl
    · by_contra hin
      obtain ⟨k, rfl⟩ := Nat.exists_eq_add_of_le (by omega : 3 * env.buffer.elems ≤ p)
      have hk := hnode k (by omega)
      exact hp ⟨hk.ge, hk.le⟩
  unfold Holds
  rw [hnode _ hlt, hfirst]
  exact ⟨⟨(by decide : 3 < initialMapSize), howns, hlaid⟩, hfirst.ge, (hnode _ hlt).le, rfl, rfl⟩

/-- A deque of vectors of 24 bytes. The buffer that a call gets has the number of the call. -/
def vectorEnv : DequeEnv where
  buffer := dequeBufSize 24 (by decide)
  maxSize := 1000
  allocBuffer := fun n live => if hfresh : n ∉ live then some ⟨n, hfresh⟩ else none
  allocMap := fun _ _ => true

/-- A vector hands its buffer over when it is moved, also to itself. -/
def vectorMoves : MoveSem (List Nat) where
  movedFrom := fun _ => []
  selfMove := fun _ => []

/-! ## The contract -/

/-- Insertions and erasures are those of lists, and the iterator that is returned stands at the index of
the call. Only where there is nothing to insert it depends on the element type. -/
theorem insert_erase (env : DequeEnv) (ms : MoveSem T) (d : Deque T) (s : Nat) (xs : List T) (i : Nat)
    (h : d.Holds env s xs) (hi : i ≤ xs.length) :
    (∀ (x : ValueRef T) (v : T), x.read d.cells = some v →
      Inserts env xs 1 (d.insert env ms (iterAt env.buffer d.entry (s + i)) x.read) i
        (inserted i [v] xs)) ∧
    (∀ (n : Nat) (x : ValueRef T) (v : T), x.read d.cells = some v →
      (Inserts env xs n (d.insertFill env ms (iterAt env.buffer d.entry (s + i)) n x.read) i
        (inserted i (List.replicate n v) xs) ↔ (n = 0 → Harmless ms i xs))) ∧
    (∀ ys : List T,
      (Inserts env xs ys.length (d.insertRange env ms (iterAt env.buffer d.entry (s + i)) ys) i
        (inserted i ys xs) ↔ (ys.length = 0 → Harmless ms i xs))) ∧
    (∀ ys : List T,
      Inserts env xs ys.length (d.insertInput env ms (iterAt env.buffer d.entry (s + i)) ys) i
        (inserted i ys xs)) ∧
    (i < xs.length → Returns env (d.erase env ms (iterAt env.buffer d.entry (s + i))) i
      (erased i (i + 1) xs)) ∧
    (∀ j, i ≤ j → j ≤ xs.length →
      Returns env (d.eraseRange env ms (iterAt env.buffer d.entry (s + i))
        (iterAt env.buffer d.entry (s + j))) i (erased i j xs)) := by
  refine ⟨fun x v hx => insert_inserts h ms hx hi, fun n x v hx => ?_, fun ys => ?_,
    fun ys => insertInput_inserts h ms hi, erase_returns h ms,
    fun j hij hj => eraseRange_returns h ms hij hj⟩
  · exact (insertFill_inserts h ms (ValueRef.reads hx) hi).right_iff List.length_replicate
  · exact (insertRange_inserts h ms hi).right_iff rfl

/-- The third element, inserted four times before the second one. -/
theorem insert_erase_element :
    Inserts vectorEnv [[1], [2], [3]] 4
      ((oneBuffer vectorEnv.buffer [[1], [2], [3]]).insertFill vectorEnv vectorMoves
        (iterAt vectorEnv.buffer (fun _ => 0) (3 * vectorEnv.buffer.elems + 1)) 4
        (ValueRef.element ⟨0, 2⟩).read) 1
      [[1], [3], [3], [3], [3], [2], [3]] :=
  ((insert_erase vectorEnv vectorMoves (oneBuffer vectorEnv.buffer [[1], [2], [3]])
    (3 * vectorEnv.buffer.elems) [[1], [2], [3]] 1 (oneBuffer_holds _ _ (by decide)) (by decide)).2.1 4
      (.element ⟨0, 2⟩) [3] rfl).mpr fun hzero => absurd hzero (by decide)

/-- To insert no vector before the second of three clears the last two. -/
theorem insertFill_none_clears :
    ¬Inserts vectorEnv [[1], [2], [3]] 0
      ((oneBuffer vectorEnv.buffer [[1], [2], [3]]).insertFill vectorEnv vectorMoves
        (iterAt vectorEnv.buffer (fun _ => 0) (3 * vectorEnv.buffer.elems + 1)) 0
        (ValueRef.given [4]).read) 1
      (inserted 1 (List.replicate 0 [4]) [[1], [2], [3]]) := by
  have hholds := oneBuffer_holds vectorEnv [[1], [2], [3]] (by decide)
  have hfill := insertFill_inserts (n := 0) (i := 1) hholds vectorMoves
    (ValueRef.reads (x := .given [4]) rfl) (by decide)
  intro hright
  rcases (hfill.right_iff List.length_replicate).mp hright rfl with hstart | hfinish | hself
  · exact absurd hstart (by decide)
  · exact absurd hfinish (by decide)
  · exact absurd (hself [2] (by decide)) (by decide)

end Rtfsc.Stl.Deque
