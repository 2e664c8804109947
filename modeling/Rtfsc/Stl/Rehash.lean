import Mathlib.Data.List.Nodup
import Mathlib.Data.List.Perm.Basic
import Rtfsc.Machine.Buckets

/-!
# Rehashing

`_M_rehash_aux` for unique and for equivalent keys. The nodes are taken from the old chain one by one and
placed in a new one, which is a table of its nodes all the time (`Placed`, `place_spec`). For equivalent
keys the entry of the bucket behind the last node that was placed may be left to be checked (`settled`).
-/

namespace Rtfsc.Stl

open Rtfsc.Machine

variable {ν κ : Type}

/-- `_M_bucket_index` of a key, for a number of buckets. -/
structure RangeHash (κ : Type) where
  index : κ → Nat → Nat
  index_lt : ∀ k n, 0 < n → index k n < n

/-- A table: `_M_bucket_count`, `_M_buckets`, the link of `_M_before_begin` and those of the nodes. A bucket
is empty or has the node before its first one, where `none` is `&_M_before_begin`. -/
structure HashTable (ν : Type) where
  bucketCount : Nat
  buckets : Nat → Option (Option ν)
  beforeBegin : Option ν
  next : ν → Option ν

/-! ## The code -/

/-- The links and `__new_buckets` while nodes are moved, and `__bbegin_bkt`. -/
structure Rehash (ν : Type) where
  beforeBegin : Option ν
  next : ν → Option ν
  buckets : Nat → Option (Option ν)
  bbegin : Nat

namespace Rehash

variable [DecidableEq ν] (f : ν → Nat) (p : ν) (s : Rehash ν)

/-- `__p->_M_nxt = __q->_M_nxt; __q->_M_nxt = __p` -/
def link (q : Option ν) : Rehash ν :=
  match q with
  | none => { s with next := Function.update s.next p s.beforeBegin, beforeBegin := some p }
  | some q => { s with next := Function.update (Function.update s.next p (s.next q)) q (some p) }

/-- A node of an empty bucket comes to the front. -/
def placeFront : Rehash ν :=
  let s := s.link p none
  let buckets := Function.update s.buckets (f p) (some none)
  let buckets :=
    match s.next p with
    | some _ => Function.update buckets s.bbegin (some (some p))
    | none => buckets
  { s with buckets := buckets, bbegin := f p }

/-- What both overloads do with a node that they do not put behind the one before. -/
def place : Rehash ν :=
  match s.buckets (f p) with
  | none => s.placeFront f p
  | some q => s.link p q

end Rehash

/-- `while (__p)`, with the nodes that it has come to. -/
def walk {σ : Type} (nxt : σ → ν → Option ν) (body : ν → σ → σ) :
    Nat → Option ν → List ν → σ → Option (σ × List ν)
  | _, none, touched, s => some (s, touched)
  | 0, some _, _, _ => none
  | fuel + 1, some p, touched, s => walk nxt body fuel (nxt s p) (touched ++ [p]) (body p s)

/-- The locals of the overload for equivalent keys. -/
structure MultiRehash (ν : Type) extends Rehash ν where
  prev : Option ν
  prevBkt : Nat
  check : Bool

namespace MultiRehash

variable [DecidableEq ν] (f : ν → Nat) (p : ν) (s : MultiRehash ν)

/-- The check of the bucket behind `__prev_p`. -/
def settle : Rehash ν :=
  match s.prev with
  | none => s.toRehash
  | some prev =>
    match s.next prev with
    | none => s.toRehash
    | some y =>
      if f y ≠ s.prevBkt then
        { s.toRehash with buckets := Function.update s.buckets (f y) (some (some prev)) }
      else s.toRehash

/-- The same if it is scheduled. -/
def settled : Rehash ν := if s.check then s.settle f else s.toRehash

/-- The body of the loop. -/
def step : MultiRehash ν :=
  if s.prev ≠ none ∧ s.prevBkt = f p then
    { s with toRehash := s.link p s.prev, prev := some p, prevBkt := f p, check := true }
  else
    { s with toRehash := (s.settled f).place f p, prev := some p, prevBkt := f p, check := false }

end MultiRehash

section Code

variable [DecidableEq ν] (hash : RangeHash κ) (key : ν → κ) (n fuel : Nat) (t : HashTable ν)

/-- `_M_bucket_index(__p, __n)` -/
def bucketIndex (x : ν) : Nat := hash.index (key x) n

/-- The state before the loop: no bucket has a node. -/
def startRehash : Rehash ν := ⟨none, t.next, fun _ => none, 0⟩

def endRehash (s : Rehash ν) : HashTable ν := ⟨n, s.buckets, s.beforeBegin, s.next⟩

/-- `_M_rehash_aux(size_type, std::true_type)`, and the nodes that the loop has come to. -/
def rehashAuxUnique : Option (HashTable ν × List ν) := do
  let (s, touched) ← walk Rehash.next (Rehash.place (bucketIndex hash key n)) fuel t.beforeBegin []
    (startRehash t)
  return (endRehash n s, touched)

/-- `_M_rehash_aux(size_type, std::false_type)` -/
def rehashAuxMulti : Option (HashTable ν × List ν) := do
  let (s, touched) ← walk (fun s => s.next) (MultiRehash.step (bucketIndex hash key n)) fuel t.beforeBegin
    [] { startRehash t with prev := none, prevBkt := 0, check := false }
  return (endRehash n (s.settled (bucketIndex hash key n)), touched)

end Code

/-- What is true of a table with the nodes `L`, in the order of its chain. -/
structure HashTable.Holds (hash : RangeHash κ) (key : ν → κ) (t : HashTable ν) (L : List ν) : Prop where
  chain : Links t.next t.beforeBegin L
  nodup : L.Nodup
  grouped : Grouped (bucketIndex hash key t.bucketCount) L
  buckets : ∀ b, t.buckets b = before (bucketIndex hash key t.bucketCount) b none L
  inside : ∀ b, t.buckets b ≠ none → b < t.bucketCount

/-! ## Placing a node -/

/-- The nodes of `L` have been placed. -/
structure Rehash.Placed (f : ν → Nat) (s : Rehash ν) (L : List ν) : Prop where
  chain : Links s.next s.beforeBegin L
  nodup : L.Nodup
  grouped : Grouped f L
  bbegin : ∀ x, L.head? = some x → s.bbegin = f x

variable {f : ν → Nat} {s : Rehash ν} {L A B : List ν} {p x : ν}

section Place

variable [DecidableEq ν]

theorem Rehash.link_buckets {q : Option ν} :
    (s.link p q).buckets = s.buckets ∧ (s.link p q).bbegin = s.bbegin := by
  cases q <;> exact ⟨rfl, rfl⟩

theorem Rehash.link_chain (h : Links s.next s.beforeBegin (A ++ B)) (hnodup : (A ++ B).Nodup)
    (hp : p ∉ A ++ B) :
    Links (s.link p (lastOf none A)).next (s.link p (lastOf none A)).beforeBegin (A ++ p :: B) := by
  rcases List.eq_nil_or_concat A with rfl | ⟨A, y, rfl⟩
  · exact h.push hp
  · rw [List.concat_eq_append, List.append_assoc, List.singleton_append] at h hnodup hp
    rw [List.concat_eq_append, lastOf_concat, List.append_assoc, List.singleton_append]
    exact h.insertBehind hnodup hp

/-- Nodes that are not in the new chain keep their links. -/
theorem Rehash.link_other (hx : x ∉ A ++ B) (hxp : x ≠ p) :
    (s.link p (lastOf none A)).next x = s.next x := by
  rcases List.eq_nil_or_concat A with rfl | ⟨A, y, rfl⟩
  · exact Function.update_of_ne hxp ..
  · have hxy : x ≠ y := by
      rintro rfl
      exact hx (by simp)
    rw [List.concat_eq_append, lastOf_concat]
    show Function.update _ _ _ x = _
    rw [Function.update_of_ne hxy, Function.update_of_ne hxp]

theorem Rehash.placeFront_buckets (h : s.Placed f L) (hb : s.buckets = fun b => before f b none L) :
    (s.placeFront f p).buckets =
      match L.head? with
      | none => Function.update (fun b => before f b none L) (f p) (some none)
      | some y => Function.update (Function.update (fun b => before f b none L) (f p) (some none)) (f y)
        (some (some p)) := by
  have hnext : (s.link p none).next p = s.beforeBegin := Function.update_self ..
  unfold placeFront
  dsimp only
  rw [hnext, link_buckets.1, link_buckets.2, hb]
  cases L with
  | nil =>
    have hempty : s.beforeBegin = none := h.chain
    rw [hempty]
    rfl
  | cons y L =>
    rw [h.chain.1, h.bbegin y rfl]
    rfl

/-- A node comes to the front when its bucket is empty, and else before the first one of its bucket. -/
theorem Rehash.place_spec (h : s.Placed f L) (hb : ∀ b, s.buckets b = before f b none L) (hp : p ∉ L) :
    ∃ A B, L = A ++ B ∧
      (A = [] ∧ (∀ x ∈ L, f x ≠ f p) ∨
        (∀ a ∈ A, f a ≠ f p) ∧ ∃ x, B.head? = some x ∧ f x = f p) ∧
      (s.place f p).Placed f (A ++ p :: B) ∧
      (∀ b, (s.place f p).buckets b = before f b none (A ++ p :: B)) ∧
      ∀ x ∉ L, x ≠ p → (s.place f p).next x = s.next x := by
  unfold place
  cases hbucket : s.buckets (f p) with
  | none =>
    rw [hb, before_eq_none] at hbucket
    have hchain := link_chain (s := s) (A := []) (B := L) h.chain h.nodup hp
    refine ⟨[], L, rfl, .inl ⟨rfl, hbucket⟩, ⟨hchain, List.nodup_cons.mpr ⟨hp, h.nodup⟩,
      h.grouped.cons hbucket, fun x hx => ?_⟩, fun b => ?_, fun x hx hxp => ?_⟩
    · cases hx
      rfl
    · rw [List.nil_append, congrFun (before_cons_new hbucket) b]
      exact congrFun (placeFront_buckets h (funext hb)) b
    · exact link_other (A := []) (B := L) hx hxp
  | some q =>
    rw [hb] at hbucket
    obtain ⟨A, x, B, rfl, hx, hA, rfl⟩ := before_eq_some hbucket
    refine ⟨A, x :: B, rfl, .inr ⟨hA, x, rfl, hx⟩, ⟨link_chain h.chain h.nodup hp, ?_,
      h.grouped.insertBefore hx.symm, fun y hy => ?_⟩, fun b => ?_, fun y => link_other⟩
    · exact List.nodup_middle.mpr (List.nodup_cons.mpr ⟨hp, h.nodup⟩)
    · dsimp only
      rw [link_buckets.2]
      cases A with
      | nil =>
        cases hy
        exact (h.bbegin x rfl).trans hx
      | cons a A => exact h.bbegin y hy
    · dsimp only
      rw [link_buckets.1, hb, before_insertBefore hx.symm]

end Place

/-! ## The loop -/

/-- What every round keeps holds at the end, and the rounds are as many as there are nodes. The rest of the
old chain is as it was. -/
theorem walk_spec {σ : Type} {nxt : σ → ν → Option ν} {body : ν → σ → σ}
    {I : List ν → List ν → σ → Prop}
    (hstep : ∀ done p rest s, I done (p :: rest) s →
      nxt s p = rest.head? ∧ I (done ++ [p]) rest (body p s))
    {fuel : Nat} {done rest : List ν} {s : σ} (h : I done rest s) (hfuel : rest.length ≤ fuel) :
    ∃ s', walk nxt body fuel rest.head? done s = some (s', done ++ rest) ∧ I (done ++ rest) [] s' := by
  induction rest generalizing fuel done s with
  | nil =>
    rw [List.append_nil]
    cases fuel <;> exact ⟨s, rfl, h⟩
  | cons p rest ih =>
    obtain ⟨fuel, rfl⟩ : ∃ k, fuel = k + 1 := ⟨fuel - 1, by simp at hfuel; omega⟩
    obtain ⟨hnext, hbody⟩ := hstep done p rest s h
    obtain ⟨s', hs', hI⟩ := ih hbody (Nat.le_of_succ_le_succ hfuel)
    rw [List.append_assoc, List.singleton_append] at hs' hI
    refine ⟨s', ?_, hI⟩
    rw [List.head?_cons, walk, hnext]
    exact hs'

/-- The nodes of `done` are in the new chain `L`, and those of `rest` still linked as they were. -/
structure Rehash.Between (f : ν → Nat) (done rest : List ν) (s : Rehash ν) (L : List ν) : Prop where
  placed : s.Placed f L
  perm : L.Perm done
  nodup : (done ++ rest).Nodup
  rest : Links s.next rest.head? rest

namespace Rehash.Between

variable {done rest : List ν} {s' : Rehash ν}

theorem not_mem (h : s.Between f done (p :: rest) L) : p ∉ L := by
  intro hmem
  have hnodup := h.nodup
  rw [List.nodup_append] at hnodup
  exact hnodup.2.2 p (h.perm.mem_iff.mp hmem) p List.mem_cons_self rfl

/-- One more node is placed, and the links of the rest are kept. -/
theorem step (h : s.Between f done (p :: rest) (A ++ B)) (hplaced : s'.Placed f (A ++ p :: B))
    (hother : ∀ x ∉ A ++ B, x ≠ p → s'.next x = s.next x) :
    s'.Between f (done ++ [p]) rest (A ++ p :: B) where
  placed := hplaced
  perm := (List.perm_middle.trans (h.perm.cons p)).trans (List.perm_append_singleton p done).symm
  nodup := by
    rw [List.append_assoc]
    exact h.nodup
  rest := by
    have hrest : Links s.next (s.next p) rest := h.rest.2
    have hnodup := List.nodup_append.mp h.nodup
    have hp := List.nodup_cons.mp hnodup.2.1
    rw [hrest.head_eq] at hrest
    refine hrest.congr fun x hx => hother x (fun hmem => ?_) ?_
    · exact hnodup.2.2 x (h.perm.mem_iff.mp hmem) x (List.mem_cons_of_mem p hx) rfl
    · rintro rfl
      exact hp.1 hx

theorem next_eq (h : s.Between f done (p :: rest) L) : s.next p = rest.head? :=
  h.rest.2.head_eq

end Rehash.Between

variable {hash : RangeHash κ} {key : ν → κ} {t : HashTable ν} {n : Nat} {O : List ν}

theorem HashTable.Holds.start (h : t.Holds hash key O) :
    (startRehash t).Between f [] O [] ∧ t.beforeBegin = O.head? :=
  ⟨⟨⟨rfl, List.nodup_nil, trivial, fun x hx => absurd hx (by simp)⟩, List.Perm.refl _, h.nodup,
    h.chain.head_eq ▸ h.chain⟩, h.chain.head_eq⟩

/-- When all nodes are placed the table is well formed. -/
theorem Rehash.Placed.holds (hn : 0 < n) (h : s.Placed (bucketIndex hash key n) L)
    (hb : ∀ b, s.buckets b = before (bucketIndex hash key n) b none L) :
    (endRehash n s).Holds hash key L := by
  refine ⟨h.chain, h.nodup, h.grouped, hb, fun b hne => ?_⟩
  by_contra hge
  refine hne ((hb b).trans (before_eq_none.mpr fun x _ heq => ?_))
  exact hge (heq ▸ hash.index_lt (key x) n hn)

theorem rehashAuxUnique_spec [DecidableEq ν] (h : t.Holds hash key O) (hn : 0 < n) {fuel : Nat}
    (hfuel : O.length ≤ fuel) :
    ∃ t' L, rehashAuxUnique hash key n fuel t = some (t', O) ∧ t'.bucketCount = n ∧
      t'.Holds hash key L ∧ L.Perm O := by
  obtain ⟨hstart, hhead⟩ := h.start (f := bucketIndex hash key n)
  have hloop : ∀ done p rest (s : Rehash ν),
      (∃ L, s.Between (bucketIndex hash key n) done (p :: rest) L ∧
        ∀ b, s.buckets b = before (bucketIndex hash key n) b none L) →
      s.next p = rest.head? ∧
        ∃ L, (s.place (bucketIndex hash key n) p).Between (bucketIndex hash key n) (done ++ [p]) rest L ∧
          ∀ b, (s.place (bucketIndex hash key n) p).buckets b =
            before (bucketIndex hash key n) b none L := by
    rintro done p rest s ⟨L, hbetween, hb⟩
    obtain ⟨A, B, rfl, -, hplaced, hb', hother⟩ := Rehash.place_spec hbetween.placed hb hbetween.not_mem
    exact ⟨hbetween.next_eq, A ++ p :: B, hbetween.step hplaced hother, hb'⟩
  obtain ⟨s', hs', L, hbetween, hb⟩ := walk_spec (I := fun done rest s =>
    ∃ L, Rehash.Between (bucketIndex hash key n) done rest s L ∧
      ∀ b, s.buckets b = before (bucketIndex hash key n) b none L) hloop
    ⟨[], hstart, fun _ => rfl⟩ hfuel
  refine ⟨endRehash n s', L, ?_, rfl, hbetween.placed.holds hn hb, hbetween.perm⟩
  unfold rehashAuxUnique
  rw [hhead, hs']
  rfl

end Rtfsc.Stl
