import Rtfsc.Stl.Rehash

/-!
# Rehashing with equivalent keys

`_M_rehash_aux` for equivalent keys. A node of the bucket of the one before it comes behind that one, so that
nodes with one key stay together and in their order (`EqualsKept`). The entry of the bucket behind is wrong
until it is checked, and it is not used before.
-/

namespace Rtfsc.Stl

open Rtfsc.Machine

variable {ν κ : Type} {f : ν → Nat} {L A B : List ν} {p x : ν} {hash : RangeHash κ} {key : ν → κ}
  {t : HashTable ν} {n : Nat} {O : List ν}

/-! ## Nodes with one key -/

/-- Nodes with one key are next to each other and in the order in which they were moved, and none of them is
behind the last one that was moved. -/
structure EqualsKept [DecidableEq κ] (key : ν → κ) (done : List ν) (L : List ν) : Prop where
  grouped : Grouped key L
  order : ∀ k, L.filter (key · = k) = done.filter (key · = k)
  behind : ∀ x A B, done.getLast? = some x → L = A ++ x :: B → ∀ y ∈ B, key y ≠ key x

section Equals

variable {done rest : List ν}

/-- After another key no node of the next one has been moved. -/
theorem fresh_key (h : Grouped key (done ++ p :: rest))
    (hlast : ∀ x, done.getLast? = some x → key x ≠ key p) : ∀ z ∈ done, key z ≠ key p := by
  rcases List.eq_nil_or_concat done with rfl | ⟨done, x, rfl⟩
  · exact fun z hz => absurd hz List.not_mem_nil
  · rw [List.concat_eq_append] at h hlast ⊢
    have hx := hlast x List.getLast?_concat
    rw [List.append_assoc, List.singleton_append] at h
    intro z hz heq
    rcases List.mem_append.mp hz with hz | hz
    · exact hx ((h.between hz List.mem_cons_self heq.symm).trans heq)
    · rw [List.mem_singleton.mp hz] at heq
      exact hx heq

/-- In a list without duplicates an element has one place. -/
theorem eq_of_split {A' B' : List ν} (hnodup : (A ++ x :: B).Nodup) (h : A ++ x :: B = A' ++ x :: B') :
    A = A' ∧ B = B' := by
  have hx := (List.nodup_cons.mp (List.nodup_middle.mp hnodup)).1
  rw [List.mem_append, not_or] at hx
  obtain ⟨hA, -, hB⟩ := (List.append_cons_inj_of_notMem hx.1 hx.2).mp h
  exact ⟨hA, hB⟩

namespace EqualsKept

variable [DecidableEq κ]

/-- A node with a new key. -/
theorem insertNew (h : EqualsKept key done (A ++ B)) (hperm : (A ++ B).Perm done)
    (hnodup : (A ++ p :: B).Nodup) (hnew : ∀ z ∈ done, key z ≠ key p)
    (hapart : ∀ z ∈ A, ∀ y ∈ B, key y ≠ key z) : EqualsKept key (done ++ [p]) (A ++ p :: B) where
  grouped := h.grouped.insertNew (fun y hy => hnew y (hperm.mem_iff.mp hy)) hapart
  order k := by
    have hold := h.order k
    rcases eq_or_ne (key p) k with rfl | hk
    · have hnil : ∀ l : List ν, (∀ z ∈ l, z ∈ done) → l.filter (key · = key p) = [] := by
        intro l hl
        rw [List.filter_eq_nil_iff]
        intro z hz
        simpa using hnew z (hl z hz)
      have hA := hnil A fun z hz => hperm.mem_iff.mp (List.mem_append_left B hz)
      have hB := hnil B fun z hz => hperm.mem_iff.mp (List.mem_append_right A hz)
      simp [List.filter_append, hA, hB, hnil done fun z hz => hz]
    · simpa [List.filter_append, List.filter_cons, hk] using hold
  behind x A' B' hx hsplit y hy := by
    rw [List.getLast?_concat] at hx
    cases hx
    obtain ⟨rfl, rfl⟩ := eq_of_split hnodup hsplit
    exact hnew y (hperm.mem_iff.mp (List.mem_append_right A hy))

/-- A node with the key of the one before, behind that one. -/
theorem insertSame (h : EqualsKept key done (A ++ x :: B)) (hlast : done.getLast? = some x)
    (hnodup : (A ++ x :: p :: B).Nodup) (hp : key p = key x) :
    EqualsKept key (done ++ [p]) (A ++ x :: p :: B) where
  grouped := h.grouped.insertAfter hp
  order k := by
    have hold := h.order k
    rcases eq_or_ne (key p) k with rfl | hk
    · have hB : B.filter (key · = key p) = [] := by
        rw [List.filter_eq_nil_iff]
        intro y hy
        simpa [hp] using h.behind x A B hlast rfl y hy
      rw [List.filter_append, List.filter_append, ← hold]
      simp [hp ▸ hB, hp]
    · simpa [List.filter_append, List.filter_cons, hk] using hold
  behind y A' B' hy hsplit z hz := by
    rw [List.getLast?_concat] at hy
    cases hy
    have hsplit' : (A ++ [x]) ++ p :: B = A' ++ p :: B' := by simpa using hsplit
    obtain ⟨-, rfl⟩ := eq_of_split (by simpa using hnodup) hsplit'
    rw [hp]
    exact h.behind x A B hlast rfl z hz

end EqualsKept

end Equals

section Multi

variable {m : MultiRehash ν} {done rest : List ν}

theorem MultiRehash.settled_same : (m.settled f).next = m.next ∧
    (m.settled f).beforeBegin = m.beforeBegin ∧ (m.settled f).bbegin = m.bbegin := by
  unfold settled settle
  split
  · split
    · exact ⟨rfl, rfl, rfl⟩
    · split
      · exact ⟨rfl, rfl, rfl⟩
      · split <;> exact ⟨rfl, rfl, rfl⟩
  · exact ⟨rfl, rfl, rfl⟩

theorem MultiRehash.settle_none {x : ν} (hprev : m.prev = some x) (hbkt : m.prevBkt = f x)
    (hsame : ∀ y, m.next x = some y → f y = f x) : m.settle f = m.toRehash := by
  unfold settle
  rw [hprev]
  dsimp only
  split
  · rfl
  next y hy => exact if_neg (not_not.mpr ((hsame y hy).trans hbkt.symm))

theorem MultiRehash.settle_some {x y : ν} (hprev : m.prev = some x) (hbkt : m.prevBkt = f x)
    (hnext : m.next x = some y) (hne : f y ≠ f x) :
    (m.settle f).buckets = Function.update m.buckets (f y) (some (some x)) := by
  unfold settle
  rw [hprev]
  dsimp only
  rw [hnext]
  dsimp only
  rw [if_pos (hbkt ▸ hne)]

variable [DecidableEq κ]

/-- The nodes of `done` have been placed. -/
structure MultiRehash.Between (f : ν → Nat) (key : ν → κ) (done rest : List ν) (m : MultiRehash ν)
    (L : List ν) : Prop where
  between : m.toRehash.Between f done rest L
  buckets : ∀ b, (m.settled f).buckets b = before f b none L
  prev : m.prev = done.getLast?
  prevBkt : ∀ x, m.prev = some x → m.prevBkt = f x
  equals : Grouped key (done ++ rest) → EqualsKept key done L

namespace MultiRehash.Between

variable [DecidableEq ν]

/-- A node of another bucket than the one before. -/
theorem place (h : m.Between f key done (p :: rest) L) (hf : ∀ x y, key x = key y → f x = f y)
    (hother : ¬(m.prev ≠ none ∧ m.prevBkt = f p)) :
    ∃ L', (m.step f p).Between f key (done ++ [p]) rest L' := by
  obtain ⟨hnext, hbegin, hbbegin⟩ := settled_same (m := m) (f := f)
  have hplaced : (m.settled f).Placed f L :=
    ⟨by rw [hnext, hbegin]; exact h.between.placed.chain, h.between.placed.nodup,
      h.between.placed.grouped, by rw [hbbegin]; exact h.between.placed.bbegin⟩
  obtain ⟨A, B, rfl, hcases, hplaced', hbuckets, hlinks⟩ :=
    Rehash.place_spec hplaced h.buckets h.between.not_mem
  have hstep : m.step f p = { m with
      toRehash := (m.settled f).place f p, prev := some p, prevBkt := f p, check := false } :=
    if_neg hother
  refine ⟨A ++ p :: B, ?_⟩
  rw [hstep]
  refine ⟨h.between.step hplaced' fun x hx hxp => ?_, hbuckets, List.getLast?_concat.symm, ?_,
    fun hgroup => ?_⟩
  · rw [← hnext]
    exact hlinks x hx hxp
  · rintro x ⟨⟩
    rfl
  · have hgroup' : Grouped key (done ++ p :: rest) := by simpa using hgroup
    have heq := h.equals hgroup'
    refine heq.insertNew h.between.perm hplaced'.nodup (fresh_key hgroup' fun x hx hkey => ?_) ?_
    · have hx' := h.prev.trans hx
      exact hother ⟨by rw [hx']; simp, (h.prevBkt x hx').trans (hf x p hkey)⟩
    · intro z hz y hy hyz
      rcases hcases with ⟨rfl, -⟩ | ⟨hA, x, hx, hxp⟩
      · cases hz
      · cases B with
        | nil => cases hx
        | cons w B =>
          have hwp : f w = f p := by
            cases hx
            exact hxp
          refine hA z hz ((hf z w ?_).trans hwp)
          rcases List.mem_cons.mp hy with rfl | hy
          · exact hyz.symm
          · exact (heq.grouped.between hz hy hyz).symm

/-- The bucket behind has the new node before it, once it is checked. -/
theorem append_buckets (h : m.Between f key done (p :: rest) (A ++ x :: B)) (hprev : m.prev = some x)
    (hpx : f p = f x) (hp : p ∉ A ++ x :: B) {m' : MultiRehash ν}
    (hlink : m'.toRehash = m.link p (some x)) (hprev' : m'.prev = some p) (hbkt' : m'.prevBkt = f p)
    (hcheck : m'.check = true) (b : Nat) :
    (m'.settled f).buckets b = before f b none (A ++ x :: p :: B) := by
  have hxp : p ≠ x := by
    rintro rfl
    exact hp (by simp)
  have hnext : m.next x = B.head? := h.between.placed.chain.next_eq
  have hnext' : m'.next p = B.head? := by
    rw [hlink]
    show Function.update (Function.update m.next p (m.next x)) x (some p) p = _
    rw [Function.update_of_ne hxp, Function.update_self, hnext]
  have hbkt := h.prevBkt x hprev
  have hold := funext h.buckets
  have hsettle : m'.settled f = m'.settle f := if_pos hcheck
  have hbuckets : m'.buckets = m.buckets := by
    rw [hlink]
    rfl
  by_cases hhead : ∀ y, B.head? = some y → f y = f x
  · have hsettled : m.settled f = m.toRehash := by
      unfold settled
      split
      · exact settle_none hprev hbkt fun y hy => hhead y (hnext.symm.trans hy)
      · rfl
    rw [before_insertAfter_same hpx hhead, ← congrFun hold b, hsettled, hsettle,
      settle_none hprev' hbkt' fun y hy => (hhead y (hnext'.symm.trans hy)).trans hpx.symm, hbuckets]
  · rw [not_forall] at hhead
    obtain ⟨y, hhead⟩ := hhead
    obtain ⟨hy, hne⟩ := Classical.not_imp.mp hhead
    rw [congrFun (before_insertAfter_last h.between.placed.grouped hpx hy hne) b, ← hold, hsettle,
      settle_some hprev' hbkt' (hnext'.trans hy) (hpx ▸ hne), hbuckets]
    unfold settled
    split
    · rw [settle_some hprev hbkt (hnext.trans hy) hne, Function.update_idem]
    · rfl

/-- A node of the bucket of the one before comes behind that one. -/
theorem append (h : m.Between f key done (p :: rest) L) {x : ν} (hprev : m.prev = some x) (hbkt : m.prevBkt = f p) :
    ∃ L', (m.step f p).Between f key (done ++ [p]) rest L' := by
  have hstep : m.step f p = { m with
      toRehash := m.link p (some x), prev := some p, prevBkt := f p, check := true } := by
    unfold step
    rw [if_pos ⟨by rw [hprev]; simp, hbkt⟩, hprev]
  have hpx : f p = f x := hbkt.symm.trans (h.prevBkt x hprev)
  have hlast : done.getLast? = some x := h.prev.symm.trans hprev
  have hx : x ∈ L := h.between.perm.mem_iff.mpr (List.mem_of_getLast? hlast)
  obtain ⟨A, B, rfl⟩ := List.append_of_mem hx
  have hp := h.between.not_mem
  have hp' := hp
  have hsplit : A ++ x :: B = (A ++ [x]) ++ B := by simp
  have hnew : A ++ x :: p :: B = (A ++ [x]) ++ p :: B := by simp
  have hplaced := h.between.placed
  have hchain := hplaced.chain
  have hbetween := h.between
  rw [hsplit] at hchain hp hbetween
  have hlink := Rehash.link_chain hchain (hsplit ▸ hplaced.nodup) hp
  rw [lastOf_concat, ← hnew] at hlink
  have hnodup : (A ++ x :: p :: B).Nodup := by
    rw [hnew]
    exact List.nodup_middle.mpr (List.nodup_cons.mpr ⟨hp, hsplit ▸ hplaced.nodup⟩)
  have hplaced' : (m.link p (some x)).Placed f (A ++ x :: p :: B) := by
    refine ⟨hlink, hnodup, hplaced.grouped.insertAfter hpx, fun y hy => ?_⟩
    refine hplaced.bbegin y ?_
    cases A with
    | nil => exact hy
    | cons a A => exact hy
  refine ⟨A ++ x :: p :: B, ?_⟩
  rw [hstep]
  refine ⟨?_, fun b => ?_, List.getLast?_concat.symm, ?_, fun hgroup => ?_⟩
  · rw [hnew] at hplaced' ⊢
    refine hbetween.step hplaced' fun y hy hyp => ?_
    have hkept := Rehash.link_other (s := m.toRehash) hy hyp
    rwa [lastOf_concat] at hkept
  · exact append_buckets h hprev hpx hp' rfl rfl rfl rfl b
  · rintro y ⟨⟩
    rfl
  · have hgroup' : Grouped key (done ++ p :: rest) := by simpa using hgroup
    have heq := h.equals hgroup'
    by_cases hkey : key p = key x
    · exact heq.insertSame hlast hnodup hkey
    · have hfresh : ∀ z ∈ done, key z ≠ key p := by
        refine fresh_key hgroup' fun y hy heq => hkey ?_
        rw [hlast] at hy
        cases hy
        exact heq.symm
      have hbehind := heq.behind x A B hlast rfl
      rw [hnew] at hnodup ⊢
      rw [hsplit] at heq
      refine heq.insertNew hbetween.perm hnodup hfresh fun z hz y hy hyz => ?_
      rcases List.mem_append.mp hz with hz | hz
      · rw [← hsplit] at heq
        exact hbehind y hy (hyz.trans (heq.grouped.between hz hy hyz).symm)
      · rw [List.mem_singleton.mp hz] at hyz
        exact hbehind y hy hyz

end MultiRehash.Between

theorem rehashAuxMulti_spec [DecidableEq ν] (h : t.Holds hash key O) (hn : 0 < n) {fuel : Nat}
    (hfuel : O.length ≤ fuel) :
    ∃ t' L, rehashAuxMulti hash key n fuel t = some (t', O) ∧ t'.bucketCount = n ∧
      t'.Holds hash key L ∧ L.Perm O ∧
      (Grouped key O → Grouped key L ∧ ∀ k, L.filter (key · = k) = O.filter (key · = k)) := by
  obtain ⟨hstart, hhead⟩ := h.start (f := bucketIndex hash key n)
  have hf : ∀ x y, key x = key y → bucketIndex hash key n x = bucketIndex hash key n y :=
    fun x y hkey => congrArg (hash.index · n) hkey
  have hloop : ∀ done p rest (m : MultiRehash ν),
      (∃ L, m.Between (bucketIndex hash key n) key done (p :: rest) L) →
      m.next p = rest.head? ∧
        ∃ L, (m.step (bucketIndex hash key n) p).Between (bucketIndex hash key n) key (done ++ [p]) rest
          L := by
    rintro done p rest m ⟨L, hbetween⟩
    refine ⟨hbetween.between.next_eq, ?_⟩
    by_cases hsame : m.prev ≠ none ∧ m.prevBkt = bucketIndex hash key n p
    · obtain ⟨x, hx⟩ := Option.ne_none_iff_exists'.mp hsame.1
      exact hbetween.append hx hsame.2
    · exact hbetween.place hf hsame
  have hfirst : MultiRehash.Between (bucketIndex hash key n) key [] O
      { startRehash t with prev := none, prevBkt := 0, check := false } [] :=
    ⟨hstart, fun _ => rfl, rfl, fun x hx => (nomatch hx), fun _ => ⟨trivial, fun _ => rfl, by simp⟩⟩
  obtain ⟨m, hm, L, hbetween⟩ := walk_spec (I := fun done rest m =>
    ∃ L, MultiRehash.Between (bucketIndex hash key n) key done rest m L) hloop ⟨[], hfirst⟩ hfuel
  obtain ⟨hnext, hbegin, hbbegin⟩ := MultiRehash.settled_same (m := m) (f := bucketIndex hash key n)
  have hplaced : (m.settled (bucketIndex hash key n)).Placed (bucketIndex hash key n) L :=
    ⟨by rw [hnext, hbegin]; exact hbetween.between.placed.chain, hbetween.between.placed.nodup,
      hbetween.between.placed.grouped, by rw [hbbegin]; exact hbetween.between.placed.bbegin⟩
  refine ⟨endRehash n (m.settled (bucketIndex hash key n)), L, ?_, rfl,
    hplaced.holds hn hbetween.buckets, hbetween.between.perm, fun hgroup => ?_⟩
  · unfold rehashAuxMulti
    rw [hhead, hm]
    rfl
  · have hequals := hbetween.equals (by simpa using hgroup)
    exact ⟨hequals.grouped, hequals.order⟩

end Multi

/-- Both overloads come to each node once and make a table of `n` buckets of them; the one for equivalent
keys keeps equivalent elements together and in their order. -/
theorem rehashAux_holds [DecidableEq ν] [DecidableEq κ] (hash : RangeHash κ) (key : ν → κ)
    {t : HashTable ν} {O : List ν} {n fuel : Nat} (h : t.Holds hash key O) (hn : 0 < n)
    (hfuel : O.length ≤ fuel) :
    (∃ t' L, rehashAuxUnique hash key n fuel t = some (t', O) ∧ t'.bucketCount = n ∧
      t'.Holds hash key L ∧ L.Perm O) ∧
    ∃ t' L, rehashAuxMulti hash key n fuel t = some (t', O) ∧ t'.bucketCount = n ∧
      t'.Holds hash key L ∧ L.Perm O ∧
      (Grouped key O → Grouped key L ∧ ∀ k, L.filter (key · = k) = O.filter (key · = k)) :=
  ⟨rehashAuxUnique_spec h hn hfuel, rehashAuxMulti_spec h hn hfuel⟩

section Halves

/-- Three nodes in one bucket, two of them with one key. -/
def oneBucket : HashTable Nat where
  bucketCount := 1
  buckets b := if b = 0 then some none else none
  beforeBegin := some 2
  next x := if x = 2 then some 3 else if x = 3 then some 4 else none

def modHash : RangeHash Nat := ⟨fun k n => k % n, fun k _ => Nat.mod_lt k⟩

theorem oneBucket_holds : oneBucket.Holds modHash (· / 2) [2, 3, 4] where
  chain := ⟨rfl, rfl, rfl, rfl⟩
  nodup := by decide
  grouped := ⟨fun _ _ _ => ⟨3, rfl, rfl⟩, fun _ _ _ => ⟨4, rfl, rfl⟩, fun _ hy => (nomatch hy), trivial⟩
  buckets b := by
    rcases Nat.eq_zero_or_pos b with rfl | hb
    · rfl
    · refine (if_neg (by omega)).trans (before_eq_none.mpr fun x _ heq => ?_).symm
      exact absurd (heq ▸ Nat.mod_lt (x / 2) Nat.one_pos : b < 1) (by omega)
  inside b hb := by
    by_contra hge
    exact hb (if_neg fun heq => hge (by rw [heq]; decide))

theorem rehashAux_holds_oneBucket :
    (∃ t' L, rehashAuxUnique modHash (· / 2) 2 3 oneBucket = some (t', [2, 3, 4]) ∧ t'.bucketCount = 2 ∧
      t'.Holds modHash (· / 2) L ∧ L.Perm [2, 3, 4]) ∧
    ∃ t' L, rehashAuxMulti modHash (· / 2) 2 3 oneBucket = some (t', [2, 3, 4]) ∧ t'.bucketCount = 2 ∧
      t'.Holds modHash (· / 2) L ∧ L.Perm [2, 3, 4] ∧
      (Grouped (· / 2) [2, 3, 4] →
        Grouped (· / 2) L ∧ ∀ k, L.filter (· / 2 = k) = [2, 3, 4].filter (· / 2 = k)) :=
  rehashAux_holds modHash (· / 2) oneBucket_holds (by decide) (by decide)

end Halves

end Rtfsc.Stl
