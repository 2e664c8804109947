import Rtfsc.Stl.HashtableSteps

/-!
# Calls of `_Hashtable`

Any calls, in any order, with allocations that may fail at any of them. After each the chain and the buckets
are those of the nodes that are in the table (`Inv`), and the call has done to them what it is for (`Effect`).
-/

namespace Rtfsc.Stl

open Rtfsc.Machine

variable {ν κ : Type} {env : HashEnv ν κ} {L L' A B : List ν} {n nElt : Nat} {p x y : ν} {k : κ}
  {throws : Bool}

namespace CountedTable

/-! ## Invariant -/

/-- The same nodes, those with one key together and in the order they were in. -/
structure Reordered [DecidableEq κ] (key : ν → κ) (L L' : List ν) : Prop where
  perm : L'.Perm L
  grouped : Grouped key L'
  order : ∀ k, L'.filter (key · = k) = L.filter (key · = k)

/-- What is true of a table of the nodes `L`, in the order of its chain. -/
structure Inv (env : HashEnv ν κ) (t : CountedTable ν) (L : List ν) : Prop where
  holds : t.Holds env.hash env.key L
  pos : 0 < t.bucketCount
  counted : t.Counted L
  keys : Grouped env.key L
  unique : env.uniqueKeys = true → (L.map env.key).Nodup
  consistent : t.counts.Consistent env.primes
  fits : t.counts.Fits env.primes

variable [DecidableEq ν] [DecidableEq κ] {t t' : CountedTable ν}

omit [DecidableEq ν] in
theorem Reordered.refl (h : Grouped env.key L) : Reordered env.key L L := ⟨.refl L, h, fun _ => rfl⟩

omit [DecidableEq ν] [DecidableEq κ] in
theorem grouped_of_nodup {key : ν → κ} (h : (L.map key).Nodup) : Grouped key L := by
  induction L with
  | nil => exact trivial
  | cons x L ih =>
    rw [List.map_cons, List.nodup_cons] at h
    exact (ih h.2).cons fun y hy heq => h.1 (List.mem_map.mpr ⟨y, hy, heq⟩)

omit [DecidableEq ν] in
/-- With unique keys any order will do. -/
theorem Reordered.of_unique {key : ν → κ} (h : (L.map key).Nodup) (hperm : L'.Perm L) :
    Reordered key L L' := by
  refine ⟨hperm, grouped_of_nodup ((hperm.map key).nodup_iff.mpr h), fun k => ?_⟩
  have hshort : (L.filter (key · = k)).length ≤ 1 := by
    rw [← List.countP_eq_length_filter]
    have hcount := List.nodup_iff_count_le_one.mp h k
    rw [List.count, List.countP_map] at hcount
    exact hcount
  have hfilter := hperm.filter (key · = k)
  match hl : L.filter (key · = k), hshort with
  | [], _ => rwa [hl, List.perm_nil] at hfilter
  | [x], _ => rwa [hl, List.perm_singleton] at hfilter

/-! ## More buckets -/

theorem rehashTo_spec (h : t.Holds env.hash env.key L) (hkeys : Grouped env.key L)
    (hunique : env.uniqueKeys = true → (L.map env.key).Nodup) (hfuel : L.length ≤ t.fuel) (hn : 0 < n)
    (savedState : Nat) :
    ∃ t' L', t.rehashTo env n savedState false = some (t', .rehashed) ∧ t'.bucketCount = n ∧
      t'.Holds env.hash env.key L' ∧ Reordered env.key L L' ∧ t'.live = t.live ∧
      t'.elementCount = t.elementCount ∧ t'.nextResize = t.nextResize := by
  unfold rehashTo
  rw [if_neg Bool.false_ne_true]
  cases hu : env.uniqueKeys with
  | true =>
    obtain ⟨table, L', hrun, hcount, hholds, hperm⟩ := rehashAuxUnique_spec h hn hfuel
    rw [if_pos rfl, hrun]
    exact ⟨_, L', rfl, hcount, hholds, .of_unique (hunique hu) hperm, rfl, rfl, rfl⟩
  | false =>
    obtain ⟨table, L', hrun, hcount, hholds, hperm, hsame⟩ := rehashAuxMulti_spec h hn hfuel
    rw [if_neg Bool.false_ne_true, hrun]
    exact ⟨_, L', rfl, hcount, hholds, ⟨hperm, (hsame hkeys).1, (hsame hkeys).2⟩, rfl, rfl, rfl⟩

omit [DecidableEq κ] [DecidableEq ν] in
theorem pos_of_next {bkt m : Nat} (hn : 0 < n) (h : n ≤ bkt ∧ m = bkt ∨ bkt = env.primes.last ∧ m = sizeMax) :
    0 < bkt := by
  have hone := env.primes.one_lt_last
  omega

/-- Before an insertion the table grows, stays as it is, or is as before when that fails. -/
theorem growFor_spec (h : t.Holds env.hash env.key L) (hpos : 0 < t.bucketCount)
    (hkeys : Grouped env.key L) (hunique : env.uniqueKeys = true → (L.map env.key).Nodup)
    (hfuel : L.length ≤ t.fuel) (hconsistent : t.counts.Consistent env.primes) (hElt : 0 < nElt) :
    t.growFor env nElt throws = some (t, .threw) ∧ throws = true ∨
    ∃ t' outcome L', t.growFor env nElt throws = some (t', outcome) ∧ outcome ≠ .threw ∧
      0 < t'.bucketCount ∧ t'.Holds env.hash env.key L' ∧ Reordered env.key L L' ∧
      (outcome = .kept → t'.toHashTable = t.toHashTable) ∧ t'.live = t.live ∧
      t'.elementCount = t.elementCount ∧
      t.counts.insertNode env.primes nElt throws =
        (⟨t'.bucketCount, t'.elementCount + 1, t'.nextResize⟩, outcome) := by
  unfold growFor HashCounts.insertNode
  have hspec := needRehash_spec hconsistent hElt rfl
  rw [show needRehash env.primes t.counts.bucketCount t.counts.elementCount nElt t.counts.nextResize =
    needRehash env.primes t.bucketCount t.elementCount nElt t.nextResize from rfl] at hspec ⊢
  generalize needRehash env.primes t.bucketCount t.elementCount nElt t.nextResize = r at hspec ⊢
  obtain ⟨⟨doRehash, bkt⟩, nextResize⟩ := r
  dsimp only at hspec ⊢
  rcases hspec with ⟨rfl, -, -⟩ | ⟨rfl, hbkt⟩
  · exact .inr ⟨{ t with nextResize := nextResize }, .kept, L, rfl, nofun, hpos, h, .refl hkeys,
      fun _ => rfl, rfl, rfl, rfl⟩
  · cases throws with
    | true => exact .inl ⟨rfl, rfl⟩
    | false =>
      have hbkt' : 0 < bkt := pos_of_next (n := t.elementCount + nElt) (m := nextResize)
        (by omega) (hbkt.imp_left fun hb => ⟨hb.1, hb.2.2⟩)
      obtain ⟨t', L', hrun, rfl, hholds, hreordered, hlive, hcount, hresize⟩ :=
        rehashTo_spec (t := { t with nextResize := nextResize }) h hkeys hunique hfuel hbkt' t.nextResize
      refine .inr ⟨t', .rehashed, L', hrun, nofun, hbkt', hholds, hreordered, nofun, hlive, hcount, ?_⟩
      rw [hcount, hresize]
      rfl

/-! ## Insertion -/

omit [DecidableEq κ] in
theorem Inv.allocated (h : t.Inv env L) (hp : p ∉ L) :
    L.length ≤ (t.allocateNode p).fuel ∧ (t.allocateNode p).deallocateNode p = t := by
  have hlive : p ∉ t.live := fun hmem => hp ((h.counted.live p).mp hmem)
  refine ⟨?_, ?_⟩
  · have hfuel := h.counted.fuel_eq h.holds.nodup
    rw [fuel, allocateNode, Finset.card_insert_of_notMem hlive]
    rw [fuel] at hfuel
    omega
  · show { t with live := (insert p t.live).erase p } = t
    rw [Finset.erase_insert hlive]

/-- The table with the new node in the chain. -/
theorem Inv.inserted (h : t.Inv env L) {table : HashTable ν} {nextResize : Nat} (throws : Bool)
    (outcome : HashOutcome) (hElt : 0 < nElt) (hreordered : Reordered env.key L (A ++ B))
    (hholds : table.Holds env.hash env.key (A ++ p :: B)) (hpos : 0 < table.bucketCount)
    (hgrouped : Grouped env.key (A ++ p :: B))
    (hunique : env.uniqueKeys = true → ∀ x ∈ L, env.key x ≠ env.key p)
    (hcounts : t.counts.insertNode env.primes nElt throws =
      (⟨table.bucketCount, t.elementCount + 1, nextResize⟩, outcome)) :
    Inv env ⟨table, t.elementCount + 1, nextResize, insert p t.live⟩ (A ++ p :: B) := by
  have hright := insertNode_right h.consistent h.fits hElt throws
    (show (HashCall.insertUnique ⟨nElt, hElt⟩ throws).coming = some nElt from rfl)
  rw [hcounts] at hright
  have hperm : (A ++ p :: B).Perm (p :: L) := List.perm_middle.trans (hreordered.perm.cons p)
  refine ⟨hholds, hpos, ⟨?_, fun x => ?_⟩, hgrouped, fun hu => ?_, hright.consistent, hright.fits⟩
  · rw [hperm.length_eq, List.length_cons, ← h.counted.count]
  · rw [hperm.mem_iff, List.mem_cons, ← h.counted.live]
    exact Finset.mem_insert
  · rw [(hperm.map env.key).nodup_iff, List.map_cons, List.nodup_cons]
    refine ⟨fun hmem => ?_, h.unique hu⟩
    obtain ⟨x, hx, heq⟩ := List.mem_map.mp hmem
    exact hunique hu x hx heq

omit [DecidableEq ν] [DecidableEq κ] in
/-- A node with a new key comes to the beginning of its bucket. -/
theorem grouped_insertBegin {f : ν → Nat} (hf : ∀ x y, env.key x = env.key y → f x = f y)
    (hkeys : Grouped env.key (A ++ B)) (hnew : ∀ x ∈ A ++ B, env.key x ≠ env.key p)
    (hwhere : A = [] ∨ (∀ a ∈ A, f a ≠ f p) ∧ ∃ x, B.head? = some x ∧ f x = f p) :
    Grouped env.key (A ++ p :: B) := by
  refine hkeys.insertNew hnew fun z hz y hy heq => ?_
  rcases hwhere with rfl | ⟨hA, x, hx, hxp⟩
  · cases hz
  obtain ⟨C, rfl⟩ : ∃ C, B = x :: C := ⟨B.tail, List.eq_cons_of_mem_head? hx⟩
  refine hA z hz ((hf z x ?_).trans hxp)
  rcases List.mem_cons.mp hy with rfl | hy
  · exact heq.symm
  · exact (hkeys.between hz hy heq).symm

/-- How an insertion ends that does not find its key, or does not look for it. -/
def Inserts (env : HashEnv ν κ) (t' : CountedTable ν) (L : List ν) (p : ν) (hint : Option ν) : Prop :=
  ∃ A B, Reordered env.key L (A ++ B) ∧ t'.Inv env (A ++ p :: B) ∧
    ∀ h, hint = some h → env.key h = env.key p → A.getLast? = some h

theorem insertUniqueNode_spec (h : t.Inv env L) (hp : p ∉ L) (hnew : ∀ x ∈ L, env.key x ≠ env.key p)
    (hElt : 0 < nElt) :
    (t.allocateNode p).insertUniqueNode env (env.bucket t.toHashTable p) p nElt throws = some (t, false) ∧
        throws = true ∨
      ∃ t', (t.allocateNode p).insertUniqueNode env (env.bucket t.toHashTable p) p nElt throws =
        some (t', true) ∧ t'.Inserts env L p none := by
  obtain ⟨hfuel, hback⟩ := h.allocated hp
  unfold insertUniqueNode
  rcases growFor_spec (t := t.allocateNode p) h.holds h.pos h.keys
      h.unique hfuel h.consistent hElt with
    ⟨hgrow, hthrows⟩ | ⟨t₁, outcome, L₁, hgrow, hne, hpos, hholds, hreordered, hkept, hlive, hcount, hcounts⟩
  · rw [hgrow]
    refine .inl ⟨Eq.trans (b := some ((t.allocateNode p).deallocateNode p, false)) rfl ?_, hthrows⟩
    rw [hback]
  · have hbkt : (if outcome = .rehashed then env.bucket t₁.toHashTable p else env.bucket t.toHashTable p) =
        env.bucket t₁.toHashTable p := by
      cases outcome with
      | kept =>
        rw [hkept rfl]
        rfl
      | rehashed => rfl
      | threw => exact absurd rfl hne
    have hp₁ : p ∉ L₁ := fun hmem => hp (hreordered.perm.mem_iff.mp hmem)
    obtain ⟨A, B, rfl, hwhere, hplaced⟩ := HashTable.insertBucketBegin_holds hholds hpos hp₁
    have hnew₁ : ∀ x ∈ A ++ B, env.key x ≠ env.key p :=
      fun x hx => hnew x (hreordered.perm.mem_iff.mp hx)
    have hgrouped := grouped_insertBegin (f := env.bucket t₁.toHashTable)
      (fun x y hxy => HashTable.bucket_of_key hxy) hreordered.grouped hnew₁ (hwhere.imp_left And.left)
    refine .inr ⟨⟨t₁.insertBucketBegin env (env.bucket t₁.toHashTable p) p, t.elementCount + 1,
      t₁.nextResize, insert p t.live⟩, ?_, A, B, hreordered, ?_, nofun⟩
    · rw [hgrow]
      refine (if_neg hne).trans ?_
      rw [hbkt, hlive, hcount]
      rfl
    · refine h.inserted throws outcome hElt hreordered hplaced ?_ hgrouped (fun _ => hnew) ?_
      · rwa [HashTable.insertBucketBegin_bucketCount]
      · rw [HashTable.insertBucketBegin_bucketCount, ← show t₁.elementCount = t.elementCount from hcount]
        exact hcounts

/-- Where a node comes in among equivalent ones. -/
theorem placeMulti_spec (h : t.Holds env.hash env.key L) (hpos : 0 < t.bucketCount)
    (hkeys : Grouped env.key L) (hp : p ∉ L) {hint : Option ν} (hhint : ∀ x, hint = some x → x ∈ L)
    (hfuel : L.length ≤ t.fuel) :
    ∃ prev A B, L = A ++ B ∧
      t.hintOrBefore env hint (env.bucket t.toHashTable p) (env.key p) = some prev ∧
      (placeMulti env t.toHashTable hint (env.bucket t.toHashTable p) p prev).Holds env.hash env.key
        (A ++ p :: B) ∧
      (placeMulti env t.toHashTable hint (env.bucket t.toHashTable p) p prev).bucketCount = t.bucketCount ∧
      Grouped env.key (A ++ p :: B) ∧
      ∀ x, hint = some x → env.key x = env.key p → A.getLast? = some x := by
  by_cases hequal : ∃ x, hint = some x ∧ env.key x = env.key p
  · obtain ⟨x, rfl, hx⟩ := hequal
    obtain ⟨A, B, rfl⟩ := List.append_of_mem (hhint x rfl)
    refine ⟨some (some x), A ++ [x], B, by simp, if_pos hx, ?_, ?_, ?_, ?_⟩
    · have hbehind := HashTable.linkBehind_holds h hpos hp hx.symm
      rw [placeMulti, if_pos ⟨Option.some_ne_none x, rfl⟩]
      simpa using hbehind
    · rw [placeMulti, if_pos ⟨Option.some_ne_none x, rfl⟩]
      exact (HashTable.updateNextBucket_bucketCount _).trans (HashTable.linkBehind_bucketCount _ _)
    · simpa using hkeys.insertAfter hx.symm
    · rintro y ⟨⟩ -
      exact List.getLast?_concat
  have hnot : ∀ {A : List ν} x, hint = some x → env.key x = env.key p → A.getLast? = some x :=
    fun x hx heq => absurd ⟨x, hx, heq⟩ hequal
  have hfind : t.hintOrBefore env hint (env.bucket t.toHashTable p) (env.key p) =
      t.findBeforeNode env t.fuel (env.bucket t.toHashTable p) (env.key p) := by
    unfold hintOrBefore
    cases hint with
    | none => rfl
    | some x => exact if_neg fun heq => hequal ⟨x, rfl, heq⟩
  rw [hfind]
  rcases HashTable.findBeforeNode_spec (k := env.key p) (n := env.bucket t.toHashTable p) h rfl hfuel with
    ⟨A, x, B, rfl, hx, -, hbefore⟩ | ⟨hall, hbefore⟩
  · have hnext : (t.linkBehind (lastOf none A) p).next p = some x :=
      (HashTable.linkBefore_holds h hpos hp hx.symm).chain.next_eq
    have hplace : placeMulti env t.toHashTable hint (env.bucket t.toHashTable p) p (some (lastOf none A)) =
        t.linkBehind (lastOf none A) p := by
      rw [placeMulti]
      split
      · exact HashTable.updateNextBucket_same hnext hx
      · rfl
    refine ⟨some (lastOf none A), A, x :: B, rfl, hbefore, ?_, ?_, hkeys.insertBefore hx.symm, hnot⟩
    · rw [hplace]
      exact HashTable.linkBefore_holds h hpos hp hx.symm
    · rw [hplace]
      exact HashTable.linkBehind_bucketCount _ _
  · obtain ⟨A, B, rfl, hwhere, hplaced⟩ := HashTable.insertBucketBegin_holds h hpos hp
    exact ⟨none, A, B, rfl, hbefore, hplaced, HashTable.insertBucketBegin_bucketCount _,
      grouped_insertBegin (fun x y hxy => HashTable.bucket_of_key hxy) hkeys hall
        (hwhere.imp_left And.left), hnot⟩

theorem insertMultiNode_spec (h : t.Inv env L) (hmulti : env.uniqueKeys = false) (hp : p ∉ L)
    {hint : Option ν} (hhint : ∀ x, hint = some x → x ∈ L) :
    (t.allocateNode p).insertMultiNode env hint p throws = some (t, false) ∧ throws = true ∨
      ∃ t', (t.allocateNode p).insertMultiNode env hint p throws = some (t', true) ∧
        t'.Inserts env L p hint := by
  obtain ⟨hfuel, hback⟩ := h.allocated hp
  unfold insertMultiNode
  rcases growFor_spec (t := t.allocateNode p) h.holds h.pos h.keys
      h.unique hfuel h.consistent Nat.one_pos with
    ⟨hgrow, hthrows⟩ | ⟨t₁, outcome, L₁, hgrow, hne, hpos, hholds, hreordered, -, hlive, hcount, hcounts⟩
  · rw [hgrow]
    refine .inl ⟨Eq.trans (b := some ((t.allocateNode p).deallocateNode p, false)) rfl ?_, hthrows⟩
    rw [hback]
  have hfuel₁ : L₁.length ≤ t₁.fuel := by
    rw [hreordered.perm.length_eq]
    rw [fuel, ← hlive] at hfuel
    exact hfuel
  obtain ⟨prev, A, B, rfl, hprev, hplaced, hcount', hgrouped, hbehind⟩ :=
    placeMulti_spec hholds hpos hreordered.grouped (fun hmem => hp (hreordered.perm.mem_iff.mp hmem))
      (fun x hx => hreordered.perm.mem_iff.mpr (hhint x hx)) hfuel₁
  refine .inr ⟨⟨placeMulti env t₁.toHashTable hint (env.bucket t₁.toHashTable p) p prev, t.elementCount + 1,
    t₁.nextResize, insert p t.live⟩, ?_, A, B, hreordered, ?_, hbehind⟩
  · rw [hgrow]
    refine (if_neg hne).trans ?_
    rw [hprev, hlive, hcount]
    rfl
  · refine h.inserted throws outcome Nat.one_pos hreordered hplaced ?_ hgrouped
      (fun hu => absurd (hmulti.symm.trans hu) Bool.false_ne_true) ?_
    · rwa [hcount']
    · rw [hcount', ← show t₁.elementCount = t.elementCount from hcount]
      exact hcounts

/-! ## The other calls -/

omit [DecidableEq ν] [DecidableEq κ] in
/-- Some of the nodes have gone, and the buckets are as many as before. -/
theorem Inv.shrunk (h : t.Inv env L) (hsub : L'.Sublist L) (hleft : Leaves env t t' L') : t'.Inv env L' := by
  obtain ⟨hholds, hcounted, hcount, hresize⟩ := hleft
  refine ⟨hholds, hcount ▸ h.pos, hcounted, h.keys.sublist hsub,
    fun hu => (hsub.map env.key).nodup (h.unique hu), ?_, ?_⟩
  · have hconsistent := h.consistent
    unfold HashCounts.Consistent counts at hconsistent ⊢
    rwa [hcount, hresize]
  · have hlength := hsub.length_le
    have hfits := h.fits
    unfold HashCounts.Fits counts at hfits ⊢
    rw [hcount, hcounted.count]
    rw [h.counted.count] at hfits
    exact hfits.imp_left fun hle => hlength.trans hle

omit [DecidableEq κ] in
theorem deallocateNodes_spec {next : Option ν} (h : Links t.next next L) {fuel : Nat}
    (hfuel : L.length ≤ fuel) :
    ∃ live, deallocateNodes fuel t next = some { t with live := live } ∧
      ∀ x, x ∈ live ↔ x ∈ t.live ∧ x ∉ L := by
  induction L generalizing t next fuel with
  | nil =>
    cases (show next = none from h)
    refine ⟨t.live, ?_, by simp⟩
    cases fuel <;> rfl
  | cons n L ih =>
    obtain ⟨fuel, rfl⟩ : ∃ m, fuel = m + 1 := ⟨fuel - 1, by simp at hfuel; omega⟩
    obtain ⟨rfl, hrest⟩ := h
    obtain ⟨live, hrun, hlive⟩ := ih (t := t.deallocateNode n) hrest (Nat.le_of_succ_le_succ hfuel)
    refine ⟨live, hrun, fun x => ?_⟩
    rw [hlive, List.mem_cons, not_or]
    show x ∈ t.live.erase n ∧ _ ↔ _
    rw [Finset.mem_erase]
    tauto

omit [DecidableEq κ] in
theorem clear_spec (h : t.Inv env L) : ∃ t', t.clear = some t' ∧ t'.Inv env [] := by
  obtain ⟨live, hrun, hlive⟩ := deallocateNodes_spec h.holds.chain
    (show L.length ≤ t.fuel from h.counted.fuel_eq h.holds.nodup ▸ Nat.le_succ _)
  refine ⟨{ t with
    buckets := fun b => if b < t.bucketCount then none else t.buckets b
    elementCount := 0
    beforeBegin := none
    live := live }, ?_, ?_⟩
  · unfold clear
    rw [hrun]
    rfl
  · have hempty : ∀ b, (if b < t.bucketCount then none else t.buckets b) = none := by
      intro b
      split
      · rfl
      next hge =>
        by_contra hne
        exact hge (h.holds.inside b hne)
    refine h.shrunk (List.nil_sublist L)
      ⟨⟨rfl, List.nodup_nil, trivial, hempty, fun b hne => absurd (hempty b) hne⟩, ⟨rfl, fun x => ?_⟩, rfl, rfl⟩
    rw [hlive, h.counted.live]
    simp

theorem rehash_spec (h : t.Inv env L) (n : Nat) (throws : Bool) :
    t.rehash env n throws = some (t, .threw) ∧ throws = true ∨
      ∃ t' outcome L', t.rehash env n throws = some (t', outcome) ∧ outcome ≠ .threw ∧ t'.Inv env L' ∧
        Reordered env.key L L' := by
  have hright := rehash_right h.consistent h.fits n throws
  have hall : 0 < max (bktForElements (t.elementCount + 1)) n :=
    Nat.lt_of_lt_of_le (Nat.succ_pos _) ((Nat.le_of_eq (Nat.div_one _).symm).trans (Nat.le_max_left _ n))
  have hbkt := nextBkt_spec env.primes hall t.nextResize
  unfold rehash
  unfold HashCounts.rehash at hright
  dsimp only at hright ⊢
  rw [show nextBkt env.primes (max (bktForElements (t.counts.elementCount + 1)) n) t.counts.nextResize =
    nextBkt env.primes (max (bktForElements (t.elementCount + 1)) n) t.nextResize from rfl] at hright
  generalize max (bktForElements (t.elementCount + 1)) n = wanted at hall hbkt hright ⊢
  generalize nextBkt env.primes wanted t.nextResize = r at hbkt hright ⊢
  obtain ⟨bkt, nextResize⟩ := r
  dsimp only at hbkt hright ⊢
  by_cases hne : bkt ≠ t.bucketCount
  · rw [if_pos hne]
    rw [if_pos (show bkt ≠ t.counts.bucketCount from hne)] at hright
    cases throws with
    | true => exact .inl ⟨rfl, rfl⟩
    | false =>
      obtain ⟨t', L', hrun, rfl, hholds, hreordered, hlive, hcount, hresize⟩ :=
        rehashTo_spec (t := { t with nextResize := nextResize }) h.holds h.keys h.unique
          (by show _ ≤ t.fuel; rw [h.counted.fuel_eq h.holds.nodup]; omega)
          (pos_of_next hall hbkt) t.nextResize
      have hcounts : t'.counts = ⟨t'.bucketCount, t.elementCount, nextResize⟩ := by
        rw [counts, hcount, hresize]
      refine .inr ⟨t', .rehashed, L', hrun, nofun, ⟨hholds, pos_of_next hall hbkt,
        ⟨?_, fun x => ?_⟩, hreordered.grouped, fun hu => ?_, ?_, ?_⟩, hreordered⟩
      · rw [hcount, hreordered.perm.length_eq]
        exact h.counted.count
      · rw [hlive, hreordered.perm.mem_iff]
        exact h.counted.live x
      · exact ((hreordered.perm.map env.key).nodup_iff).mpr (h.unique hu)
      · rw [hcounts]
        exact hright.consistent
      · rw [hcounts]
        exact hright.fits
  · rw [if_neg hne]
    exact .inr ⟨t, .kept, L, rfl, nofun, h, .refl h.keys⟩

/-- The nodes in the order of the chain. -/
def nodesFrom (next : ν → Option ν) : Nat → Option ν → List ν
  | 0, _ => []
  | _ + 1, none => []
  | fuel + 1, some x => x :: nodesFrom next fuel (next x)

def nodes (t : CountedTable ν) : List ν := nodesFrom t.next t.elementCount t.beforeBegin

omit [DecidableEq ν] in
theorem nodesFrom_eq {next : ν → Option ν} {head : Option ν} (h : Links next head L) :
    nodesFrom next L.length head = L := by
  induction L generalizing head with
  | nil => rfl
  | cons x L ih =>
    obtain ⟨rfl, hrest⟩ := h
    rw [List.length_cons, nodesFrom, ih hrest]

omit [DecidableEq κ] [DecidableEq ν] in
theorem Inv.nodes_eq (h : t.Inv env L) : t.nodes = L := by
  rw [nodes, h.counted.count]
  exact nodesFrom_eq h.holds.chain

end CountedTable

/-! ## Runs -/

/-- A call, with what its allocations give: the new node, and whether new buckets are to be had. -/
inductive TableCall (ν κ : Type)
  | insertUnique (k : κ) (node : Option ν) (nElt : { n : Nat // 0 < n }) (throws : Bool)
  | emplaceUnique (node : Option ν) (throws : Bool)
  | insertMulti (hint node : Option ν) (throws : Bool)
  | erase (n : ν)
  | eraseKey (k : κ)
  | eraseRange (first last : Option ν)
  | clear
  | rehash (n : Nat) (throws : Bool)
  | find (k : κ)

inductive TableResult (ν : Type)
  | insertion (r : InsertResult ν)
  | iterator (it : Option ν)
  | count (n : Nat)
  | void (outcome : HashOutcome)

namespace TableCall

variable [DecidableEq κ]

/-- What a call may be given: nodes that are not in the table yet, iterators into it. -/
def Legal (env : HashEnv ν κ) (L : List ν) : TableCall ν κ → Prop
  | .insertUnique k node _ _ => env.uniqueKeys = true ∧ ∀ p, node = some p → p ∉ L ∧ env.key p = k
  | .emplaceUnique node _ => env.uniqueKeys = true ∧ ∀ p, node = some p → p ∉ L
  | .insertMulti hint node _ =>
    env.uniqueKeys = false ∧ (∀ x, hint = some x → x ∈ L) ∧ ∀ p, node = some p → p ∉ L
  | .erase n => n ∈ L
  | .eraseRange first last => ∃ A M B, L = A ++ (M ++ B) ∧ first = (M ++ B).head? ∧ last = B.head?
  | .eraseKey _ => True
  | .clear => True
  | .rehash _ _ => True
  | .find _ => True

/-- A node comes in, and the others stay in their groups and the order there. -/
def Comes (key : ν → κ) (L L' : List ν) (p : ν) (hint : Option ν) : Prop :=
  ∃ A B, CountedTable.Reordered key L (A ++ B) ∧ L' = A ++ p :: B ∧
    ∀ x, hint = some x → key x = key p → A.getLast? = some x

/-- What a call is for: the nodes before and after, and what it returns. -/
def Effect (env : HashEnv ν κ) (L L' : List ν) : TableCall ν κ → TableResult ν → Prop
  | .insertUnique k node _ throws, r =>
    (∃ x ∈ L, env.key x = k ∧ L' = L ∧ r = .insertion (.present x)) ∨
    (∀ x ∈ L, env.key x ≠ k) ∧
      ((∃ p, node = some p ∧ Comes env.key L L' p none ∧ r = .insertion (.inserted p)) ∨
        (node = none ∨ throws = true) ∧ L' = L ∧ r = .insertion .threw)
  | .emplaceUnique node throws, r =>
    (∃ p x, node = some p ∧ x ∈ L ∧ env.key x = env.key p ∧ L' = L ∧ r = .insertion (.present x)) ∨
    (∃ p, node = some p ∧ (∀ x ∈ L, env.key x ≠ env.key p) ∧ Comes env.key L L' p none ∧
      r = .insertion (.inserted p)) ∨
    (node = none ∨ throws = true) ∧ L' = L ∧ r = .insertion .threw
  | .insertMulti hint node throws, r =>
    (∃ p, node = some p ∧ Comes env.key L L' p hint ∧ r = .insertion (.inserted p)) ∨
      (node = none ∨ throws = true) ∧ L' = L ∧ r = .insertion .threw
  | .erase n, r => ∃ A B, L = A ++ n :: B ∧ L' = A ++ B ∧ r = .iterator B.head?
  | .eraseKey k, r => L' = L.filter (env.key · ≠ k) ∧ r = .count (L.countP (env.key · = k))
  | .eraseRange first last, r =>
    ∃ A M B, L = A ++ (M ++ B) ∧ first = (M ++ B).head? ∧ last = B.head? ∧ L' = A ++ B ∧ r = .iterator last
  | .clear, r => L' = [] ∧ r = .void .kept
  | .rehash _ throws, r =>
    CountedTable.Reordered env.key L L' ∧ ∃ outcome, r = .void outcome ∧
      (outcome = .threw → throws = true ∧ L' = L)
  | .find k, r => L' = L ∧ r = .iterator (L.find? (env.key · = k))

variable [DecidableEq ν]

def run (env : HashEnv ν κ) (t : CountedTable ν) : TableCall ν κ → Option (CountedTable ν × TableResult ν)
  | .insertUnique k node nElt throws =>
    (t.insertUnique env k node nElt throws).map (Prod.map id .insertion)
  | .emplaceUnique node throws => (t.emplaceUnique env node throws).map (Prod.map id .insertion)
  | .insertMulti hint node throws => (t.insertMulti env hint node throws).map (Prod.map id .insertion)
  | .erase n => (t.erase env n).map (Prod.map id .iterator)
  | .eraseKey k =>
    (if env.uniqueKeys then t.eraseKeyUnique env k else t.eraseKeyMulti env k).map (Prod.map id .count)
  | .eraseRange first last => (t.eraseRange env first last).map (Prod.map id .iterator)
  | .clear => t.clear.map (·, .void .kept)
  | .rehash n throws => (t.rehash env n throws).map (Prod.map id .void)
  | .find k => (t.find env k).map (t, .iterator ·)

end TableCall

open CountedTable

/-- The tables that calls lead to from a constructor on. -/
inductive CountedTable.Reached [DecidableEq ν] [DecidableEq κ] (env : HashEnv ν κ) : CountedTable ν → Prop
  | construct (bucketHint : Nat) : Reached env (.construct env bucketHint)
  | call {t t' : CountedTable ν} {r : TableResult ν} (call : TableCall ν κ) (h : Reached env t)
      (hlegal : call.Legal env t.nodes) (hrun : call.run env t = some (t', r)) : Reached env t'

variable [DecidableEq ν] [DecidableEq κ] {t t' : CountedTable ν}

omit [DecidableEq ν] [DecidableEq κ] in
theorem CountedTable.construct_inv (env : HashEnv ν κ) (bucketHint : Nat) :
    (CountedTable.construct env bucketHint).Inv env [] := by
  obtain ⟨hconsistent, hfits⟩ := construct_right env.primes bucketHint
  refine ⟨⟨rfl, List.nodup_nil, trivial, fun _ => rfl, fun _ hne => absurd rfl hne⟩, ?_,
    ⟨rfl, fun x => by simp [construct]⟩, trivial, fun _ => List.nodup_nil, hconsistent, hfits⟩
  show 0 < (HashCounts.construct env.primes bucketHint).bucketCount
  unfold HashCounts.construct
  dsimp only
  split <;> omega

omit [DecidableEq ν] in
theorem CountedTable.Inv.findNode (h : t.Inv env L) {fuel : Nat} (hfuel : L.length ≤ fuel) (k : κ) :
    t.findNode env fuel (env.hash.index k t.bucketCount) k = some (L.find? (env.key · = k)) :=
  HashTable.findNode_spec h.holds rfl hfuel

omit [DecidableEq κ] in
theorem CountedTable.Inv.le_fuel (h : t.Inv env L) : L.length ≤ t.fuel := by
  rw [h.counted.fuel_eq h.holds.nodup]
  exact Nat.le_succ _

theorem insertUnique_right (h : t.Inv env L) {node : Option ν}
    (hnode : ∀ p, node = some p → p ∉ L ∧ env.key p = k) (nElt : { n : Nat // 0 < n }) :
    ∃ t' L' r, t.insertUnique env k node nElt throws = some (t', r) ∧ t'.Inv env L' ∧
      (TableCall.insertUnique k node nElt throws).Effect env L L' (.insertion r) := by
  unfold CountedTable.insertUnique
  dsimp only
  rw [h.findNode h.le_fuel]
  cases hfind : L.find? (env.key · = k) with
  | some x =>
    refine ⟨t, L, _, rfl, h, .inl ⟨x, List.mem_of_find?_eq_some hfind, ?_, rfl, rfl⟩⟩
    simpa using List.find?_some hfind
  | none =>
    have hnew : ∀ x ∈ L, env.key x ≠ k := by simpa using List.find?_eq_none.mp hfind
    cases node with
    | none => exact ⟨t, L, _, rfl, h, .inr ⟨hnew, .inr ⟨.inl rfl, rfl, rfl⟩⟩⟩
    | some p =>
      obtain ⟨hp, rfl⟩ := hnode p rfl
      simp only [Option.bind_eq_bind, Option.bind_some]
      rcases insertUniqueNode_spec h hp hnew nElt.2 with
        ⟨hrun, hthrows⟩ | ⟨t', hrun, A, B, hreordered, hinv, hhint⟩
      · refine ⟨t, L, .threw, ?_, h, .inr ⟨hnew, .inr ⟨.inr hthrows, rfl, rfl⟩⟩⟩
        exact congrArg (fun o => o >>= _) hrun
      · refine ⟨t', A ++ p :: B, .inserted p, ?_, hinv,
          .inr ⟨hnew, .inl ⟨p, rfl, ⟨A, B, hreordered, rfl, hhint⟩, rfl⟩⟩⟩
        exact congrArg (fun o => o >>= _) hrun

theorem emplaceUnique_right (h : t.Inv env L) {node : Option ν}
    (hnode : ∀ p, node = some p → p ∉ L) :
    ∃ t' L' r, t.emplaceUnique env node throws = some (t', r) ∧ t'.Inv env L' ∧
      (TableCall.emplaceUnique node throws).Effect env L L' (.insertion r) := by
  unfold CountedTable.emplaceUnique
  cases node with
  | none => exact ⟨t, L, _, rfl, h, .inr (.inr ⟨.inl rfl, rfl, rfl⟩)⟩
  | some p =>
    have hp := hnode p rfl
    obtain ⟨hfuel, hback⟩ := h.allocated hp
    have hfound : (t.allocateNode p).findNode env (t.allocateNode p).fuel
        (env.bucket (t.allocateNode p).toHashTable p) (env.key p) = some (L.find? (env.key · = env.key p)) :=
      h.findNode hfuel (env.key p)
    dsimp only
    rw [hfound]
    cases hfind : L.find? (env.key · = env.key p) with
    | some x =>
      refine ⟨t, L, _, ?_, h, .inl ⟨p, x, rfl, List.mem_of_find?_eq_some hfind, ?_, rfl, rfl⟩⟩
      · exact congrArg (fun t => some (t, InsertResult.present x)) hback
      · simpa using List.find?_some hfind
    | none =>
      have hnew : ∀ x ∈ L, env.key x ≠ env.key p := by simpa using List.find?_eq_none.mp hfind
      simp only [Option.bind_eq_bind, Option.bind_some]
      rcases insertUniqueNode_spec h hp hnew Nat.one_pos with
        ⟨hrun, hthrows⟩ | ⟨t', hrun, A, B, hreordered, hinv, hhint⟩
      · refine ⟨t, L, .threw, ?_, h, .inr (.inr ⟨.inr hthrows, rfl, rfl⟩)⟩
        exact congrArg (fun o => o >>= _) hrun
      · refine ⟨t', A ++ p :: B, .inserted p, ?_, hinv,
          .inr (.inl ⟨p, rfl, hnew, ⟨A, B, hreordered, rfl, hhint⟩, rfl⟩)⟩
        exact congrArg (fun o => o >>= _) hrun

theorem insertMulti_right (h : t.Inv env L) (hu : env.uniqueKeys = false) {hint node : Option ν}
    (hhint : ∀ x, hint = some x → x ∈ L) (hnode : ∀ p, node = some p → p ∉ L) :
    ∃ t' L' r, t.insertMulti env hint node throws = some (t', r) ∧ t'.Inv env L' ∧
      (TableCall.insertMulti hint node throws).Effect env L L' (.insertion r) := by
  unfold CountedTable.insertMulti
  cases node with
  | none => exact ⟨t, L, _, rfl, h, .inr ⟨.inl rfl, rfl, rfl⟩⟩
  | some p =>
    rcases insertMultiNode_spec h hu (hnode p rfl) hhint with
      ⟨hrun, hthrows⟩ | ⟨t', hrun, A, B, hreordered, hinv, hbehind⟩
    · refine ⟨t, L, .threw, ?_, h, .inr ⟨.inr hthrows, rfl, rfl⟩⟩
      exact congrArg (fun o => o >>= _) hrun
    · refine ⟨t', A ++ p :: B, .inserted p, ?_, hinv,
        .inl ⟨p, rfl, ⟨A, B, hreordered, rfl, hbehind⟩, rfl⟩⟩
      exact congrArg (fun o => o >>= _) hrun

theorem erase_right (h : t.Inv env L) (hx : x ∈ L) :
    ∃ t' L' r, t.erase env x = some (t', r) ∧ t'.Inv env L' ∧
      (TableCall.erase x).Effect env L L' (.iterator r) := by
  obtain ⟨A, B, rfl⟩ := List.append_of_mem hx
  obtain ⟨t', hrun, hleft⟩ := eraseNode_spec h.holds h.pos h.counted
  have hsub : (A ++ B).Sublist (A ++ x :: B) := (List.sublist_cons_self x B).append_left A
  refine ⟨t', A ++ B, B.head?, ?_, h.shrunk hsub hleft, A, B, rfl, rfl, rfl⟩
  unfold CountedTable.erase
  dsimp only
  rw [HashTable.getPreviousNode_spec h.holds h.le_fuel]
  exact congrArg some hrun

theorem TableCall.run_right (call : TableCall ν κ) (h : t.Inv env L) (hlegal : call.Legal env L) :
    ∃ t' L' r, call.run env t = some (t', r) ∧ t'.Inv env L' ∧ call.Effect env L L' r := by
  cases call with
  | insertUnique k node nElt throws =>
    obtain ⟨t', L', r, hrun, hright⟩ := insertUnique_right h hlegal.2 nElt
    exact ⟨t', L', _, congrArg (Option.map _) hrun, hright⟩
  | emplaceUnique node throws =>
    obtain ⟨t', L', r, hrun, hright⟩ := emplaceUnique_right h hlegal.2
    exact ⟨t', L', _, congrArg (Option.map _) hrun, hright⟩
  | insertMulti hint node throws =>
    obtain ⟨t', L', r, hrun, hright⟩ := insertMulti_right h hlegal.1 hlegal.2.1 hlegal.2.2
    exact ⟨t', L', _, congrArg (Option.map _) hrun, hright⟩
  | erase n =>
    obtain ⟨t', L', r, hrun, hright⟩ := erase_right h hlegal
    exact ⟨t', L', _, congrArg (Option.map _) hrun, hright⟩
  | eraseKey k =>
    have hboth : ∃ t', (if env.uniqueKeys then t.eraseKeyUnique env k else t.eraseKeyMulti env k) =
          some (t', L.countP (env.key · = k)) ∧ Leaves env t t' (L.filter (env.key · ≠ k)) := by
      cases hu : env.uniqueKeys with
      | true => exact eraseKeyUnique_spec h.holds h.pos h.counted (h.unique hu) k
      | false => exact eraseKeyMulti_spec h.holds h.pos h.counted h.keys k
    obtain ⟨t', hrun, hleft⟩ := hboth
    exact ⟨t', _, _, congrArg (Option.map _) hrun, h.shrunk List.filter_sublist hleft, rfl, rfl⟩
  | eraseRange first last =>
    obtain ⟨A, M, B, rfl, rfl, rfl⟩ := hlegal
    obtain ⟨t', hrun, hleft⟩ := eraseRange_spec h.holds h.pos h.counted
    have hsub : (A ++ B).Sublist (A ++ (M ++ B)) := (List.sublist_append_right M B).append_left A
    exact ⟨t', A ++ B, .iterator B.head?, congrArg (Option.map _) hrun, h.shrunk hsub hleft, A, M, B, rfl, rfl,
      rfl, rfl, rfl⟩
  | clear =>
    obtain ⟨t', hrun, hinv⟩ := clear_spec h
    exact ⟨t', [], _, congrArg (Option.map _) hrun, hinv, rfl, rfl⟩
  | rehash n throws =>
    rcases rehash_spec h n throws with ⟨hrun, hthrows⟩ | ⟨t', outcome, L', hrun, hne, hinv, hreordered⟩
    · exact ⟨t, L, _, congrArg (Option.map _) hrun, h, .refl h.keys, _, rfl, fun _ => ⟨hthrows, rfl⟩⟩
    · exact ⟨t', L', _, congrArg (Option.map _) hrun, hinv, hreordered, _, rfl, fun heq => absurd heq hne⟩
  | find k =>
    refine ⟨t, L, _, ?_, h, rfl, rfl⟩
    exact congrArg (Option.map _) (h.findNode h.le_fuel k)

theorem CountedTable.Reached.inv (h : t.Reached env) : t.Inv env t.nodes := by
  induction h with
  | construct bucketHint =>
    have hempty := construct_inv env bucketHint
    rwa [hempty.nodes_eq]
  | call call _ hlegal hrun ih =>
    obtain ⟨t', L', r, hrun', hinv, -⟩ := call.run_right ih hlegal
    cases hrun.symm.trans hrun'
    rwa [hinv.nodes_eq]

/-- After any calls the table is right, and the next call does what it is for. -/
theorem hashtable_calls_right (h : t.Reached env) (call : TableCall ν κ) (hlegal : call.Legal env t.nodes) :
    t.Inv env t.nodes ∧ ∃ t' r, call.run env t = some (t', r) ∧ t'.Inv env t'.nodes ∧
      call.Effect env t.nodes t'.nodes r := by
  obtain ⟨t', L', r, hrun, hinv, heffect⟩ := call.run_right h.inv hlegal
  cases hinv.nodes_eq
  exact ⟨h.inv, t', r, hrun, hinv, heffect⟩

/-- Numbers as nodes, with the half of a number for its key. -/
def halvesEnv : HashEnv Nat Nat where
  hash := modHash
  key := (· / 2)
  primes := ⟨[2, 3, 5, 7, 11, 13, 17, 19], by decide, by decide, by decide⟩
  uniqueKeys := true

theorem hashtable_calls_right_first :
    ∃ t' r, (TableCall.insertUnique 3 (some 7) ⟨1, Nat.one_pos⟩ false).run halvesEnv (.construct halvesEnv 0) =
        some (t', r) ∧ t'.Inv halvesEnv t'.nodes ∧
      (TableCall.insertUnique 3 (some 7) ⟨1, Nat.one_pos⟩ false).Effect halvesEnv [] t'.nodes r :=
  (hashtable_calls_right (.construct 0) (.insertUnique 3 (some 7) ⟨1, Nat.one_pos⟩ false)
    ⟨rfl, by rintro p ⟨⟩; exact ⟨nofun, rfl⟩⟩).2

/-! ## As a map -/

/-- The map that a table with unique keys is. -/
def lookup (key : ν → κ) (L : List ν) (k : κ) : Option ν := L.find? (key · = k)

omit [DecidableEq ν] in
theorem lookup_eq_none {key : ν → κ} : lookup key L k = none ↔ ∀ x ∈ L, key x ≠ k := by
  simp [lookup]

omit [DecidableEq ν] in
theorem lookup_eq_some {key : ν → κ} (h : (L.map key).Nodup) : lookup key L k = some x ↔ x ∈ L ∧ key x = k := by
  refine ⟨fun hfind => ⟨List.mem_of_find?_eq_some hfind, by simpa using List.find?_some hfind⟩, ?_⟩
  rintro ⟨hx, rfl⟩
  have hsome : lookup key L (key x) ≠ none := fun hnone => lookup_eq_none.mp hnone x hx rfl
  obtain ⟨y, hy⟩ := Option.ne_none_iff_exists'.mp hsome
  rw [hy, List.inj_on_of_nodup_map h (List.mem_of_find?_eq_some hy) hx (by simpa using List.find?_some hy)]

omit [DecidableEq ν] in
/-- A map is told by the nodes in it. -/
theorem lookup_ext {key : ν → κ} (h : (L.map key).Nodup) {m : κ → Option ν}
    (hm : ∀ k x, m k = some x ↔ x ∈ L ∧ key x = k) : lookup key L = m :=
  funext fun k => Option.ext fun x => (lookup_eq_some h).trans (hm k x).symm

/-- What a call does to the map, and what it tells of it. -/
def TableCall.MapEffect (key : ν → κ) (m m' : κ → Option ν) : TableCall ν κ → TableResult ν → Prop
  | .insertUnique k node _ throws, r =>
    (∃ x, m k = some x ∧ m' = m ∧ r = .insertion (.present x)) ∨
    m k = none ∧
      ((∃ p, node = some p ∧ m' = Function.update m k (some p) ∧ r = .insertion (.inserted p)) ∨
        (node = none ∨ throws = true) ∧ m' = m ∧ r = .insertion .threw)
  | .emplaceUnique node throws, r =>
    (∃ p x, node = some p ∧ m (key p) = some x ∧ m' = m ∧ r = .insertion (.present x)) ∨
    (∃ p, node = some p ∧ m (key p) = none ∧ m' = Function.update m (key p) (some p) ∧
      r = .insertion (.inserted p)) ∨
    (node = none ∨ throws = true) ∧ m' = m ∧ r = .insertion .threw
  | .insertMulti _ _ _, _ => False
  | .erase n, _ => m (key n) = some n ∧ m' = Function.update m (key n) none
  | .eraseKey k, r =>
    m' = Function.update m k none ∧ r = .count (if (m k).isSome then 1 else 0)
  | .eraseRange _ _, _ => ∃ M : List ν, m' = fun k => (m k).filter (· ∉ M)
  | .clear, _ => m' = fun _ => none
  | .rehash _ _, _ => m' = m
  | .find k, r => m' = m ∧ r = .iterator (m k)

omit [DecidableEq ν] in
theorem lookup_comes {hint : Option ν} (h : (L.map env.key).Nodup) (h' : (L'.map env.key).Nodup)
    (hnew : ∀ x ∈ L, env.key x ≠ env.key p) (hcomes : TableCall.Comes env.key L L' p hint) :
    lookup env.key L' = Function.update (lookup env.key L) (env.key p) (some p) := by
  obtain ⟨A, B, hreordered, rfl, -⟩ := hcomes
  have hmem : ∀ x, x ∈ A ++ p :: B ↔ x = p ∨ x ∈ L := fun x => by
    rw [List.perm_middle.mem_iff, List.mem_cons, hreordered.perm.mem_iff]
  refine lookup_ext h' fun k x => ?_
  rw [hmem, Function.update_apply]
  split
  · grind
  · grind [lookup_eq_some h]

theorem mapEffect_of_effect {call : TableCall ν κ} {r : TableResult ν} (hu : env.uniqueKeys = true)
    (hlegal : call.Legal env L) (h : (L.map env.key).Nodup) (h' : (L'.map env.key).Nodup)
    (heffect : call.Effect env L L' r) :
    call.MapEffect env.key (lookup env.key L) (lookup env.key L') r := by
  have hin : ∀ k x, lookup env.key L k = some x ↔ x ∈ L ∧ env.key x = k := fun k x => lookup_eq_some h
  have hnodup := h.of_map
  cases call with
  | insertUnique k node nElt throws =>
    rcases heffect with ⟨x, hx, hk, rfl, hr⟩ | ⟨hnew, ⟨p, hp, hcomes, hr⟩ | ⟨hthrows, rfl, hr⟩⟩
    · exact .inl ⟨x, (hin k x).mpr ⟨hx, hk⟩, rfl, hr⟩
    · obtain rfl := (hlegal.2 p hp).2
      exact .inr ⟨lookup_eq_none.mpr hnew, .inl ⟨p, hp, lookup_comes h h' hnew hcomes, hr⟩⟩
    · exact .inr ⟨lookup_eq_none.mpr hnew, .inr ⟨hthrows, rfl, hr⟩⟩
  | emplaceUnique node throws =>
    rcases heffect with ⟨p, x, hp, hx, hk, rfl, hr⟩ | ⟨p, hp, hnew, hcomes, hr⟩ | ⟨hthrows, rfl, hr⟩
    · exact .inl ⟨p, x, hp, (hin _ x).mpr ⟨hx, hk⟩, rfl, hr⟩
    · exact .inr (.inl ⟨p, hp, lookup_eq_none.mpr hnew, lookup_comes h h' hnew hcomes, hr⟩)
    · exact .inr (.inr ⟨hthrows, rfl, hr⟩)
  | insertMulti hint node throws => exact absurd (hu.symm.trans hlegal.1) (by decide)
  | erase n =>
    obtain ⟨A, B, rfl, rfl, -⟩ := heffect
    have hn := (hin (env.key n) n).mpr ⟨hlegal, rfl⟩
    refine ⟨hn, lookup_ext h' fun k x => ?_⟩
    have hgone : n ∉ A ++ B := (List.nodup_cons.mp (List.nodup_middle.mp hnodup)).1
    have hmem : x ∈ A ++ n :: B ↔ x = n ∨ x ∈ A ++ B := by rw [List.perm_middle.mem_iff, List.mem_cons]
    rw [Function.update_apply]
    grind
  | eraseKey k =>
    obtain ⟨rfl, rfl⟩ := heffect
    refine ⟨lookup_ext h' fun k' x => ?_, congrArg TableResult.count ?_⟩
    · rw [Function.update_apply, List.mem_filter]
      grind
    · have hcount : L.countP (env.key · = k) = (L.map env.key).count k := by
        rw [List.count, List.countP_map]
        congr 1
      rw [hcount, h.count]
      refine if_congr ?_ rfl rfl
      simp only [Option.isSome_iff_exists, hin, List.mem_map]
  | eraseRange first last =>
    obtain ⟨A, M, B, rfl, -, -, rfl, -⟩ := heffect
    refine ⟨M, lookup_ext h' fun k x => ?_⟩
    rw [Option.filter_eq_some_iff, hin]
    grind [List.nodup_append]
  | clear =>
    obtain ⟨rfl, -⟩ := heffect
    rfl
  | rehash n throws => exact lookup_ext h' fun k x => by rw [hin, heffect.1.perm.mem_iff]
  | find k =>
    obtain ⟨rfl, rfl⟩ := heffect
    exact ⟨rfl, rfl⟩

/-- A table with unique keys is a map, whatever calls are made. -/
theorem hashtable_refines_map (hu : env.uniqueKeys = true) (h : t.Reached env) (call : TableCall ν κ)
    (hlegal : call.Legal env t.nodes) :
    ∃ t' r, call.run env t = some (t', r) ∧ t'.Reached env ∧
      call.MapEffect env.key (lookup env.key t.nodes) (lookup env.key t'.nodes) r := by
  obtain ⟨t', L', r, hrun, hinv, heffect⟩ := call.run_right h.inv hlegal
  cases hinv.nodes_eq
  exact ⟨t', r, hrun, h.call call hlegal hrun,
    mapEffect_of_effect hu hlegal (h.inv.unique hu) (hinv.unique hu) heffect⟩

theorem hashtable_refines_map_first :
    ∃ t' r, (TableCall.insertUnique 3 (some 7) ⟨1, Nat.one_pos⟩ false).run halvesEnv (.construct halvesEnv 0) =
        some (t', r) ∧ t'.Reached halvesEnv ∧
      (TableCall.insertUnique 3 (some 7) ⟨1, Nat.one_pos⟩ false).MapEffect (· / 2) (fun _ => none)
        (lookup (· / 2) t'.nodes) r :=
  hashtable_refines_map rfl (.construct 0) (.insertUnique 3 (some 7) ⟨1, Nat.one_pos⟩ false)
    ⟨rfl, by rintro p ⟨⟩; exact ⟨nofun, rfl⟩⟩

end Rtfsc.Stl
