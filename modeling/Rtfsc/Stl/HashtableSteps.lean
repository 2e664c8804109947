import Rtfsc.Stl.Hashtable

/-!
# `_Hashtable`, one function at a time

What each function does to a table of the nodes `L`: where a key is found, where a node comes in, what is
left when nodes have gone.
-/

namespace Rtfsc.Stl

open Rtfsc.Machine

variable {ν κ : Type} {env : HashEnv ν κ} {L A B M R : List ν} {p x y : ν} {k : κ} {bkt nBkt fuel : Nat}

namespace HashTable

variable {t t' : HashTable ν} {n : Nat}

/-! ## Finding -/

section Find

theorem nextOf_lastOf (h : Links t.next t.beforeBegin (A ++ B)) :
    t.nextOf (lastOf none A) = B.head? := by
  rcases List.eq_nil_or_concat A with rfl | ⟨A, y, rfl⟩
  · exact h.head_eq
  · rw [List.concat_eq_append, lastOf_concat]
    rw [List.concat_eq_append, List.append_assoc, List.singleton_append] at h
    exact h.next_eq

/-- A bucket knows the node before its first one. -/
theorem Holds.bucket_eq (h : t.Holds env.hash env.key L) (b : Nat) :
    t.buckets b = before (env.bucket t) b none L := h.buckets b

theorem bucket_of_key (hx : env.key x = k) : env.bucket t x = env.hash.index k t.bucketCount := by
  rw [HashEnv.bucket, bucketIndex, hx]

variable [DecidableEq κ]

/-- The loop has come to `p`, and no node before has the key. -/
theorem findBeforeFrom_spec (h : t.Holds env.hash env.key (A ++ p :: B)) (hn : env.hash.index k t.bucketCount = n)
    (hp : env.bucket t p = n) (hA : ∀ a ∈ A, env.key a ≠ k) (hfuel : B.length < fuel) :
    (∃ C x D, A ++ p :: B = C ++ x :: D ∧ env.key x = k ∧ (∀ c ∈ C, env.key c ≠ k) ∧
      t.findBeforeFrom env n k fuel (lastOf none A) p = some (some (lastOf none C))) ∨
    (∀ x ∈ A ++ p :: B, env.key x ≠ k) ∧
      t.findBeforeFrom env n k fuel (lastOf none A) p = some none := by
  induction B generalizing A p fuel with
  | nil =>
    obtain ⟨fuel, rfl⟩ : ∃ m, fuel = m + 1 := ⟨fuel - 1, by simp at hfuel; omega⟩
    rw [findBeforeFrom]
    by_cases hk : env.key p = k
    · rw [if_pos hk]
      exact .inl ⟨A, p, [], rfl, hk, hA, rfl⟩
    · rw [if_neg hk, h.chain.next_eq]
      refine .inr ⟨fun x hx => ?_, rfl⟩
      rcases List.mem_append.mp hx with hx | hx
      · exact hA x hx
      · exact List.mem_singleton.mp hx ▸ hk
  | cons y B ih =>
    obtain ⟨fuel, rfl⟩ : ∃ m, fuel = m + 1 := ⟨fuel - 1, by simp at hfuel; omega⟩
    rw [findBeforeFrom]
    by_cases hk : env.key p = k
    · rw [if_pos hk]
      exact .inl ⟨A, p, y :: B, rfl, hk, hA, rfl⟩
    rw [if_neg hk, h.chain.next_eq]
    dsimp only [List.head?_cons]
    have hApp : ∀ a ∈ A ++ [p], env.key a ≠ k := by
      intro a ha
      rcases List.mem_append.mp ha with ha | ha
      · exact hA a ha
      · exact List.mem_singleton.mp ha ▸ hk
    have hsplit : A ++ p :: y :: B = (A ++ [p]) ++ y :: B := by simp
    by_cases hy : env.bucket t y = n
    · rw [if_neg (not_not.mpr hy)]
      have hrest := ih (A := A ++ [p]) (p := y) (hsplit ▸ h) hy hApp (Nat.lt_of_succ_lt_succ hfuel)
      rwa [lastOf_concat, ← hsplit] at hrest
    · rw [if_pos hy]
      refine .inr ⟨fun x hx hxk => ?_, rfl⟩
      rw [hsplit] at hx h
      rcases List.mem_append.mp hx with hx | hx
      · exact hApp x hx hxk
      -- behind the bucket there is no node of it
      have hxn : env.bucket t x = n := (bucket_of_key hxk).trans hn
      rcases List.mem_cons.mp hx with rfl | hx
      · exact hy hxn
      · exact hy ((h.grouped.between (z := p) (by simp) hx (hxn.trans hp.symm)).trans hp)

/-- The first node with the key, by the one before it. -/
theorem findBeforeNode_spec (h : t.Holds env.hash env.key L) (hn : env.hash.index k t.bucketCount = n)
    (hfuel : L.length ≤ fuel) :
    (∃ A x B, L = A ++ x :: B ∧ env.key x = k ∧ (∀ a ∈ A, env.key a ≠ k) ∧
      t.findBeforeNode env fuel n k = some (some (lastOf none A))) ∨
    (∀ x ∈ L, env.key x ≠ k) ∧ t.findBeforeNode env fuel n k = some none := by
  unfold findBeforeNode
  cases hb : t.buckets n with
  | none =>
    rw [h.bucket_eq, before_eq_none] at hb
    exact .inr ⟨fun x hx hxk => hb x hx ((bucket_of_key hxk).trans hn), rfl⟩
  | some prev =>
    rw [h.bucket_eq] at hb
    obtain ⟨A, p, B, rfl, hp, hA, rfl⟩ := before_eq_some hb
    have hnext : t.nextOf (lastOf none A) = some p := nextOf_lastOf h.chain
    dsimp only
    rw [hnext]
    refine findBeforeFrom_spec h hn hp (fun a ha hak => hA a ha ((bucket_of_key hak).trans hn)) ?_
    rw [List.length_append, List.length_cons] at hfuel
    omega

theorem findNode_spec (h : t.Holds env.hash env.key L) (hn : env.hash.index k t.bucketCount = n)
    (hfuel : L.length ≤ fuel) :
    t.findNode env fuel n k = some (L.find? (env.key · = k)) := by
  unfold findNode
  rcases findBeforeNode_spec h hn hfuel with ⟨A, x, B, rfl, hx, hA, hfind⟩ | ⟨hall, hfind⟩
  · rw [hfind]
    have hnext : t.nextOf (lastOf none A) = some x := nextOf_lastOf h.chain
    have hnone : A.find? (env.key · = k) = none := List.find?_eq_none.mpr fun a ha => by simpa using hA a ha
    rw [List.find?_append, hnone, List.find?_cons_of_pos (by simpa using hx)]
    exact congrArg some hnext
  · rw [hfind, List.find?_eq_none.mpr fun x hx => by simpa using hall x hx]
    rfl

end Find

/-- The node before another one, from any node before that. -/
theorem previousFrom_spec [DecidableEq ν] (h : Links t.next t.beforeBegin (A ++ (M ++ x :: B)))
    (hx : x ∉ M) (hfuel : M.length < fuel) :
    t.previousFrom x fuel (lastOf none A) = some (lastOf none (A ++ M)) := by
  induction M generalizing A fuel with
  | nil =>
    obtain ⟨fuel, rfl⟩ : ∃ m, fuel = m + 1 := ⟨fuel - 1, by simp at hfuel; omega⟩
    rw [previousFrom, nextOf_lastOf h, List.append_nil]
    exact if_pos rfl
  | cons m M ih =>
    obtain ⟨fuel, rfl⟩ : ∃ m, fuel = m + 1 := ⟨fuel - 1, by simp at hfuel; omega⟩
    rw [List.mem_cons, not_or] at hx
    have hsplit : A ++ (m :: M ++ x :: B) = (A ++ [m]) ++ (M ++ x :: B) := by simp
    have hrest := ih (A := A ++ [m]) (hsplit ▸ h) hx.2 (Nat.lt_of_succ_lt_succ hfuel)
    rw [lastOf_concat, List.append_assoc, List.singleton_append] at hrest
    rw [previousFrom, nextOf_lastOf h]
    exact (if_neg (Ne.symm hx.1)).trans hrest

theorem getPreviousNode_spec [DecidableEq ν] (h : t.Holds env.hash env.key (A ++ x :: B))
    (hfuel : (A ++ x :: B).length ≤ fuel) :
    t.getPreviousNode fuel (env.bucket t x) x = some (lastOf none A) := by
  unfold getPreviousNode
  have hmem : ¬∀ a ∈ A ++ x :: B, env.bucket t a ≠ env.bucket t x := fun hall => hall x (by simp) rfl
  have hsome : t.buckets (env.bucket t x) ≠ none := by
    rw [h.bucket_eq, ne_eq, before_eq_none]
    exact hmem
  obtain ⟨prev, hb⟩ := Option.ne_none_iff_exists'.mp hsome
  have hbefore := (h.bucket_eq _).symm.trans hb
  rw [hb]
  -- the bucket begins at `x` or before it
  have hx : x ∉ A := (List.nodup_cons.mp (List.nodup_middle.mp h.nodup)).1 ∘ List.mem_append_left B
  by_cases hA : ∃ a ∈ A, env.bucket t a = env.bucket t x
  · rw [before_append_of_mem hA] at hbefore
    obtain ⟨C, y, D, rfl, hy, hC, rfl⟩ := before_eq_some hbefore
    rw [List.append_assoc] at h hfuel
    refine previousFrom_spec h.chain (fun hin => hx (List.mem_append_right C hin)) ?_
    simp only [List.length_append, List.length_cons] at hfuel ⊢
    omega
  · have hnot : ∀ a ∈ A, env.bucket t a ≠ env.bucket t x := fun a ha heq => hA ⟨a, ha, heq⟩
    rw [before_append_of_not_mem hnot, before, if_pos rfl] at hbefore
    cases hbefore
    have hshort : ([] : List ν).length < fuel := by
      simp only [List.length_append, List.length_cons] at hfuel
      exact (by omega : 0 < fuel)
    have hprev := previousFrom_spec (B := B) h.chain (List.not_mem_nil (a := x)) hshort
    rwa [List.append_nil] at hprev

/-! ## Coming in -/

/-- A chain of groups with the right buckets. -/
theorem Holds.of_chain (hpos : 0 < t.bucketCount) (hchain : Links t.next t.beforeBegin L)
    (hnodup : L.Nodup) (hgrouped : Grouped (env.bucket t) L)
    (hbuckets : ∀ b, t.buckets b = before (env.bucket t) b none L) : t.Holds env.hash env.key L := by
  refine ⟨hchain, hnodup, hgrouped, hbuckets, fun b hne => ?_⟩
  by_contra hge
  refine hne ((hbuckets b).trans (before_eq_none.mpr fun x _ heq => ?_))
  exact hge (heq ▸ env.hash.index_lt (env.key x) t.bucketCount hpos)

section Insert

variable [DecidableEq ν]

/-- The table as a rehash in progress. -/
def asRehash (t : HashTable ν) (bbegin : Nat) : Rehash ν := ⟨t.beforeBegin, t.next, t.buckets, bbegin⟩

theorem linkBehind_eq (q : Option ν) (b : Nat) :
    t.linkBehind q p = endRehash t.bucketCount ((t.asRehash b).link p q) := by
  cases q <;> rfl

theorem linkBehind_chain (h : Links t.next t.beforeBegin (A ++ B)) (hnodup : (A ++ B).Nodup)
    (hp : p ∉ A ++ B) :
    Links (t.linkBehind (lastOf none A) p).next (t.linkBehind (lastOf none A) p).beforeBegin
      (A ++ p :: B) := by
  rw [linkBehind_eq _ 0]
  exact Rehash.link_chain (s := t.asRehash 0) h hnodup hp

/-- A node comes to the beginning of its bucket as it does when the table is rehashed. -/
theorem insertBucketBegin_eq [DecidableEq κ] (h : t.Holds env.hash env.key L) {bbegin : Nat}
    (hbbegin : ∀ y, L.head? = some y → bbegin = env.bucket t y) :
    t.insertBucketBegin env (env.bucket t p) p =
      endRehash t.bucketCount ((t.asRehash bbegin).place (env.bucket t) p) := by
  unfold insertBucketBegin Rehash.place
  cases hb : t.buckets (env.bucket t p) with
  | some q =>
    rw [show (t.asRehash bbegin).buckets (env.bucket t p) = some q from hb]
    exact linkBehind_eq q bbegin
  | none =>
    rw [show (t.asRehash bbegin).buckets (env.bucket t p) = none from hb]
    rw [h.bucket_eq, before_eq_none] at hb
    have hnext : (t.linkBehind none p).next p = t.beforeBegin := Function.update_self ..
    have hnext' : ((t.asRehash bbegin).link p none).next p = t.beforeBegin := Function.update_self ..
    unfold Rehash.placeFront
    dsimp only
    rw [hnext, hnext', Rehash.link_buckets.2, h.chain.head_eq]
    cases hhead : L.head? with
    | none =>
      rw [linkBehind_eq none bbegin]
      rfl
    | some y =>
      have hy : env.bucket t y ≠ env.bucket t p := hb y (List.mem_of_mem_head? hhead)
      show HashTable.mk _ _ _ _ = _
      rw [show (t.asRehash bbegin).bbegin = env.bucket t y from hbbegin y hhead,
        Function.update_comm hy.symm]
      rfl

theorem insertBucketBegin_holds [DecidableEq κ] (h : t.Holds env.hash env.key L) (hpos : 0 < t.bucketCount)
    (hp : p ∉ L) :
    ∃ A B, L = A ++ B ∧
      (A = [] ∧ (∀ x ∈ L, env.bucket t x ≠ env.bucket t p) ∨
        (∀ a ∈ A, env.bucket t a ≠ env.bucket t p) ∧
          ∃ x, B.head? = some x ∧ env.bucket t x = env.bucket t p) ∧
      (t.insertBucketBegin env (env.bucket t p) p).Holds env.hash env.key (A ++ p :: B) := by
  obtain ⟨bbegin, hbbegin⟩ : ∃ b, ∀ y, L.head? = some y → b = env.bucket t y := by
    cases L with
    | nil => exact ⟨0, nofun⟩
    | cons y L => exact ⟨env.bucket t y, fun z hz => by cases hz; rfl⟩
  have hplaced : (t.asRehash bbegin).Placed (env.bucket t) L :=
    ⟨h.chain, h.nodup, h.grouped, hbbegin⟩
  obtain ⟨A, B, hL, hwhere, hplaced', hbuckets, -⟩ := Rehash.place_spec hplaced h.bucket_eq hp
  rw [insertBucketBegin_eq h hbbegin]
  exact ⟨A, B, hL, hwhere, hplaced'.holds hpos hbuckets⟩

theorem linkBehind_bucketCount (t : HashTable ν) (q : Option ν) :
    (t.linkBehind q p).bucketCount = t.bucketCount := by
  cases q <;> rfl

omit [DecidableEq ν] in
theorem updateNextBucket_bucketCount [DecidableEq κ] (t : HashTable ν) :
    (t.updateNextBucket env bkt p).bucketCount = t.bucketCount := by
  unfold updateNextBucket
  split
  · rfl
  · split
    · dsimp only
      split <;> rfl
    · rfl

theorem insertBucketBegin_bucketCount [DecidableEq κ] (t : HashTable ν) :
    (t.insertBucketBegin env bkt p).bucketCount = t.bucketCount := by
  unfold insertBucketBegin
  split
  · exact linkBehind_bucketCount t _
  · dsimp only
    split <;> rfl

omit [DecidableEq ν] in
/-- The bucket behind is right where the node behind has the same key. -/
theorem updateNextBucket_same [DecidableEq κ] (hnext : t.next p = some x) (hkey : env.key x = env.key p) :
    t.updateNextBucket env bkt p = t := by
  unfold updateNextBucket
  rw [hnext]
  exact if_neg (not_not.mpr hkey)

/-- A node comes in before the first one with its key. -/
theorem linkBefore_holds (h : t.Holds env.hash env.key (A ++ x :: B)) (hpos : 0 < t.bucketCount)
    (hp : p ∉ A ++ x :: B) (hkey : env.key p = env.key x) :
    (t.linkBehind (lastOf none A) p).Holds env.hash env.key (A ++ p :: x :: B) := by
  have hbucket : env.bucket t p = env.bucket t x := bucket_of_key hkey
  have hchain := linkBehind_chain h.chain h.nodup hp
  rw [linkBehind_eq _ 0] at hchain ⊢
  refine .of_chain hpos hchain ?_ (h.grouped.insertBefore hbucket) fun b => ?_
  · exact List.nodup_middle.mpr (List.nodup_cons.mpr ⟨hp, h.nodup⟩)
  · refine (congrFun Rehash.link_buckets.1 b).trans ((h.bucket_eq b).trans ?_)
    exact (before_insertBefore hbucket).symm

/-- A node comes in behind another one with its key, which may be the last one of its bucket. -/
theorem linkBehind_holds [DecidableEq κ] (h : t.Holds env.hash env.key (A ++ x :: B))
    (hpos : 0 < t.bucketCount) (hp : p ∉ A ++ x :: B) (hkey : env.key p = env.key x) :
    ((t.linkBehind (some x) p).updateNextBucket env (env.bucket t p) p).Holds env.hash env.key
      (A ++ x :: p :: B) := by
  have hbucket : env.bucket t p = env.bucket t x := bucket_of_key hkey
  have hsplit : A ++ x :: B = (A ++ [x]) ++ B := by simp
  have hchain : Links (t.linkBehind (some x) p).next (t.linkBehind (some x) p).beforeBegin
      (A ++ x :: p :: B) := by
    have hbehind := linkBehind_chain (hsplit ▸ h.chain) (hsplit ▸ h.nodup) (hsplit ▸ hp)
    rw [lastOf_concat] at hbehind
    simpa using hbehind
  have hchain' : Links (t.linkBehind (some x) p).next (t.linkBehind (some x) p).beforeBegin
      ((A ++ [x]) ++ p :: B) := by
    simpa using hchain
  have hnext : (t.linkBehind (some x) p).next p = B.head? := hchain'.next_eq
  have hnodup : (A ++ x :: p :: B).Nodup := by
    rw [hsplit] at hp
    have hmiddle : ((A ++ [x]) ++ p :: B).Nodup :=
      List.nodup_middle.mpr (List.nodup_cons.mpr ⟨hp, hsplit ▸ h.nodup⟩)
    simpa using hmiddle
  have hgrouped := h.grouped.insertAfter hbucket
  have hold : (t.linkBehind (some x) p).buckets = fun b => before (env.bucket t) b none (A ++ x :: B) :=
    funext h.bucket_eq
  unfold updateNextBucket
  rw [hnext]
  -- nothing changes if the node behind is of the same bucket
  have hsame : (∀ y, B.head? = some y → env.bucket t y = env.bucket t x) →
      (t.linkBehind (some x) p).Holds env.hash env.key (A ++ x :: p :: B) := fun hhead =>
    .of_chain hpos hchain hnodup hgrouped fun b => by
      rw [hold]
      exact (before_insertAfter_same hbucket hhead).symm
  cases hhead : B.head? with
  | none => exact hsame fun y hy => nomatch hhead.symm.trans hy
  | some y =>
    dsimp only
    split
    next hne =>
      split
      next hnextBkt =>
        have hyx : env.bucket t y ≠ env.bucket t x := fun heq => hnextBkt (heq.trans hbucket.symm)
        refine .of_chain hpos hchain hnodup hgrouped fun b => ?_
        have hlast : _ = Function.update (fun b => before (env.bucket t) b none (A ++ x :: B)) _ _ :=
          before_insertAfter_last h.grouped hbucket hhead hyx
        rw [← hold] at hlast
        exact (congrFun hlast b).symm
      next hnextBkt =>
        refine hsame fun z hz => ?_
        cases hhead.symm.trans hz
        exact (not_not.mp hnextBkt).trans hbucket
    next hkey' =>
      refine hsame fun z hz => ?_
      cases hhead.symm.trans hz
      exact (bucket_of_key (not_not.mp hkey')).trans ((bucket_of_key rfl).symm.trans hbucket)

end Insert

/-! ## Going -/

section Remove

/-- The links of a table that may have other buckets, when the nodes `M` are taken out. -/
theorem setNextOf_chain [DecidableEq ν] (h : Links t.next t.beforeBegin (A ++ (M ++ B)))
    (hnodup : (A ++ (M ++ B)).Nodup) (hnext : t'.next = t.next)
    (hbegin : A ≠ [] → t'.beforeBegin = t.beforeBegin) :
    Links (t'.setNextOf (lastOf none A) B.head?).next (t'.setNextOf (lastOf none A) B.head?).beforeBegin
      (A ++ B) := by
  rcases List.eq_nil_or_concat A with rfl | ⟨A, y, rfl⟩
  · show Links t'.next B.head? B
    rw [hnext]
    exact Links.suffix h
  · have hbegin' := hbegin (by simp)
    rw [List.concat_eq_append, List.append_assoc, List.singleton_append] at h hnodup ⊢
    rw [lastOf_concat]
    show Links (Function.update t'.next y B.head?) t'.beforeBegin _
    rw [hnext, hbegin']
    exact h.cutBehind hnodup

variable [DecidableEq ν]

theorem setNextOf_same (t : HashTable ν) (q v : Option ν) :
    (t.setNextOf q v).bucketCount = t.bucketCount ∧ (t.setNextOf q v).buckets = t.buckets := by
  cases q <;> exact ⟨rfl, rfl⟩

/-- The nodes `M` are taken out of a table that has had its buckets changed. -/
theorem Holds.of_removed (h : t.Holds env.hash env.key (A ++ (M ++ B))) (hpos : 0 < t.bucketCount)
    (hcount : t'.bucketCount = t.bucketCount) (hnext : t'.next = t.next)
    (hbegin : A ≠ [] → t'.beforeBegin = t.beforeBegin)
    (hbuckets : ∀ b, t'.buckets b = before (env.bucket t) b none (A ++ B)) :
    (t'.setNextOf (lastOf none A) B.head?).Holds env.hash env.key (A ++ B) := by
  have hsub : (A ++ B).Sublist (A ++ (M ++ B)) :=
    (List.sublist_append_right M B).append_left A
  obtain ⟨hsame, hbuckets'⟩ := setNextOf_same t' (lastOf none A) B.head?
  rw [hcount] at hsame
  have hbucket : env.bucket (t'.setNextOf (lastOf none A) B.head?) = env.bucket t := by
    unfold HashEnv.bucket
    rw [hsame]
  refine .of_chain (hsame ▸ hpos) (setNextOf_chain h.chain h.nodup hnext hbegin) (hsub.nodup h.nodup)
    ?_ fun b => ?_
  · rw [hbucket]
    exact h.grouped.sublist hsub
  · rw [hbucket, hbuckets']
    exact hbuckets b

theorem removeBucketBegin_next {next : Option ν} {nextBkt : Nat} :
    (t.removeBucketBegin bkt next nextBkt).next = t.next ∧
      (t.removeBucketBegin bkt next nextBkt).bucketCount = t.bucketCount := by
  unfold removeBucketBegin
  split
  · dsimp only
    split <;> split <;> exact ⟨rfl, rfl⟩
  · exact ⟨rfl, rfl⟩

theorem removeBucketBegin_beforeBegin {next : Option ν} {nextBkt : Nat} (h : t.buckets bkt ≠ some none) :
    (t.removeBucketBegin bkt next nextBkt).beforeBegin = t.beforeBegin := by
  unfold removeBucketBegin
  split
  next hcond =>
    dsimp only
    have hsame : (if next = none then t else t.setBucket nextBkt (t.buckets bkt)).buckets bkt =
        t.buckets bkt := by
      split
      · rfl
      next hne => exact Function.update_of_ne (hcond.resolve_left hne).symm _ _
    rw [hsame, if_neg h]
    split <;> rfl
  · rfl

theorem removeBucketBegin_buckets {next : Option ν} {nextBkt : Nat} :
    (t.removeBucketBegin bkt next nextBkt).buckets =
      if next = none ∨ nextBkt ≠ bkt then
        Function.update (if next = none then t.buckets else Function.update t.buckets nextBkt (t.buckets bkt))
          bkt none
      else t.buckets := by
  unfold removeBucketBegin
  split
  · dsimp only
    split <;> split <;> rfl
  · rfl

section Run

variable {nextBkt : Nat}

/-- What erasing does to the buckets when the nodes `M` of one bucket go. -/
def cutRun (t : HashTable ν) (bkt : Nat) (prev next : Option ν) (nextBkt : Nat) : HashTable ν :=
  if t.buckets bkt = some prev then t.removeBucketBegin bkt next nextBkt
  else if next ≠ none ∧ nextBkt ≠ bkt then t.setBucket nextBkt (some prev)
  else t

theorem cutRun_same (t : HashTable ν) (prev next : Option ν) :
    (t.cutRun bkt prev next nextBkt).next = t.next ∧
      (t.cutRun bkt prev next nextBkt).bucketCount = t.bucketCount := by
  unfold cutRun
  split
  · exact removeBucketBegin_next
  · split <;> exact ⟨rfl, rfl⟩

theorem cutRun_holds (nextBkt : Nat) (h : t.Holds env.hash env.key (A ++ (M ++ B)))
    (hpos : 0 < t.bucketCount) (hM : M ≠ []) (hrun : ∀ m ∈ M, env.bucket t m = bkt)
    (hnext : ∀ y, B.head? = some y → nextBkt = env.bucket t y) :
    ((t.cutRun bkt (lastOf none A) B.head? nextBkt).setNextOf (lastOf none A) B.head?).Holds env.hash
      env.key (A ++ B) := by
  have hfirst : t.buckets bkt = some (lastOf none A) ↔ ∀ a ∈ A, env.bucket t a ≠ bkt := by
    obtain ⟨m, M, rfl⟩ := List.exists_cons_of_ne_nil hM
    rw [h.bucket_eq, ← hrun m List.mem_cons_self]
    exact before_eq_lastOf h.nodup rfl
  have hbefore := before_remove (f := env.bucket t) h.grouped hM hrun
  simp only [← h.bucket_eq] at hbefore
  unfold cutRun
  by_cases hbegin : t.buckets bkt = some (lastOf none A)
  · rw [if_pos hbegin]
    refine h.of_removed hpos removeBucketBegin_next.2 removeBucketBegin_next.1 (fun hne => ?_) fun b => ?_
    · refine removeBucketBegin_beforeBegin fun hb => ?_
      rw [hbegin] at hb
      exact lastOf_ne_none hne (Option.some.inj hb)
    · have hA := hfirst.mp hbegin
      rw [removeBucketBegin_buckets]
      cases hhead : B.head? <;> grind
  · rw [if_neg hbegin]
    have hA : ∃ a ∈ A, env.bucket t a = bkt := by
      by_contra hno
      exact hbegin (hfirst.mpr fun a ha heq => hno ⟨a, ha, heq⟩)
    split
    · refine h.of_removed hpos rfl rfl (fun _ => rfl) fun b => ?_
      show Function.update t.buckets nextBkt _ b = _
      cases hhead : B.head? <;> grind
    · refine h.of_removed hpos rfl rfl (fun _ => rfl) fun b => ?_
      cases hhead : B.head? <;> grind

end Run

end Remove

end HashTable

/-- The nodes are counted, and they are those that are allocated. -/
structure CountedTable.Counted (t : CountedTable ν) (L : List ν) : Prop where
  count : t.elementCount = L.length
  live : ∀ x, x ∈ t.live ↔ x ∈ L

/-- The nodes `L` are left of those of `t`, in as many buckets. -/
structure CountedTable.Leaves (env : HashEnv ν κ) (t t' : CountedTable ν) (L : List ν) : Prop where
  holds : t'.Holds env.hash env.key L
  counted : t'.Counted L
  bucketCount : t'.bucketCount = t.bucketCount
  nextResize : t'.nextResize = t.nextResize

namespace CountedTable

variable [DecidableEq ν] {t t' : CountedTable ν} {n : ν}

theorem Counted.fuel_eq (h : t.Counted L) (hnodup : L.Nodup) : t.fuel = L.length + 1 := by
  have hlive : t.live = L.toFinset := Finset.ext fun x => (h.live x).trans List.mem_toFinset.symm
  rw [fuel, hlive, List.toFinset_card_of_nodup hnodup]

theorem Counted.drop (h : t.Counted (A ++ x :: B)) (hnodup : (A ++ x :: B).Nodup) :
    (t.dropNode x).Counted (A ++ B) := by
  have hx := (List.nodup_cons.mp (List.nodup_middle.mp hnodup)).1
  refine ⟨?_, fun y => ?_⟩
  · show t.elementCount - 1 = _
    rw [h.count, List.length_append, List.length_append, List.length_cons]
    omega
  · show y ∈ t.live.erase x ↔ _
    rw [Finset.mem_erase, h.live]
    simp only [List.mem_append, List.mem_cons] at hx ⊢
    refine ⟨fun ⟨hne, hy⟩ => by tauto, fun hy => ⟨?_, by tauto⟩⟩
    rintro rfl
    exact hx hy

omit [DecidableEq ν] in
theorem ne_head_of_nodup (h : (A ++ (n :: R ++ B)).Nodup) : some n ≠ B.head? := by
  intro heq
  have hright := (List.nodup_append.mp h).2.1
  exact (List.nodup_append.mp hright).2.2 n (by simp) n (List.mem_of_mem_head? heq.symm) rfl

/-! ## Erasing a range -/

section Range

/-- One run of nodes of a bucket is dropped, up to another bucket or to the end of the range. -/
theorem eraseRun_spec (nBkt : Nat) (hchain : Links t.next (some n) (n :: R ++ B))
    (hnodup : (A ++ (n :: R ++ B)).Nodup) (hcounted : t.Counted (A ++ (n :: R ++ B)))
    (hn : env.bucket t.toHashTable n = bkt) (hfuel : R.length < fuel) :
    ∃ M R' t' nBkt', n :: R = M ++ R' ∧ M ≠ [] ∧ (∀ m ∈ M, env.bucket t.toHashTable m = bkt) ∧
      (∀ y, R'.head? = some y → env.bucket t.toHashTable y ≠ bkt) ∧
      eraseRun env B.head? bkt fuel t n nBkt = some (t', (R' ++ B).head?, nBkt') ∧
      (∀ y, (R' ++ B).head? = some y → nBkt' = env.bucket t.toHashTable y) ∧
      t'.toHashTable = t.toHashTable ∧ t'.nextResize = t.nextResize ∧ t'.Counted (A ++ (R' ++ B)) := by
  obtain ⟨fuel, rfl⟩ : ∃ m, fuel = m + 1 := ⟨fuel - 1, by omega⟩
  have hdrop := hcounted.drop hnodup
  have hnext : t.next n = (R ++ B).head? := hchain.2.head_eq
  rw [eraseRun, hnext]
  induction R generalizing n t nBkt fuel with
  | nil =>
    have hM : ∀ m ∈ [n], env.bucket t.toHashTable m = bkt := fun m hm => List.mem_singleton.mp hm ▸ hn
    rw [List.nil_append]
    cases hhead : B.head? with
    | none =>
      refine ⟨[n], [], t.dropNode n, nBkt, rfl, by simp, hM, by rintro _ ⟨⟩, ?_, ?_, rfl, rfl, hdrop⟩ <;>
        rw [List.nil_append, hhead]
      rintro _ ⟨⟩
    | some y =>
      refine ⟨[n], [], t.dropNode n, env.bucket t.toHashTable y, rfl, by simp, hM, by rintro _ ⟨⟩, ?_, ?_, rfl, rfl,
        hdrop⟩ <;> rw [List.nil_append, hhead]
      · exact if_neg (by simp)
      · rintro _ ⟨⟩
        rfl
  | cons r R ih =>
    have hsub : (A ++ (r :: R ++ B)).Nodup :=
      ((List.sublist_cons_self n (r :: R ++ B)).append_left A).nodup hnodup
    dsimp only [List.cons_append, List.head?_cons]
    by_cases hbkt : env.bucket t.toHashTable r = bkt
    · rw [if_pos ⟨ne_head_of_nodup hsub, hbkt⟩]
      obtain ⟨fuel, rfl⟩ : ∃ m, fuel = m + 1 := ⟨fuel - 1, by simp at hfuel; omega⟩
      have hchain' : Links t.next (some r) (r :: R ++ B) := by
        have htail := hchain.2
        rwa [hnext] at htail
      obtain ⟨M, R', t', nBkt', hsplit, -, hM, hR', hrun, hrest⟩ :=
        ih (t := t.dropNode n) (env.bucket t.toHashTable r) hchain' hsub hdrop hbkt fuel
          (Nat.lt_of_succ_lt_succ hfuel) (hdrop.drop hsub) hchain'.2.head_eq
      refine ⟨n :: M, R', t', nBkt', by rw [hsplit]; rfl, List.cons_ne_nil n M,
        List.forall_mem_cons.mpr ⟨hn, hM⟩, hR', ?_, hrest⟩
      rw [eraseRun]
      exact hchain'.2.head_eq ▸ hrun
    · rw [if_neg fun hboth => hbkt hboth.2]
      refine ⟨[n], r :: R, _, _, rfl, by simp, fun m hm => List.mem_singleton.mp hm ▸ hn, ?_, rfl, ?_, rfl,
        rfl, hdrop⟩
      · intro y hy
        cases hy
        exact hbkt
      · intro y hy
        cases hy
        rfl

/-- The nodes between `A` and `R` have been dropped, and bucket `bkt` of the first one of `R` is the only one
whose entry may be wrong. -/
structure Erasing (env : HashEnv ν κ) (s : HashTable ν) (A : List ν) (t : CountedTable ν) (R B : List ν)
    (bkt : Nat) (isBucketBegin : Bool) : Prop where
  next : t.next = s.next
  bucketCount : t.bucketCount = s.bucketCount
  chain : Links s.next (R ++ B).head? (R ++ B)
  nodup : (A ++ (R ++ B)).Nodup
  grouped : Grouped (env.bucket s) (A ++ (R ++ B))
  counted : t.Counted (A ++ (R ++ B))
  beforeBegin : A ≠ [] → t.beforeBegin = s.beforeBegin
  others : ∀ b, b ≠ bkt → t.buckets b = before (env.bucket s) b none (A ++ (R ++ B))
  begins : isBucketBegin = true →
    (∀ a ∈ A, env.bucket s a ≠ bkt) ∧ (A ≠ [] → t.buckets bkt ≠ some none)
  within : isBucketBegin = false →
    (∃ a ∈ A, env.bucket s a = bkt) ∧ t.buckets bkt = before (env.bucket s) bkt none (A ++ (R ++ B))

namespace Erasing

variable {s : HashTable ν} {isBucketBegin : Bool}

omit [DecidableEq ν] in
theorem bucket_eq (h : Erasing env s A t R B bkt isBucketBegin) : env.bucket t.toHashTable = env.bucket s := by
  unfold HashEnv.bucket
  rw [h.bucketCount]

/-- The first entry of the bucket of a run is taken back with the run. -/
def unbucket (t : CountedTable ν) (isBucketBegin : Bool) (bkt : Nat) (next : Option ν) (nBkt : Nat) :
    CountedTable ν :=
  if isBucketBegin then { t with toHashTable := t.removeBucketBegin bkt next nBkt } else t

/-- What only the buckets of a table are changed by stays as it was. -/
theorem unbucket_same (h : Erasing env s A t R B bkt isBucketBegin) (htable : t'.toHashTable = t.toHashTable)
    (next : Option ν) (nBkt : Nat) :
    (unbucket t' isBucketBegin bkt next nBkt).next = s.next ∧
      (unbucket t' isBucketBegin bkt next nBkt).bucketCount = s.bucketCount ∧
      (A ≠ [] → (unbucket t' isBucketBegin bkt next nBkt).beforeBegin = s.beforeBegin) := by
  rw [← h.next, ← h.bucketCount, ← congrArg HashTable.next htable, ← congrArg HashTable.bucketCount htable]
  cases hbegin : isBucketBegin with
  | true =>
    refine ⟨HashTable.removeBucketBegin_next.1, HashTable.removeBucketBegin_next.2, fun hne => ?_⟩
    refine (HashTable.removeBucketBegin_beforeBegin ?_).trans
      ((congrArg HashTable.beforeBegin htable).trans (h.beforeBegin hne))
    rw [htable]
    exact (h.begins hbegin).2 hne
  | false => exact ⟨rfl, rfl, fun hne => (congrArg HashTable.beforeBegin htable).trans (h.beforeBegin hne)⟩

theorem unbucket_buckets (htable : t'.toHashTable = t.toHashTable) (isBucketBegin : Bool) (bkt : Nat)
    (next : Option ν) (nBkt : Nat) :
    (unbucket t' isBucketBegin bkt next nBkt).buckets =
      if isBucketBegin = true ∧ (next = none ∨ nBkt ≠ bkt) then
        Function.update (if next = none then t.buckets else Function.update t.buckets nBkt (t.buckets bkt))
          bkt none
      else t.buckets := by
  rw [← htable]
  cases isBucketBegin with
  | true => exact HashTable.removeBucketBegin_buckets.trans (by simp)
  | false => rfl

theorem unbucket_counted (hcounted : t.Counted L) (next : Option ν) :
    (unbucket t isBucketBegin bkt next nBkt).Counted L := by
  unfold unbucket
  split <;> exact ⟨hcounted.count, hcounted.live⟩

/-- The rest of the range begins with another bucket. -/
theorem more (h : Erasing env s A t (M ++ y :: R) B bkt isBucketBegin) (hM : M ≠ [])
    (hrun : ∀ m ∈ M, env.bucket s m = bkt) (hy : env.bucket s y ≠ bkt) (htable : t'.toHashTable = t.toHashTable)
    (hcounted : t'.Counted (A ++ (y :: R ++ B))) :
    Erasing env s A (unbucket t' isBucketBegin bkt (some y) (env.bucket s y)) (y :: R) B (env.bucket s y)
      true := by
  have hsplit : A ++ ((M ++ y :: R) ++ B) = A ++ (M ++ (y :: R ++ B)) := by simp
  have hsub : (A ++ (y :: R ++ B)).Sublist (A ++ ((M ++ y :: R) ++ B)) := by
    rw [hsplit]
    exact (List.sublist_append_right M _).append_left A
  have hgrouped := h.grouped
  have hothers := h.others
  have hwithin := h.within
  simp only [hsplit] at hgrouped hothers hwithin
  have hbefore := before_remove hgrouped hM hrun
  obtain ⟨hnext, hcount, hbegin⟩ := h.unbucket_same htable (some y) (env.bucket s y)
  have hbuckets := unbucket_buckets htable isBucketBegin bkt (some y) (env.bucket s y)
  have hA : ∀ a ∈ A, env.bucket s a ≠ env.bucket s y := by
    obtain ⟨m, hm⟩ := List.exists_mem_of_ne_nil M hM
    exact hgrouped.apart hm (by simp) fun heq => hy (heq.trans (hrun m hm))
  -- the bucket of `y` knows the last node of the run, or the one before the first of the range
  have hfirst : t.buckets (env.bucket s y) = some (lastOf none (A ++ M)) := by
    rw [hothers _ hy, ← List.append_assoc]
    refine before_remove_head rfl ?_
    rw [List.forall_mem_append]
    exact ⟨hA, fun m hm heq => hy (heq.symm.trans (hrun m hm))⟩
  have hchain : Links s.next (y :: R ++ B).head? (y :: R ++ B) := by
    have hsuffix := h.chain
    rw [List.append_assoc] at hsuffix
    exact hsuffix.suffix
  exact
    { next := hnext
      bucketCount := hcount
      chain := hchain
      nodup := hsub.nodup h.nodup
      grouped := h.grouped.sublist hsub
      counted := unbucket_counted hcounted _
      beforeBegin := hbegin
      others := fun b hb => by
        have hbegins := h.begins
        rw [hbuckets]
        grind
      begins := fun _ => ⟨hA, fun hne => by
        have hbegins := h.begins
        have hnone := lastOf_ne_none (l := A ++ M) (by simp [hM])
        rw [hbuckets]
        grind⟩
      within := by rintro ⟨⟩ }

/-- The last run of the range has been dropped, and the entry of the bucket behind is put right. -/
theorem done (h : Erasing env s A t M B bkt isBucketBegin) (hM : M ≠ [])
    (hrun : ∀ m ∈ M, env.bucket s m = bkt) (hnBkt : ∀ y, B.head? = some y → nBkt = env.bucket s y)
    (htable : t'.toHashTable = t.toHashTable) (b : Nat) :
    (if B.head? ≠ none ∧ (nBkt ≠ bkt ∨ isBucketBegin = true) then
        (unbucket t' isBucketBegin bkt B.head? nBkt).setBucket nBkt (some (lastOf none A))
      else (unbucket t' isBucketBegin bkt B.head? nBkt).toHashTable).buckets b =
        before (env.bucket s) b none (A ++ B) := by
  have hbefore := before_remove h.grouped hM hrun b
  have hbuckets := unbucket_buckets htable isBucketBegin bkt B.head? nBkt
  have hothers := h.others
  have hbegins := h.begins
  have hwithin := h.within
  split
  · show Function.update (unbucket t' isBucketBegin bkt B.head? nBkt).buckets nBkt _ b = _
    rw [hbuckets]
    cases hhead : B.head? <;> grind
  · rw [hbuckets]
    cases hhead : B.head? <;> grind

/-- By induction on the fuel, bucket after bucket. -/
theorem eraseRuns_spec (h : Erasing env s A t (n :: R) B bkt isBucketBegin) (hn : env.bucket s n = bkt)
    (hfuel : R.length < fuel) :
    ∃ t' bkt' nBkt' isBucketBegin',
      eraseRuns env B.head? fuel t n bkt nBkt isBucketBegin =
        some (t', B.head?, bkt', nBkt', isBucketBegin') ∧
      t'.next = s.next ∧ t'.bucketCount = s.bucketCount ∧ t'.Counted (A ++ B) ∧
      t'.nextResize = t.nextResize ∧ (A ≠ [] → t'.beforeBegin = s.beforeBegin) ∧
      ∀ b, (if B.head? ≠ none ∧ (nBkt' ≠ bkt' ∨ isBucketBegin' = true) then
          t'.setBucket nBkt' (some (lastOf none A)) else t'.toHashTable).buckets b =
        before (env.bucket s) b none (A ++ B) := by
  induction fuel generalizing t n R bkt nBkt isBucketBegin with
  | zero => cases hfuel
  | succ fuel ih =>
    have hchain : Links t.next (some n) (n :: R ++ B) := by
      rw [h.next]
      exact h.chain
    have hlength : R.length < t.fuel := by
      rw [h.counted.fuel_eq h.nodup]
      simp only [List.length_append, List.length_cons]
      omega
    obtain ⟨M, R', t₁, nBkt', hsplit, hM, hrun, hother, hloop, hnBkt, htable, hresize, hcounted⟩ :=
      eraseRun_spec nBkt hchain h.nodup h.counted (show env.bucket t.toHashTable n = bkt by rwa [h.bucket_eq])
        hlength
    rw [h.bucket_eq] at hrun hother hnBkt
    rw [eraseRuns, hloop]
    have hresize' : ∀ next nBkt, (unbucket t₁ isBucketBegin bkt next nBkt).nextResize = t.nextResize := by
      intro next nBkt
      unfold unbucket
      split <;> exact hresize
    rw [hsplit] at h
    cases R' with
    | nil =>
      rw [List.append_nil] at h
      obtain ⟨hnext, hcount, hbegin⟩ := h.unbucket_same htable B.head? nBkt'
      exact ⟨_, bkt, nBkt', isBucketBegin, if_pos rfl, hnext, hcount, unbucket_counted hcounted _, hresize' _ _,
        hbegin, h.done hM hrun hnBkt htable⟩
    | cons y R' =>
      have hy := hnBkt y rfl
      have hmore := h.more hM hrun (hother y rfl) htable hcounted
      subst hy
      have hshort : R'.length < fuel := by
        have hlen := congrArg List.length hsplit
        have hpos := List.length_pos_of_ne_nil hM
        simp only [List.length_append, List.length_cons] at hlen
        omega
      obtain ⟨t', bkt', nBkt', begin', hrest, hright⟩ := ih hmore rfl hshort
      rw [hresize'] at hright
      refine ⟨t', bkt', nBkt', begin', ?_, hright⟩
      exact (if_neg (ne_head_of_nodup hmore.nodup)).trans hrest

end Erasing

/-- The nodes of a range that is not empty go. -/
theorem eraseRange_spec (h : t.Holds env.hash env.key (A ++ (M ++ B))) (hpos : 0 < t.bucketCount)
    (hcounted : t.Counted (A ++ (M ++ B))) :
    ∃ t', t.eraseRange env (M ++ B).head? B.head? = some (t', B.head?) ∧ Leaves env t t' (A ++ B) := by
  unfold eraseRange
  cases M with
  | nil => exact ⟨t, if_pos rfl, ⟨h, hcounted, rfl, rfl⟩⟩
  | cons n R =>
    have hfuel := hcounted.fuel_eq h.nodup
    have hle : (A ++ (n :: R ++ B)).length ≤ t.fuel := hfuel ▸ Nat.le_succ _
    have hprev := HashTable.getPreviousNode_spec (B := R ++ B) h hle
    -- the range begins a bucket if no node before is of it
    have hfirst : t.bucketBegin (env.bucket t.toHashTable n) = some n ↔
        ∀ a ∈ A, env.bucket t.toHashTable a ≠ env.bucket t.toHashTable n := by
      rw [← before_eq_lastOf h.nodup rfl, ← h.bucket_eq]
      have hchain : Links t.next t.beforeBegin (A ++ (n :: R ++ B)) := h.chain
      unfold HashTable.bucketBegin
      cases hb : t.buckets (env.bucket t.toHashTable n) with
      | none => simp
      | some q =>
        refine ⟨fun hq => ?_, fun hq => ?_⟩
        · have hbefore := (h.bucket_eq _).symm.trans hb
          obtain ⟨C, z, D, hL, -, -, rfl⟩ := before_eq_some hbefore
          rw [hL] at hchain
          have hz : some z = some n := (HashTable.nextOf_lastOf hchain).symm.trans hq
          cases hz
          obtain ⟨rfl, -⟩ := eq_of_split (hL ▸ h.nodup) hL.symm
          rfl
        · cases hq
          exact HashTable.nextOf_lastOf hchain
    have hstart : Erasing env t.toHashTable A t (n :: R) B (env.bucket t.toHashTable n)
        (t.bucketBegin (env.bucket t.toHashTable n) = some n) :=
      { next := rfl
        bucketCount := rfl
        chain := h.chain.suffix
        nodup := h.nodup
        grouped := h.grouped
        counted := hcounted
        beforeBegin := fun _ => rfl
        others := fun b _ => h.bucket_eq b
        begins := fun hbegin => by
          have hnot := hfirst.mp (of_decide_eq_true hbegin)
          refine ⟨hnot, fun hA hb => lastOf_ne_none hA ?_⟩
          rw [h.bucket_eq] at hb
          exact Option.some.inj ((before_remove_head rfl hnot).symm.trans hb)
        within := fun hbegin => by
          refine ⟨?_, h.bucket_eq _⟩
          by_contra hno
          exact of_decide_eq_false hbegin (hfirst.mpr fun a ha heq => hno ⟨a, ha, heq⟩) }
    obtain ⟨t', bkt', nBkt', begin', hrun, hnext, hcount, hcounted', hresize, hbegin, hbuckets⟩ :=
      hstart.eraseRuns_spec rfl
        (show R.length < t.fuel by rw [hfuel]; simp only [List.length_append, List.length_cons]; omega)
    rw [if_neg (show (n :: R ++ B).head? ≠ _ from ne_head_of_nodup h.nodup)]
    simp only [List.cons_append, List.head?_cons, Option.bind_eq_bind, Option.bind_some]
    rw [hprev]
    simp only [Option.bind_some]
    rw [hrun]
    refine ⟨_, rfl, ⟨?_, ⟨hcounted'.count, hcounted'.live⟩, ?_, hresize⟩⟩
    · refine h.of_removed hpos ?_ ?_ ?_ hbuckets
      all_goals split
      · exact hcount
      · exact hcount
      · exact hnext
      · exact hnext
      · exact hbegin
      · exact hbegin
    · refine (HashTable.setNextOf_same _ _ _).1.trans ?_
      split <;> exact hcount

end Range

/-! ## Erasing by iterator and by key -/

section Erase

theorem eraseBucket_eq (s : HashTable ν) (prev : Option ν) {next : Option ν} (hnext : s.next n = next) :
    eraseBucket env s bkt prev n = s.cutRun bkt prev next (next.elim 0 (env.bucket s)) := by
  subst hnext
  unfold eraseBucket HashTable.cutRun
  cases s.next n with
  | none => split <;> simp
  | some y => simp

theorem eraseNode_spec (h : t.Holds env.hash env.key (A ++ n :: B)) (hpos : 0 < t.bucketCount)
    (hcounted : t.Counted (A ++ n :: B)) :
    ∃ t', t.eraseNode env (env.bucket t.toHashTable n) (lastOf none A) n = (t', B.head?) ∧
      Leaves env t t' (A ++ B) := by
  have hnext : t.next n = B.head? := h.chain.next_eq
  have hcut := HashTable.cutRun_holds (M := [n]) (B.head?.elim 0 (env.bucket t.toHashTable)) h hpos
    (List.cons_ne_nil n []) (fun m hm => congrArg _ (List.mem_singleton.mp hm))
    fun y hy => by rw [hy]; rfl
  rw [← eraseBucket_eq _ _ hnext] at hcut
  have hsame : (eraseBucket env t.toHashTable (env.bucket t.toHashTable n) (lastOf none A) n).next = t.next ∧
      (eraseBucket env t.toHashTable (env.bucket t.toHashTable n) (lastOf none A) n).bucketCount =
        t.bucketCount := by
    rw [eraseBucket_eq _ _ hnext]
    exact HashTable.cutRun_same _ _ _
  have hdrop := hcounted.drop h.nodup
  unfold eraseNode
  generalize eraseBucket env t.toHashTable (env.bucket t.toHashTable n) (lastOf none A) n = table at hcut hsame
  dsimp only
  rw [hsame.1, hnext]
  refine ⟨_, Prod.ext rfl ?_, ⟨hcut, ⟨hdrop.count, hdrop.live⟩, ?_, rfl⟩⟩
  · -- the link of the erased node is as it was
    have hn : n ∉ A := fun hmem =>
      (List.nodup_cons.mp (List.nodup_middle.mp h.nodup)).1 (List.mem_append_left B hmem)
    rcases List.eq_nil_or_concat A with rfl | ⟨A, a, rfl⟩
    · show table.next n = _
      rw [hsame.1, hnext]
    · rw [List.concat_eq_append] at hn ⊢
      rw [lastOf_concat]
      show Function.update table.next a _ n = _
      rw [Function.update_of_ne (fun heq => hn (by simp [heq])), hsame.1, hnext]
  · rw [← hsame.2]
    cases lastOf none A <;> rfl

variable [DecidableEq κ]

omit [DecidableEq ν] in
theorem lastEqualFrom_spec (hchain : Links t.next (some n) (n :: B))
    (hn : env.hash.index k t.bucketCount = bkt) (hk : env.key n = k) (hfuel : B.length < fuel) :
    ∃ M B' nLastBkt, n :: B = M ++ B' ∧ M ≠ [] ∧ (∀ m ∈ M, env.key m = k) ∧
      (∀ y, B'.head? = some y → env.key y ≠ k) ∧
      t.lastEqualFrom env bkt k fuel n = some (B'.head?, nLastBkt) ∧
      ∀ y, B'.head? = some y → nLastBkt = env.bucket t.toHashTable y := by
  induction B generalizing n fuel with
  | nil =>
    obtain ⟨fuel, rfl⟩ : ∃ m, fuel = m + 1 := ⟨fuel - 1, by simp at hfuel; omega⟩
    have hnext : t.next n = none := hchain.2
    refine ⟨[n], [], bkt, rfl, by simp, fun m hm => List.mem_singleton.mp hm ▸ hk, nofun, ?_, nofun⟩
    rw [lastEqualFrom, hnext]
    rfl
  | cons y B ih =>
    obtain ⟨fuel, rfl⟩ : ∃ m, fuel = m + 1 := ⟨fuel - 1, by simp at hfuel; omega⟩
    have hnext : t.next n = some y := hchain.2.1
    rw [lastEqualFrom, hnext]
    dsimp only
    by_cases hy : env.key y = k
    · rw [if_pos ⟨(HashTable.bucket_of_key hy).trans hn, hy⟩]
      have hrest := hchain.2
      rw [hnext] at hrest
      obtain ⟨M, B', nLastBkt, hsplit, -, hM, hright⟩ := ih hrest hy (Nat.lt_of_succ_lt_succ hfuel)
      exact ⟨n :: M, B', nLastBkt, by rw [hsplit]; rfl, List.cons_ne_nil n M,
        List.forall_mem_cons.mpr ⟨hk, hM⟩, hright⟩
    · rw [if_neg fun hboth => hy hboth.2]
      refine ⟨[n], y :: B, _, rfl, by simp, fun m hm => List.mem_singleton.mp hm ▸ hk, ?_, rfl, ?_⟩
      · rintro z ⟨⟩
        exact hy
      · rintro z ⟨⟩
        rfl

omit [DecidableEq κ] in
theorem dropUntil_spec (hchain : Links t.next (some n) (n :: R ++ B))
    (hnodup : (A ++ (n :: R ++ B)).Nodup) (hcounted : t.Counted (A ++ (n :: R ++ B)))
    (hfuel : R.length < fuel) (result : Nat) :
    ∃ t', dropUntil B.head? fuel t n result = some (t', result + (R.length + 1)) ∧
      t'.toHashTable = t.toHashTable ∧ t'.nextResize = t.nextResize ∧ t'.Counted (A ++ B) := by
  induction R generalizing n t fuel result with
  | nil =>
    obtain ⟨fuel, rfl⟩ : ∃ m, fuel = m + 1 := ⟨fuel - 1, by omega⟩
    have hnext : t.next n = B.head? := hchain.2.head_eq
    refine ⟨t.dropNode n, ?_, rfl, rfl, hcounted.drop hnodup⟩
    rw [dropUntil, hnext]
    exact if_neg (by simp)
  | cons r R ih =>
    obtain ⟨fuel, rfl⟩ : ∃ m, fuel = m + 1 := ⟨fuel - 1, by omega⟩
    have hnext : t.next n = some r := hchain.2.head_eq
    have hsub : (A ++ (r :: R ++ B)).Nodup :=
      ((List.sublist_cons_self n (r :: R ++ B)).append_left A).nodup hnodup
    have hrest : Links t.next (some r) (r :: R ++ B) := by
      have htail := hchain.2
      rwa [hnext] at htail
    obtain ⟨t', hrun, hright⟩ := ih (t := t.dropNode n) hrest hsub (hcounted.drop hnodup)
      (Nat.lt_of_succ_lt_succ hfuel) (result + 1)
    refine ⟨t', ?_, hright⟩
    rw [dropUntil, hnext]
    refine (if_pos (ne_head_of_nodup hsub)).trans (hrun.trans ?_)
    rw [List.length_cons]
    congr 2
    omega

theorem eraseKeyUnique_spec (h : t.Holds env.hash env.key L) (hpos : 0 < t.bucketCount)
    (hcounted : t.Counted L) (hkeys : (L.map env.key).Nodup) (k : κ) :
    ∃ t', t.eraseKeyUnique env k = some (t', L.countP (env.key · = k)) ∧
      Leaves env t t' (L.filter (env.key · ≠ k)) := by
  unfold eraseKeyUnique
  have hle : L.length ≤ t.fuel := hcounted.fuel_eq h.nodup ▸ Nat.le_succ _
  rcases HashTable.findBeforeNode_spec (k := k) h rfl hle with
    ⟨A, x, B, rfl, hx, hA, hfind⟩ | ⟨hall, hfind⟩
  · rw [List.map_append, List.map_cons, List.nodup_middle, List.nodup_cons] at hkeys
    have hB : ∀ b ∈ B, env.key b ≠ k := fun b hb heq =>
      hkeys.1 (List.mem_append_right _ (List.mem_map.mpr ⟨b, hb, heq.trans hx.symm⟩))
    have hfilter : (A ++ x :: B).filter (env.key · ≠ k) = A ++ B := by
      rw [List.filter_append, List.filter_cons_of_neg (by simpa using hx),
        List.filter_eq_self.mpr (by simpa using hA), List.filter_eq_self.mpr (by simpa using hB)]
    have hcount : (A ++ x :: B).countP (env.key · = k) = 1 := by
      rw [List.countP_append, List.countP_cons_of_pos (by simpa using hx),
        List.countP_eq_zero.mpr (by simpa using hA), List.countP_eq_zero.mpr (by simpa using hB)]
    obtain ⟨t', hrun, hright⟩ := eraseNode_spec h hpos hcounted
    have hnext : t.nextOf (lastOf none A) = some x := HashTable.nextOf_lastOf h.chain
    rw [HashTable.bucket_of_key hx] at hrun
    rw [hfilter, hcount]
    refine ⟨t', ?_, hright⟩
    simp only [hfind, hnext, hrun, Option.bind_eq_bind, Option.bind_some, Option.pure_def]
  · have hcount : L.countP (env.key · = k) = 0 := List.countP_eq_zero.mpr (by simpa using hall)
    rw [List.filter_eq_self.mpr (by simpa using hall), hcount]
    refine ⟨t, ?_, ⟨h, hcounted, rfl, rfl⟩⟩
    simp only [hfind, Option.bind_eq_bind, Option.bind_some, Option.pure_def]

theorem eraseKeyMulti_spec (h : t.Holds env.hash env.key L) (hpos : 0 < t.bucketCount)
    (hcounted : t.Counted L) (hkeys : Grouped env.key L) (k : κ) :
    ∃ t', t.eraseKeyMulti env k = some (t', L.countP (env.key · = k)) ∧
      Leaves env t t' (L.filter (env.key · ≠ k)) := by
  unfold eraseKeyMulti
  have hfuel := hcounted.fuel_eq h.nodup
  have hle : L.length ≤ t.fuel := hfuel ▸ Nat.le_succ _
  rcases HashTable.findBeforeNode_spec (k := k) h rfl hle with
    ⟨A, x, B, rfl, hx, hA, hfind⟩ | ⟨hall, hfind⟩
  · have hchain : Links t.next (some x) (x :: B) := h.chain.suffix
    obtain ⟨M, B', nLastBkt, hsplit, hM, hMk, hother, hlast, hnLast⟩ :=
      lastEqualFrom_spec hchain rfl hx (show B.length < t.fuel by
        rw [hfuel]
        simp only [List.length_append, List.length_cons]
        omega)
    obtain ⟨R, rfl⟩ : ∃ R, M = x :: R := by
      obtain ⟨m, R, rfl⟩ := List.exists_cons_of_ne_nil hM
      exact ⟨R, by rw [(List.cons.inj hsplit).1]⟩
    rw [hsplit] at h hcounted hkeys hchain hfuel ⊢
    have hB : ∀ b ∈ B', env.key b ≠ k := by
      intro b hb heq
      cases B' with
      | nil => cases hb
      | cons y B' =>
        have hy := hother y rfl
        rcases List.mem_cons.mp hb with rfl | hb
        · exact hy heq
        · rw [← List.append_assoc] at hkeys
          exact hy ((hkeys.between (z := x) (by simp) hb (heq.trans hx.symm)).trans hx)
    have hfilter : (A ++ (x :: R ++ B')).filter (env.key · ≠ k) = A ++ B' := by
      rw [List.filter_append, List.filter_append, List.filter_eq_self.mpr (by simpa using hA),
        (List.filter_eq_self (l := B')).mpr (by simpa using hB),
        List.filter_eq_nil_iff.mpr (by simpa using hMk), List.nil_append]
    have hcount : (A ++ (x :: R ++ B')).countP (env.key · = k) = R.length + 1 := by
      rw [List.countP_append, List.countP_append, List.countP_eq_zero.mpr (by simpa using hA),
        (List.countP_eq_zero (l := B')).mpr (by simpa using hB),
        List.countP_eq_length.mpr (by simpa using hMk), List.length_cons]
      omega
    obtain ⟨t', hdrop, htable, hresize, hcounted'⟩ :=
      dropUntil_spec hchain h.nodup hcounted (show R.length < t.fuel by rw [hfuel]; simp; omega) 0
    have hcut := HashTable.cutRun_holds nLastBkt h hpos (List.cons_ne_nil x R)
      (fun m hm => HashTable.bucket_of_key (hMk m hm)) hnLast
    have hnext : t.nextOf (lastOf none A) = some x := HashTable.nextOf_lastOf h.chain
    rw [hfilter, hcount]
    refine ⟨{ t' with
      toHashTable := (t.cutRun (env.hash.index k t.bucketCount) (lastOf none A) B'.head? nLastBkt).setNextOf
        (lastOf none A) B'.head? }, ?_, ⟨hcut, ⟨hcounted'.count, hcounted'.live⟩, ?_, hresize⟩⟩
    · simp only [hfind, hnext, hlast, hdrop, Option.bind_eq_bind, Option.bind_some, Option.pure_def,
        htable, Nat.zero_add]
      rfl
    · exact (HashTable.setNextOf_same _ _ _).1.trans (HashTable.cutRun_same _ _ _).2
  · have hcount : L.countP (env.key · = k) = 0 := List.countP_eq_zero.mpr (by simpa using hall)
    rw [List.filter_eq_self.mpr (by simpa using hall), hcount]
    refine ⟨t, ?_, ⟨h, hcounted, rfl, rfl⟩⟩
    simp only [hfind, Option.bind_eq_bind, Option.bind_some, Option.pure_def]

end Erase

end CountedTable

end Rtfsc.Stl
