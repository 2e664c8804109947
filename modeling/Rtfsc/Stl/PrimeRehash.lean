import Rtfsc.Machine.LowerBound
import Rtfsc.Stl.Rehash

/-!
# The rehash policy

`_Prime_rehash_policy` keeps in `_M_next_resize` the number of elements from which on an insertion asks for
more buckets. It is written where a number of buckets is asked for, before they are there, and taken back
where they are not to be had. In every state it goes with the number of buckets (`Consistent`), so the
table grows when it has to.
-/

namespace Rtfsc.Stl

open Rtfsc.Machine

/-- `__prime_list`, with the sentinel at its end. -/
structure PrimeList where
  entries : List Nat
  sorted : entries.Pairwise (· ≤ ·)
  length : 8 ≤ entries.length
  exceed : ∀ i, 6 ≤ i → i < entries.length → 13 < entries.getD i 0

namespace PrimeList

variable (primes : PrimeList)

def entry (i : Nat) : Nat := primes.entries.getD i 0

/-- `__last_prime`, by its index. -/
def lastIndex : Nat :=
  let nPrimes := primes.entries.length - 1
  nPrimes - 1

/-- `*__last_prime` -/
def last : Nat := primes.entry primes.lastIndex

end PrimeList

/-- `_M_max_load_factor` -/
def maxLoadFactor : Nat := 1

/-- `_S_growth_factor` -/
def growthFactor : Nat := 2

/-- `size_t(-1)` -/
def sizeMax : Nat := 0xffffffffffffffff

/-- `__fast_bkt` -/
def fastBkt : List Nat := [2, 2, 2, 3, 5, 5, 7, 7, 11, 11, 11, 11, 13, 13]

section Policy

variable (primes : PrimeList)

/-- `_M_next_bkt`, and `_M_next_resize` after it. -/
def nextBkt (n nextResize : Nat) : Nat × Nat :=
  match fastBkt[n]? with
  | some bkt => if n = 0 then (1, nextResize) else (bkt, bkt * maxLoadFactor)
  | none =>
    let next := partitionPoint (fun i => primes.entry i < n) 6 (primes.lastIndex - 6)
    if next = primes.lastIndex then (primes.entry next, sizeMax)
    else (primes.entry next, primes.entry next * maxLoadFactor)

/-- `_M_bkt_for_elements` -/
def bktForElements (n : Nat) : Nat := n / maxLoadFactor

/-- `_M_need_rehash`, and `_M_next_resize` after it. -/
def needRehash (nBkt nElt nIns nextResize : Nat) : (Bool × Nat) × Nat :=
  if nElt + nIns > nextResize then
    let minBkts := max (nElt + nIns) (if nextResize ≠ 0 then 0 else 11) / maxLoadFactor
    if minBkts ≥ nBkt then
      let (bkt, nextResize) := nextBkt primes (max (minBkts + 1) (nBkt * growthFactor)) nextResize
      ((true, bkt), nextResize)
    else ((false, 0), nBkt * maxLoadFactor)
  else ((false, 0), nextResize)

end Policy

/-- `_M_bucket_count`, `_M_element_count` and the policy's `_M_next_resize`. -/
structure HashCounts where
  bucketCount : Nat
  elementCount : Nat
  nextResize : Nat
deriving DecidableEq

/-- How a call ends: whether there are new buckets, or their allocation has thrown. -/
inductive HashOutcome
  | kept
  | rehashed
  | threw
deriving DecidableEq

namespace HashCounts

variable (primes : PrimeList) (s : HashCounts)

/-- The constructor with a bucket hint. -/
def construct (bucketHint : Nat) : HashCounts :=
  let (bkt, nextResize) := nextBkt primes bucketHint 0
  ⟨if bkt > 1 then bkt else 1, 0, nextResize⟩

/-- `_M_rehash`, with what `_M_rehash_aux` does to the counts. -/
def rehashTo (n savedState : Nat) (throws : Bool) : HashCounts × HashOutcome :=
  if throws then ({ s with nextResize := savedState }, .threw)
  else ({ s with bucketCount := n }, .rehashed)

/-- `_M_insert_unique_node` for the number of elements that are to come, and `_M_insert_multi_node`, which
asks for one. -/
def insertNode (nElt : Nat) (throws : Bool) : HashCounts × HashOutcome :=
  let savedState := s.nextResize
  let (doRehash, nextResize) := needRehash primes s.bucketCount s.elementCount nElt s.nextResize
  let s := { s with nextResize := nextResize }
  if doRehash.1 then
    let (s, outcome) := s.rehashTo doRehash.2 savedState throws
    if outcome = .threw then (s, outcome)
    else ({ s with elementCount := s.elementCount + 1 }, outcome)
  else ({ s with elementCount := s.elementCount + 1 }, .kept)

/-- `rehash` -/
def rehash (n : Nat) (throws : Bool) : HashCounts × HashOutcome :=
  let savedState := s.nextResize
  let buckets := max (bktForElements (s.elementCount + 1)) n
  let (buckets, nextResize) := nextBkt primes buckets s.nextResize
  let s := { s with nextResize := nextResize }
  if buckets ≠ s.bucketCount then s.rehashTo buckets savedState throws
  else ({ s with nextResize := savedState }, .kept)

end HashCounts

/-- A call, with whether the allocation of new buckets throws. An insertion has at least its own element
to come. -/
inductive HashCall
  | insertUnique (nElt : { n : Nat // 0 < n }) (throws : Bool)
  | insertMulti (throws : Bool)
  | rehash (n : Nat) (throws : Bool)

def HashCall.run (primes : PrimeList) (s : HashCounts) : HashCall → HashCounts × HashOutcome
  | .insertUnique nElt throws => s.insertNode primes nElt throws
  | .insertMulti throws => s.insertNode primes 1 throws
  | .rehash n throws => s.rehash primes n throws

/-- The elements that an insertion is told to come. -/
def HashCall.coming : HashCall → Option Nat
  | .insertUnique nElt _ => some nElt
  | .insertMulti _ => some 1
  | .rehash _ _ => none

/-- The state after the calls, from a constructor on. -/
def afterCalls (primes : PrimeList) (bucketHint : Nat) (calls : List HashCall) : HashCounts :=
  calls.foldl (fun s call => (call.run primes s).1) (.construct primes bucketHint)

namespace HashCounts

variable (primes : PrimeList) (s : HashCounts)

/-- What `_M_next_resize` may be. -/
def Consistent : Prop :=
  s.nextResize = 0 ∧ s.bucketCount = 1 ∨ s.nextResize = s.bucketCount ∨
    s.nextResize = sizeMax ∧ s.bucketCount = primes.last

/-- The load is at most one, as long as there are primes. -/
def Fits : Prop := s.elementCount ≤ s.bucketCount ∨ s.bucketCount = primes.last

end HashCounts

/-- What a call does to the counts. -/
structure CallRight (primes : PrimeList) (s : HashCounts) (call : HashCall) (s' : HashCounts)
    (outcome : HashOutcome) : Prop where
  fits : s'.Fits primes
  consistent : s'.Consistent primes
  grows : outcome = .rehashed → ∀ n, call.coming = some n →
    s.elementCount + n ≤ s'.bucketCount ∧ 2 * s.bucketCount ≤ s'.bucketCount ∨
      s'.bucketCount = primes.last
  counted : outcome ≠ .threw →
    s'.elementCount = s.elementCount + if call.coming.isSome then 1 else 0
  restored : outcome = .threw → s' = s

variable {primes : PrimeList} {s : HashCounts} {n : Nat}

/-! ## Numbers of buckets -/

theorem PrimeList.entry_mono {i j : Nat} (h : i ≤ j) (hj : j < primes.entries.length) :
    primes.entry i ≤ primes.entry j := by
  rcases Nat.eq_or_lt_of_le h with rfl | hlt
  · exact le_rfl
  · have hi : i < primes.entries.length := Nat.lt_trans hlt hj
    have hget : ∀ k (hk : k < primes.entries.length), primes.entry k = primes.entries[k] := fun k hk => by
      rw [entry, List.getD_eq_getElem?_getD, List.getElem?_eq_getElem hk, Option.getD_some]
    rw [hget i hi, hget j hj]
    exact List.pairwise_iff_getElem.1 primes.sorted i j hi hj hlt

theorem le_fastBkt {bkt : Nat} (h : fastBkt[n]? = some bkt) : n ≤ bkt := by
  have hall : ∀ k < 14, ∀ b, fastBkt[k]? = some b → k ≤ b := by decide
  exact hall n (List.getElem?_eq_some_iff.1 h).1 bkt h

/-- A number of buckets that is enough, with itself as the next threshold, or the last one. -/
theorem nextBkt_spec (primes : PrimeList) (hn : 0 < n) (nextResize : Nat) :
    n ≤ (nextBkt primes n nextResize).1 ∧
        (nextBkt primes n nextResize).2 = (nextBkt primes n nextResize).1 ∨
      (nextBkt primes n nextResize).1 = primes.last ∧ (nextBkt primes n nextResize).2 = sizeMax := by
  unfold nextBkt
  split
  · next bkt hbkt =>
    rw [if_neg (Nat.ne_of_gt hn)]
    exact .inl ⟨le_fastBkt hbkt, Nat.mul_one bkt⟩
  · have hlength := primes.length
    have hindex : primes.lastIndex = primes.entries.length - 1 - 1 := rfl
    obtain ⟨⟨-, hle⟩, -, hfrom⟩ := partitionPoint_spec (fun i => primes.entry i < n)
      (fun i j hij hj hlt => decide_eq_true
        (Nat.lt_of_le_of_lt (primes.entry_mono hij hj) (of_decide_eq_true hlt)))
      6 (primes.lastIndex - 6) (by omega)
    dsimp only
    split
    · next hlast => exact .inr ⟨congrArg primes.entry hlast, rfl⟩
    · next hlast =>
      have henough := of_decide_eq_false (hfrom _ le_rfl (by omega))
      exact .inl ⟨Nat.le_of_not_lt henough, Nat.mul_one _⟩

/-- Where more buckets are needed they are enough for what is to come and twice as many, and where they are
not there are enough. -/
theorem needRehash_spec (hs : s.Consistent primes) {nIns : Nat} (hpos : 0 < nIns)
    {r : (Bool × Nat) × Nat}
    (hr : needRehash primes s.bucketCount s.elementCount nIns s.nextResize = r) :
    r.1.1 = false ∧ ({ s with nextResize := r.2 } : HashCounts).Consistent primes ∧
        (s.elementCount + nIns ≤ s.bucketCount ∨ s.bucketCount = primes.last) ∨
      r.1.1 = true ∧ (s.elementCount + nIns ≤ r.1.2 ∧ 2 * s.bucketCount ≤ r.1.2 ∧ r.2 = r.1.2 ∨
        r.1.2 = primes.last ∧ r.2 = sizeMax) := by
  unfold needRehash at hr
  split at hr
  · have hone : ∀ k, k / maxLoadFactor = k := Nat.div_one
    rw [hone] at hr
    have hmin := Nat.le_max_left (s.elementCount + nIns) (if s.nextResize ≠ 0 then 0 else 11)
    generalize max (s.elementCount + nIns) (if s.nextResize ≠ 0 then 0 else 11) = minBkts at hr hmin
    dsimp only at hr
    split at hr
    · subst hr
      refine .inr ⟨rfl, ?_⟩
      have hgrow : s.bucketCount * growthFactor = 2 * s.bucketCount := Nat.mul_comm _ _
      obtain ⟨henough, hsame⟩ | hlast := nextBkt_spec primes
        (show 0 < max (minBkts + 1) (s.bucketCount * growthFactor) by omega) s.nextResize
      · dsimp only
        exact .inl ⟨by omega, by omega, hsame⟩
      · exact .inr hlast
    · next hfew =>
      subst hr
      exact .inl ⟨rfl, .inr (.inl (Nat.mul_one _)), .inl (by omega)⟩
  · next hroom =>
    subst hr
    refine .inl ⟨rfl, hs, ?_⟩
    obtain ⟨hzero, -⟩ | hsame | ⟨-, hlast⟩ := hs
    · exact absurd hpos (by omega)
    · exact .inl (by omega)
    · exact .inr hlast

/-! ## Calls -/

theorem PrimeList.one_lt_last : 1 < primes.last := by
  have hlength := primes.length
  have hindex : primes.lastIndex = primes.entries.length - 1 - 1 := rfl
  have hexceed : 13 < primes.last := primes.exceed primes.lastIndex (by omega) (by omega)
  omega

theorem construct_right (primes : PrimeList) (bucketHint : Nat) :
    (HashCounts.construct primes bucketHint).Consistent primes ∧
      (HashCounts.construct primes bucketHint).Fits primes := by
  refine ⟨?_, .inl (Nat.zero_le _)⟩
  rcases Nat.eq_zero_or_pos bucketHint with rfl | hpos
  · exact .inl ⟨rfl, rfl⟩
  have hbkt := nextBkt_spec primes hpos 0
  unfold HashCounts.construct
  generalize nextBkt primes bucketHint 0 = r at hbkt ⊢
  obtain ⟨bkt, nextResize⟩ := r
  obtain ⟨henough, hsame⟩ | ⟨hlast, hmax⟩ := hbkt
  · refine .inr (.inl ?_)
    dsimp only at henough hsame ⊢
    split <;> omega
  · have hone := primes.one_lt_last
    dsimp only at hlast hmax
    rw [← hlast] at hone
    exact .inr (.inr ⟨hmax, (if_pos hone).trans hlast⟩)

/-- `_M_rehash` to a number of buckets that comes from `_M_next_bkt` with its threshold. -/
theorem HashCounts.consistent_of_next {bkt nextResize : Nat}
    (h : nextResize = bkt ∨ bkt = primes.last ∧ nextResize = sizeMax) (elementCount : Nat) :
    HashCounts.Consistent primes ⟨bkt, elementCount, nextResize⟩ :=
  .inr (h.imp_right And.symm)

theorem insertNode_right (hs : s.Consistent primes) (hfits : s.Fits primes) {nElt : Nat}
    (hpos : 0 < nElt) (throws : Bool) {call : HashCall} (hcall : call.coming = some nElt) :
    CallRight primes s call (s.insertNode primes nElt throws).1 (s.insertNode primes nElt throws).2 := by
  have hadded : (if call.coming.isSome then 1 else 0) = 1 := by
    rw [hcall]
    rfl
  unfold HashCounts.insertNode
  generalize hneed : needRehash primes s.bucketCount s.elementCount nElt s.nextResize = r
  obtain ⟨⟨doRehash, bkt⟩, nextResize⟩ := r
  obtain ⟨rfl, hkept, henough⟩ | ⟨rfl, hbkt⟩ := needRehash_spec hs hpos hneed
  · change CallRight primes s call ⟨s.bucketCount, s.elementCount + 1, nextResize⟩ .kept
    exact
      { fits := henough.imp_left fun h => show s.elementCount + 1 ≤ s.bucketCount by omega
        consistent := hkept
        grows := nofun
        counted := fun _ => by rw [hadded]
        restored := nofun }
  dsimp only at hbkt
  cases throws with
  | true =>
    change CallRight primes s call ⟨s.bucketCount, s.elementCount, s.nextResize⟩ .threw
    exact
      { fits := hfits
        consistent := hs
        grows := nofun
        counted := fun h => absurd rfl h
        restored := fun _ => rfl }
  | false =>
    change CallRight primes s call ⟨bkt, s.elementCount + 1, nextResize⟩ .rehashed
    exact
      { fits := hbkt.imp (fun h => show s.elementCount + 1 ≤ bkt by omega) And.left
        consistent := HashCounts.consistent_of_next (hbkt.imp_left fun h => h.2.2) _
        grows := fun _ n hn => by
          cases hcall.symm.trans hn
          exact hbkt.imp (fun h => ⟨h.1, h.2.1⟩) And.left
        counted := fun _ => by rw [hadded]
        restored := nofun }

theorem rehash_right (hs : s.Consistent primes) (hfits : s.Fits primes) (n : Nat) (throws : Bool) :
    CallRight primes s (.rehash n throws) (s.rehash primes n throws).1 (s.rehash primes n throws).2 := by
  have hall : s.elementCount + 1 ≤ max (bktForElements (s.elementCount + 1)) n :=
    Nat.le_trans (Nat.le_of_eq (Nat.div_one _).symm) (Nat.le_max_left _ _)
  have hbkt := nextBkt_spec primes
    (Nat.lt_of_lt_of_le (Nat.succ_pos _) hall) s.nextResize
  unfold HashCounts.rehash
  dsimp only
  generalize max (bktForElements (s.elementCount + 1)) n = wanted at hbkt hall ⊢
  generalize nextBkt primes wanted s.nextResize = r at hbkt ⊢
  obtain ⟨bkt, nextResize⟩ := r
  dsimp only at hbkt ⊢
  split
  · cases throws with
    | true =>
      change CallRight primes s (.rehash n true) ⟨s.bucketCount, s.elementCount, s.nextResize⟩ .threw
      exact
        { fits := hfits
          consistent := hs
          grows := nofun
          counted := fun h => absurd rfl h
          restored := fun _ => rfl }
    | false =>
      change CallRight primes s (.rehash n false) ⟨bkt, s.elementCount, nextResize⟩ .rehashed
      exact
        { fits := hbkt.imp (fun h => show s.elementCount ≤ bkt by omega) And.left
          consistent := HashCounts.consistent_of_next (hbkt.imp_left And.right) _
          grows := fun _ _ h => nomatch h
          counted := fun _ => rfl
          restored := nofun }
  · exact
      { fits := hfits
        consistent := hs
        grows := nofun
        counted := fun _ => rfl
        restored := nofun }

theorem HashCall.run_right (hs : s.Consistent primes) (hfits : s.Fits primes) (call : HashCall) :
    CallRight primes s call (call.run primes s).1 (call.run primes s).2 := by
  cases call with
  | insertUnique nElt throws => exact insertNode_right hs hfits nElt.2 throws rfl
  | insertMulti throws => exact insertNode_right hs hfits Nat.one_pos throws rfl
  | rehash n throws => exact rehash_right hs hfits n throws

/-- By induction on the calls. -/
theorem afterCalls_right (primes : PrimeList) (bucketHint : Nat) (calls : List HashCall) :
    (afterCalls primes bucketHint calls).Consistent primes ∧
      (afterCalls primes bucketHint calls).Fits primes := by
  obtain ⟨hs, hfits⟩ := construct_right primes bucketHint
  unfold afterCalls
  generalize HashCounts.construct primes bucketHint = s at hs hfits
  induction calls generalizing s with
  | nil => exact ⟨hs, hfits⟩
  | cons call calls ih =>
    have hright := call.run_right hs hfits
    exact ih _ hright.consistent hright.fits

/-- After any calls, those that throw among them, the threshold goes with the buckets and the elements
fit, and the next call keeps it so. -/
theorem calls_right (primes : PrimeList) (bucketHint : Nat) (calls : List HashCall) (call : HashCall) :
    (afterCalls primes bucketHint calls).Consistent primes ∧
      (afterCalls primes bucketHint calls).Fits primes ∧
      CallRight primes (afterCalls primes bucketHint calls) call
        (call.run primes (afterCalls primes bucketHint calls)).1
        (call.run primes (afterCalls primes bucketHint calls)).2 := by
  obtain ⟨hs, hfits⟩ := afterCalls_right primes bucketHint calls
  exact ⟨hs, hfits, call.run_right hs hfits⟩

end Rtfsc.Stl
