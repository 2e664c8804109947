import Mathlib.Data.Finset.Card
import Rtfsc.Stl.PrimeRehash
import Rtfsc.Stl.RehashEqual

/-!
# `_Hashtable`

The functions that find, insert and erase, as they work on the one chain of nodes and on the buckets. A
pointer to a node base is `none` for `&_M_before_begin`. A computation without a value has followed a null
pointer. Keys are taken up to `_Equal`, with which the hash has to agree.
-/

namespace Rtfsc.Stl

open Rtfsc.Machine

variable {ν κ : Type}

/-- What a table is made with: the hash, the key of a node, the primes, and `__unique_keys`. -/
structure HashEnv (ν κ : Type) where
  hash : RangeHash κ
  key : ν → κ
  primes : PrimeList
  uniqueKeys : Bool

/-- `_M_bucket_index` of a node. -/
def HashEnv.bucket (env : HashEnv ν κ) (t : HashTable ν) (x : ν) : Nat :=
  bucketIndex env.hash env.key t.bucketCount x

/-! ## Links and buckets -/

namespace HashTable

section Links

variable [DecidableEq ν] (t : HashTable ν)

/-- `__q->_M_nxt` -/
def nextOf : Option ν → Option ν
  | none => t.beforeBegin
  | some x => t.next x

/-- `__q->_M_nxt = __v` -/
def setNextOf (q v : Option ν) : HashTable ν :=
  match q with
  | none => { t with beforeBegin := v }
  | some x => { t with next := Function.update t.next x v }

/-- `_M_buckets[__bkt] = __q` -/
def setBucket (bkt : Nat) (q : Option (Option ν)) : HashTable ν :=
  { t with buckets := Function.update t.buckets bkt q }

/-- `__node->_M_nxt = __q->_M_nxt; __q->_M_nxt = __node` -/
def linkBehind (q : Option ν) (node : ν) : HashTable ν :=
  (t.setNextOf (some node) (t.nextOf q)).setNextOf q (some node)

end Links

variable [DecidableEq ν] [DecidableEq κ] (env : HashEnv ν κ) (t : HashTable ν)

/-- The loop of `_M_find_before_node`, at the node `p` behind `prev`. -/
def findBeforeFrom (n : Nat) (k : κ) : Nat → Option ν → ν → Option (Option (Option ν))
  | 0, _, _ => none
  | fuel + 1, prev, p =>
    if env.key p = k then some (some prev)
    else
      match t.next p with
      | none => some none
      | some y => if env.bucket t y ≠ n then some none else findBeforeFrom n k fuel (some p) y

/-- `_M_find_before_node` -/
def findBeforeNode (fuel n : Nat) (k : κ) : Option (Option (Option ν)) :=
  match t.buckets n with
  | none => some none
  | some prev => do
    let p ← t.nextOf prev
    t.findBeforeFrom env n k fuel prev p

/-- `_M_find_node` -/
def findNode (fuel n : Nat) (k : κ) : Option (Option ν) := do
  match ← t.findBeforeNode env fuel n k with
  | none => return none
  | some prev => return t.nextOf prev

/-- The loop of `_M_get_previous_node`. -/
def previousFrom (n : ν) : Nat → Option ν → Option (Option ν)
  | 0, _ => none
  | fuel + 1, prev =>
    match t.nextOf prev with
    | none => none
    | some x => if x = n then some prev else previousFrom n fuel (some x)

/-- `_M_get_previous_node` -/
def getPreviousNode (fuel bkt : Nat) (n : ν) : Option (Option ν) := do
  let prev ← t.buckets bkt
  t.previousFrom n fuel prev

/-- `_M_bucket_begin` -/
def bucketBegin (bkt : Nat) : Option ν :=
  match t.buckets bkt with
  | none => none
  | some q => t.nextOf q

/-- `_M_insert_bucket_begin` -/
def insertBucketBegin (bkt : Nat) (node : ν) : HashTable ν :=
  match t.buckets bkt with
  | some q => t.linkBehind q node
  | none =>
    let t := t.linkBehind none node
    let t :=
      match t.next node with
      | some y => t.setBucket (env.bucket t y) (some (some node))
      | none => t
    t.setBucket bkt (some none)

/-- The bucket behind `node` if `node` has been put behind the hint and may be the last one of its own. -/
def updateNextBucket (bkt : Nat) (node : ν) : HashTable ν :=
  match t.next node with
  | none => t
  | some y =>
    if env.key y ≠ env.key node then
      let nextBkt := env.bucket t y
      if nextBkt ≠ bkt then t.setBucket nextBkt (some (some node)) else t
    else t

/-- `_M_remove_bucket_begin` -/
def removeBucketBegin (bkt : Nat) (next : Option ν) (nextBkt : Nat) : HashTable ν :=
  if next = none ∨ nextBkt ≠ bkt then
    let t := if next = none then t else t.setBucket nextBkt (t.buckets bkt)
    let t := if t.buckets bkt = some none then t.setNextOf none next else t
    t.setBucket bkt none
  else t

end HashTable

/-! ## The whole table -/

/-- `_Hashtable`: with `_M_element_count`, the policy's `_M_next_resize` and the nodes that have been
allocated and not given back. -/
structure CountedTable (ν : Type) extends HashTable ν where
  elementCount : Nat
  nextResize : Nat
  live : Finset ν

/-- How an insertion ends: at a node with the key, at the new one, or it throws. -/
inductive InsertResult (ν : Type)
  | present (x : ν)
  | inserted (x : ν)
  | threw

namespace CountedTable

variable [DecidableEq ν] [DecidableEq κ] (env : HashEnv ν κ) (t : CountedTable ν)

/-- What the policy is asked about. -/
def counts : HashCounts := ⟨t.bucketCount, t.elementCount, t.nextResize⟩

/-- The constructor with a bucket hint. -/
def construct (bucketHint : Nat) : CountedTable ν :=
  let counts := HashCounts.construct env.primes bucketHint
  ⟨⟨counts.bucketCount, fun _ => none, none, fun _ => none⟩, 0, counts.nextResize, ∅⟩

/-- `_M_allocate_node` -/
def allocateNode (node : ν) : CountedTable ν := { t with live := insert node t.live }

/-- `_M_deallocate_node` -/
def deallocateNode (node : ν) : CountedTable ν := { t with live := t.live.erase node }

/-- What an erased node takes with it: `_M_deallocate_node(__n)` and `--_M_element_count`. -/
def dropNode (node : ν) : CountedTable ν :=
  { t.deallocateNode node with elementCount := t.elementCount - 1 }

/-- More steps than any chain has. -/
def fuel : Nat := t.live.card + 1

/-- `_M_rehash` -/
def rehashTo (n savedState : Nat) (throws : Bool) : Option (CountedTable ν × HashOutcome) :=
  if throws then some ({ t with nextResize := savedState }, .threw)
  else do
    let (table, _) ←
      if env.uniqueKeys then rehashAuxUnique env.hash env.key n t.fuel t.toHashTable
      else rehashAuxMulti env.hash env.key n t.fuel t.toHashTable
    return ({ t with toHashTable := table }, .rehashed)

/-- `_M_rehash` if the policy asks for it. -/
def growFor (nElt : Nat) (throws : Bool) : Option (CountedTable ν × HashOutcome) :=
  let savedState := t.nextResize
  let (doRehash, nextResize) := needRehash env.primes t.bucketCount t.elementCount nElt t.nextResize
  let t := { t with nextResize := nextResize }
  if doRehash.1 then t.rehashTo env doRehash.2 savedState throws else some (t, .kept)

/-- `_M_insert_unique_node`, and whether it returns. -/
def insertUniqueNode (bkt : Nat) (node : ν) (nElt : Nat) (throws : Bool) :
    Option (CountedTable ν × Bool) := do
  let (t, outcome) ← t.growFor env nElt throws
  if outcome = .threw then return (t.deallocateNode node, false)
  let bkt := if outcome = .rehashed then env.bucket t.toHashTable node else bkt
  return ({ t with
    toHashTable := t.insertBucketBegin env bkt node
    elementCount := t.elementCount + 1 }, true)

/-- `_M_insert` for unique keys. `node` is what the node generator makes, nothing if it throws. -/
def insertUnique (k : κ) (node : Option ν) (nElt : Nat) (throws : Bool) :
    Option (CountedTable ν × InsertResult ν) := do
  let bkt := env.hash.index k t.bucketCount
  match ← t.findNode env t.fuel bkt k with
  | some x => return (t, .present x)
  | none =>
    match node with
    | none => return (t, .threw)
    | some p =>
      let (t, returned) ← (t.allocateNode p).insertUniqueNode env bkt p nElt throws
      return (t, if returned then .inserted p else .threw)

/-- `_M_emplace` for unique keys: the node is there before its key is looked for. -/
def emplaceUnique (node : Option ν) (throws : Bool) : Option (CountedTable ν × InsertResult ν) := do
  match node with
  | none => return (t, .threw)
  | some p =>
    let t := t.allocateNode p
    let bkt := env.bucket t.toHashTable p
    match ← t.findNode env t.fuel bkt (env.key p) with
    | some x => return (t.deallocateNode p, .present x)
    | none =>
      let (t, returned) ← t.insertUniqueNode env bkt p 1 throws
      return (t, if returned then .inserted p else .threw)

/-- The node before an equivalent one, or the hint if it is equivalent. -/
def hintOrBefore (hint : Option ν) (bkt : Nat) (k : κ) : Option (Option (Option ν)) :=
  match hint with
  | some h => if env.key h = k then some (some (some h)) else t.findBeforeNode env t.fuel bkt k
  | none => t.findBeforeNode env t.fuel bkt k

/-- The node comes in behind `prev`, or at the beginning of its bucket if there is no equivalent one. -/
def placeMulti (t : HashTable ν) (hint : Option ν) (bkt : Nat) (node : ν) :
    Option (Option ν) → HashTable ν
  | none => t.insertBucketBegin env bkt node
  | some prev =>
    let t := t.linkBehind prev node
    if hint ≠ none ∧ prev = hint then t.updateNextBucket env bkt node else t

/-- `_M_insert_multi_node`, and whether it returns. -/
def insertMultiNode (hint : Option ν) (node : ν) (throws : Bool) : Option (CountedTable ν × Bool) := do
  let (t, outcome) ← t.growFor env 1 throws
  if outcome = .threw then return (t.deallocateNode node, false)
  let bkt := env.bucket t.toHashTable node
  let prev ← t.hintOrBefore env hint bkt (env.key node)
  return ({ t with
    toHashTable := placeMulti env t.toHashTable hint bkt node prev
    elementCount := t.elementCount + 1 }, true)

/-- `_M_insert` for equivalent keys. -/
def insertMulti (hint node : Option ν) (throws : Bool) : Option (CountedTable ν × InsertResult ν) := do
  match node with
  | none => return (t, .threw)
  | some p =>
    let (t, returned) ← (t.allocateNode p).insertMultiNode env hint p throws
    return (t, if returned then .inserted p else .threw)

/-- What `_M_erase(__bkt, __prev_n, __n)` does to the buckets. -/
def eraseBucket (t : HashTable ν) (bkt : Nat) (prev : Option ν) (n : ν) : HashTable ν :=
  if t.buckets bkt = some prev then
    t.removeBucketBegin bkt (t.next n)
      (match t.next n with
        | some y => env.bucket t y
        | none => 0)
  else
    match t.next n with
    | none => t
    | some y =>
      let nextBkt := env.bucket t y
      if nextBkt ≠ bkt then t.setBucket nextBkt (some prev) else t

/-- `_M_erase(__bkt, __prev_n, __n)` -/
def eraseNode (bkt : Nat) (prev : Option ν) (n : ν) : CountedTable ν × Option ν :=
  let table := eraseBucket env t.toHashTable bkt prev n
  let t := { t with toHashTable := table.setNextOf prev (table.next n) }
  let result := t.next n
  (t.dropNode n, result)

/-- `erase(const_iterator)` -/
def erase (n : ν) : Option (CountedTable ν × Option ν) := do
  let bkt := env.bucket t.toHashTable n
  let prev ← t.getPreviousNode t.fuel bkt n
  return t.eraseNode env bkt prev n

/-- `_M_erase(std::true_type, const key_type&)` -/
def eraseKeyUnique (k : κ) : Option (CountedTable ν × Nat) := do
  let bkt := env.hash.index k t.bucketCount
  match ← t.findBeforeNode env t.fuel bkt k with
  | none => return (t, 0)
  | some prev =>
    let n ← t.nextOf prev
    return ((t.eraseNode env bkt prev n).1, 1)

/-- The first loop of `_M_erase(std::false_type, const key_type&)`: `__n_last` and its bucket. -/
def lastEqualFrom (bkt : Nat) (k : κ) : Nat → ν → Option (Option ν × Nat)
  | 0, _ => none
  | fuel + 1, nLast =>
    match t.next nLast with
    | none => some (none, bkt)
    | some y =>
      let nLastBkt := env.bucket t.toHashTable y
      if nLastBkt = bkt ∧ env.key y = k then lastEqualFrom bkt k fuel y else some (some y, nLastBkt)

/-- The second loop: how many nodes there were from `n` up to `nLast`. -/
def dropUntil (nLast : Option ν) : Nat → CountedTable ν → ν → Nat → Option (CountedTable ν × Nat)
  | 0, _, _, _ => none
  | fuel + 1, t, n, result =>
    let p := t.next n
    let t := t.dropNode n
    if p ≠ nLast then
      match p with
      | none => none
      | some p => dropUntil nLast fuel t p (result + 1)
    else some (t, result + 1)

/-- `_M_erase(std::false_type, const key_type&)` -/
def eraseKeyMulti (k : κ) : Option (CountedTable ν × Nat) := do
  let bkt := env.hash.index k t.bucketCount
  match ← t.findBeforeNode env t.fuel bkt k with
  | none => return (t, 0)
  | some prev =>
    let n ← t.nextOf prev
    let (nLast, nLastBkt) ← t.lastEqualFrom env bkt k t.fuel n
    let (t, result) ← dropUntil nLast t.fuel t n 0
    let table :=
      if t.buckets bkt = some prev then t.removeBucketBegin bkt nLast nLastBkt
      else if nLast ≠ none ∧ nLastBkt ≠ bkt then t.setBucket nLastBkt (some prev)
      else t.toHashTable
    return ({ t with toHashTable := table.setNextOf prev nLast }, result)

/-- The inner loop of `erase(const_iterator, const_iterator)`: up to the end of the bucket or to `last`. -/
def eraseRun (last : Option ν) (bkt : Nat) :
    Nat → CountedTable ν → ν → Nat → Option (CountedTable ν × Option ν × Nat)
  | 0, _, _, _ => none
  | fuel + 1, t, n, nBkt =>
    let next := t.next n
    let t := t.dropNode n
    match next with
    | none => some (t, none, nBkt)
    | some n =>
      let nBkt := env.bucket t.toHashTable n
      if some n ≠ last ∧ nBkt = bkt then eraseRun last bkt fuel t n nBkt else some (t, some n, nBkt)

/-- The outer loop, bucket after bucket: where it ends, with `__bkt`, `__n_bkt` and `__is_bucket_begin`. -/
def eraseRuns (last : Option ν) :
    Nat → CountedTable ν → ν → Nat → Nat → Bool → Option (CountedTable ν × Option ν × Nat × Nat × Bool)
  | 0, _, _, _, _, _ => none
  | fuel + 1, t, n, bkt, nBkt, isBucketBegin => do
    let (t, n, nBkt) ← eraseRun env last bkt t.fuel t n nBkt
    let t := if isBucketBegin then { t with toHashTable := t.removeBucketBegin bkt n nBkt } else t
    if n = last then return (t, n, bkt, nBkt, isBucketBegin)
    let n ← n
    eraseRuns last fuel t n nBkt nBkt true

/-- `erase(const_iterator, const_iterator)` -/
def eraseRange (first last : Option ν) : Option (CountedTable ν × Option ν) :=
  if first = last then some (t, first)
  else do
    let n ← first
    let bkt := env.bucket t.toHashTable n
    let prev ← t.getPreviousNode t.fuel bkt n
    let isBucketBegin : Bool := t.bucketBegin bkt = some n
    let (t, n, bkt, nBkt, isBucketBegin) ← eraseRuns env last t.fuel t n bkt bkt isBucketBegin
    let table :=
      if n ≠ none ∧ (nBkt ≠ bkt ∨ isBucketBegin) then t.setBucket nBkt (some prev) else t.toHashTable
    return ({ t with toHashTable := table.setNextOf prev n }, n)

/-- `_M_deallocate_nodes` -/
def deallocateNodes : Nat → CountedTable ν → Option ν → Option (CountedTable ν)
  | _, t, none => some t
  | 0, _, some _ => none
  | fuel + 1, t, some n => deallocateNodes fuel (t.deallocateNode n) (t.next n)

/-- `clear` -/
def clear : Option (CountedTable ν) := do
  let t ← deallocateNodes t.fuel t t.beforeBegin
  return { t with
    buckets := fun b => if b < t.bucketCount then none else t.buckets b
    elementCount := 0
    beforeBegin := none }

/-- `rehash` -/
def rehash (n : Nat) (throws : Bool) : Option (CountedTable ν × HashOutcome) :=
  let savedState := t.nextResize
  let buckets := max (bktForElements (t.elementCount + 1)) n
  let (buckets, nextResize) := nextBkt env.primes buckets t.nextResize
  let t := { t with nextResize := nextResize }
  if buckets ≠ t.bucketCount then t.rehashTo env buckets savedState throws
  else some ({ t with nextResize := savedState }, .kept)

/-- `find` -/
def find (k : κ) : Option (Option ν) := t.findNode env t.fuel (env.hash.index k t.bucketCount) k

end CountedTable

end Rtfsc.Stl
