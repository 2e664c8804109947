import Rtfsc.Machine.Wrapping
import Rtfsc.Machine.CachedTree
import Mathlib.Logic.Function.Basic

/-!
# The run queue of CFS

One `cfs_rq` without group throttling. The entities that wait are in a tree in the order of their
vruntime; the one that runs, `curr`, is not in the tree. Times are `u64` and compared by the sign of
their difference.
-/

namespace Rtfsc.Linux

open Rtfsc.Machine

/-- `struct load_weight` -/
structure LoadWeight where
  weight : BitVec 64
  invWeight : BitVec 32
deriving DecidableEq

/-- The constants and tunables of the scheduler, and `mul_u64_u32_shr` of the architecture. -/
structure SchedParams where
  nice0Load : BitVec 64
  wmultConst : BitVec 32
  wmultShift : Int
  fixedpointShift : Nat
  sysctlSchedLatency : BitVec 64
  sysctlSchedWakeupGranularity : BitVec 64
  gentleFairSleepers : Bool
  mulU64U32Shr : BitVec 64 → BitVec 32 → Int → BitVec 64

/-- `scale_load_down` -/
def scaleLoadDown (p : SchedParams) (w : BitVec 64) : BitVec 64 :=
  w >>> p.fixedpointShift

/-- `__update_inv_weight`: the inverse is computed once and kept. -/
def updateInvWeight (p : SchedParams) (lw : LoadWeight) : LoadWeight :=
  if lw.invWeight ≠ 0 then lw
  else
    let w := scaleLoadDown p lw.weight
    if p.wmultConst.setWidth 64 ≤ w then { lw with invWeight := 1 }
    else if w = 0 then { lw with invWeight := p.wmultConst }
    else { lw with invWeight := (p.wmultConst.setWidth 64 / w).setWidth 32 }

/-- `while (fact >> 32) { fact >>= 1; shift--; }`, for a factor that takes at most `n` rounds. -/
def narrowFact : Nat → BitVec 64 → Int → BitVec 64 × Int
  | 0, fact, shift => (fact, shift)
  | n + 1, fact, shift =>
    if fact >>> 32 ≠ 0 then narrowFact n (fact >>> 1) (shift - 1) else (fact, shift)

/-- Thirty-two rounds narrow every factor to 32 bits. -/
theorem narrowFact_lt {n : Nat} {fact : BitVec 64} {shift : Int} (h : fact.toNat < 2 ^ (32 + n)) :
    (narrowFact n fact shift).1.toNat < 2 ^ 32 := by
  induction n generalizing fact shift with
  | zero => exact h
  | succ n ih =>
    rw [narrowFact]
    split
    · apply ih
      rw [BitVec.toNat_ushiftRight, Nat.shiftRight_eq_div_pow]
      have hpow : 2 ^ (32 + (n + 1)) = 2 ^ (32 + n) * 2 ^ 1 := by
        rw [← Nat.pow_add, Nat.add_assoc]
      exact Nat.div_lt_of_lt_mul (by rwa [Nat.mul_comm, ← hpow])
    · next hz =>
      have hz' := congrArg BitVec.toNat (Decidable.not_not.1 hz)
      rw [BitVec.toNat_ushiftRight, Nat.shiftRight_eq_div_pow] at hz'
      exact (Nat.div_eq_zero_iff_lt (by decide)).1 hz'

/-- `__calc_delta`: `delta_exec * weight / lw.weight`. -/
def calcDelta (p : SchedParams) (deltaExec weight : BitVec 64) (lw : LoadWeight) :
    BitVec 64 × LoadWeight :=
  let lw := updateInvWeight p lw
  let (fact, shift) := narrowFact 32 (scaleLoadDown p weight) p.wmultShift
  let (fact, shift) :=
    narrowFact 32 ((fact.setWidth 32).setWidth 64 * lw.invWeight.setWidth 64) shift
  (p.mulU64U32Shr deltaExec (fact.setWidth 32) shift, lw)

/-- `calc_delta_fair` -/
def calcDeltaFair (p : SchedParams) (delta : BitVec 64) (load : LoadWeight) :
    BitVec 64 × LoadWeight :=
  if load.weight ≠ p.nice0Load then calcDelta p delta p.nice0Load load else (delta, load)

/-- `min_vruntime` of two times. -/
def minVruntime (minVruntime vruntime : BitVec 64) : BitVec 64 :=
  if (vruntime - minVruntime).toInt < 0 then vruntime else minVruntime

/-- `max_vruntime` of two times. -/
def maxVruntime (maxVruntime vruntime : BitVec 64) : BitVec 64 :=
  if 0 < (vruntime - maxVruntime).toInt then vruntime else maxVruntime

/-- `struct sched_entity` -/
structure SchedEntity where
  load : LoadWeight
  onRq : Bool
  execStart : BitVec 64
  sumExecRuntime : BitVec 64
  vruntime : BitVec 64
  prevSumExecRuntime : BitVec 64
deriving DecidableEq

/-- `struct cfs_rq`, together with the entities that its pointers may name. -/
structure CfsRq (ι : Type) where
  entity : ι → SchedEntity
  tasksTimeline : CachedTree ι
  curr : Option ι
  next : Option ι
  last : Option ι
  skip : Option ι
  minVruntime : BitVec 64

/-- The flags of `enqueue_entity` that are tested here. -/
structure EnqueueFlags where
  wakeup : Bool
  migrated : Bool
deriving DecidableEq

/-- The flags of `dequeue_entity` that are tested here. -/
structure DequeueFlags where
  sleep : Bool
  save : Bool
  move : Bool
deriving DecidableEq

/-- The buddy pointers. -/
inductive Buddy
  | skip
  | last
  | next
deriving DecidableEq

variable {ι : Type} [DecidableEq ι]

namespace CfsRq

/-- `se->on_rq` -/
def onRq (s : CfsRq ι) (se : ι) : Bool :=
  (s.entity se).onRq

/-- `se->vruntime` -/
def vruntime (s : CfsRq ι) (se : ι) : BitVec 64 :=
  (s.entity se).vruntime

/-- Assign to fields of an entity. -/
def update (s : CfsRq ι) (se : ι) (f : SchedEntity → SchedEntity) : CfsRq ι :=
  { s with entity := Function.update s.entity se (f (s.entity se)) }

/-- `entity_before` -/
def entityBefore (s : CfsRq ι) (a b : ι) : Bool :=
  serialBefore (s.vruntime a) (s.vruntime b)

/-- `update_min_vruntime` -/
def updateMinVruntime (s : CfsRq ι) : CfsRq ι :=
  let curr := s.curr.filter s.onRq
  let vruntime :=
    match curr with
    | some c => s.vruntime c
    | none => s.minVruntime
  let vruntime :=
    match s.tasksTimeline.leftmost with
    | some se => if curr = none then s.vruntime se else Linux.minVruntime vruntime (s.vruntime se)
    | none => vruntime
  { s with minVruntime := maxVruntime s.minVruntime vruntime }

/-- The assignments of `update_curr` to `curr`, which has run for `delta_exec`. -/
def charge (p : SchedParams) (now deltaExec : BitVec 64) (e : SchedEntity) : SchedEntity :=
  { e with
    execStart := now
    sumExecRuntime := e.sumExecRuntime + deltaExec
    vruntime := e.vruntime + (calcDeltaFair p deltaExec e.load).1
    load := (calcDeltaFair p deltaExec e.load).2 }

/-- `update_curr` before it calls `update_min_vruntime`; `none` when it returns early. -/
def chargeCurr (p : SchedParams) (now : BitVec 64) (s : CfsRq ι) : Option (CfsRq ι) :=
  match s.curr with
  | none => none
  | some curr =>
    let deltaExec := now - (s.entity curr).execStart
    if deltaExec.toInt ≤ 0 then none else some (s.update curr (charge p now deltaExec))

/-- `update_curr`, at the time `now` of the run queue's clock. -/
def updateCurr (p : SchedParams) (now : BitVec 64) (s : CfsRq ι) : CfsRq ι :=
  match s.chargeCurr p now with
  | none => s
  | some s => s.updateMinVruntime

/-- `place_entity` with `initial` 0 -/
def placeEntity (p : SchedParams) (se : ι) (s : CfsRq ι) : CfsRq ι :=
  let thresh :=
    if p.gentleFairSleepers then p.sysctlSchedLatency >>> 1 else p.sysctlSchedLatency
  s.update se fun e => { e with vruntime := maxVruntime e.vruntime (s.minVruntime - thresh) }

/-- `__enqueue_entity` -/
def linkEntity (bal : Balancing ι) (se : ι) (s : CfsRq ι) : CfsRq ι :=
  { s with tasksTimeline := s.tasksTimeline.insert bal s.entityBefore se }

/-- `__dequeue_entity` -/
def unlinkEntity (bal : Balancing ι) (se : ι) (s : CfsRq ι) : CfsRq ι :=
  { s with tasksTimeline := s.tasksTimeline.erase bal se }

/-- `se->vruntime += cfs_rq->min_vruntime` -/
def renormalise (se : ι) (s : CfsRq ι) : CfsRq ι :=
  s.update se fun e => { e with vruntime := e.vruntime + s.minVruntime }

/-- `enqueue_entity`; `load` is the weight of the entity after `update_cfs_group`, which only changes
that of a group. -/
def enqueueEntity (p : SchedParams) (bal : Balancing ι) (se : ι) (flags : EnqueueFlags)
    (now : BitVec 64) (load : LoadWeight) (s : CfsRq ι) : CfsRq ι :=
  let renorm := !flags.wakeup || flags.migrated
  let curr : Bool := s.curr = some se
  let s := if renorm && curr then s.renormalise se else s
  let s := s.updateCurr p now
  let s := if renorm && !curr then s.renormalise se else s
  let s := s.update se fun e => { e with load := load }
  let s := if flags.wakeup then s.placeEntity p se else s
  let s := if !curr then s.linkEntity bal se else s
  s.update se fun e => { e with onRq := true }

/-- `clear_buddies` -/
def clearBuddies (se : ι) (s : CfsRq ι) : CfsRq ι :=
  { s with
    last := if s.last = some se then none else s.last
    next := if s.next = some se then none else s.next
    skip := if s.skip = some se then none else s.skip }

/-- `dequeue_entity`; `load` is the weight of the entity after `update_cfs_group`. -/
def dequeueEntity (p : SchedParams) (bal : Balancing ι) (se : ι) (flags : DequeueFlags)
    (now : BitVec 64) (load : LoadWeight) (s : CfsRq ι) : CfsRq ι :=
  let s := s.updateCurr p now
  let s := s.clearBuddies se
  let s := if s.curr ≠ some se then s.unlinkEntity bal se else s
  let s := s.update se fun e => { e with onRq := false }
  let s :=
    if !flags.sleep then
      s.update se fun e => { e with vruntime := e.vruntime - s.minVruntime }
    else s
  let s := s.update se fun e => { e with load := load }
  if flags.save && !flags.move then s else s.updateMinVruntime

/-- `put_prev_entity` -/
def putPrevEntity (p : SchedParams) (bal : Balancing ι) (prev : ι) (now : BitVec 64) (s : CfsRq ι) :
    CfsRq ι :=
  let s := if s.onRq prev then s.updateCurr p now else s
  let s := if s.onRq prev then s.linkEntity bal prev else s
  { s with curr := none }

/-- `set_next_entity` -/
def setNextEntity (bal : Balancing ι) (se : ι) (s : CfsRq ι) : CfsRq ι :=
  let s := if s.onRq se then s.unlinkEntity bal se else s
  let s := { s with curr := some se }
  s.update se fun e => { e with prevSumExecRuntime := e.sumExecRuntime }

/-- `wakeup_preempt_entity`; the inverse weight of `se` may be filled in. -/
def wakeupPreemptEntity (p : SchedParams) (curr se : ι) (s : CfsRq ι) : Int × CfsRq ι :=
  let vdiff := (s.vruntime curr - s.vruntime se).toInt
  if vdiff ≤ 0 then (-1, s)
  else
    let (gran, load) := calcDeltaFair p p.sysctlSchedWakeupGranularity (s.entity se).load
    let s := s.update se fun e => { e with load := load }
    if gran.toInt < vdiff then (1, s) else (0, s)

/-- `if (buddy && wakeup_preempt_entity(buddy, left) < 1) se = buddy;` -/
def preferBuddy (p : SchedParams) (buddy : Option ι) (left : ι) (r : ι × CfsRq ι) : ι × CfsRq ι :=
  match buddy with
  | none => r
  | some b =>
    let (w, s) := r.2.wakeupPreemptEntity p b left
    if w < 1 then (b, s) else (r.1, s)

/-- The leftmost of the tree and `curr`. -/
def leftOf (s : CfsRq ι) (curr : Option ι) : Option ι :=
  match s.tasksTimeline.leftmost, curr with
  | none, _ => curr
  | some left, none => some left
  | some left, some c => if s.entityBefore c left then some c else some left

/-- What may run in place of `left`, which is to be skipped. -/
def secondOf (s : CfsRq ι) (curr : Option ι) (left : ι) : Option ι :=
  if some left = curr then s.tasksTimeline.leftmost
  else
    match s.tasksTimeline.next left, curr with
    | none, _ => curr
    | some second, none => some second
    | some second, some c => if s.entityBefore c second then some c else some second

/-- `pick_next_entity`; `none` when there is nothing to pick from. -/
def pickNextEntity (p : SchedParams) (curr : Option ι) (s : CfsRq ι) : Option (ι × CfsRq ι) :=
  match s.leftOf curr with
  | none => none
  | some left =>
    let r := (left, s)
    let r := if s.skip = some left then preferBuddy p (s.secondOf curr left) left r else r
    let r := preferBuddy p r.2.last left r
    let r := preferBuddy p r.2.next left r
    some (r.1, r.2.clearBuddies r.1)

/-- The `curr` that `pick_next_entity` is given. -/
def givenCurr (s : CfsRq ι) : Option ι :=
  s.curr.filter s.onRq

/-- Name an entity as a buddy. -/
def setBuddy (b : Buddy) (se : ι) (s : CfsRq ι) : CfsRq ι :=
  match b with
  | .skip => { s with skip := some se }
  | .last => { s with last := some se }
  | .next => { s with next := some se }

/-- `pick_next_entity`, and the change to its result. -/
def switchNext (p : SchedParams) (bal : Balancing ι) (now : BitVec 64) (s : CfsRq ι) :
    Option (CfsRq ι) :=
  match s.pickNextEntity p s.givenCurr with
  | none => none
  | some (se, s) =>
    if s.curr = some se then some s
    else
      match s.curr with
      | none => some (s.setNextEntity bal se)
      | some prev => some ((s.putPrevEntity p bal prev now).setNextEntity bal se)

end CfsRq

/-- An operation on the run queue, with the time of its clock. -/
inductive CfsOp (ι : Type)
  | enqueue (se : ι) (flags : EnqueueFlags) (now : BitVec 64) (load : LoadWeight)
  | dequeue (se : ι) (flags : DequeueFlags) (now : BitVec 64) (load : LoadWeight)
  | updateCurr (now : BitVec 64)
  | setBuddy (b : Buddy) (se : ι)
  | putPrev (now : BitVec 64)
  | switchNext (now : BitVec 64)

namespace CfsRq

/-- One operation; `none` where it may not be called. -/
def step (p : SchedParams) (bal : Balancing ι) (s : CfsRq ι) : CfsOp ι → Option (CfsRq ι)
  | .enqueue se flags now load =>
    if s.onRq se then none else some (s.enqueueEntity p bal se flags now load)
  | .dequeue se flags now load =>
    if s.onRq se then some (s.dequeueEntity p bal se flags now load) else none
  | .updateCurr now => some (s.updateCurr p now)
  | .setBuddy b se => if s.onRq se then some (s.setBuddy b se) else none
  | .putPrev now =>
    match s.curr with
    | none => none
    | some prev => some (s.putPrevEntity p bal prev now)
  | .switchNext now => s.switchNext p bal now

/-- The run queue before its first operation. -/
def init (entity : ι → SchedEntity) (minVruntime : BitVec 64) : CfsRq ι where
  entity se := { entity se with onRq := false }
  tasksTimeline := .empty
  curr := none
  next := none
  last := none
  skip := none
  minVruntime := minVruntime

/-- The times of the entities on the queue and `min_vruntime` lie in one window. -/
def Windowed (s : CfsRq ι) : Prop :=
  ∃ base, InWindow base s.minVruntime ∧ ∀ se, s.onRq se = true → InWindow base (s.vruntime se)

end CfsRq

end Rtfsc.Linux
