import Mathlib.Logic.Relation
import Rtfsc.Jdk.Synchronizer

/-!
# The queue of the synchronizer

Behind each node in the queue stands, by `prev`, one that was appended before, and what was appended between
the two has given up. So the first waiting node stands behind the head, and the nodes become the head
in the order in which they were appended.
-/

namespace Rtfsc.Jdk

open Rtfsc.Machine

variable {Θ ν : Type}

namespace SyncPc

/-- A thread that has the lock. -/
def holds : SyncPc Θ ν → Bool
  | .held | .setHead _ _ | .clearThread _ _ | .clearPrev _ _ | .clearNext _ | .unlock => true
  | _ => false

/-- The node that a thread waits with, or has become the head with. -/
def own : SyncPc Θ ν → Option ν
  | .addWaiter n | .enq n | .initHead n | .readHead n | .initTail n _ | .linkPrev n _ | .casTail n _
  | .linkNext n _ | .predecessor n | .isHead n _ | .tryAcquire n _ | .setHead n _ | .clearThread n _
  | .clearPrev n _ | .predStatus n _ | .skip _ n _ | .skipTo _ n _ | .skipStatus _ n _ | .skipped n _
  | .signal n _ _ | .park n | .cancel n | .cancelPrev n | .cancelNext n _ | .cancelMark n _ _ => some n
  | _ => none

/-- The thread that writes the first `tail`. -/
def starts : SyncPc Θ ν → Bool
  | .readHead _ | .initTail _ _ => true
  | _ => false

end SyncPc

/-- The thread of an event. -/
def SyncEvent.by : SyncEvent Θ ν → Θ
  | .acquire θ _ | .tryLock θ | .release θ | .newHead θ _ | .access θ | .giveUp θ | .wake θ => θ

namespace Sync

variable {s s' : Sync Θ ν} {θ : Θ} {x y n p : ν} {pc : SyncPc Θ ν} {e : SyncEvent Θ ν}

/-! ## The lock -/

/-- `state` tells whether a thread has the lock, and no two have it. -/
structure Locked (s : Sync Θ ν) : Prop where
  state : s.state = 0 ∨ s.state = 1
  holder : s.state = 1 ↔ ∃ θ, (s.pc θ).holds = true
  one : ∀ θ θ', (s.pc θ).holds = true → (s.pc θ').holds = true → θ = θ'

@[simp] theorem casNext_state [DecidableEq ν] (x : ν) (a b : Option ν) :
    (s.casNext x a b).state = s.state := by
  unfold casNext
  split <;> rfl

@[simp] theorem casNext_pc [DecidableEq ν] (x : ν) (a b : Option ν) : (s.casNext x a b).pc = s.pc := by
  unfold casNext
  split <;> rfl

@[simp] theorem unparkThread_state [DecidableEq Θ] (thread : Option Θ) :
    (s.unparkThread thread).state = s.state := by
  cases thread <;> rfl

@[simp] theorem unparkThread_pc [DecidableEq Θ] (thread : Option Θ) : (s.unparkThread thread).pc = s.pc := by
  cases thread <;> rfl

/-- A thread keeps the lock, takes it or gives it back. -/
def LockStep (state state' : Int) (pc pc' : SyncPc Θ ν) : Prop :=
  state' = state ∧ pc'.holds = pc.holds ∨
    state = 0 ∧ state' = 1 ∧ pc'.holds = true ∨ state' = 0 ∧ pc'.holds = false ∧ pc.holds = true

theorem Locked.step [DecidableEq Θ] (hl : s.Locked) (hpc : s'.pc = Function.update s.pc θ pc)
    (hlock : LockStep s.state s'.state (s.pc θ) pc) : s'.Locked := by
  have hself : s'.pc θ = pc := by rw [hpc, Function.update_self]
  have hother : ∀ u, u ≠ θ → s'.pc u = s.pc u := fun u hu => by rw [hpc, Function.update_of_ne hu]
  obtain ⟨hstate, hholder, hone⟩ := hl
  rcases hlock with ⟨hsame, hholds⟩ | ⟨h0, h1, hpcs⟩ | ⟨h0, hpcs, hheld⟩
  · have hall : ∀ u, (s'.pc u).holds = (s.pc u).holds := fun u => by
      rcases eq_or_ne u θ with rfl | hu
      · rw [hself, hholds]
      · rw [hother u hu]
    constructor
    · rwa [hsame]
    · simpa only [hsame, hall] using hholder
    · simpa only [hall] using hone
  · have honly : ∀ u, (s'.pc u).holds = true → u = θ := fun u hu => by
      by_contra hne
      rw [hother u hne] at hu
      exact absurd (h0.symm.trans (hholder.mpr ⟨u, hu⟩)) (by decide)
    exact ⟨.inr h1, iff_of_true h1 ⟨θ, hself ▸ hpcs⟩, fun u v hu hv => (honly u hu).trans (honly v hv).symm⟩
  · have hnone : ∀ u, ¬(s'.pc u).holds = true := fun u hu => by
      rcases eq_or_ne u θ with rfl | hne
      · rw [hself, hpcs] at hu
        cases hu
      · rw [hother u hne] at hu
        exact hne (hone u θ hu hheld)
    exact ⟨.inl h0, iff_of_false (by rw [h0]; decide) fun ⟨u, hu⟩ => hnone u hu,
      fun u _ hu => absurd hu (hnone u)⟩

/-! ## The order -/

/-- `y` was appended before `x`, and what was appended between them has given up. -/
def Behind (s : Sync Θ ν) (y x : ν) : Prop :=
  0 < s.place y ∧ s.place y < s.place x ∧
    ∀ z, s.place y < s.place z → s.place z < s.place x → s.Cancelled z

/-- The nodes, whatever the threads are doing. -/
structure Ordered (s : Sync Θ ν) : Prop where
  prev : ∀ x y, 0 < s.place x → s.prev x = some y → s.Behind y x
  linked : ∀ h x, s.head = some h → s.place h < s.place x → s.prev x ≠ none
  head : ∀ h, s.head = some h → 0 < s.place h ∧ ¬s.Cancelled h
  tail : ∀ t, s.tail = some t → 0 < s.place t ∧ ∀ z, s.place t < s.place z → s.Cancelled z
  noTail : s.tail = none → ∀ z, 0 < s.place z → s.head = some z
  noHead : s.head = none → s.tail = none
  inj : ∀ x y, 0 < s.place x → s.place x = s.place y → x = y
  le : ∀ x, s.place x ≤ s.appended
  made : ∀ x, 0 < s.place x → s.made x = true
  cancelled : ∀ x, s.Cancelled x → 0 < s.place x

/-- A node that has not been appended yet. -/
def Fresh (s : Sync Θ ν) (x : ν) : Prop := s.place x = 0 ∧ ¬s.Cancelled x

/-- A node in the queue that has not given up. -/
def Waits (s : Sync Θ ν) (x : ν) : Prop :=
  ¬s.Cancelled x ∧ ∃ h, s.head = some h ∧ s.place h < s.place x

/-- What a thread knows where it is. -/
def Doing (s : Sync Θ ν) : SyncPc Θ ν → Prop
  | .threw => False
  | .addWaiter n | .enq n | .initHead n | .linkPrev n _ => s.Fresh n
  | .readHead n => s.Fresh n ∧ s.tail = none ∧ s.head ≠ none
  | .initTail n h => s.Fresh n ∧ s.tail = none ∧ s.head ≠ none ∧ s.head = h
  | .casTail n t => s.Fresh n ∧ s.prev n = some t
  | .predecessor n | .park n | .cancel n | .cancelPrev n => s.Waits n
  | .linkNext n p | .isHead n p | .predStatus n p | .skipStatus _ n p | .skipped n p
  | .cancelNext n p | .cancelMark n p _ => s.Waits n ∧ s.prev n = some p
  | .tryAcquire n p | .setHead n p => s.Waits n ∧ s.prev n = some p ∧ s.head = some p
  | .clearThread n _ | .clearPrev n _ => s.head = some n
  | .skip _ n p => s.Waits n ∧ s.prev n = some p ∧ s.Cancelled p
  | .skipTo _ n p => s.Waits n ∧ ∃ y, s.prev n = some y ∧ s.Cancelled y ∧ s.prev y = p
  | .signal n p ws => (s.Waits n ∧ s.prev n = some p) ∧ ws ≤ 0
  | .cancelSignal _ _ _ ws | .unparkClear _ _ ws => ws ≤ 0
  | .cancelTail n p _ | .cancelCasTail n p _ => s.Cancelled n ∧ s.prev n = some p
  | _ => True

/-- The nodes and the threads. -/
structure Queued (s : Sync Θ ν) : Prop extends Ordered s where
  own : ∀ θ x, (s.pc θ).own = some x → s.made x = true
  alone : ∀ θ θ' x, (s.pc θ).own = some x → (s.pc θ').own = some x → θ = θ'
  once : ∀ θ θ', (s.pc θ).starts = true → (s.pc θ').starts = true → θ = θ'
  doing : ∀ θ, s.Doing (s.pc θ)

/-- What a step of a thread leaves to the others. -/
structure Spares (s s' : Sync Θ ν) (θ : Θ) : Prop where
  node : ∀ u x, u ≠ θ → (s.pc u).own = some x →
    s'.place x = s.place x ∧ s'.prev x = s.prev x ∧ (s'.Cancelled x → s.Cancelled x)
  place : ∀ x, 0 < s.place x → s'.place x = s.place x
  cancelled : ∀ x, s.Cancelled x → s'.Cancelled x ∧ s'.prev x = s.prev x
  head : s'.head = s.head ∨ s.head = none ∨ ∃ n p, s.pc θ = .setHead n p ∧ s'.head = some n
  tail : s.tail = none → s'.tail = none ∨ (s.pc θ).starts = true

variable {u : Θ} {t : ν}

/-- Two nodes behind which the same one stands, and that have not given up, are one. -/
theorem Ordered.eq_of_behind (h : s.Ordered) (hx : s.Behind p x) (hy : s.Behind p y)
    (hnx : ¬s.Cancelled x) (hny : ¬s.Cancelled y) : x = y := by
  rcases Nat.lt_trichotomy (s.place x) (s.place y) with hlt | heq | hlt
  · exact absurd (hy.2.2 x hx.2.1 hlt) hnx
  · exact h.inj x y (Nat.lt_trans hx.1 hx.2.1) heq
  · exact absurd (hx.2.2 y hy.2.1 hlt) hny

theorem Behind.mono (hb : s.Behind y x) (hplace : s'.place = s.place)
    (hc : ∀ z, s.Cancelled z → s'.Cancelled z) : s'.Behind y x := by
  rw [Behind, hplace]
  exact ⟨hb.1, hb.2.1, fun z hz hzx => hc z (hb.2.2 z hz hzx)⟩

theorem Waits.pos (hx : s.Waits x) : 0 < s.place x := by
  obtain ⟨-, h, -, hlt⟩ := hx
  exact Nat.zero_lt_of_lt hlt

theorem Ordered.waits_behind (h : s.Ordered) (hx : s.Waits x) (hp : s.prev x = some p) : s.Behind p x :=
  h.prev x p hx.pos hp

theorem Queued.at (h : s.Queued) (hpc : s.pc θ = pc) : s.Doing pc := hpc ▸ h.doing θ

/-- A step leaves the head, or makes the node of its thread the head, which stands behind it. -/
theorem Queued.head_cases (h : s.Queued) (hs : s.Spares s' θ) (hp : s.head = some p) :
    s'.head = some p ∨ ∃ n, s.pc θ = .setHead n p ∧ s.Waits n ∧ s.Behind p n ∧ s'.head = some n := by
  rcases hs.head with hsame | hnone | ⟨n, q, hpc, hhead⟩
  · exact .inl (hsame.trans hp)
  · cases hp.symm.trans hnone
  · obtain ⟨hn, hprev, hq⟩ := h.at hpc
    cases hq.symm.trans hp
    exact .inr ⟨n, hpc, hn, h.waits_behind hn hprev, hhead⟩

/-- A node that waits behind the head while another one becomes the head waits behind that one. -/
theorem Queued.waits_keep (h : s.Queued) (hs : s.Spares s' θ) (hu : u ≠ θ) (hx : (s.pc u).own = some x)
    (hw : s.Waits x) : s'.Waits x := by
  obtain ⟨hplace, -, hc⟩ := hs.node u x hu hx
  obtain ⟨hxc, h₀, hh₀, hlt⟩ := hw
  refine ⟨fun hcx => hxc (hc hcx), ?_⟩
  rcases h.head_cases hs hh₀ with hsame | ⟨n, hpc, hn, hb, hhead⟩
  · refine ⟨h₀, hsame, ?_⟩
    rwa [hplace, hs.place h₀ (h.head h₀ hh₀).1]
  · refine ⟨n, hhead, ?_⟩
    rw [hplace, hs.place n hn.pos]
    rcases Nat.lt_trichotomy (s.place n) (s.place x) with hnx | heq | hxn
    · exact hnx
    · cases h.inj n x hn.pos heq
      exact absurd (h.alone u θ x hx (by rw [hpc]; rfl)) hu
    · exact absurd (hb.2.2 x hlt hxn) hxc

/-- The head does not change for a thread whose node stands behind it. -/
theorem Queued.head_keep (h : s.Queued) (hs : s.Spares s' θ) (hu : u ≠ θ) (hx : (s.pc u).own = some x)
    (hw : s.Waits x) (hprev : s.prev x = some p) (hp : s.head = some p) : s'.head = some p := by
  rcases h.head_cases hs hp with hsame | ⟨n, hpc, hn, hb, -⟩
  · exact hsame
  · cases h.eq_of_behind (h.waits_behind hw hprev) hb hw.1 hn.1
    exact absurd (h.alone u θ x hx (by rw [hpc]; rfl)) hu

/-- The first `tail` is written by one thread alone. -/
theorem Queued.starts_keep (h : s.Queued) (hs : s.Spares s' θ) (hu : u ≠ θ) (hstarts : (s.pc u).starts = true)
    (htail : s.tail = none) (hhead : s.head ≠ none) : s'.tail = none ∧ s'.head = s.head := by
  refine ⟨(hs.tail htail).resolve_right fun hθ => hu (h.once u θ hstarts hθ), ?_⟩
  obtain ⟨p, hp⟩ := Option.ne_none_iff_exists'.mp hhead
  rcases h.head_cases hs hp with hsame | ⟨n, hpc, hn, hb, -⟩
  · exact hsame.trans hp.symm
  · -- nothing has been appended behind the first head
    cases hp.symm.trans (h.noTail htail n hn.pos)
    exact absurd hb.2.1 (Nat.lt_irrefl _)

theorem Queued.doing_keep (h : s.Queued) (hl : s.Locked) (hs : s.Spares s' θ) (hu : u ≠ θ) :
    s'.Doing (s.pc u) := by
  have hd := h.doing u
  have hwaits : ∀ x, (s.pc u).own = some x → s.Waits x → s'.Waits x := fun x => h.waits_keep hs hu
  have hprev : ∀ x, (s.pc u).own = some x → s'.prev x = s.prev x := fun x hx => (hs.node u x hu hx).2.1
  have hfresh : ∀ x, (s.pc u).own = some x → s.Fresh x → s'.Fresh x := by
    intro x hx hf
    obtain ⟨hplace, -, hc⟩ := hs.node u x hu hx
    exact ⟨hplace.trans hf.1, fun hcx => hf.2 (hc hcx)⟩
  have hfirst := h.starts_keep hs hu
  have hbehind : ∀ x p, (s.pc u).own = some x → s.Waits x → s.prev x = some p → s.head = some p →
      s'.head = some p := fun x p => h.head_keep hs hu
  have hhead : ∀ n, (s.pc u).holds = true → s.head = some n → s'.head = some n := by
    intro n hholds hn
    rcases h.head_cases hs hn with hsame | ⟨m, hpc, -⟩
    · exact hsame
    · exact absurd (hl.one u θ hholds (by rw [hpc]; rfl)) hu
  generalize s.pc u = pc at hd hwaits hprev hfresh hfirst hbehind hhead
  cases pc with
  | threw => exact hd
  | addWaiter n | enq n | initHead n | linkPrev n => exact hfresh n rfl hd
  | readHead n =>
    obtain ⟨htail, hsame⟩ := hfirst rfl hd.2.1 hd.2.2
    exact ⟨hfresh n rfl hd.1, htail, hsame ▸ hd.2.2⟩
  | initTail n h₀ =>
    obtain ⟨htail, hsame⟩ := hfirst rfl hd.2.1 hd.2.2.1
    exact ⟨hfresh n rfl hd.1, htail, hsame ▸ hd.2.2.1, hsame.trans hd.2.2.2⟩
  | casTail n t => exact ⟨hfresh n rfl hd.1, (hprev n rfl).trans hd.2⟩
  | predecessor n | park n | cancel n | cancelPrev n => exact hwaits n rfl hd
  | linkNext n | isHead n | predStatus n | skipStatus _ n | skipped n | cancelNext n | cancelMark n =>
    exact ⟨hwaits n rfl hd.1, (hprev n rfl).trans hd.2⟩
  | signal n => exact ⟨⟨hwaits n rfl hd.1.1, (hprev n rfl).trans hd.1.2⟩, hd.2⟩
  | cancelSignal | unparkClear => exact hd
  | tryAcquire n p | setHead n p =>
    exact ⟨hwaits n rfl hd.1, (hprev n rfl).trans hd.2.1, hbehind n p rfl hd.1 hd.2.1 hd.2.2⟩
  | clearThread n | clearPrev n => exact hhead n rfl hd
  | skip loop n p =>
    exact ⟨hwaits n rfl hd.1, (hprev n rfl).trans hd.2.1, (hs.cancelled p hd.2.2).1⟩
  | skipTo loop n p =>
    obtain ⟨hw, y, hy, hc, hp⟩ := hd
    obtain ⟨hc', hp'⟩ := hs.cancelled y hc
    exact ⟨hwaits n rfl hw, y, (hprev n rfl).trans hy, hc', hp'.trans hp⟩
  | cancelTail n | cancelCasTail n =>
    obtain ⟨hc, hp⟩ := hs.cancelled n hd.1
    exact ⟨hc, hp.trans hd.2⟩
  | _ => trivial

/-- Nothing is written by which the nodes are queued. -/
structure SameQueue (s s' : Sync Θ ν) : Prop where
  head : s'.head = s.head := by rfl
  tail : s'.tail = s.tail := by rfl
  prev : s'.prev = s.prev := by rfl
  place : s'.place = s.place := by rfl
  appended : s'.appended = s.appended := by rfl
  made : s'.made = s.made := by rfl
  cancelled : ∀ x, s'.Cancelled x ↔ s.Cancelled x := by exact fun _ => Iff.rfl

theorem SameQueue.ordered (hs : s.SameQueue s') (h : s.Ordered) : s'.Ordered := by
  obtain ⟨hhead, htail, hprev, hplace, happended, hmade, hcancelled⟩ := hs
  obtain ⟨h₁, h₂, h₃, h₄, h₅, h₆, h₇, h₈, h₉, h₁₀⟩ := h
  constructor <;> simpa only [Behind, hhead, htail, hprev, hplace, happended, hmade, hcancelled]

theorem SameQueue.doing (hs : s.SameQueue s') (h : s.Doing pc) : s'.Doing pc := by
  obtain ⟨hhead, htail, hprev, hplace, -, -, hcancelled⟩ := hs
  cases pc <;>
    first | exact h | simpa only [Doing, Fresh, Waits, hhead, htail, hprev, hplace, hcancelled] using h

section Steps

variable [DecidableEq Θ]

/-- What a step does that takes a thread to `pc`. -/
structure Next (s s' : Sync Θ ν) (θ : Θ) (pc : SyncPc Θ ν) : Prop where
  ordered : s'.Ordered
  spares : s.Spares s' θ
  goes : s'.pc = Function.update s.pc θ pc
  lock : LockStep s.state s'.state (s.pc θ) pc
  made : ∀ x, s.made x = true → s'.made x = true
  own : ∀ x, pc.own = some x → (s.pc θ).own = some x ∨ s.made x = false ∧ s'.made x = true
  starts : pc.starts = true → (s.pc θ).starts = true ∨ s.head = none
  doing : s'.Doing pc
  behind : ∀ y x, s.Behind y x → s'.Behind y x

/-- What no other thread shares with one is not shared after its step. -/
theorem eq_of_update {α : Type} {f : Θ → α} {a : α} {R : α → α → Prop} (hR : ∀ a b, R a b → R b a)
    (hold : ∀ u v, R (f u) (f v) → u = v) (hnew : ∀ u, u ≠ θ → ¬R (f u) a) (u v : Θ)
    (h : R (Function.update f θ a u) (Function.update f θ a v)) : u = v := by
  by_cases hu : u = θ <;> by_cases hv : v = θ
  · exact hu.trans hv.symm
  · rw [hu, Function.update_self, Function.update_of_ne hv] at h
    exact absurd (hR _ _ h) (hnew v hv)
  · rw [hv, Function.update_self, Function.update_of_ne hu] at h
    exact absurd h (hnew u hu)
  · rw [Function.update_of_ne hu, Function.update_of_ne hv] at h
    exact hold u v h

theorem Queued.next (h : s.Queued) (hl : s.Locked) (hn : s.Next s' θ pc) : s'.Queued := by
  have hcase : ∀ u, u = θ ∧ s'.pc u = pc ∨ u ≠ θ ∧ s'.pc u = s.pc u := fun u => by
    rcases eq_or_ne u θ with rfl | hu
    · exact .inl ⟨rfl, by rw [hn.goes, Function.update_self]⟩
    · exact .inr ⟨hu, by rw [hn.goes, Function.update_of_ne hu]⟩
  refine { hn.ordered with
      own := fun u x hx => ?_
      alone := fun u v x hx hy => ?_
      once := fun u v hx hy => ?_
      doing := fun u => ?_ }
  · obtain ⟨rfl, hpc⟩ | ⟨-, hpc⟩ := hcase u
    · rw [hpc] at hx
      exact (hn.own x hx).elim (fun hold => hn.made x (h.own u x hold)) And.right
    · rw [hpc] at hx
      exact hn.made x (h.own u x hx)
  · rw [hn.goes] at hx hy
    refine eq_of_update (R := fun a b : SyncPc Θ ν => a.own = some x ∧ b.own = some x) (fun _ _ => And.symm)
      (fun u v hxy => h.alone u v x hxy.1 hxy.2) (fun w hw hxy => ?_) u v ⟨hx, hy⟩
    rcases hn.own x hxy.2 with hθ | ⟨hmade, -⟩
    · exact hw (h.alone w θ x hxy.1 hθ)
    · exact Bool.false_ne_true (hmade.symm.trans (h.own w x hxy.1))
  · rw [hn.goes] at hx hy
    refine eq_of_update (R := fun a b : SyncPc Θ ν => a.starts = true ∧ b.starts = true) (fun _ _ => And.symm)
      (fun u v hxy => h.once u v hxy.1 hxy.2) (fun w hw hxy => ?_) u v ⟨hx, hy⟩
    rcases hn.starts hxy.2 with hθ | hnone
    · exact hw (h.once w θ hxy.1 hθ)
    · have hd := h.doing w
      generalize s.pc w = pcw at hxy hd
      cases pcw with
      | readHead => exact hd.2.2 hnone
      | initTail => exact hd.2.2.1 hnone
      | _ => cases hxy.1
  · obtain ⟨rfl, hpc⟩ | ⟨hu, hpc⟩ := hcase u
    · exact hpc ▸ hn.doing
    · exact hpc ▸ h.doing_keep hl hn.spares hu

theorem Queued.go {s₁ : Sync Θ ν} {pc₀ : SyncPc Θ ν} (h : s.Queued) (hpc : s.pc θ = pc₀) (hdoing : s.Doing pc)
    (hs : s.SameQueue s₁ := by exact {}) (hsame : s₁.pc = s.pc := by rfl)
    (hlock : LockStep s.state s₁.state pc₀ pc := by exact .inl ⟨rfl, rfl⟩)
    (hown : ∀ x, pc.own = some x → pc₀.own = some x := by first | exact fun _ => id | exact nofun)
    (hstarts : pc.starts = true → pc₀.starts = true := by first | exact fun _ => rfl | exact nofun) :
    s.Next (s₁.setPc θ pc) θ pc := by
  have hs' : s.SameQueue (s₁.setPc θ pc) :=
    ⟨hs.head, hs.tail, hs.prev, hs.place, hs.appended, hs.made, hs.cancelled⟩
  subst hpc
  refine ⟨hs'.ordered h.toOrdered, ⟨fun _ x _ _ => ?_, fun x _ => congrFun hs.place x, fun x hx => ?_,
    .inl hs.head, fun htail => .inl (hs.tail.trans htail)⟩, hsame ▸ rfl, hlock, fun x hx => ?_,
    fun x hx => .inl (hown x hx), fun hx => .inl (hstarts hx), hs'.doing hdoing, fun y x hb => hb.mono hs.place fun z => (hs.cancelled z).mpr⟩
  · exact ⟨congrFun hs.place x, congrFun hs.prev x, (hs.cancelled x).mp⟩
  · exact ⟨(hs.cancelled x).mpr hx, congrFun hs.prev x⟩
  · rwa [hs'.made]

/-! ## The writes -/

theorem Queued.setHead (h : s.Queued) (hpc : s.pc θ = .setHead n p) :
    s.Next ({ s with head := some n }.setPc θ (.clearThread n p)) θ (.clearThread n p) := by
  obtain ⟨hw, hprev, hhead⟩ := h.at hpc
  have hb := h.waits_behind hw hprev
  refine ⟨{ h.toOrdered with linked := ?_, head := ?_, noTail := fun hnone => ?_, noHead := nofun },
    ⟨fun _ _ _ _ => ⟨rfl, rfl, id⟩, fun _ _ => rfl, fun x hx => ⟨hx, rfl⟩, .inr (.inr ⟨n, p, hpc, rfl⟩), .inl⟩,
    rfl, .inl ⟨rfl, by rw [hpc]; rfl⟩, fun _ => id, fun x hx => .inl (by rw [hpc]; exact hx), nofun, rfl,
    fun _ _ => id⟩
  · rintro _ x ⟨⟩ hlt
    exact h.linked p x hhead (Nat.lt_trans hb.2.1 hlt)
  · rintro _ ⟨⟩
    exact ⟨hw.pos, hw.1⟩
  · cases hhead.symm.trans (h.noTail hnone n hw.pos)
    exact absurd hb.2.1 (Nat.lt_irrefl _)

/-- `tail` is written, where what stands behind the new one has given up. -/
theorem Queued.setTail {pc₀ : SyncPc Θ ν} (h : s.Queued) (hpc : s.pc θ = pc₀)
    (ht : 0 < s.place t ∧ ∀ z, s.place t < s.place z → s.Cancelled z) (hhead : s.head ≠ none)
    (htail : s.tail = none → pc₀.starts = true) (hown : ∀ x, pc.own = some x → pc₀.own = some x)
    (hholds : pc.holds = pc₀.holds) (hstarts : pc.starts = false)
    (hdoing : ({ s with tail := some t } : Sync Θ ν).Doing pc) :
    s.Next ({ s with tail := some t }.setPc θ pc) θ pc := by
  subst hpc
  refine ⟨{ h.toOrdered with tail := ?_, noTail := nofun, noHead := fun hnone => absurd hnone hhead },
    ⟨fun _ _ _ _ => ⟨rfl, rfl, id⟩, fun _ _ => rfl, fun x hx => ⟨hx, rfl⟩, .inl rfl,
      fun hnone => .inr (htail hnone)⟩, rfl, .inl ⟨rfl, hholds⟩, fun _ => id, fun x hx => .inl (hown x hx),
    fun hx => absurd (hstarts.symm.trans hx) Bool.false_ne_true, ?_, fun _ _ => id⟩
  · rintro _ ⟨⟩
    exact ht
  · exact ({} : ({ s with tail := some t } : Sync Θ ν).SameQueue _).doing hdoing

variable [DecidableEq ν]

/-- A thread writes the `prev` of its node: a node that stands before it, or `null` where it is the head. -/
theorem Queued.setPrev {pc₀ : SyncPc Θ ν} {v : Option ν} (h : s.Queued) (hpc : s.pc θ = pc₀)
    (hn : pc₀.own = some n) (hc : ¬s.Cancelled n) (hv : ∀ y, v = some y → 0 < s.place n → s.Behind y n)
    (hnone : v = none → s.head = some n) (hown : ∀ x, pc.own = some x → pc₀.own = some x)
    (hholds : pc.holds = pc₀.holds) (hstarts : pc.starts = false) (hdoing : (s.setPrev n v).Doing pc) :
    s.Next ((s.setPrev n v).setPc θ pc) θ pc := by
  subst hpc
  have hprev : ∀ x, x ≠ n → (s.setPrev n v).prev x = s.prev x := fun x hx => Function.update_of_ne hx ..
  have hself : (s.setPrev n v).prev n = v := Function.update_self ..
  refine ⟨{ h.toOrdered with prev := fun x y hx hy => ?_, linked := fun h₀ x hh₀ hlt hx => ?_ },
    ⟨fun u x hu hx => ⟨rfl, hprev x ?_, id⟩, fun _ _ => rfl, fun x hx => ⟨hx, hprev x ?_⟩, .inl rfl, .inl⟩,
    rfl, .inl ⟨rfl, hholds⟩, fun _ => id, fun x hx => .inl (hown x hx),
    fun hx => absurd (hstarts.symm.trans hx) Bool.false_ne_true, ?_, fun _ _ => id⟩
  · rcases eq_or_ne x n with rfl | hne
    · exact hv y (hself.symm.trans hy) hx
    · exact h.prev x y hx ((hprev x hne).symm.trans hy)
  · rcases eq_or_ne x n with rfl | hne
    · cases hh₀.symm.trans (hnone (hself.symm.trans hx))
      exact absurd hlt (Nat.lt_irrefl _)
    · exact h.linked h₀ x hh₀ hlt ((hprev x hne).symm.trans hx)
  · rintro rfl
    exact hu (h.alone u θ x hx hn)
  · rintro rfl
    exact hc hx
  · exact ({} : (s.setPrev n v).SameQueue _).doing hdoing

/-- A node is placed behind all others. -/
structure PlacedLast (s : Sync Θ ν) (n : ν) : Prop where
  self : (s.append n).place n = s.appended + 1
  old : ∀ x, 0 < s.place x → (s.append n).place x = s.place x
  le : ∀ x, (s.append n).place x ≤ s.appended + 1
  placed : ∀ x, 0 < (s.append n).place x → x = n ∨ 0 < s.place x
  inj : ∀ x y, 0 < (s.append n).place x → (s.append n).place x = (s.append n).place y → x = y

theorem Ordered.place_last (h : s.Ordered) (hn : s.place n = 0) : s.PlacedLast n := by
  have hself : (s.append n).place n = s.appended + 1 := Function.update_self ..
  have hother : ∀ x, x ≠ n → (s.append n).place x = s.place x := fun x hx => Function.update_of_ne hx ..
  have hle := h.le
  refine ⟨hself, fun x hx => hother x ?_, fun x => ?_, fun x hx => ?_, fun x y hx hxy => ?_⟩
  · rintro rfl
    exact absurd hn (Nat.ne_of_gt hx)
  · rcases eq_or_ne x n with rfl | hne
    · exact Nat.le_of_eq hself
    · exact hother x hne ▸ Nat.le_succ_of_le (hle x)
  · rcases eq_or_ne x n with rfl | hne
    · exact .inl rfl
    · exact .inr (hother x hne ▸ hx)
  · by_cases hxn : x = n <;> by_cases hyn : y = n
    · exact hxn.trans hyn.symm
    · rw [hxn, hself, hother y hyn] at hxy
      exact absurd (hle y) (by omega)
    · rw [hyn, hself, hother x hxn] at hxy
      exact absurd (hle x) (by omega)
    · rw [hother x hxn] at hx hxy
      rw [hother y hyn] at hxy
      exact h.inj x y hx hxy

/-- What is placed later does not come between two nodes. -/
theorem Ordered.behind_append (h : s.Ordered) (hn : s.place n = 0) (hb : s.Behind y x) :
    (s.append n).Behind y x := by
  obtain ⟨hself, hold, -, hnew, -⟩ := h.place_last hn
  have hx := Nat.zero_lt_of_lt hb.2.1
  obtain ⟨hy, hlt, hbetween⟩ := hb
  rw [Behind, hold y hy, hold x hx]
  refine ⟨hy, hlt, fun z hz hzx => ?_⟩
  rcases hnew z (Nat.zero_lt_of_lt hz) with rfl | hzpos
  · rw [hself] at hzx
    exact absurd (h.le x) (by omega)
  · rw [hold z hzpos] at hz hzx
    exact hbetween z hz hzx

theorem Queued.append (h : s.Queued) (hpc : s.pc θ = .casTail n t) (htail : s.tail = some t) :
    s.Next ((s.append n).setPc θ (.linkNext n t)) θ (.linkNext n t) := by
  obtain ⟨⟨hzero, hc⟩, hprev⟩ := h.at hpc
  obtain ⟨hpos, hbeyond⟩ := h.tail t htail
  obtain ⟨hself, hold, hle, hnew, hinj⟩ := h.place_last hzero
  obtain ⟨h₀, hh₀⟩ : ∃ h₀, s.head = some h₀ := by
    refine Option.ne_none_iff_exists'.mp fun hnone => ?_
    cases htail.symm.trans (h.noHead hnone)
  have hpos₀ := (h.head h₀ hh₀).1
  have hlt : ∀ x, 0 < s.place x → (s.append n).place x < (s.append n).place n := fun x hx => by
    rw [hold x hx, hself]
    exact Nat.lt_succ_of_le (h.le x)
  have ho : (s.append n).Ordered := by
    refine {
        prev := fun x y hx hy => ?_
        linked := fun h₁ x hh₁ hlt => ?_
        head := fun h₁ hh₁ => ?_
        tail := ?_
        noTail := nofun
        noHead := fun hnone => nomatch hh₀.symm.trans hnone
        inj := hinj
        le := hle
        made := fun x hx => ?_
        cancelled := fun x hx => ?_ }
    · rcases hnew x hx with rfl | hxpos
      · cases hprev.symm.trans hy
        refine ⟨(hold t hpos).symm ▸ hpos, hlt t hpos, fun z hz hzn => ?_⟩
        rcases hnew z (Nat.zero_lt_of_lt hz) with rfl | hzpos
        · exact absurd hzn (Nat.lt_irrefl _)
        · rw [hold t hpos, hold z hzpos] at hz
          exact hbeyond z hz
      · exact h.behind_append hzero (h.prev x y hxpos hy)
    · cases hh₀.symm.trans hh₁
      rcases hnew x (Nat.zero_lt_of_lt hlt) with rfl | hxpos
      · exact fun hnone => nomatch hprev.symm.trans hnone
      · rw [hold x hxpos, hold h₀ hpos₀] at hlt
        exact h.linked h₀ x hh₀ hlt
    · exact ⟨(hold h₁ (h.head h₁ hh₁).1).symm ▸ (h.head h₁ hh₁).1, (h.head h₁ hh₁).2⟩
    · rintro _ ⟨⟩
      refine ⟨hself ▸ Nat.succ_pos _, fun z hz => absurd (hle z) ?_⟩
      rw [hself] at hz
      omega
    · rcases hnew x hx with rfl | hxpos
      · exact h.own θ x (by rw [hpc]; rfl)
      · exact h.made x hxpos
    · exact (hold x (h.cancelled x hx)).symm ▸ h.cancelled x hx
  have hs : (s.append n).SameQueue ((s.append n).setPc θ (.linkNext n t)) := {}
  refine ⟨hs.ordered ho, ⟨fun u x hu hx => ⟨Function.update_of_ne ?_ .., rfl, id⟩, hold, fun x hx => ⟨hx, rfl⟩,
    .inl rfl, fun hnone => nomatch htail.symm.trans hnone⟩, rfl, .inl ⟨rfl, by rw [hpc]; rfl⟩, fun _ => id,
    fun x hx => .inl (by rw [hpc]; exact hx), nofun, hs.doing ⟨⟨hc, h₀, hh₀, hlt h₀ hpos₀⟩, hprev⟩,
    fun _ _ => h.behind_append hzero⟩
  rintro rfl
  exact hu (h.alone u θ x hx (by rw [hpc]; rfl))

/-- A node has given up, and no other one. -/
structure Marks (s s' : Sync Θ ν) (n : ν) : Prop where
  self : s'.Cancelled n
  other : ∀ x, x ≠ n → (s'.Cancelled x ↔ s.Cancelled x)

theorem waitStatus_setStatus (x : ν) (v : Int) :
    (s.setStatus x v).waitStatus = Function.update s.waitStatus x v :=
  rfl

theorem marks_setStatus (s : Sync Θ ν) (n : ν) : s.Marks (s.setStatus n cancelledStatus) n := by
  refine ⟨?_, fun x hx => ?_⟩
  · rw [Cancelled, waitStatus_setStatus, Function.update_self]
    decide
  · rw [Cancelled, waitStatus_setStatus, Function.update_of_ne hx, Cancelled]

theorem Marks.mono (hm : s.Marks s' n) (hn : ¬s.Cancelled n) (x : ν) (hx : s.Cancelled x) : s'.Cancelled x := by
  refine (hm.other x ?_).mpr hx
  rintro rfl
  exact hn hx

theorem Queued.mark (h : s.Queued) {predNext : Option ν} (hpc : s.pc θ = .cancelMark n p predNext) :
    s.Next ((s.setStatus n cancelledStatus).setPc θ (.cancelTail n p predNext)) θ (.cancelTail n p predNext) := by
  obtain ⟨hw, hprev⟩ := h.at hpc
  have hmarks := marks_setStatus s n
  have hmono := hmarks.mono hw.1
  obtain ⟨hself, hother⟩ := hmarks
  refine ⟨{ h.toOrdered with
      prev := fun x y hx hy => ?_
      head := fun h₀ hh₀ => ?_
      tail := fun t ht => ?_
      cancelled := fun x hx => ?_ },
    ⟨fun u x hu hx => ⟨rfl, rfl, (hother x ?_).mp⟩, fun _ _ => rfl, fun x hx => ⟨hmono x hx, rfl⟩, .inl rfl, .inl⟩,
    rfl, .inl ⟨rfl, by rw [hpc]; rfl⟩, fun _ => id, nofun, nofun, ⟨hself, hprev⟩, fun _ _ hb => hb.mono rfl hmono⟩
  · exact (h.prev x y hx hy).mono rfl hmono
  · obtain ⟨hpos, hc⟩ := h.head h₀ hh₀
    refine ⟨hpos, fun hx => hc ((hother h₀ ?_).mp hx)⟩
    rintro rfl
    obtain ⟨-, h₁, hh₁, hlt⟩ := hw
    cases hh₀.symm.trans hh₁
    exact absurd hlt (Nat.lt_irrefl _)
  · obtain ⟨hpos, hbeyond⟩ := h.tail t ht
    exact ⟨hpos, fun z hz => hmono z (hbeyond z hz)⟩
  · rcases eq_or_ne x n with rfl | hne
    · exact hw.pos
    · exact h.cancelled x ((hother x hne).mp hx)
  · rintro rfl
    exact hu (h.alone u θ x hx (by rw [hpc]; rfl))

omit [DecidableEq Θ] [DecidableEq ν] in
theorem Ordered.fresh_of_not_made (h : s.Ordered) (hn : s.made n = false) : s.Fresh n := by
  have hzero : ¬0 < s.place n := fun hpos => Bool.false_ne_true (hn.symm.trans (h.made n hpos))
  exact ⟨Nat.eq_zero_of_not_pos hzero, fun hc => hzero (h.cancelled n hc)⟩

/-- The nodes do not matter that are not there yet. -/
structure Makes (s s' : Sync Θ ν) (n : ν) (θ : Θ) : Prop where
  ordered : s'.Ordered
  spares : s.Spares s' θ
  made : ∀ x, s.made x = true → s'.made x = true
  self : s'.made n = true
  cancelled : ∀ x, s'.Cancelled x ↔ s.Cancelled x

theorem Queued.newNode (h : s.Queued) (hn : s.made n = false) (thread : Option Θ) (θ : Θ) :
    s.Makes (s.newNode n thread) n θ := by
  have hc := (h.fresh_of_not_made hn).2
  have hne : ∀ x, s.made x = true → x ≠ n := by
    rintro x hx rfl
    exact Bool.false_ne_true (hn.symm.trans hx)
  have hprev : ∀ x, s.made x = true → (s.newNode n thread).prev x = s.prev x := fun x hx =>
    Function.update_of_ne (hne x hx) ..
  have hmade : ∀ x, s.made x = true → (s.newNode n thread).made x = true := fun x hx =>
    (Function.update_of_ne (hne x hx) ..).trans hx
  have hcancelled : ∀ x, (s.newNode n thread).Cancelled x ↔ s.Cancelled x := by
    intro x
    change 0 < Function.update s.waitStatus n 0 x ↔ _
    rcases eq_or_ne x n with rfl | hx
    · rw [Function.update_self]
      exact iff_of_false (by decide) hc
    · rw [Function.update_of_ne hx, Cancelled]
  refine ⟨{ h.toOrdered with
      prev := fun x y hx hy => ?_
      linked := fun h₀ x hh₀ hlt => ?_
      head := fun h₀ hh₀ => ?_
      tail := fun t ht => ?_
      made := fun x hx => hmade x (h.made x hx)
      cancelled := fun x hx => h.cancelled x ((hcancelled x).mp hx) },
    ⟨fun u x _ hx => ⟨rfl, hprev x (h.own u x hx), (hcancelled x).mp⟩, fun _ _ => rfl, fun x hx => ?_, .inl rfl,
      .inl⟩, hmade, Function.update_self .., hcancelled⟩
  · rw [hprev x (h.made x hx)] at hy
    exact (h.prev x y hx hy).mono rfl fun z => (hcancelled z).mpr
  · rw [hprev x (h.made x (Nat.zero_lt_of_lt hlt))]
    exact h.linked h₀ x hh₀ hlt
  · exact ⟨(h.head h₀ hh₀).1, fun hx => (h.head h₀ hh₀).2 ((hcancelled h₀).mp hx)⟩
  · exact ⟨(h.tail t ht).1, fun z hz => (hcancelled z).mpr ((h.tail t ht).2 z hz)⟩
  · exact ⟨(hcancelled x).mpr hx, hprev x (h.made x (h.cancelled x hx))⟩

theorem Queued.start (h : s.Queued) (hn : s.made n = false) (thread : Option Θ)
    (hown : ∀ x, pc.own = some x → (s.pc θ).own = some x ∨ x = n) (hholds : pc.holds = (s.pc θ).holds) (hstarts : pc.starts = false)
    (hdoing : (s.newNode n thread).Doing pc) : s.Next ((s.newNode n thread).setPc θ pc) θ pc := by
  obtain ⟨ho, hs, hmade, hself, hcancelled⟩ := h.newNode hn thread θ
  have hsame : (s.newNode n thread).SameQueue ((s.newNode n thread).setPc θ pc) := {}
  refine ⟨hsame.ordered ho, ⟨hs.node, hs.place, hs.cancelled, hs.head, hs.tail⟩, rfl, .inl ⟨rfl, hholds⟩, hmade, fun x hx => ?_,
    fun hx => absurd (hstarts.symm.trans hx) Bool.false_ne_true, hsame.doing hdoing,
    fun _ _ hb => hb.mono rfl fun z => (hcancelled z).mpr⟩
  rcases hown x hx with hold | rfl
  · exact .inl hold
  · exact .inr ⟨hn, hself⟩

theorem Queued.newHead (h : s.Queued) (hpc : s.pc θ = .initHead x) (hn : s.made n = false)
    (hnone : s.head = none) :
    s.Next ({ s.newNode n none with
        head := some n
        place := Function.update s.place n (s.appended + 1)
        appended := s.appended + 1 }.setPc θ (.readHead x)) θ (.readHead x) := by
  obtain ⟨ho, hs, hmade, hself, hcancelled⟩ := h.newNode hn none θ
  have hd := h.at hpc
  have hxn : x ≠ n := by
    rintro rfl
    exact Bool.false_ne_true (hn.symm.trans (h.own θ x (by rw [hpc]; rfl)))
  have hempty : ∀ z, ¬0 < s.place z := fun z hz => by
    cases hnone.symm.trans (h.noTail (h.noHead hnone) z hz)
  obtain ⟨hplace, -, hle, hnew, hinj⟩ := h.place_last (h.fresh_of_not_made hn).1
  have honly : ∀ z, 0 < (s.append n).place z → z = n := fun z hz => (hnew z hz).resolve_right (hempty z)
  have hnoc : ∀ z, ¬(s.newNode n none).Cancelled z := fun z hz => hempty z (ho.cancelled z hz)
  refine ⟨?_, ⟨fun u y hu hy => ⟨Function.update_of_ne ?_ .., (hs.node u y hu hy).2⟩,
    fun y hy => absurd hy (hempty y), hs.cancelled, .inr (.inl hnone), .inl⟩, rfl,
    .inl ⟨rfl, by rw [hpc]; rfl⟩, hmade,
    fun y hy => .inl (by rw [hpc]; exact hy), fun _ => .inr hnone,
    ⟨⟨(Function.update_of_ne hxn ..).trans hd.1, fun hc => hd.2 ((hcancelled x).mp hc)⟩, h.noHead hnone, nofun⟩,
    fun y _ hb => absurd hb.1 (hempty y)⟩
  · refine {
      prev := fun y z hy hz => ?_
      linked := ?_
      head := ?_
      tail := fun t ht => ?_
      noTail := fun _ z hz => congrArg some (honly z hz).symm
      noHead := nofun
      inj := hinj
      le := hle
      made := fun y hy => ?_
      cancelled := fun y hy => absurd hy (hnoc y) }
    · cases honly y hy
      cases hz.symm.trans (Function.update_self ..)
    · rintro _ y ⟨⟩ hlt
      cases honly y (Nat.zero_lt_of_lt hlt)
      exact absurd hlt (Nat.lt_irrefl _)
    · rintro _ ⟨⟩
      exact ⟨show 0 < (s.append n).place n from hplace.symm ▸ Nat.succ_pos _, hnoc n⟩
    · cases (h.noHead hnone).symm.trans ht
    · cases honly y hy
      exact hself
  · rintro rfl
    exact Bool.false_ne_true (hn.symm.trans (h.own u y hy))

/-! ## The steps -/

/-- A thread that knows nothing of the queue and has neither the lock nor a node. -/
structure Idles (s : Sync Θ ν) (pc : SyncPc Θ ν) : Prop where
  doing : s.Doing pc
  holds : pc.holds = false
  own : pc.own = none
  starts : pc.starts = false

/-- A status is written that is not above zero, where none was. -/
theorem SameQueue.setStatus {v : Int} (hn : ¬s.Cancelled n) (hv : v ≤ 0) : s.SameQueue (s.setStatus n v) := by
  refine { cancelled := fun x => ?_ }
  rcases eq_or_ne x n with rfl | hx
  · refine iff_of_false ?_ hn
    rw [Cancelled, waitStatus_setStatus, Function.update_self]
    omega
  · rw [Cancelled, waitStatus_setStatus, Function.update_of_ne hx, Cancelled]

theorem SameQueue.casNext (x : ν) (a b : Option ν) : s.SameQueue (s.casNext x a b) := by
  unfold Sync.casNext
  split <;> exact {}

theorem SameQueue.unparkThread (thread : Option Θ) : s.SameQueue (s.unparkThread thread) := by
  cases thread <;> exact {}

/-- A cancelled node behind the head has a predecessor, and that one too stands before what waits. -/
theorem Queued.skips (h : s.Queued) (hw : s.Waits n) (hp : s.prev n = some p) (hc : s.Cancelled p) :
    ∃ q, s.prev p = some q ∧ s.Behind q n := by
  have hb := h.waits_behind hw hp
  obtain ⟨-, h₀, hh₀, hlt⟩ := hw
  have hlt₀ : s.place h₀ < s.place p := by
    rcases Nat.lt_trichotomy (s.place h₀) (s.place p) with hlt₀ | heq | hgt
    · exact hlt₀
    · cases h.inj h₀ p (h.head h₀ hh₀).1 heq
      exact absurd hc (h.head p hh₀).2
    · exact absurd (hb.2.2 h₀ hgt hlt) (h.head h₀ hh₀).2
  obtain ⟨q, hq⟩ := Option.ne_none_iff_exists'.mp (h.linked h₀ p hh₀ hlt₀)
  obtain ⟨hpos, hqp, hbetween⟩ := h.prev p q hb.1 hq
  refine ⟨q, hq, hpos, Nat.lt_trans hqp hb.2.1, fun z hz hzn => ?_⟩
  rcases Nat.lt_trichotomy (s.place z) (s.place p) with hzp | heq | hpz
  · exact hbetween z hz hzp
  · rwa [← h.inj p z hb.1 heq.symm]
  · exact hb.2.2 z hpz hzn

theorem scan_cases (cancels : Bool) (n : ν) (found t : Option ν) :
    (scan cancels n found t : SyncPc Θ ν) = afterUnpark cancels n ∨
      (∃ x, found = some x ∧ (scan cancels n found t : SyncPc Θ ν) = .unparkThread cancels n x) ∨
      ∃ x, t = some x ∧ x ≠ n ∧ (scan cancels n found t : SyncPc Θ ν) = .scanStatus cancels n x found := by
  have hfound : scan.found cancels n found = (afterUnpark cancels n : SyncPc Θ ν) ∨
      ∃ x, found = some x ∧ (scan.found cancels n found : SyncPc Θ ν) = .unparkThread cancels n x := by
    cases found with
    | none => exact .inl rfl
    | some x => exact .inr ⟨x, rfl, rfl⟩
  unfold scan
  split
  · split
    · exact hfound.imp_right .inl
    · exact .inr (.inr ⟨_, rfl, ‹_›, rfl⟩)
  · exact hfound.imp_right .inl

theorem idles_scan (s : Sync Θ ν) (cancels : Bool) (n : ν) (found t : Option ν) :
    s.Idles (scan cancels n found t) := by
  rcases scan_cases (Θ := Θ) cancels n found t with heq | ⟨x, -, heq⟩ | ⟨x, -, -, heq⟩
  · rw [heq]
    cases cancels <;> exact ⟨trivial, rfl, rfl, rfl⟩
  · rw [heq]
    exact ⟨trivial, rfl, rfl, rfl⟩
  · rw [heq]
    exact ⟨trivial, rfl, rfl, rfl⟩

theorem Queued.access_next (h : s.Queued) (hacc : s.access θ = some s') : ∃ pc, s.Next s' θ pc := by
  have hd := h.doing θ
  rw [Sync.access] at hacc
  generalize hpc : s.pc θ = pc₀ at hd hacc
  cases pc₀ with
  | readHead n =>
    cases hacc
    exact ⟨_, h.go hpc ⟨hd.1, hd.2.1, hd.2.2, rfl⟩⟩
  | initTail n h₀ =>
    cases hacc
    obtain ⟨hfresh, htail, hhead, rfl⟩ := hd
    obtain ⟨h₀, hh₀⟩ := Option.ne_none_iff_exists'.mp hhead
    have hset : ({ s with tail := s.head } : Sync Θ ν) = { s with tail := some h₀ } :=
      congrArg (fun v => { s with tail := v }) hh₀
    rw [hset]
    refine ⟨_, h.setTail hpc ⟨(h.head h₀ hh₀).1, fun z hz => ?_⟩ hhead (fun _ => rfl) (fun _ => id) rfl rfl
      hfresh⟩
    cases hh₀.symm.trans (h.noTail htail z (Nat.zero_lt_of_lt hz))
    exact absurd hz (Nat.lt_irrefl _)
  | linkPrev n t =>
    cases hacc
    exact ⟨_, h.setPrev hpc rfl hd.2 (fun _ _ hpos => absurd hd.1 (Nat.ne_of_gt hpos)) nofun (fun _ => id) rfl rfl
      ⟨hd, Function.update_self ..⟩⟩
  | casTail n t =>
    dsimp only at hacc
    split at hacc <;> cases hacc
    · exact ⟨_, h.append hpc ‹_›⟩
    · exact ⟨_, h.go hpc hd.1⟩
  | predecessor n | cancelPrev n =>
    dsimp only at hacc
    split at hacc <;> cases hacc
    · obtain ⟨-, h₀, hh₀, hlt⟩ := hd
      exact absurd ‹_› (h.linked h₀ n hh₀ hlt)
    · exact ⟨_, h.go hpc ⟨hd, ‹_›⟩⟩
  | isHead n p =>
    dsimp only at hacc
    split at hacc <;> cases hacc
    · exact ⟨_, h.go hpc ⟨hd.1, hd.2, ‹_›⟩⟩
    · exact ⟨_, h.go hpc hd⟩
  | tryAcquire n p =>
    dsimp only at hacc
    split at hacc <;> cases hacc
    · exact ⟨_, h.go hpc hd {} rfl (.inr (.inl ⟨‹_›, rfl, rfl⟩))⟩
    · exact ⟨_, h.go hpc ⟨hd.1, hd.2.1⟩⟩
  | setHead n p =>
    cases hacc
    exact ⟨_, h.setHead hpc⟩
  | clearPrev n p =>
    cases hacc
    exact ⟨_, h.setPrev hpc rfl (h.head n hd).2 nofun (fun _ => hd) nofun rfl rfl trivial⟩
  | predStatus n p =>
    dsimp only at hacc
    split at hacc
    · cases hacc
      exact ⟨_, h.go hpc hd.1⟩
    · split at hacc <;> cases hacc
      · exact ⟨_, h.go hpc ⟨hd.1, hd.2, ‹_›⟩⟩
      · exact ⟨_, h.go hpc ⟨hd, Int.not_lt.mp ‹_›⟩⟩
  | skip loop n p =>
    cases hacc
    exact ⟨_, h.go hpc ⟨hd.1, p, hd.2.1, hd.2.2, rfl⟩⟩
  | skipTo loop n p =>
    obtain ⟨hw, y, hy, hc, rfl⟩ := hd
    obtain ⟨q, hq, hb⟩ := h.skips hw hy hc
    simp only [hq] at hacc
    cases hacc
    refine ⟨_, h.setPrev hpc rfl hw.1 ?_ nofun (fun _ => id) rfl rfl ⟨hw, Function.update_self ..⟩⟩
    rintro _ ⟨⟩ -
    exact hb
  | skipStatus loop n p =>
    dsimp only at hacc
    split at hacc
    · cases hacc
      exact ⟨_, h.go hpc ⟨hd.1, hd.2, ‹_›⟩⟩
    · split at hacc <;> cases hacc <;> exact ⟨_, h.go hpc hd⟩
  | signal n p ws =>
    dsimp only at hacc
    split at hacc <;> cases hacc
    · rename_i hws
      have hc : ¬s.Cancelled p := Int.not_lt.mpr (Int.le_trans (Int.le_of_eq hws) hd.2)
      exact ⟨_, h.go hpc hd.1.1 (.setStatus hc (by decide))⟩
    · exact ⟨_, h.go hpc hd.1.1⟩
  | cancelPredStatus n p predNext =>
    dsimp only at hacc
    split at hacc
    · cases hacc
      exact ⟨_, h.go hpc trivial⟩
    · split at hacc <;> cases hacc
      · exact ⟨_, h.go hpc ‹_›⟩
      · exact ⟨_, h.go hpc trivial⟩
  | unparkStatus cancels n =>
    dsimp only at hacc
    split at hacc <;> cases hacc
    · exact ⟨_, h.go hpc (Int.le_of_lt ‹_›)⟩
    · exact ⟨_, h.go hpc trivial⟩
  | cancelMark n p predNext =>
    cases hacc
    exact ⟨_, h.mark hpc⟩
  | cancelTail n p predNext =>
    dsimp only at hacc
    split at hacc <;> cases hacc
    · exact ⟨_, h.go hpc hd⟩
    · exact ⟨_, h.go hpc trivial⟩
  | cancelCasTail n p predNext =>
    dsimp only at hacc
    split at hacc <;> cases hacc
    · rename_i htail
      obtain ⟨hpos, hlt, hbetween⟩ := h.prev n p (h.cancelled n hd.1) hd.2
      refine ⟨_, h.setTail hpc ⟨hpos, fun z hz => ?_⟩ (fun hnone => nomatch htail.symm.trans (h.noHead hnone))
        (fun hnone => nomatch htail.symm.trans hnone) nofun rfl rfl trivial⟩
      rcases Nat.lt_trichotomy (s.place z) (s.place n) with hzn | heq | hnz
      · exact hbetween z hz hzn
      · exact h.inj n z (h.cancelled n hd.1) heq.symm ▸ hd.1
      · exact (h.tail n htail).2 z hnz
    · exact ⟨_, h.go hpc trivial⟩
  | cancelCut n p predNext | cancelLink n p predNext =>
    cases hacc
    exact ⟨_, h.go hpc trivial (.casNext ..) (casNext_pc ..) (.inl ⟨casNext_state .., rfl⟩)⟩
  | cancelSignal n p predNext ws | unparkClear cancels n ws =>
    dsimp only at hacc
    split at hacc <;> cases hacc
    · rename_i hws
      have hle := Int.le_trans (Int.le_of_eq hws) hd
      exact ⟨_, h.go hpc trivial (.setStatus (Int.not_lt.mpr hle) (by decide))⟩
    · exact ⟨_, h.go hpc trivial⟩
  | unparkTail cancels n | scanPrev cancels n t found =>
    cases hacc
    obtain ⟨hdoing, hholds, hown, hstarts⟩ := idles_scan s cancels n _ _
    exact ⟨_, h.go hpc hdoing {} rfl (.inl ⟨rfl, hholds⟩) (fun _ hx => nomatch hown.symm.trans hx)
      fun hx => nomatch hstarts.symm.trans hx⟩
  | unpark cancels n thread =>
    cases hacc
    cases cancels <;>
      exact ⟨_, h.go hpc trivial (.unparkThread thread) (unparkThread_pc _) (.inl ⟨unparkThread_state _, rfl⟩)⟩
  | unlock =>
    cases hacc
    exact ⟨_, h.go hpc trivial {} rfl (.inr (.inr ⟨rfl, rfl, rfl⟩))⟩
  | linkNext | skipped =>
    cases hacc
    exact ⟨_, h.go hpc hd.1⟩
  | _ =>
    -- a read, or a write that does not matter here
    dsimp only at hacc
    repeat' split at hacc
    all_goals cases hacc
    all_goals exact ⟨_, h.go hpc hd⟩

/-- The lock and the queue. -/
structure Sound (s : Sync Θ ν) : Prop where
  locked : s.Locked
  queued : s.Queued

theorem Queued.step_next (h : s.Queued) (hl : s.Locked) (hstep : s.step e = some s') :
    ∃ pc, s.Next s' e.by pc := by
  cases e with
  | access θ => exact h.access_next hstep
  | acquire θ n =>
    simp only [step, acquire] at hstep
    split at hstep <;> (try split at hstep) <;> (try split at hstep) <;> cases hstep
    all_goals rename_i hpc hmade hstate
    · exact ⟨_, h.go hpc trivial {} rfl (.inr (.inl ⟨hstate, rfl, rfl⟩))⟩
    · have hn := Bool.eq_false_iff.mpr hmade
      have hcancelled := (h.newNode hn (some θ) θ).cancelled
      have hf := h.fresh_of_not_made hn
      refine ⟨_, h.start hn (some θ) (fun x hx => .inr (Option.some.inj hx).symm) (by rw [hpc]; rfl) rfl ?_⟩
      exact ⟨hf.1, fun hc => hf.2 ((hcancelled n).mp hc)⟩
  | tryLock θ =>
    simp only [step, tryLock] at hstep
    split at hstep <;> (try split at hstep) <;> cases hstep
    all_goals rename_i hpc hstate
    · exact ⟨_, h.go hpc trivial {} rfl (.inr (.inl ⟨hstate, rfl, rfl⟩))⟩
    · have hsame : s.Next (s.setPc θ .idle) θ .idle := h.go hpc trivial
      rw [setPc, ← hpc, Function.update_eq_self] at hsame
      exact ⟨_, hsame⟩
  | release θ =>
    simp only [step, release] at hstep
    split at hstep <;> (try split at hstep) <;> cases hstep
    all_goals rename_i hpc hstate
    · have hheld := hl.holder.mpr ⟨θ, congrArg SyncPc.holds hpc⟩
      exact absurd (hstate.symm.trans hheld) (by decide)
    · exact ⟨_, h.go hpc trivial⟩
  | newHead θ n =>
    simp only [step, Sync.newHead] at hstep
    split at hstep <;> (try split at hstep) <;> (try split at hstep) <;> cases hstep
    all_goals rename_i x hpc hmade hnone
    · exact ⟨_, h.newHead hpc (Bool.eq_false_iff.mpr hmade) hnone⟩
    · have hn := Bool.eq_false_iff.mpr hmade
      have hcancelled := (h.newNode hn none θ).cancelled
      have hd := h.at hpc
      refine ⟨_, h.start hn none (fun y hy => .inl (by rw [hpc]; exact hy)) (by rw [hpc]; rfl) rfl ?_⟩
      exact ⟨hd.1, fun hc => hd.2 ((hcancelled x).mp hc)⟩
  | giveUp θ | wake θ =>
    simp only [step, giveUp, wake] at hstep
    split at hstep <;> cases hstep
    all_goals
      rename_i hpc
      have hd := h.at hpc
      first | exact ⟨_, h.go hpc hd⟩ | exact ⟨_, h.go hpc hd.1⟩

/-- What may be reached: by any events, or only by those that are not a thread giving up. -/
def Reached (mayGiveUp : Bool) (s : Sync Θ ν) : Prop :=
  ∃ es, Run (fun s e s' => step s e = some s' ∧ (mayGiveUp = true ∨ ∀ θ, e ≠ .giveUp θ)) init es s

theorem init_locked : (init : Sync Θ ν).Locked :=
  ⟨.inl rfl, iff_of_false (show ¬(0 : Int) = 1 by decide) (fun ⟨_, h⟩ => nomatch h), nofun⟩

theorem init_queued : (init : Sync Θ ν).Queued where
  prev := nofun
  linked := nofun
  head := nofun
  tail := nofun
  noTail _ _ h := absurd h (Nat.lt_irrefl 0)
  noHead _ := rfl
  inj _ _ h := absurd h (Nat.lt_irrefl 0)
  le _ := Nat.le_refl 0
  made _ h := absurd h (Nat.lt_irrefl 0)
  cancelled _ h := absurd h (show ¬(0 : Int) < 0 by decide)
  own := nofun
  alone := nofun
  once := nofun
  doing _ := trivial

theorem Reached.sound {mayGiveUp : Bool} (h : s.Reached mayGiveUp) : s.Sound := by
  obtain ⟨es, hrun⟩ := h
  refine hrun.stateInvariant (I := Sound) ⟨init_locked, init_queued⟩ ?_
  rintro t e u ⟨hl, hq⟩ ⟨hstep, -⟩
  obtain ⟨pc, hnext⟩ := hq.step_next hl hstep
  exact ⟨hl.step hnext.goes hnext.lock, hq.next hl hnext⟩

/-- From the tail on, `prev` leads to every node that waits. -/
theorem Queued.reaches (h : s.Queued) (hx : s.Waits x) (ht : s.tail = some t) :
    Relation.ReflTransGen (fun a b => s.prev a = some b) t x := by
  obtain ⟨hpos, hbeyond⟩ := h.tail t ht
  have hxt : s.place x ≤ s.place t := Nat.le_of_not_lt fun hlt => hx.1 (hbeyond x hlt)
  generalize hk : s.place t = k at hxt
  clear ht hbeyond
  induction k using Nat.strongRecOn generalizing t with
  | ind k ih =>
    rcases Nat.eq_or_lt_of_le hxt with heq | hlt
    · cases h.inj x t hx.pos (heq.trans hk.symm)
      exact .refl
    · obtain ⟨hxc, h₀, hh₀, hlt₀⟩ := hx
      obtain ⟨y, hy⟩ := Option.ne_none_iff_exists'.mp
        (h.linked h₀ t hh₀ (hk ▸ Nat.lt_trans hlt₀ hlt))
      have hb := h.prev t y hpos hy
      have hxy : s.place x ≤ s.place y := Nat.le_of_not_lt fun hyx => hxc (hb.2.2 x hyx (hk ▸ hlt))
      exact .head hy (ih (s.place y) (hk ▸ hb.2.1) hb.1 rfl hxy)

/-- Whoever locks, unlocks and gives up when: no exception is thrown, one thread has the lock, the head has
not given up, from the tail on `prev` leads to every node that waits; and the one that becomes the head is
the first that waits. -/
theorem queue_in_order {mayGiveUp : Bool} (h : s.Reached mayGiveUp) :
    (∀ θ, s.pc θ ≠ .threw) ∧ (∀ θ θ', (s.pc θ).holds = true → (s.pc θ').holds = true → θ = θ') ∧
      (∀ x, s.head = some x → ¬s.Cancelled x) ∧
      (∀ x t, s.Waits x → s.tail = some t → Relation.ReflTransGen (fun a b => s.prev a = some b) t x) ∧
      ∀ e s' x h₀, s.step e = some s' → s.head = some h₀ → s'.head = some x → x ≠ h₀ →
        s.Waits x ∧ ∀ y, s.Waits y → s.place x ≤ s.place y := by
  obtain ⟨hl, hq⟩ := h.sound
  refine ⟨fun θ => hq.at, hl.one, fun x hx => (hq.head x hx).2, fun x t => hq.reaches, ?_⟩
  intro e s' x h₀ hstep hh₀ hx hne
  obtain ⟨pc, hnext⟩ := hq.step_next hl hstep
  rcases hq.head_cases hnext.spares hh₀ with hsame | ⟨n, -, hw, hb, hn⟩
  · cases hx.symm.trans hsame
    exact absurd rfl hne
  · cases hn.symm.trans hx
    refine ⟨hw, fun y hy => Nat.le_of_not_lt fun hlt => ?_⟩
    obtain ⟨hyc, h₁, hh₁, hlt₁⟩ := hy
    cases hh₀.symm.trans hh₁
    exact hyc (hb.2.2 y hlt₁ hlt)

/-- A thread that waits for another one comes to `park`. -/
theorem reached_park (mayGiveUp : Bool) : ∃ s : Sync Nat Nat, s.Reached mayGiveUp ∧ s.pc 1 = .park 11 := by
  obtain ⟨s, hrun, hpc⟩ := Run.exists_of_foldlM_option step (init : Sync Nat Nat)
    ([.acquire 0 10, .acquire 1 11, .access 1, .access 1, .newHead 1 12] ++ List.replicate 15 (.access 1))
    (·.pc 1) (b := .park 11) rfl
  refine ⟨s, ⟨_, hrun.and fun e he _ => .inr fun θ heq => ?_⟩, hpc⟩
  subst heq
  simp at he

theorem queue_in_order_park :
    ∃ s : Sync Nat Nat, s.pc 1 = .park 11 ∧ (∀ θ, s.pc θ ≠ .threw) ∧ ∀ x, s.head = some x → ¬s.Cancelled x := by
  obtain ⟨s, h, hpc⟩ := reached_park true
  exact ⟨s, hpc, (queue_in_order h).1, (queue_in_order h).2.2.1⟩

end Steps

end Sync

end Rtfsc.Jdk
