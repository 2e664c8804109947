import Rtfsc.Linux.EpollInv
import Mathlib.Data.Fintype.Basic

/-!
# Waiting in `ep_poll`

Any number of calls of `ep_poll`, together with callbacks and insertions. A wake-up wakes one of the
calls that are asleep on `ep->wq`, if there is one. What is ready is then handed on from call to call:
the call that the last wake-up has woken looks for events, and a scan that leaves some wakes the next
call up. Only a fatal signal breaks this off.
-/

namespace Rtfsc.Linux

open Rtfsc.Machine

/-- Where a call of `ep_poll` is. -/
inductive PollPc
  /-- not begun -/
  | new
  /-- before the lock: at `fetch_events`, and at `check_events` with `timeout` 0 -/
  | fetch
  | check
  /-- on `ep->wq` in `TASK_INTERRUPTIBLE` -/
  | asleep
  /-- on `ep->wq` and running again, woken by a wake-up or not -/
  | running (woken timedOut : Bool)
  /-- it has seen events, and is before its scan or in it -/
  | seen (timedOut : Bool)
  | scanning (timedOut : Bool)
  /-- behind its scan, with what `ep_send_events` returns -/
  | sent (res : Int) (timedOut : Bool)
  /-- returned, for a fatal signal or not -/
  | returned (killed : Bool)
deriving DecidableEq

/-- `signal_pending` and `fatal_signal_pending` -/
inductive Signals
  | none
  | ordinary
  | fatal
deriving DecidableEq

/-- A call of `ep_poll`. `timer` tells whether its timeout is finite. -/
structure PollCall where
  pc : PollPc
  timer : Bool
  maxevents : Int
  signal : Signals
deriving DecidableEq

/-- The eventpoll and the calls; `lastWoken` is the call that the last wake-up has woken. -/
structure EpollState (α ι : Type) where
  ep : EpState α
  call : ι → PollCall
  lastWoken : Option ι

/-- A step: of a callback or an insertion, of the scan of a call, or of a call outside of its scan. -/
inductive EpollStep (α ι : Type)
  | other (e : EpStep α)
  | scan (i : ι) (e : EpStep α)
  | enter (i : ι) (timeout : Int) (maxevents : Int)
  | lock (i : ι)
  | beginScan (i : ι)
  | leaveScan (i : ι)
  | timer (i : ι)
  | signal (i : ι) (fatal : Bool)
deriving DecidableEq

/-- The steps of a scan behind its first section. -/
def EpStep.inScan {α : Type} : EpStep α → Bool
  | .send | .polled _ | .putUser _ | .relock | .drain => true
  | _ => false

/-- The steps of callbacks and insertions. -/
def EpStep.ofOthers {α : Type} : EpStep α → Bool
  | .callback _ _ | .insert _ _ | .insertPolled _ _ | .insertLock => true
  | _ => false

variable {α ι : Type} [DecidableEq α] [DecidableEq ι]

namespace EpollState

/-- The state with another call `i`. -/
def setCall (s : EpollState α ι) (i : ι) (call : PollCall) : EpollState α ι :=
  { s with call := Function.update s.call i call }

/-- Call `i` goes on at `pc`. -/
def goto (s : EpollState α ι) (i : ι) (pc : PollPc) : EpollState α ι :=
  s.setCall i { s.call i with pc := pc }

/-- The loop of `ep_poll` from `set_current_state` on, and behind it `check_events`. -/
def pollLoop (s : EpollState α ι) (i : ι) (timedOut : Bool) : PollPc :=
  if (s.call i).signal = .fatal then .returned true
  else if s.ep.eventsAvailable then .seen timedOut
  else if timedOut then .returned false
  else if (s.call i).signal = .ordinary then .returned false
  else .asleep

/-- What a call does in a section of the lock. -/
def pollLock (s : EpollState α ι) (i : ι) : Option PollPc :=
  match (s.call i).pc with
  | .fetch => some (if s.ep.eventsAvailable then .seen false else s.pollLoop i false)
  | .check => some (if s.ep.eventsAvailable then .seen true else .returned false)
  | .running _ timedOut => some (s.pollLoop i timedOut)
  | _ => none

/-- A step, and whether it calls `wake_up_locked`. -/
def step (b : EpollBits) (s : EpollState α ι) : EpollStep α ι → Option (Bool × EpollState α ι)
  | .other e =>
    if e.ofOthers then (s.ep.step b e).map fun r => (r.1, { s with ep := r.2 }) else none
  | .scan i e =>
    match (s.call i).pc with
    | .scanning timedOut =>
      if e.inScan then
        (s.ep.step b e).map fun r =>
          -- the call leaves `ep_scan_ready_list` with its second section
          (r.1, if s.ep.pc = .drain none then
            { s with ep := r.2 }.goto i (.sent s.ep.esed.res timedOut) else { s with ep := r.2 })
      else none
    | _ => none
  | .enter i timeout maxevents =>
    if (s.call i).pc = .new ∧ 1 ≤ maxevents then
      some (false, s.setCall i
        ⟨if timeout = 0 then .check else .fetch, 0 < timeout, maxevents, (s.call i).signal⟩)
    else none
  | .lock i =>
    match s.ep.pc with
    | .drain _ => none
    | _ => (s.pollLock i).map fun pc => (false, s.goto i pc)
  | .beginScan i =>
    match (s.call i).pc with
    | .seen timedOut =>
      (s.ep.step b (.scan (s.call i).maxevents)).map fun r =>
        (r.1, { s with ep := r.2 }.goto i (.scanning timedOut))
    | _ => none
  | .leaveScan i =>
    match (s.call i).pc with
    | .sent res timedOut =>
      some (false, s.goto i (if res = 0 ∧ timedOut = false then .fetch else .returned false))
    | _ => none
  | .timer i =>
    if (s.call i).timer then
      match (s.call i).pc with
      | .asleep => some (false, s.goto i (.running false true))
      | .running woken _ => some (false, s.goto i (.running woken true))
      | _ => none
    else none
  | .signal i fatal =>
    some (false, s.setCall i { s.call i with
      signal := if fatal ∨ (s.call i).signal = .fatal then .fatal else .ordinary
      pc := if (s.call i).pc = .asleep then .running false false else (s.call i).pc })

/-- `wake_up_locked` wakes the call that is given, if one is. -/
def wakeUp (s : EpollState α ι) : Option ι → EpollState α ι
  | none => s
  | some i => { s.goto i (.running true false) with lastWoken := some i }

/-- A wake-up wakes exactly one call that is asleep, if there is one. -/
def MayWake (s : EpollState α ι) (wake : Bool) : Option ι → Prop
  | none => wake = true → ∀ i, (s.call i).pc ≠ .asleep
  | some i => wake = true ∧ (s.call i).pc = .asleep

instance [Fintype ι] (s : EpollState α ι) (wake : Bool) (woken : Option ι) :
    Decidable (s.MayWake wake woken) :=
  match woken with
  | none => inferInstanceAs (Decidable (wake = true → ∀ i, (s.call i).pc ≠ .asleep))
  | some i => inferInstanceAs (Decidable (wake = true ∧ (s.call i).pc = .asleep))

/-- A step together with the call that it wakes up. -/
def Steps (b : EpollBits) (s : EpollState α ι) (e : EpollStep α ι × Option ι) (t : EpollState α ι) :
    Prop :=
  ∃ wake u, s.step b e.1 = some (wake, u) ∧ u.MayWake wake e.2 ∧ t = u.wakeUp e.2

/-- No call has begun. -/
def new : EpollState α ι :=
  ⟨.new, fun _ => ⟨.new, false, 0, .none⟩, none⟩

end EpollState

/-- The call has been woken by a wake-up and has not looked for events since, or has seen events and has
not finished its scan. -/
def PollPc.Helps : PollPc → Prop
  | .running true _ | .seen _ | .scanning _ => True
  | _ => False

namespace EpState

variable {b : EpollBits} {s t : EpState α} {e : EpStep α}

/-- Events wait on `rdllist` for a call that looks. -/
structure Ready (s : EpState α) : Prop where
  lock : s.LockFree
  ovflist : s.ovflist = none
  rdllist : s.rdllist ≠ []

/-- A scan goes on only between its two sections. Until its end it leaves `ovflist` alone, and at its end
it wakes a call up for what is on `rdllist`. -/
theorem step_inScan {wake : Bool} (hs : s.step b e = some (wake, t)) (he : e.inScan = true) :
    s.Scanning ∧ (t.ovflist = s.ovflist ∨ wake = !t.rdllist.isEmpty) ∧
      (s.pc = .drain none → wake = !t.rdllist.isEmpty) := by
  unfold Scanning
  cases e with
  | send =>
    obtain ⟨hpc, heq⟩ := Option.ite_none_right_eq_some.1 hs
    cases heq
    rw [hpc]
    refine ⟨trivial, .inl ?_, fun h => by cases h⟩
    unfold sendNext
    split
    · split <;> rfl
    · rfl
  | polled res =>
    unfold step at hs
    dsimp only at hs
    split at hs
    · next hpc =>
      cases hs
      rw [hpc]
      refine ⟨trivial, .inl ?_, fun h => by cases h⟩
      unfold sendPolled
      dsimp only
      split <;> rfl
    · cases hs
  | putUser failed =>
    unfold step at hs
    dsimp only at hs
    split at hs
    · next hpc =>
      cases hs
      rw [hpc]
      refine ⟨trivial, .inl ?_, fun h => by cases h⟩
      unfold sendPutUser
      dsimp only
      split
      · rfl
      · split
        · rfl
        · split <;> rfl
    · cases hs
  | relock =>
    obtain ⟨hpc, heq⟩ := Option.ite_none_right_eq_some.1 hs
    cases heq
    rw [hpc]
    exact ⟨trivial, .inl rfl, fun h => by cases h⟩
  | drain =>
    unfold step at hs
    dsimp only at hs
    split at hs
    · next hpc =>
      cases hs
      rw [hpc]
      exact ⟨trivial, .inl rfl, fun h => by cases h⟩
    · next hpc =>
      cases hs
      rw [hpc]
      exact ⟨trivial, .inr rfl, fun _ => rfl⟩
    · cases hs
  | _ => cases he

/-- What makes events wait on `rdllist` wakes a call up, unless they waited there before. -/
theorem Inv.ready_of_step (h : s.Inv) (hs : s.step b e = some (false, t)) (ht : t.Ready) :
    s.Ready ∧ e.inScan = false := by
  obtain ⟨hlock, hov, hrd⟩ := ht
  have hout : e.inScan = false := by
    rw [← Bool.not_eq_true]
    intro he
    obtain ⟨hscan, hsame | hwake, _⟩ := step_inScan hs he
    · exact h.active.2 hscan (hsame.symm.trans hov)
    · cases hl : t.rdllist with
      | nil => exact hrd hl
      | cons _ _ =>
        rw [hl] at hwake
        cases hwake
  refine ⟨?_, hout⟩
  cases e with
  | callback epi pollflags =>
    unfold EpState.step at hs
    dsimp only at hs
    split at hs
    · cases hs
    · next hpc =>
      obtain ⟨_, heq⟩ := Option.ite_none_right_eq_some.1 hs
      unfold EpState.epPollCallback at heq
      split at heq
      · cases heq
        exact ⟨hlock, hov, hrd⟩
      split at heq
      · cases heq
        exact ⟨hlock, hov, hrd⟩
      dsimp only at heq
      split at heq
      · split at heq
        · cases heq
          cases hov
        · cases heq
          exact ⟨hlock, hov, hrd⟩
      · cases heq
  | scan maxevents =>
    obtain ⟨_, heq⟩ := Option.ite_none_right_eq_some.1 hs
    cases heq
    cases hov
  | insert epi events =>
    obtain ⟨⟨hpc, _⟩, heq⟩ := Option.ite_none_right_eq_some.1 hs
    cases heq
    refine ⟨fun nepi hd => ?_, hov, hrd⟩
    rw [hpc] at hd
    cases hd
  | insertPolled res failed =>
    unfold EpState.step at hs
    dsimp only at hs
    split at hs
    · next hpc =>
      cases hs
      have hsame : ∀ epi, (s.insertPolled epi res failed).ovflist = s.ovflist ∧
          (s.insertPolled epi res failed).rdllist = s.rdllist := by
        intro epi
        unfold EpState.insertPolled
        split <;> exact ⟨rfl, rfl⟩
      refine ⟨fun nepi hd => ?_, (hsame _).1 ▸ hov, (hsame _).2 ▸ hrd⟩
      rw [hpc] at hd
      cases hd
    · cases hs
  | insertLock =>
    unfold EpState.step at hs
    dsimp only at hs
    split at hs
    · next hpc =>
      unfold EpState.insertLink at hs
      split at hs
      · cases hs
      · cases hs
        refine ⟨fun nepi hd => ?_, hov, hrd⟩
        rw [hpc] at hd
        cases hd
    · next hpc =>
      cases hs
      refine ⟨fun nepi hd => ?_, hov, fun hnil => hrd ?_⟩
      · rw [hpc] at hd
        cases hd
      · dsimp only [EpState.insertUndo]
        rw [hnil]
        rfl
    · cases hs
  | _ => cases hout

end EpState

namespace EpollState

variable {b : EpollBits} {s t u : EpollState α ι} {i : ι} {pc : PollPc} {call : PollCall}

/-- Events wait while a call is asleep. -/
def Waiting (s : EpollState α ι) : Prop :=
  s.ep.Ready ∧ ∃ j, (s.call j).pc = .asleep

/-- The call that the last wake-up has woken is about to look for events or to hand them on, or has been
killed. -/
def Served (s : EpollState α ι) : Prop :=
  ∃ i, s.lastWoken = some i ∧ ((s.call i).pc.Helps ∨ (s.call i).pc = .returned true)

/-- The invariant of the calls. -/
structure Inv (s : EpollState α ι) : Prop where
  ep : s.ep.Inv
  served : s.Waiting → s.Served

omit [DecidableEq α] in
theorem setCall_pc (j : ι) :
    ((s.setCall i call).call j).pc = if j = i then call.pc else (s.call j).pc := by
  unfold setCall
  dsimp only
  split
  · next h => rw [h, Function.update_self]
  · next h => rw [Function.update_of_ne h]

omit [DecidableEq α] in
/-- A call that goes on leaves the others served if it has not helped, if it goes on helping, or if it is
killed. -/
theorem Served.setCall (h : s.Served)
    (hpc : (s.call i).pc.Helps ∨ (s.call i).pc = .returned true →
      call.pc.Helps ∨ call.pc = .returned true) : (s.setCall i call).Served := by
  obtain ⟨j, hj, hhelps⟩ := h
  refine ⟨j, hj, ?_⟩
  rw [setCall_pc]
  split
  · next he =>
    subst he
    exact hpc hhelps
  · exact hhelps

omit [DecidableEq α] in
/-- A call that does not fall asleep makes no others wait. -/
theorem Waiting.of_setCall (h : (s.setCall i call).Waiting) (hpc : call.pc ≠ .asleep) :
    s.Waiting := by
  obtain ⟨hready, j, hj⟩ := h
  refine ⟨hready, j, ?_⟩
  rw [setCall_pc] at hj
  split at hj
  · exact absurd hj hpc
  · exact hj

omit [DecidableEq α] in
theorem Inv.setCall (h : s.Inv) (hne : call.pc ≠ .asleep)
    (hpc : (s.call i).pc.Helps ∨ (s.call i).pc = .returned true →
      call.pc.Helps ∨ call.pc = .returned true) : (s.setCall i call).Inv :=
  ⟨h.ep, fun hw => (h.served (hw.of_setCall hne)).setCall hpc⟩

omit [DecidableEq α] [DecidableEq ι] in
/-- Behind a section of the lock a call has been killed, has seen events, or there are none. -/
theorem pollLock_spec (h : s.pollLock i = some pc) :
    pc.Helps ∨ pc = .returned true ∨ s.ep.eventsAvailable = false := by
  have hloop : ∀ timedOut, (s.pollLoop i timedOut).Helps ∨ s.pollLoop i timedOut = .returned true ∨
      s.ep.eventsAvailable = false := by
    intro timedOut
    unfold pollLoop
    split
    · exact .inr (.inl rfl)
    split
    · exact .inl trivial
    · next ha => exact .inr (.inr (Bool.eq_false_iff.2 ha))
  unfold pollLock at h
  split at h
  · cases h
    split
    · exact .inl trivial
    · exact hloop false
  · cases h
    split
    · exact .inl trivial
    · next ha => exact .inr (.inr (Bool.eq_false_iff.2 ha))
  · cases h
    exact hloop _
  · cases h

omit [DecidableEq α] in
theorem Inv.pollLock (h : s.Inv) (hpc : s.pollLock i = some pc) : (s.goto i pc).Inv := by
  rcases pollLock_spec hpc with hhelps | rfl | hnone
  · refine h.setCall ?_ fun _ => .inl hhelps
    rintro hasleep
    change pc = .asleep at hasleep
    rw [hasleep] at hhelps
    exact hhelps
  · exact h.setCall (fun h => by cases h) fun _ => .inr rfl
  · refine ⟨h.ep, fun hw => absurd ?_ hw.1.rdllist⟩
    rw [EpState.eventsAvailable, Bool.or_eq_false_iff, Bool.not_eq_false'] at hnone
    exact List.isEmpty_iff.1 hnone.1

omit [DecidableEq α] in
theorem wakeUp_ep (woken : Option ι) : (s.wakeUp woken).ep = s.ep := by
  cases woken <;> rfl

/-- A step of the calls is one of the eventpoll, or leaves it as it is. -/
theorem step_ep {e : EpollStep α ι} {wake : Bool} (hs : s.step b e = some (wake, u)) :
    u.ep = s.ep ∨ ∃ e', s.ep.Steps b e' u.ep := by
  cases e with
  | other e =>
    obtain ⟨_, hs⟩ := Option.ite_none_right_eq_some.1 hs
    obtain ⟨r, hr, heq⟩ := Option.map_eq_some_iff.1 hs
    cases heq
    exact .inr ⟨e, r.1, hr⟩
  | scan i e =>
    unfold EpollState.step at hs
    dsimp only at hs
    split at hs
    · obtain ⟨_, hs⟩ := Option.ite_none_right_eq_some.1 hs
      obtain ⟨r, hr, heq⟩ := Option.map_eq_some_iff.1 hs
      cases heq
      refine .inr ⟨e, r.1, ?_⟩
      split <;> exact hr
    · cases hs
  | enter i timeout maxevents =>
    obtain ⟨_, heq⟩ := Option.ite_none_right_eq_some.1 hs
    cases heq
    exact .inl rfl
  | lock i =>
    unfold EpollState.step at hs
    dsimp only at hs
    split at hs
    · cases hs
    · obtain ⟨pc, _, heq⟩ := Option.map_eq_some_iff.1 hs
      cases heq
      exact .inl rfl
  | beginScan i =>
    unfold EpollState.step at hs
    dsimp only at hs
    split at hs
    · obtain ⟨r, hr, heq⟩ := Option.map_eq_some_iff.1 hs
      cases heq
      exact .inr ⟨_, r.1, hr⟩
    · cases hs
  | leaveScan i =>
    unfold EpollState.step at hs
    dsimp only at hs
    split at hs <;> cases hs
    exact .inl rfl
  | timer i =>
    obtain ⟨_, hs⟩ := Option.ite_none_right_eq_some.1 hs
    split at hs <;> cases hs <;> exact .inl rfl
  | signal i fatal =>
    cases hs
    exact .inl rfl

/-- The eventpoll of a run of calls goes through a run of its own. -/
theorem run_ep {es : List (EpollStep α ι × Option ι)} (h : Run (Steps b) new es s) :
    ∃ es', Run (EpState.Steps b) EpState.new es' s.ep := by
  induction h with
  | nil => exact ⟨[], .nil⟩
  | snoc _ hs ih =>
    obtain ⟨es', hrun⟩ := ih
    obtain ⟨wake, u, hu, _, rfl⟩ := hs
    rw [wakeUp_ep]
    rcases step_ep hu with heq | ⟨e', he'⟩
    · exact ⟨es', heq ▸ hrun⟩
    · exact ⟨_, hrun.snoc he'⟩

/-- A step that wakes no call up leaves the others served. -/
theorem Inv.step {e : EpollStep α ι} (h : s.Inv) (hs : s.step b e = some (false, u)) :
    u.Waiting → u.Served := by
  have hcall : ∀ {call : PollCall} {i : ι}, call.pc ≠ .asleep →
      ((s.call i).pc.Helps ∨ (s.call i).pc = .returned true →
        call.pc.Helps ∨ call.pc = .returned true) →
      (s.setCall i call).Waiting → (s.setCall i call).Served := fun hne hpc =>
    (h.setCall hne hpc).served
  cases e with
  | other e =>
    obtain ⟨_, hs⟩ := Option.ite_none_right_eq_some.1 hs
    obtain ⟨⟨wake, ep⟩, hr, heq⟩ := Option.map_eq_some_iff.1 hs
    cases heq
    exact fun hw => h.served ⟨(h.ep.ready_of_step hr hw.1).1, hw.2⟩
  | scan i e =>
    unfold EpollState.step at hs
    dsimp only at hs
    split at hs
    · obtain ⟨he, hs⟩ := Option.ite_none_right_eq_some.1 hs
      obtain ⟨⟨wake, ep⟩, hr, heq⟩ := Option.map_eq_some_iff.1 hs
      cases heq
      intro hw
      have hready := hw.1
      -- a scan that leaves events behind wakes a call up
      have hep : ∀ (c : Prop) [Decidable c] (v w : EpollState α ι), v.ep = ep → w.ep = ep →
          (if c then v else w).ep = ep := by
        intro c _ v w hv hw
        split
        · exact hv
        · exact hw
      rw [hep _ _ _ rfl rfl] at hready
      exact absurd he (Bool.eq_false_iff.1 (h.ep.ready_of_step hr hready).2)
    · cases hs
  | enter i timeout maxevents =>
    obtain ⟨⟨hnew, _⟩, heq⟩ := Option.ite_none_right_eq_some.1 hs
    cases heq
    refine hcall ?_ ?_
    · dsimp only
      split <;> exact fun h => by cases h
    · rw [hnew]
      rintro (hh | hh) <;> cases hh
  | lock i =>
    unfold EpollState.step at hs
    dsimp only at hs
    split at hs
    · cases hs
    · obtain ⟨pc, hpc, heq⟩ := Option.map_eq_some_iff.1 hs
      cases heq
      exact (h.pollLock hpc).served
  | beginScan i =>
    unfold EpollState.step at hs
    dsimp only at hs
    split at hs
    · obtain ⟨⟨wake, ep⟩, hr, heq⟩ := Option.map_eq_some_iff.1 hs
      cases heq
      intro hw
      obtain ⟨_, heq⟩ := Option.ite_none_right_eq_some.1 hr
      have hov := hw.1.ovflist
      cases heq
      cases hov
    · cases hs
  | leaveScan i =>
    unfold EpollState.step at hs
    dsimp only at hs
    split at hs
    · next hpc =>
      cases hs
      refine hcall ?_ ?_
      · dsimp only
        split <;> exact fun h => by cases h
      · rw [hpc]
        rintro (hh | hh) <;> cases hh
    · cases hs
  | timer i =>
    obtain ⟨_, hs⟩ := Option.ite_none_right_eq_some.1 hs
    split at hs
    · next hpc =>
      cases hs
      refine hcall (fun h => by cases h) ?_
      rw [hpc]
      rintro (hh | hh) <;> cases hh
    · next woken _ hpc =>
      cases hs
      refine hcall (fun h => by cases h) ?_
      rw [hpc]
      rintro (hh | hh)
      · cases woken with
        | false => exact hh.elim
        | true => exact .inl trivial
      · cases hh
    · cases hs
  | signal i fatal =>
    cases hs
    refine hcall ?_ ?_
    · dsimp only
      split
      · exact fun h => by cases h
      · next hne => exact hne
    · dsimp only
      split
      · next hpc =>
        rw [hpc]
        rintro (hh | hh) <;> cases hh
      · exact id

/-- A wake-up leaves the call that it wakes to serve the others, or there is none to be served. -/
theorem Inv.steps {e : EpollStep α ι × Option ι} (h : s.Inv) (hs : s.Steps b e t) : t.Inv := by
  obtain ⟨wake, u, hu, hmay, rfl⟩ := hs
  have hep : (u.wakeUp e.2).ep.Inv := by
    rw [wakeUp_ep]
    rcases step_ep hu with heq | ⟨_, _, he⟩
    · exact heq ▸ h.ep
    · exact h.ep.step he
  refine ⟨hep, fun hwait => ?_⟩
  cases hw : e.2 with
  | some i =>
    refine ⟨i, rfl, .inl ?_⟩
    change ((u.setCall i _).call i).pc.Helps
    rw [setCall_pc, if_pos rfl]
    trivial
  | none =>
    rw [hw] at hmay hwait
    cases wake with
    | false => exact h.step hu hwait
    | true =>
      obtain ⟨j, hj⟩ := hwait.2
      exact absurd hj (hmay rfl j)

omit [DecidableEq α] [DecidableEq ι] in
theorem new_inv : (new : EpollState α ι).Inv :=
  ⟨EpState.new_inv, fun h => absurd rfl h.1.rdllist⟩

/-- While the lock is free, `ovflist` is `EP_UNACTIVE_PTR`, `rdllist` is not empty and a call is asleep,
another call has been woken and has not looked for events since, or has seen events and has not finished
its scan; or the call that the last wake-up has woken has then returned for a fatal signal. -/
theorem epPoll_run {es : List (EpollStep α ι × Option ι)} (h : Run (Steps b) new es s)
    (hlock : s.ep.LockFree) (hov : s.ep.ovflist = none) (hrd : s.ep.rdllist ≠ [])
    {j : ι} (hj : (s.call j).pc = .asleep) :
    (∃ i, i ≠ j ∧ (s.call i).pc.Helps) ∨
      ∃ i, s.lastWoken = some i ∧ (s.call i).pc = .returned true := by
  have hinv : s.Inv := h.stateInvariant new_inv fun _ _ _ ht hs => ht.steps hs
  obtain ⟨i, hi, hhelps | hkilled⟩ := hinv.served ⟨⟨hlock, hov, hrd⟩, j, hj⟩
  · refine .inl ⟨i, ?_, hhelps⟩
    rintro rfl
    rw [hj] at hhelps
    exact hhelps
  · exact .inr ⟨i, hi, hkilled⟩

/-- A step together with the call that it wakes up, executed. -/
def exec (b : EpollBits) [Fintype ι] (s : EpollState α ι) (e : EpollStep α ι × Option ι) :
    Option (EpollState α ι) :=
  match s.step b e.1 with
  | none => none
  | some (wake, u) => if u.MayWake wake e.2 then some (u.wakeUp e.2) else none

theorem steps_of_exec [Fintype ι] {e : EpollStep α ι × Option ι} (h : s.exec b e = some t) :
    s.Steps b e t := by
  unfold exec at h
  split at h
  · cases h
  · next wake u hu =>
    obtain ⟨hmay, heq⟩ := Option.ite_none_right_eq_some.1 h
    cases heq
    exact ⟨wake, u, hu, hmay, rfl⟩

/-- Two calls are asleep when the callback of an item runs. -/
def twoAsleep : List (EpollStep (Fin 1) (Fin 2) × Option (Fin 2)) :=
  [(.other (.insert 0 1), none), (.other (.insertPolled 0 false), none), (.other .insertLock, none),
    (.enter 0 (-1) 1, none), (.lock 0, none), (.enter 1 (-1) 1, none), (.lock 1, none),
    (.other (.callback 0 1), some 0)]

/-- The call that the callback wakes is killed before it has looked for events, and nobody looks after
the other one. -/
theorem epPoll_killed :
    ∃ (es : List (EpollStep (Fin 1) (Fin 2) × Option (Fin 2))) (s : EpollState (Fin 1) (Fin 2)),
      Run (Steps ⟨0xf0000000, 0x40000000, 0x80000000⟩) new es s ∧ s.ep.LockFree ∧
        s.ep.ovflist = none ∧ s.ep.rdllist ≠ [] ∧ (s.call 1).pc = .asleep ∧
        ¬∃ i, i ≠ 1 ∧ (s.call i).pc.Helps := by
  obtain ⟨s, hrun, hs⟩ := Run.exists_of_foldlM_option
    (exec ⟨0xf0000000, 0x40000000, 0x80000000⟩) new (twoAsleep ++ [(.signal 0 true, none), (.lock 0, none)])
    (fun s => (s.ep.pc, s.ep.ovflist, s.ep.rdllist, (s.call 0).pc, (s.call 1).pc))
    (b := (.free, none, [0], .returned true, .asleep)) (by decide +kernel)
  obtain ⟨hpc, hs⟩ := Prod.ext_iff.1 hs
  obtain ⟨hov, hs⟩ := Prod.ext_iff.1 hs
  obtain ⟨hrd, hs⟩ := Prod.ext_iff.1 hs
  obtain ⟨h0, h1⟩ := Prod.ext_iff.1 hs
  refine ⟨_, s, hrun.mono fun _ _ _ => steps_of_exec, fun _ hd => ?_, hov, ?_, h1, ?_⟩
  · rw [show s.ep.pc = .free from hpc] at hd
    cases hd
  · rw [show s.ep.rdllist = [0] from hrd]
    exact List.cons_ne_nil _ _
  · rintro ⟨i, hi, hhelps⟩
    have hi0 : i = 0 := by omega
    rw [hi0, show (s.call 0).pc = .returned true from h0] at hhelps
    exact hhelps

/-- Right after the wake-up there is a call that helps. -/
theorem epPoll_run_woken :
    ∃ s : EpollState (Fin 1) (Fin 2), (s.call 1).pc = .asleep ∧ s.ep.rdllist = [0] ∧
      ((∃ i, i ≠ 1 ∧ (s.call i).pc.Helps) ∨
        ∃ i, s.lastWoken = some i ∧ (s.call i).pc = .returned true) := by
  obtain ⟨s, hrun, hs⟩ := Run.exists_of_foldlM_option
    (exec ⟨0xf0000000, 0x40000000, 0x80000000⟩) new twoAsleep
    (fun s => (s.ep.pc, s.ep.ovflist, s.ep.rdllist, (s.call 1).pc))
    (b := (.free, none, [0], .asleep)) (by decide +kernel)
  obtain ⟨hpc, hs⟩ := Prod.ext_iff.1 hs
  obtain ⟨hov, hs⟩ := Prod.ext_iff.1 hs
  obtain ⟨hrd, h1⟩ := Prod.ext_iff.1 hs
  refine ⟨s, h1, hrd, epPoll_run (hrun.mono fun _ _ _ => steps_of_exec) (fun _ hd => ?_) hov ?_ h1⟩
  · rw [show s.ep.pc = .free from hpc] at hd
    cases hd
  · rw [show s.ep.rdllist = [0] from hrd]
    exact List.cons_ne_nil _ _

end EpollState

end Rtfsc.Linux
