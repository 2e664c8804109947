import Mathlib.Logic.Function.Basic
import Mathlib.Data.UInt

/-!
# MessageQueue: listeners of file descriptors

The records that a `MessageQueue` keeps for file descriptors, what it has told native code to watch,
and the call of a listener by `dispatchEvents`, during which everybody may register again. Beside it
stands what the records are for: a map from descriptors to registrations. The two agree, and with
them native code, as long as no registration is taken for an old one and no listener answers for a
registration that is not its own.
-/

namespace Rtfsc.Android

/-- `EVENT_ERROR`. -/
def eventError : UInt32 := 4

/-- A set of events as it is watched: completed with `EVENT_ERROR`, unless it is empty. -/
def completed (events : UInt32) : UInt32 := if events ≠ 0 then events ||| eventError else 0

/-- A `FileDescriptor` object, and the number it has. -/
structure FileDescriptor where
  object : Nat
  int : Int

variable {L : Type} [DecidableEq L]

/-- `FileDescriptorRecord`; `object` tells two of them apart. -/
structure FileDescriptorRecord (L : Type) where
  object : Nat
  mDescriptor : FileDescriptor
  mEvents : UInt32
  mListener : L
  mSeq : UInt32

/-- What `dispatchEvents` has in its variables while the listener runs. -/
structure Dispatch (L : Type) where
  fd : Int
  record : FileDescriptorRecord L
  events : UInt32

/-- The records of a queue, the event sets that native code was given last, and the call of
`dispatchEvents` whose listener runs. -/
structure FdQueue (L : Type) where
  mFileDescriptorRecords : Option (Int → Option (FileDescriptorRecord L))
  native : Int → UInt32
  objects : Nat
  dispatch : Option (Dispatch L)

namespace FdQueue

/-- A queue without records. -/
def new : FdQueue L where
  mFileDescriptorRecords := none
  native := fun _ => 0
  objects := 0
  dispatch := none

/-- The record of a descriptor. -/
def record (q : FdQueue L) (fd : Int) : Option (FileDescriptorRecord L) :=
  q.mFileDescriptorRecords.bind fun records => records fd

/-- A record is put, or removed. -/
def setRecord (q : FdQueue L) (fd : Int) (r : Option (FileDescriptorRecord L)) : FdQueue L :=
  let records := q.mFileDescriptorRecords.getD fun _ => none
  { q with mFileDescriptorRecords := some (Function.update records fd r) }

/-- `nativeSetFileDescriptorEvents`, or the return to native code. -/
def tellNative (q : FdQueue L) (fd : Int) (events : UInt32) : FdQueue L :=
  { q with native := Function.update q.native fd events }

/-- `updateOnFileDescriptorEventListenerLocked`. -/
def updateOnFileDescriptorEventListenerLocked (q : FdQueue L) (fd : FileDescriptor)
    (events : UInt32) (listener : L) : FdQueue L :=
  match q.record fd.int with
  | none =>
    if events ≠ 0 then
      let r : FileDescriptorRecord L := ⟨q.objects, fd, events ||| eventError, listener, 0⟩
      { q with objects := q.objects + 1 }.setRecord fd.int (some r) |>.tellNative fd.int
        (events ||| eventError)
    else q
  | some r =>
    if r.mEvents = events then q
    else if events ≠ 0 then
      let r := { r with
        mListener := listener, mEvents := events ||| eventError, mSeq := r.mSeq + 1 }
      q.setRecord fd.int (some r) |>.tellNative fd.int (events ||| eventError)
    else q.setRecord fd.int none |>.tellNative fd.int 0

/-- `dispatchEvents`, up to the call of the listener. Before the first registration the access to the
records throws. -/
def dispatchEvents (q : FdQueue L) (fd : Int) (events : UInt32) : FdQueue L :=
  match q.mFileDescriptorRecords with
  | none => q
  | some records =>
    match records fd with
    | none => q.tellNative fd 0
    | some r =>
      if events &&& r.mEvents = 0 then q.tellNative fd r.mEvents
      else { q with dispatch := some ⟨fd, r, events &&& r.mEvents⟩ }

/-- `dispatchEvents` behind the listener: the record is updated if the listener has changed the events
and has not been updated since. -/
def narrow (q : FdQueue L) (d : Dispatch L) (newWatchedEvents : UInt32) : FdQueue L :=
  if newWatchedEvents ≠ d.record.mEvents then
    match q.record d.fd with
    | some r =>
      if r.object = d.record.object ∧ r.mSeq = d.record.mSeq then
        q.setRecord d.fd (if newWatchedEvents = 0 then none
          else some { r with mEvents := newWatchedEvents })
      else q
    | none => q
  else q

/-- `dispatchEvents`, from the return of the listener on. -/
def listenerReturns (q : FdQueue L) (d : Dispatch L) (ret : UInt32) : FdQueue L :=
  { (q.narrow d (completed ret)).tellNative d.fd (completed ret) with dispatch := none }

end FdQueue

/-- A call. `removeOnFileDescriptorEventListener` is an update with no events. -/
inductive FdCall (L : Type)
  | update (fd : FileDescriptor) (events : UInt32) (listener : L)
  | dispatch (fd : Int) (events : UInt32)
  | returns (ret : UInt32)

/-- One call. There is no second `dispatchEvents` while a listener runs, and no return without one. -/
def FdQueue.step (q : FdQueue L) : FdCall L → FdQueue L
  | .update fd events listener => q.updateOnFileDescriptorEventListenerLocked fd events listener
  | .dispatch fd events =>
    match q.dispatch with
    | none => q.dispatchEvents fd events
    | some _ => q
  | .returns ret =>
    match q.dispatch with
    | none => q
    | some d => q.listenerReturns d ret

/-! ## Registrations -/

/-- A listener and the events it is called for. `number` tells two registrations apart. -/
structure Registration (L : Type) where
  listener : L
  events : UInt32
  number : Nat

/-- The registrations in force, and the one whose listener runs. -/
structure Registrations (L : Type) where
  of : Int → Option (Registration L)
  numbers : Nat
  running : Option (Int × Nat)

namespace Registrations

def none : Registrations L where
  of := fun _ => Option.none
  numbers := 0
  running := Option.none

/-- What native code is to watch. -/
def watched (m : Registrations L) (fd : Int) : UInt32 := (m.of fd).elim 0 Registration.events

/-- A new registration. -/
def register (m : Registrations L) (fd : Int) (events : UInt32) (listener : L) : Registrations L :=
  { m with
    of := Function.update m.of fd (some ⟨listener, completed events, m.numbers⟩)
    numbers := m.numbers + 1 }

/-- A registration takes the place of the one before it, unless it says the same; one without events
ends it. -/
def update (m : Registrations L) (fd : Int) (events : UInt32) (listener : L) : Registrations L :=
  if events = 0 then { m with of := Function.update m.of fd Option.none }
  else if (m.of fd).any fun r => r.listener = listener ∧ r.events = events then m
  else m.register fd events listener

/-- A listener is called when one of the events is watched. -/
def dispatch (m : Registrations L) (fd : Int) (events : UInt32) : Registrations L :=
  match m.of fd with
  | some r => if events &&& r.events = 0 then m else { m with running := some (fd, r.number) }
  | Option.none => m

/-- The registration of a listener that returns is narrowed to what it returns, if it is still in
force. -/
def returns (m : Registrations L) (fd : Int) (number : Nat) (ret : UInt32) : Registrations L :=
  let m := { m with running := Option.none }
  match m.of fd with
  | some r =>
    if r.number = number then
      let narrowed := if ret = 0 then Option.none else some { r with events := completed ret }
      { m with of := Function.update m.of fd narrowed }
    else m
  | Option.none => m

def step (m : Registrations L) : FdCall L → Registrations L
  | .update fd events listener => m.update fd.int events listener
  | .dispatch fd events =>
    match m.running with
    | Option.none => m.dispatch fd events
    | some _ => m
  | .returns ret =>
    match m.running with
    | Option.none => m
    | some (fd, number) => m.returns fd number ret

/-- What a call has to meet. A registration with the events that are registered (`EVENT_ERROR` among
them) has the listener that is registered. A listener that returns has its registration still in
force, or it returns what is watched by then. -/
def Meets (m : Registrations L) : FdCall L → Prop
  | .update fd events listener => ∀ r ∈ m.of fd.int, r.events = events → r.listener = listener
  | .dispatch _ _ => True
  | .returns ret => ∀ fd number, m.running = some (fd, number) →
      (∃ r ∈ m.of fd, r.number = number) ∨ m.watched fd = completed ret

/-- All calls of a sequence meet it. -/
def AllMeet : Registrations L → List (FdCall L) → Prop
  | _, [] => True
  | m, c :: calls => m.Meets c ∧ AllMeet (m.step c) calls

end Registrations

/-- The record of a descriptor is its registration, and native code watches its events. -/
structure Agrees (q : FdQueue L) (m : Registrations L) : Prop where
  records : ∀ fd, (q.record fd).map (fun r => (r.mListener, r.mEvents)) =
    (m.of fd).map fun r => (r.listener, r.events)
  native : ∀ fd, q.native fd = m.watched fd

/-- What links the two while they agree: the registration whose listener runs, while it is in force,
has the record that `dispatchEvents` found. -/
structure Linked (q : FdQueue L) (m : Registrations L) : Prop where
  events : ∀ fd, ∀ r ∈ m.of fd, r.events ≠ 0
  numbers : ∀ fd, ∀ r ∈ m.of fd, r.number < m.numbers
  dispatch : q.dispatch.map Dispatch.fd = m.running.map Prod.fst
  running : ∀ fd number, m.running = some (fd, number) → number < m.numbers
  inForce : ∀ d ∈ q.dispatch, ∀ number, m.running = some (d.fd, number) →
    ∀ r ∈ m.of d.fd, r.number = number → ∃ r' ∈ q.record d.fd,
      r'.object = d.record.object ∧ r'.mSeq = d.record.mSeq ∧ r'.mEvents = d.record.mEvents

variable {q : FdQueue L} {m : Registrations L} {fd fd' : Int} {events ret : UInt32} {listener : L}
  {c : FdCall L}

theorem completed_ne_zero (h : events ≠ 0) : completed events ≠ 0 := by
  unfold completed
  rw [if_pos h]
  intro hzero
  have hbits := congrArg UInt32.toBitVec hzero
  simp [eventError] at hbits

theorem completed_eq_zero : completed ret = 0 ↔ ret = 0 := by
  constructor
  · intro h
    by_contra hne
    exact completed_ne_zero hne h
  · rintro rfl
    rfl

omit [DecidableEq L] in
theorem record_setRecord (q : FdQueue L) (fd fd' : Int) (r : Option (FileDescriptorRecord L)) :
    (q.setRecord fd r).record fd' = if fd' = fd then r else q.record fd' := by
  unfold FdQueue.record FdQueue.setRecord
  dsimp only
  rw [Option.bind_some, Function.update_apply]
  split
  · rfl
  · cases q.mFileDescriptorRecords <;> rfl

/-- Both sides get the same entry for a descriptor, and native code is told. -/
structure SetsEntry (q : FdQueue L) (m : Registrations L) (fd : Int) (q' : FdQueue L)
    (m' : Registrations L) (r : Option (FileDescriptorRecord L)) (reg : Option (Registration L)) :
    Prop where
  record : ∀ fd', q'.record fd' = if fd' = fd then r else q.record fd'
  of : m'.of = Function.update m.of fd reg
  same : r.map (fun r => (r.mListener, r.mEvents)) = reg.map fun r => (r.listener, r.events)
  native : q'.native = Function.update q.native fd (reg.elim 0 Registration.events)

/-- The entry is a new registration, or nothing. -/
structure Renews (q : FdQueue L) (m : Registrations L) (q' : FdQueue L) (m' : Registrations L)
    (reg : Option (Registration L)) : Prop where
  dispatch : q'.dispatch = q.dispatch
  running : m'.running = m.running
  isNew : ∀ x ∈ reg, x.events ≠ 0 ∧ m.numbers ≤ x.number ∧ x.number < m'.numbers
  numbers : m.numbers ≤ m'.numbers

namespace SetsEntry

variable {q' : FdQueue L} {m' : Registrations L} {r : Option (FileDescriptorRecord L)}
  {reg : Option (Registration L)}

omit [DecidableEq L] in
theorem agrees (hset : SetsEntry q m fd q' m' r reg) (h : Agrees q m) : Agrees q' m' := by
  refine ⟨fun fd' => ?_, fun fd' => ?_⟩
  · rw [hset.record, hset.of, Function.update_apply]
    split
    · exact hset.same
    · exact h.records fd'
  · unfold Registrations.watched
    rw [hset.native, hset.of, Function.update_apply, Function.update_apply]
    split
    · rfl
    · exact h.native fd'

omit [DecidableEq L] in
theorem linked (hset : SetsEntry q m fd q' m' r reg) (hnew : Renews q m q' m' reg)
    (h : Linked q m) : Linked q' m' := by
  have hof (fd' : Int) : m'.of fd' = if fd' = fd then reg else m.of fd' := by
    rw [hset.of, Function.update_apply]
  refine ⟨fun fd' x hx => ?_, fun fd' x hx => ?_, ?_, fun fd' number hrun => ?_,
    fun d hd number hrun x hx hnumber => ?_⟩
  · rw [hof] at hx
    split at hx
    · exact (hnew.isNew x hx).1
    · exact h.events fd' x hx
  · rw [hof] at hx
    split at hx
    · exact (hnew.isNew x hx).2.2
    · exact (h.numbers fd' x hx).trans_le hnew.numbers
  · rw [hnew.dispatch, hnew.running]
    exact h.dispatch
  · rw [hnew.running] at hrun
    exact (h.running fd' number hrun).trans_le hnew.numbers
  · rw [hnew.dispatch] at hd
    rw [hnew.running] at hrun
    rw [hof] at hx
    rw [hset.record]
    split at hx
    · -- a new registration is not the one whose listener runs
      have hold := h.running _ _ hrun
      have hnumber' := (hnew.isNew x hx).2.1
      omega
    · next hne =>
      rw [if_neg hne]
      exact h.inForce d hd number hrun x hx hnumber

end SetsEntry

omit [DecidableEq L] in
/-- A registration and the record that agrees with it. -/
theorem Agrees.record_of (h : Agrees q m) {reg : Registration L} (hreg : m.of fd = some reg) :
    ∃ r, q.record fd = some r ∧ r.mListener = reg.listener ∧ r.mEvents = reg.events := by
  have hrecord := h.records fd
  rw [hreg] at hrecord
  obtain ⟨r, hr, hsame⟩ := Option.map_eq_some_iff.mp hrecord
  exact ⟨r, hr, congrArg Prod.fst hsame, congrArg Prod.snd hsame⟩

omit [DecidableEq L] in
theorem Agrees.record_none (h : Agrees q m) (hreg : m.of fd = none) : q.record fd = none := by
  have hrecord := h.records fd
  rw [hreg] at hrecord
  exact Option.map_eq_none_iff.mp hrecord

/-! ## A registration -/

omit [DecidableEq L] in
/-- A record that is new or registered again, and the new registration. -/
theorem SetsEntry.register {q : FdQueue L} (objects : Nat) {r : FileDescriptorRecord L}
    (hevents : events ≠ 0) (hlistener : r.mListener = listener)
    (hmask : r.mEvents = events ||| eventError) :
    let q' := ({ q with objects := objects }.setRecord fd (some r)).tellNative fd
      (events ||| eventError)
    let reg : Registration L := ⟨listener, completed events, m.numbers⟩
    SetsEntry q m fd q' (m.register fd events listener) (some r) (some reg) ∧
      Renews q m q' (m.register fd events listener) (some reg) := by
  have hcompleted : completed events = events ||| eventError := if_pos hevents
  refine ⟨⟨fun fd' => record_setRecord .., rfl, ?_, ?_⟩, rfl, rfl, ?_, Nat.le_succ _⟩
  · rw [hcompleted, ← hmask, ← hlistener]
    rfl
  · rw [hcompleted]
    rfl
  · rintro x ⟨⟩
    exact ⟨completed_ne_zero hevents, le_rfl, Nat.lt_succ_self _⟩

/-- An update says what is registered, or it is taken for one that does, or it sets the entry of its
descriptor. -/
theorem update_cases (h : Agrees q m) (hlink : Linked q m) (fd : FileDescriptor)
    (events : UInt32) (listener : L) :
    let q' := q.updateOnFileDescriptorEventListenerLocked fd events listener
    let m' := m.update fd.int events listener
    (q' = q ∧ m' = m ∧ ∀ r ∈ m.of fd.int, r.events = events → r.listener = listener) ∨
    (q' = q ∧ m' = m.register fd.int events listener ∧
      ∃ r ∈ m.of fd.int, r.events = events ∧ r.listener ≠ listener) ∨
    (∀ r ∈ m.of fd.int, r.events ≠ events) ∧
      ∃ r reg, SetsEntry q m fd.int q' m' r reg ∧ Renews q m q' m' reg := by
  dsimp only
  unfold FdQueue.updateOnFileDescriptorEventListenerLocked Registrations.update
  cases hreg : m.of fd.int with
  | none =>
    rw [h.record_none hreg]
    dsimp only
    refine .inr (.inr ⟨nofun, ?_⟩)
    by_cases hevents : events = 0
    · rw [if_neg (not_not.mpr hevents), if_pos hevents]
      have hwatched : q.native fd.int = 0 := by
        rw [h.native]
        unfold Registrations.watched
        rw [hreg]
        rfl
      refine ⟨none, none, ⟨fun fd' => ?_, rfl, rfl, ?_⟩, rfl, rfl, nofun, le_rfl⟩
      · split
        · next heq => rw [heq, h.record_none hreg]
        · rfl
      · show q.native = Function.update q.native fd.int 0
        rw [← hwatched, Function.update_eq_self]
    · rw [if_pos hevents, if_neg hevents]
      exact ⟨_, _, SetsEntry.register _ hevents rfl rfl⟩
  | some reg =>
    obtain ⟨r, hr, hlistener, hmask⟩ := h.record_of hreg
    rw [hr]
    dsimp only
    by_cases hsame : reg.events = events
    · have hevents : events ≠ 0 := hsame ▸ hlink.events fd.int reg hreg
      rw [if_pos (hmask.trans hsame), if_neg hevents]
      by_cases heq : reg.listener = listener
      · refine .inl ⟨rfl, if_pos (by simp [heq, hsame]), ?_⟩
        rintro x ⟨⟩ -
        exact heq
      · exact .inr (.inl ⟨rfl, if_neg (by simp [heq]), reg, rfl, hsame, heq⟩)
    · rw [if_neg fun heq => hsame (hmask.symm.trans heq)]
      refine .inr (.inr ⟨?_, ?_⟩)
      · rintro x ⟨⟩
        exact hsame
      by_cases hevents : events = 0
      · rw [if_neg (not_not.mpr hevents), if_pos hevents]
        exact ⟨none, none, ⟨fun fd' => record_setRecord .., rfl, rfl, rfl⟩, rfl, rfl, nofun, le_rfl⟩
      · rw [if_pos hevents, if_neg hevents, if_neg (by simp [hsame])]
        exact ⟨_, _, SetsEntry.register q.objects hevents rfl rfl⟩

/-- After an update that meets its condition the two agree, and only then. -/
theorem update_agrees (h : Agrees q m) (hlink : Linked q m) (fd : FileDescriptor) (events : UInt32)
    (listener : L) :
    let q' := q.updateOnFileDescriptorEventListenerLocked fd events listener
    let m' := m.update fd.int events listener
    (Agrees q' m' ↔ m.Meets (.update fd events listener)) ∧ (Agrees q' m' → Linked q' m') := by
  dsimp only
  rcases update_cases h hlink fd events listener with
    ⟨hq, hm, hmeets⟩ | ⟨hq, hm, reg, hreg, hevents, hne⟩ | ⟨hdiffers, r, reg, hset, hnew⟩
  · rw [hq, hm]
    exact ⟨⟨fun _ => hmeets, fun _ => h⟩, fun _ => hlink⟩
  · rw [hq, hm]
    -- the record still has the listener from before
    have hnot : ¬Agrees q (m.register fd.int events listener) := by
      intro hagrees
      obtain ⟨r, hr, hlistener, -⟩ := h.record_of hreg
      obtain ⟨r', hr', hlistener', -⟩ := hagrees.record_of
        (show (m.register fd.int events listener).of fd.int = some _ from Function.update_self ..)
      obtain rfl : r = r' := Option.some.inj (hr.symm.trans hr')
      exact hne (hlistener.symm.trans hlistener')
    exact ⟨⟨fun hagrees => absurd hagrees hnot, fun hmeets => absurd (hmeets reg hreg hevents) hne⟩,
      fun hagrees => absurd hagrees hnot⟩
  · exact ⟨⟨fun _ reg hreg hevents => absurd hevents (hdiffers reg hreg), fun _ => hset.agrees h⟩,
      fun _ => hset.linked hnew hlink⟩

/-! ## A dispatch -/

omit [DecidableEq L] in
theorem tellNative_self (h : q.native fd = events) : q.tellNative fd events = q := by
  unfold FdQueue.tellNative
  rw [← h, Function.update_eq_self]

omit [DecidableEq L] in
theorem dispatchEvents_none (h : q.record fd = none) (hnative : q.native fd = 0) :
    q.dispatchEvents fd events = q := by
  unfold FdQueue.record at h
  unfold FdQueue.dispatchEvents
  split
  · rfl
  · next records hrecords =>
    rw [hrecords, Option.bind_some] at h
    rw [h]
    exact tellNative_self hnative

omit [DecidableEq L] in
theorem dispatchEvents_some {r : FileDescriptorRecord L} (h : q.record fd = some r) :
    q.dispatchEvents fd events = if events &&& r.mEvents = 0 then q.tellNative fd r.mEvents
      else { q with dispatch := some ⟨fd, r, events &&& r.mEvents⟩ } := by
  unfold FdQueue.record at h
  unfold FdQueue.dispatchEvents
  split
  · next hrecords =>
    rw [hrecords] at h
    cases h
  · next records hrecords =>
    rw [hrecords, Option.bind_some] at h
    rw [h]

omit [DecidableEq L] in
/-- A dispatch calls a listener on both sides, or changes nothing. -/
theorem dispatch_agrees (h : Agrees q m) (hlink : Linked q m) (fd : Int) (events : UInt32) :
    Agrees (q.dispatchEvents fd events) (m.dispatch fd events) ∧
      Linked (q.dispatchEvents fd events) (m.dispatch fd events) := by
  have hnative := h.native fd
  unfold Registrations.watched at hnative
  unfold Registrations.dispatch
  cases hreg : m.of fd with
  | none =>
    rw [hreg] at hnative
    rw [dispatchEvents_none (h.record_none hreg) hnative]
    exact ⟨h, hlink⟩
  | some reg =>
    obtain ⟨r, hr, -, hmask⟩ := h.record_of hreg
    rw [dispatchEvents_some hr, hmask]
    dsimp only
    split
    · rw [hreg] at hnative
      rw [tellNative_self (show q.native fd = reg.events from hnative)]
      exact ⟨h, hlink⟩
    · refine ⟨⟨h.records, h.native⟩, hlink.events, hlink.numbers, rfl, ?_, ?_⟩
      · rintro fd' number ⟨⟩
        exact hlink.numbers fd reg hreg
      · rintro d ⟨⟩ number hrun x hx hnumber
        exact ⟨r, hr, rfl, rfl, rfl⟩

/-! ## The return of a listener -/

omit [DecidableEq L] in
theorem narrow_native (q : FdQueue L) (d : Dispatch L) (events : UInt32) :
    (q.narrow d events).native = q.native := by
  unfold FdQueue.narrow
  split
  · split
    · split
      · rfl
      · rfl
    · rfl
  · rfl

omit [DecidableEq L] in
theorem listenerReturns_native (q : FdQueue L) (d : Dispatch L) (ret : UInt32) :
    (q.listenerReturns d ret).native = Function.update q.native d.fd (completed ret) := by
  rw [← narrow_native q d (completed ret)]
  rfl

omit [DecidableEq L] in
/-- The listener whose registration is still in force narrows it. -/
theorem returns_inForce (h : Agrees q m) (hlink : Linked q m) {d : Dispatch L} {number : Nat}
    (hd : q.dispatch = some d) (hrun : m.running = some (d.fd, number)) {reg : Registration L}
    (hreg : m.of d.fd = some reg) (hnumber : reg.number = number) (ret : UInt32) :
    Agrees (q.listenerReturns d ret) (m.returns d.fd number ret) := by
  obtain ⟨r, hr, hobject, hseq, hold⟩ := hlink.inForce d hd number hrun reg hreg hnumber
  obtain ⟨r', hr', hlistener, hmask⟩ := h.record_of hreg
  obtain rfl : r = r' := Option.some.inj (hr.symm.trans hr')
  have hnarrowed : (m.returns d.fd number ret).of = Function.update m.of d.fd
      (if ret = 0 then none else some { reg with events := completed ret }) := by
    unfold Registrations.returns
    dsimp only
    rw [hreg]
    dsimp only
    rw [if_pos hnumber]
  by_cases hchanged : completed ret = d.record.mEvents
  · -- nothing is written: the registration has the events that the listener returns
    have hret : ret ≠ 0 := by
      intro hzero
      refine hlink.events d.fd reg hreg ?_
      rw [← hmask, hold, ← hchanged, hzero]
      rfl
    have hkept : q.narrow d (completed ret) = q := if_neg (not_not.mpr hchanged)
    rw [if_neg hret] at hnarrowed
    have hset : SetsEntry q m d.fd (q.listenerReturns d ret) (m.returns d.fd number ret) (some r)
        (some { reg with events := completed ret }) := by
      refine ⟨fun fd' => ?_, hnarrowed, ?_, ?_⟩
      · show (q.narrow d (completed ret)).record fd' = _
        rw [hkept]
        split
        · next heq => rw [heq, hr]
        · rfl
      · show some (r.mListener, r.mEvents) = some (reg.listener, completed ret)
        rw [hlistener, hold, hchanged]
      · rw [listenerReturns_native]
        rfl
    exact hset.agrees h
  · have hwritten : q.narrow d (completed ret) = q.setRecord d.fd (if completed ret = 0 then none
        else some { r with mEvents := completed ret }) := by
      unfold FdQueue.narrow
      rw [if_pos hchanged, hr]
      dsimp only
      rw [if_pos ⟨hobject, hseq⟩]
    have hset : SetsEntry q m d.fd (q.listenerReturns d ret) (m.returns d.fd number ret)
        (if completed ret = 0 then none else some { r with mEvents := completed ret })
        (if ret = 0 then none else some { reg with events := completed ret }) := by
      refine ⟨fun fd' => ?_, hnarrowed, ?_, ?_⟩
      · show (q.narrow d (completed ret)).record fd' = _
        rw [hwritten]
        exact record_setRecord ..
      · by_cases hret : ret = 0
        · rw [if_pos (completed_eq_zero.mpr hret), if_pos hret]
          rfl
        · rw [if_neg fun heq => hret (completed_eq_zero.mp heq), if_neg hret]
          show some (r.mListener, completed ret) = some (reg.listener, completed ret)
          rw [hlistener]
      · rw [listenerReturns_native]
        by_cases hret : ret = 0
        · rw [if_pos hret, completed_eq_zero.mpr hret]
          rfl
        · rw [if_neg hret]
          rfl
    exact hset.agrees h

omit [DecidableEq L] in
/-- The listener of another registration may only return what is watched. -/
theorem returns_replaced (h : Agrees q m) (hlink : Linked q m) {d : Dispatch L} {number : Nat}
    (hgone : ∀ r ∈ m.of d.fd, r.number ≠ number) (ret : UInt32) :
    Agrees (q.listenerReturns d ret) (m.returns d.fd number ret) ↔
      m.watched d.fd = completed ret := by
  have hof : (m.returns d.fd number ret).of = m.of := by
    unfold Registrations.returns
    dsimp only
    split
    · next r hr => rw [if_neg (hgone r hr)]
    · rfl
  constructor
  · intro hagrees
    have htold := hagrees.native d.fd
    rw [listenerReturns_native, Function.update_self] at htold
    unfold Registrations.watched at htold ⊢
    rw [hof] at htold
    exact htold.symm
  · intro hsame
    -- a write to the record, if there is one, writes what it has
    have hkept : ∀ fd', (q.narrow d (completed ret)).record fd' = q.record fd' := by
      intro fd'
      unfold FdQueue.narrow
      split
      · split
        · next r hr =>
          obtain ⟨reg, hreg⟩ : ∃ reg, m.of d.fd = some reg := by
            cases hreg : m.of d.fd with
            | none => exact nomatch (h.record_none hreg).symm.trans hr
            | some reg => exact ⟨reg, rfl⟩
          obtain ⟨r', hr', -, hmask⟩ := h.record_of hreg
          obtain rfl : r = r' := Option.some.inj (hr.symm.trans hr')
          have hevents : r.mEvents = completed ret := by
            unfold Registrations.watched at hsame
            rw [hreg] at hsame
            exact hmask.trans hsame
          have hne : completed ret ≠ 0 := by
            rw [← hevents, hmask]
            exact hlink.events d.fd reg hreg
          rw [if_neg hne]
          split
          · rw [← hevents, record_setRecord]
            split
            · next heq => rw [heq, hr]
            · rfl
          · rfl
        · rfl
      · rfl
    refine ⟨fun fd' => ?_, fun fd' => ?_⟩
    · show ((q.narrow d (completed ret)).record fd').map _ = _
      rw [hkept, hof]
      exact h.records fd'
    · rw [listenerReturns_native, Function.update_apply]
      unfold Registrations.watched
      rw [hof]
      split
      · next heq =>
        rw [heq]
        exact hsame.symm
      · exact h.native fd'

omit [DecidableEq L] in
/-- Behind the return no listener runs. -/
theorem returns_linked (hlink : Linked q m) (d : Dispatch L) (number : Nat) (ret : UInt32) :
    Linked (q.listenerReturns d ret) (m.returns d.fd number ret) := by
  have hrunning : (m.returns d.fd number ret).running = none := by
    unfold Registrations.returns
    dsimp only
    split
    · split <;> rfl
    · rfl
  have hof : ∀ fd, ∀ reg ∈ (m.returns d.fd number ret).of fd, (∃ reg' ∈ m.of fd,
      reg.number = reg'.number) ∧ reg.events ≠ 0 := by
    intro fd reg hreg
    unfold Registrations.returns at hreg
    dsimp only at hreg
    split at hreg
    · next reg' hreg' =>
      split at hreg
      · dsimp only at hreg
        rw [Function.update_apply] at hreg
        split at hreg
        · next heq =>
          split at hreg
          · cases hreg
          · next hret =>
            cases hreg
            rw [heq]
            exact ⟨⟨reg', hreg', rfl⟩, completed_ne_zero hret⟩
        · exact ⟨⟨reg, hreg, rfl⟩, hlink.events fd reg hreg⟩
      · exact ⟨⟨reg, hreg, rfl⟩, hlink.events fd reg hreg⟩
    · exact ⟨⟨reg, hreg, rfl⟩, hlink.events fd reg hreg⟩
  have hnumbers : (m.returns d.fd number ret).numbers = m.numbers := by
    unfold Registrations.returns
    dsimp only
    split
    · split <;> rfl
    · rfl
  refine ⟨fun fd reg hreg => (hof fd reg hreg).2, fun fd reg hreg => ?_, ?_, ?_, nofun⟩
  · obtain ⟨⟨reg', hreg', hnumber⟩, -⟩ := hof fd reg hreg
    rw [hnumbers, hnumber]
    exact hlink.numbers fd reg' hreg'
  · rw [hrunning]
    rfl
  · rw [hrunning]
    nofun

/-! ## Every sequence of calls -/

/-- After a call that meets its condition the two agree, and only then. -/
theorem step_agrees (h : Agrees q m) (hlink : Linked q m) (c : FdCall L) :
    (Agrees (q.step c) (m.step c) ↔ m.Meets c) ∧
      (Agrees (q.step c) (m.step c) → Linked (q.step c) (m.step c)) := by
  have hdispatch := hlink.dispatch
  cases c with
  | update fd events listener => exact update_agrees h hlink fd events listener
  | dispatch fd events =>
    unfold FdQueue.step Registrations.step
    cases hd : q.dispatch with
    | none =>
      rw [hd] at hdispatch
      rw [Option.map_eq_none_iff.mp hdispatch.symm]
      obtain ⟨hagrees, hlinked⟩ := dispatch_agrees h hlink fd events
      exact ⟨⟨fun _ => trivial, fun _ => hagrees⟩, fun _ => hlinked⟩
    | some d =>
      rw [hd] at hdispatch
      obtain ⟨running, hrun, -⟩ := Option.map_eq_some_iff.mp hdispatch.symm
      rw [hrun]
      exact ⟨⟨fun _ => trivial, fun _ => h⟩, fun _ => hlink⟩
  | returns ret =>
    unfold FdQueue.step Registrations.step Registrations.Meets
    cases hd : q.dispatch with
    | none =>
      rw [hd] at hdispatch
      rw [Option.map_eq_none_iff.mp hdispatch.symm]
      exact ⟨⟨fun _ => nofun, fun _ => h⟩, fun _ => hlink⟩
    | some d =>
      rw [hd] at hdispatch
      obtain ⟨⟨fd, number⟩, hrun, hfd⟩ := Option.map_eq_some_iff.mp hdispatch.symm
      obtain rfl : fd = d.fd := hfd
      rw [hrun]
      refine ⟨?_, fun _ => returns_linked hlink d number ret⟩
      dsimp only
      by_cases hforce : ∃ reg ∈ m.of d.fd, reg.number = number
      · obtain ⟨reg, hreg, hnumber⟩ := hforce
        refine ⟨?_, fun _ => returns_inForce h hlink hd hrun hreg hnumber ret⟩
        rintro - _ _ ⟨⟩
        exact .inl ⟨reg, hreg, hnumber⟩
      · have hgone : ∀ reg ∈ m.of d.fd, reg.number ≠ number :=
          fun reg hreg hnumber => hforce ⟨reg, hreg, hnumber⟩
        rw [returns_replaced h hlink hgone ret]
        constructor
        · rintro hsame _ _ ⟨⟩
          exact .inr hsame
        · intro hmeets
          exact (hmeets d.fd number rfl).resolve_left hforce

omit [DecidableEq L] in
theorem new_agrees : Agrees (FdQueue.new : FdQueue L) Registrations.none ∧
    Linked (FdQueue.new : FdQueue L) Registrations.none :=
  ⟨⟨fun _ => rfl, fun _ => rfl⟩, nofun, nofun, rfl, nofun, nofun⟩

/-- At every point of a sequence of calls the records are the registrations in force and native code
watches their events, if and only if every call of the sequence meets its condition. -/
theorem fdListeners_iff (calls : List (FdCall L)) :
    (∀ before, before <+: calls →
      Agrees (before.foldl FdQueue.step FdQueue.new) (before.foldl Registrations.step .none)) ↔
    Registrations.none.AllMeet calls := by
  obtain ⟨hagrees, hlink⟩ := new_agrees (L := L)
  generalize (FdQueue.new : FdQueue L) = q at hagrees hlink ⊢
  generalize (Registrations.none : Registrations L) = m at hagrees hlink ⊢
  induction calls generalizing q m with
  | nil =>
    refine ⟨fun _ => trivial, fun _ before hbefore => ?_⟩
    rw [List.prefix_nil.mp hbefore]
    exact hagrees
  | cons c calls ih =>
    obtain ⟨hstep, hlinked⟩ := step_agrees hagrees hlink c
    constructor
    · intro hall
      have hnext := hall [c] (by simp)
      refine ⟨hstep.mp hnext, (ih _ _ hnext (hlinked hnext)).mp fun before hbefore => ?_⟩
      exact hall (c :: before) (List.cons_prefix_cons.mpr ⟨rfl, hbefore⟩)
    · rintro ⟨hmeets, hrest⟩ before hbefore
      have hnext := hstep.mpr hmeets
      cases before with
      | nil => exact hagrees
      | cons c' before =>
        obtain ⟨rfl, htail⟩ := List.cons_prefix_cons.mp hbefore
        exact (ih _ _ hnext (hlinked hnext)).mpr hrest before htail

/-- `EVENT_INPUT` and `EVENT_ERROR` are registered for a listener, and then for another one, which is
taken for what is registered. -/
theorem fdListeners_secondListener :
    ¬∀ (calls before : List (FdCall Nat)), before <+: calls →
      Agrees (before.foldl FdQueue.step FdQueue.new) (before.foldl Registrations.step .none) := by
  intro hall
  have hlast := hall [.update ⟨0, 3⟩ 5 1, .update ⟨0, 3⟩ 5 2] _ List.prefix_rfl
  exact absurd (hlast.records 3) (by decide)

end Rtfsc.Android
