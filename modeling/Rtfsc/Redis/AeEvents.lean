import Rtfsc.Redis.Ae

/-!
# redis: a pass over the time events

What the list of time events is for: a finite map from ids to times, with one operation for what a
handler can do and one for an event that has fired. A pass leaves in the list what the map says,
fires only what was there before and is due, and touches an event that has been freed if and only if
a handler deletes its own event and returns a delay.
-/

namespace Rtfsc.Redis.Ae

open Rtfsc.Machine EventLoop

/-! ## The map -/

/-- An event as a map has it: its time in milliseconds, and whether it has a finalizer. -/
structure Timer where
  time : Int
  hasFinalizer : Bool
deriving DecidableEq

/-- The events by id, and the next id. -/
@[ext] structure Timers where
  event : Int → Option Timer
  nextId : Int

namespace Timers

def act (m : Timers) : Action → Timers
  | .create now milliseconds hasFinalizer oom =>
    { event := if oom then m.event
        else Function.update m.event m.nextId (some ⟨now.total + milliseconds, hasFinalizer⟩)
      nextId := m.nextId + 1 }
  | .delete id => { event := Function.update m.event id none, nextId := m.nextId }

/-- A fired event has a new time, or is gone and has its finalizer called. -/
def fired (m : Timers) (id : Int) (a : Answers) : Timers :=
  let called := a.acts.foldl act m
  if a.retval ≠ aeNoMore then
    let again (t : Timer) : Timer := { t with time := a.after.total + a.retval }
    { called with event := Function.update called.event id ((called.event id).map again) }
  else
    let deleted := { called with event := Function.update called.event id none }
    match called.event id with
    | some t => if t.hasFinalizer then a.finalizer.foldl act deleted else deleted
    | none => deleted

/-- One event of the walk. -/
def turn (m : Timers) (e : Answers × Option TimeEvent) : Timers :=
  match e.2 with
  | some te => m.fired te.id e.1
  | none => m

/-- Every event that fires in a history is there and due. -/
def FiresDue : Timers → List (Answers × Option TimeEvent) → Prop
  | _, [] => True
  | m, e :: es =>
    (∀ te ∈ e.2, ∃ t, m.event te.id = some t ∧ t.time ≤ e.1.now.total) ∧ FiresDue (m.turn e) es

theorem firesDue_snoc {m : Timers} {es : List (Answers × Option TimeEvent)}
    {e : Answers × Option TimeEvent} : FiresDue m (es ++ [e]) ↔ FiresDue m es ∧
      ∀ te ∈ e.2, ∃ t, (es.foldl turn m).event te.id = some t ∧ t.time ≤ e.1.now.total := by
  induction es generalizing m with
  | nil => simp [FiresDue]
  | cons e' es ih =>
    show (_ ∧ FiresDue (m.turn e') (es ++ [e])) ↔ _
    rw [ih, ← and_assoc]
    rfl

end Timers

/-! ## The list is the map -/

variable {loop : EventLoop} {s s' : Pass} {es : List (Answers × Option TimeEvent)}
  {a : Answers} {acts : List Action} {id : Int} {te : TimeEvent} {fired : Option TimeEvent}

/-- What the map has for an event. -/
def TimeEvent.timer (te : TimeEvent) : Timer := ⟨te.total, te.hasFinalizer⟩

/-- The list as a map. -/
def EventLoop.timers (loop : EventLoop) : Timers where
  event id := (loop.find id).map TimeEvent.timer
  nextId := loop.timeEventNextId

theorem find_delete (loop : EventLoop) (id id' : Int) :
    (loop.aeDeleteTimeEvent id).find id' = if id' = id then none else loop.find id' :=
  Keyed.lookup_remove loop.nodup

theorem find_create (loop : EventLoop) (now : Clock) (milliseconds : Int) (hasFinalizer : Bool)
    (id : Int) : (loop.aeCreateTimeEvent now milliseconds hasFinalizer false).find id =
      if loop.timeEventNextId = id then some ⟨loop.timeEventNextId,
        (aeAddMillisecondsToNow now milliseconds).1, (aeAddMillisecondsToNow now milliseconds).2,
        hasFinalizer⟩ else loop.find id := Keyed.lookup_cons

theorem find_reschedule (loop : EventLoop) (id id' : Int) (now : Clock) (milliseconds : Int) :
    (loop.reschedule id now milliseconds).find id' = if id' = id then
      (loop.find id).map fun te => { te with
        whenSec := (aeAddMillisecondsToNow now milliseconds).1
        whenMs := (aeAddMillisecondsToNow now milliseconds).2 }
      else loop.find id' := Keyed.lookup_modify fun _ => rfl

theorem timers_delete (loop : EventLoop) (id : Int) : (loop.aeDeleteTimeEvent id).timers =
    { loop.timers with event := Function.update loop.timers.event id none } := by
  refine Timers.ext (funext fun id' => ?_) rfl
  show ((loop.aeDeleteTimeEvent id).find id').map _ = Function.update loop.timers.event id none id'
  rw [find_delete, Function.update_apply]
  split
  · rfl
  · rfl

theorem timers_act (loop : EventLoop) (action : Action) :
    (act loop action).timers = loop.timers.act action := by
  cases action with
  | delete id => exact timers_delete loop id
  | create now milliseconds hasFinalizer oom =>
    cases oom with
    | true => rfl
    | false =>
      refine Timers.ext (funext fun id => ?_) rfl
      show ((loop.aeCreateTimeEvent now milliseconds hasFinalizer false).find id).map _ =
        Function.update loop.timers.event loop.timeEventNextId (some _) id
      rw [find_create, Function.update_apply]
      split
      · next heq =>
        rw [if_pos heq.symm, ← aeAddMillisecondsToNow_total]
        rfl
      · next hne =>
        rw [if_neg (Ne.symm hne)]
        rfl

theorem timers_acts (loop : EventLoop) (acts : List Action) :
    (acts.foldl act loop).timers = acts.foldl Timers.act loop.timers := by
  induction acts generalizing loop with
  | nil => rfl
  | cons action acts ih =>
    rw [List.foldl_cons, List.foldl_cons, ← timers_act]
    exact ih _

theorem timers_reschedule (loop : EventLoop) (id : Int) (now : Clock) (milliseconds : Int) :
    (loop.reschedule id now milliseconds).timers = 
      let again (t : Timer) : Timer := { t with time := now.total + milliseconds }
      { loop.timers with
        event := Function.update loop.timers.event id ((loop.timers.event id).map again) } := by
  refine Timers.ext (funext fun id' => ?_) rfl
  show ((loop.reschedule id now milliseconds).find id').map _ =
    Function.update loop.timers.event id _ id'
  rw [find_reschedule, Function.update_apply]
  split
  · rw [← aeAddMillisecondsToNow_total]
    show _ = ((loop.find id).map _).map _
    rw [Option.map_map, Option.map_map]
    rfl
  · rfl

theorem timers_finish (loop : EventLoop) (id : Int) (finalizer : List Action) :
    (finish loop id finalizer).timers =
      let deleted := { loop.timers with event := Function.update loop.timers.event id none }
      match loop.timers.event id with
      | some t => if t.hasFinalizer then finalizer.foldl Timers.act deleted else deleted
      | none => deleted := by
  show _ = match (loop.find id).map TimeEvent.timer with
    | some t => _
    | none => _
  unfold finish
  dsimp only
  cases loop.find id with
  | none => exact timers_delete loop id
  | some te =>
    show _ = if te.hasFinalizer then _ else _
    dsimp only
    split
    · rw [timers_acts, timers_delete]
    · exact timers_delete loop id

/-! ## What handlers leave -/

theorem act_nextId (loop : EventLoop) (action : Action) :
    loop.timeEventNextId ≤ (act loop action).timeEventNextId := by
  cases action with
  | delete id => exact Int.le_refl _
  | create now milliseconds hasFinalizer oom =>
    cases oom with
    | true => exact Int.le_of_lt (Int.lt_succ _)
    | false => exact Int.le_of_lt (Int.lt_succ _)

/-- An event that has its id is still there unless an action deletes it, and ids do not come again. -/
theorem find_act (loop : EventLoop) (action : Action) (h : id < loop.timeEventNextId) :
    (act loop action).find id = if action = .delete id then none else loop.find id := by
  cases action with
  | delete id' =>
    refine (find_delete loop id' id).trans ?_
    by_cases hid : id = id'
    · rw [if_pos hid, if_pos (by rw [hid])]
    · rw [if_neg hid, if_neg fun heq => hid (Action.delete.inj heq).symm]
  | create now milliseconds hasFinalizer oom =>
    cases oom with
    | true => rfl
    | false =>
      refine (find_create loop ..).trans ?_
      rw [if_neg (by omega), if_neg nofun]

theorem find_acts (loop : EventLoop) (acts : List Action) (h : id < loop.timeEventNextId) :
    (acts.foldl act loop).find id = if .delete id ∈ acts then none else loop.find id := by
  induction acts generalizing loop with
  | nil => rfl
  | cons action acts ih =>
    have hnext := act_nextId loop action
    rw [List.foldl_cons, ih _ (by omega), find_act loop action h]
    by_cases hlater : Action.delete id ∈ acts
    · rw [if_pos hlater, if_pos (List.mem_cons_of_mem _ hlater)]
    · rw [if_neg hlater]
      by_cases hnow : action = .delete id
      · rw [if_pos hnow, if_pos (hnow ▸ List.mem_cons_self)]
      · rw [if_neg hnow, if_neg]
        rintro (_ | ⟨_, hlater'⟩)
        · exact hnow rfl
        · exact hlater hlater'

theorem acts_nextId (loop : EventLoop) (acts : List Action) :
    loop.timeEventNextId ≤ (acts.foldl act loop).timeEventNextId := by
  induction acts generalizing loop with
  | nil => exact Int.le_refl _
  | cons action acts ih => exact Int.le_trans (act_nextId loop action) (ih _)

theorem finish_nextId (loop : EventLoop) (id : Int) (finalizer : List Action) :
    loop.timeEventNextId ≤ (finish loop id finalizer).timeEventNextId := by
  unfold finish
  dsimp only
  split
  · split
    · exact acts_nextId (loop.aeDeleteTimeEvent id) finalizer
    · exact Int.le_refl _
  · exact Int.le_refl _

/-! ## The walk -/

/-- The pass behind an event that has fired. -/
def Pass.behind (s : Pass) (te : TimeEvent) (a : Answers) : Pass :=
  let called := a.acts.foldl act s.loop
  let loop :=
    if a.retval ≠ aeNoMore then called.reschedule te.id a.after a.retval
    else finish called te.id a.finalizer
  { s with
    loop := loop
    te := loop.head
    processed := s.processed + 1
    stale := s.stale || decide (a.retval ≠ aeNoMore ∧ called.find te.id = none) }

/-- A turn at an event of the list passes it over, or fires it: then it is due, and not newer than the
pass. -/
theorem Pass.turn_cases (hte : ∀ id ∈ s.te, ∃ te, s.loop.find id = some te)
    (h : s.turn a = some (fired, s')) :
    (fired = none ∧ ∃ id, s' = { s with te := s.loop.next id }) ∨
    ∃ te, fired = some te ∧ s.loop.find te.id = some te ∧ te.id ≤ s.maxId ∧ te.due a.now = true ∧
      s' = s.behind te a := by
  unfold Pass.turn at h
  cases hat : s.te with
  | none =>
    rw [hat] at h
    cases h
  | some id =>
    obtain ⟨te, hfind⟩ := hte id hat
    obtain rfl : te.id = id := Keyed.key_of_lookup hfind
    rw [hat] at h
    dsimp only at h
    rw [hfind] at h
    dsimp only at h
    split at h
    · cases h
      exact .inl ⟨rfl, te.id, rfl⟩
    · next hold =>
      split at h
      · next hdue =>
        cases h
        exact .inr ⟨te, rfl, hfind, Int.not_lt.mp hold, hdue, rfl⟩
      · cases h
        exact .inl ⟨rfl, te.id, rfl⟩

theorem find_head {id : Int} (h : id ∈ loop.head) : ∃ te, loop.find id = some te := by
  obtain ⟨te, hte, rfl⟩ := Option.map_eq_some_iff.mp h
  exact ⟨te, Keyed.lookup_of_mem loop.nodup (List.mem_of_mem_head? hte)⟩

theorem find_next {id id' : Int} (h : id' ∈ loop.next id) : ∃ te, loop.find id' = some te := by
  obtain ⟨te, hte, rfl⟩ := Option.map_eq_some_iff.mp h
  have hmem := (List.dropWhile_suffix _).subset (List.mem_of_mem_drop (List.mem_of_mem_head? hte))
  exact ⟨te, Keyed.lookup_of_mem loop.nodup hmem⟩

/-- The test of an event is a comparison of milliseconds. -/
theorem total_le_of_due (hnormal : te.whenMs < 1000) (h : te.due a.now = true) :
    te.total ≤ a.now.total := by
  have hms : (0 : Int) ≤ a.now.ms.val := Int.natCast_nonneg _
  unfold TimeEvent.due at h
  unfold TimeEvent.total Clock.total
  simp only [Bool.or_eq_true, decide_eq_true_eq, Bool.and_eq_true, beq_iff_eq] at h
  rcases h with h | ⟨hsec, hle⟩
  · omega
  · omega

theorem finish_old {id' : Int} {finalizer : List Action} (hid : id' < loop.timeEventNextId)
    (h : (finish loop id finalizer).find id' = some te) : ∃ te', loop.find id' = some te' := by
  have hdeleted (hfind : (loop.aeDeleteTimeEvent id).find id' = some te) :
      ∃ te', loop.find id' = some te' := by
    rw [find_delete] at hfind
    split at hfind
    · cases hfind
    · exact ⟨te, hfind⟩
  unfold finish at h
  dsimp only at h
  split at h
  · split at h
    · rw [find_acts _ _ (show id' < (loop.aeDeleteTimeEvent id).timeEventNextId from hid)] at h
      split at h
      · cases h
      · exact hdeleted h
    · exact hdeleted h
  · exact hdeleted h

/-- An event with an old id that is there behind a firing was there before it. -/
theorem behind_old {id' : Int} {te' : TimeEvent} (hid : id' < s.loop.timeEventNextId)
    (h : (s.behind te a).loop.find id' = some te') : ∃ te', s.loop.find id' = some te' := by
  have hcalled (te' : TimeEvent) (hfind : (a.acts.foldl act s.loop).find id' = some te') :
      ∃ te', s.loop.find id' = some te' := by
    rw [find_acts _ _ hid] at hfind
    split at hfind
    · cases hfind
    · exact ⟨te', hfind⟩
  unfold Pass.behind at h
  dsimp only at h
  split at h
  · rw [find_reschedule] at h
    split at h
    · next heq =>
      obtain ⟨te₁, hfind, -⟩ := Option.map_eq_some_iff.mp h
      exact hcalled te₁ (heq ▸ hfind)
    · exact hcalled te' h
  · obtain ⟨te₁, hfind⟩ := finish_old (Int.lt_of_lt_of_le hid (acts_nextId _ _)) h
    exact hcalled te₁ hfind

theorem behind_nextId (s : Pass) (te : TimeEvent) (a : Answers) :
    s.loop.timeEventNextId ≤ (s.behind te a).loop.timeEventNextId := by
  unfold Pass.behind
  dsimp only
  split
  · exact acts_nextId s.loop a.acts
  · exact Int.le_trans (acts_nextId s.loop a.acts) (finish_nextId ..)

theorem behind_timers (s : Pass) (te : TimeEvent) (a : Answers) :
    (s.behind te a).loop.timers = s.loop.timers.fired te.id a := by
  unfold Pass.behind Timers.fired
  dsimp only
  rw [← timers_acts]
  split
  · exact timers_reschedule ..
  · exact timers_finish ..

/-- What a pass over `loop` keeps. -/
structure PassInv (loop : EventLoop) (es : List (Answers × Option TimeEvent)) (s : Pass) : Prop where
  timers : s.loop.timers = es.foldl Timers.turn loop.timers
  maxId : s.maxId = loop.timeEventNextId - 1
  te : ∀ id ∈ s.te, ∃ te, s.loop.find id = some te
  nextId : loop.timeEventNextId ≤ s.loop.timeEventNextId
  old : ∀ id te, s.loop.find id = some te → id < loop.timeEventNextId → ∃ te, loop.find id = some te
  firesOld : ∀ e ∈ es, ∀ te ∈ e.2, ∃ te', loop.find te.id = some te'
  firesDue : Timers.FiresDue loop.timers es
  stale : s.stale = true ↔
    ∃ e ∈ es, ∃ te ∈ e.2, e.1.retval ≠ aeNoMore ∧ .delete te.id ∈ e.1.acts

theorem PassInv.start (loop : EventLoop) : PassInv loop [] (processTimeEvents loop) where
  timers := rfl
  maxId := rfl
  te := fun _ => find_head
  nextId := Int.le_refl _
  old := fun _ te h _ => ⟨te, h⟩
  firesOld := nofun
  firesDue := trivial
  stale := ⟨nofun, nofun⟩

theorem PassInv.turn (h : PassInv loop es s) (hturn : s.turn a = some (fired, s')) :
    PassInv loop (es ++ [(a, fired)]) s' := by
  rcases Pass.turn_cases h.te hturn with ⟨rfl, id, rfl⟩ | ⟨te, rfl, hfind, hmax, hdue, rfl⟩
  · refine ⟨?_, h.maxId, fun _ => find_next, h.nextId, h.old, ?_, ?_, ?_⟩
    · rw [List.foldl_concat]
      exact h.timers
    · intro e he te hte
      rcases List.mem_append.mp he with he | he
      · exact h.firesOld e he te hte
      · rw [List.mem_singleton.mp he] at hte
        cases hte
    · exact Timers.firesDue_snoc.mpr ⟨h.firesDue, nofun⟩
    · refine h.stale.trans ⟨?_, ?_⟩
      · rintro ⟨e, he, hrest⟩
        exact ⟨e, List.mem_append_left _ he, hrest⟩
      · rintro ⟨e, he, te, hte, hrest⟩
        rcases List.mem_append.mp he with he | he
        · exact ⟨e, he, te, hte, hrest⟩
        · rw [List.mem_singleton.mp he] at hte
          cases hte
  · have hlt : te.id < loop.timeEventNextId := by
      rw [h.maxId] at hmax
      omega
    have hlt' : te.id < s.loop.timeEventNextId := Int.lt_of_lt_of_le hlt h.nextId
    refine ⟨?_, h.maxId, fun _ => find_head, Int.le_trans h.nextId (behind_nextId s te a), ?_, ?_, ?_,
      ?_⟩
    · rw [List.foldl_concat, ← h.timers]
      exact behind_timers s te a
    · intro id te' hte' hid
      obtain ⟨te₁, hbefore⟩ := behind_old (Int.lt_of_lt_of_le hid h.nextId) hte'
      exact h.old id te₁ hbefore hid
    · intro e he te' hte'
      rcases List.mem_append.mp he with he | he
      · exact h.firesOld e he te' hte'
      · rw [List.mem_singleton.mp he] at hte'
        obtain rfl := Option.some.inj hte'
        exact h.old _ _ hfind hlt
    · refine Timers.firesDue_snoc.mpr ⟨h.firesDue, fun te' hte' => ?_⟩
      obtain rfl := Option.some.inj hte'
      refine ⟨te.timer, ?_, ?_⟩
      · rw [← h.timers]
        exact congrArg (Option.map TimeEvent.timer) hfind
      · exact total_le_of_due (s.loop.normal te (Keyed.mem_of_lookup hfind)) hdue
    · -- the write is to a freed event if the handler has deleted it
      have hfreed : (a.acts.foldl act s.loop).find te.id = none ↔ Action.delete te.id ∈ a.acts := by
        rw [find_acts _ _ hlt', hfind]
        split
        · next hmem => exact ⟨fun _ => hmem, fun _ => rfl⟩
        · next hnot => exact ⟨nofun, fun hmem => absurd hmem hnot⟩
      show (s.stale || decide (a.retval ≠ aeNoMore ∧ _)) = true ↔ _
      rw [Bool.or_eq_true, decide_eq_true_eq, hfreed, h.stale]
      constructor
      · rintro (⟨e, he, hrest⟩ | hlast)
        · exact ⟨e, List.mem_append_left _ he, hrest⟩
        · exact ⟨_, List.mem_append_right _ (List.mem_singleton_self _), te, rfl, hlast⟩
      · rintro ⟨e, he, te', hte', hrest⟩
        rcases List.mem_append.mp he with he | he
        · exact .inl ⟨e, he, te', hte', hrest⟩
        · rw [List.mem_singleton.mp he] at hte' hrest
          obtain rfl := Option.some.inj hte'
          exact .inr hrest

/-- What a pass is to keep to: it touches no event that is not in the list, it fires only events that
were in the list when it began and only when they are due, and the list is what the map is. -/
structure PassOk (loop : EventLoop) (es : List (Answers × Option TimeEvent)) (s : Pass) : Prop where
  inList : s.stale = false
  firesOld : ∀ e ∈ es, ∀ te ∈ e.2, ∃ te', loop.find te.id = some te'
  firesDue : Timers.FiresDue loop.timers es
  contents : s.loop.timers = es.foldl Timers.turn loop.timers

/-- At every point of every pass, `processTimeEvents` has kept to its events if and only if no handler
has deleted its own event and returned a delay. -/
theorem processTimeEvents_iff (loop : EventLoop) (hrun : PassRun (processTimeEvents loop) es s) :
    PassOk loop es s ↔
      ∀ e ∈ es, ∀ te ∈ e.2, e.1.retval ≠ aeNoMore → .delete te.id ∉ e.1.acts := by
  have hinv : PassInv loop es s :=
    hrun.invariant (PassInv.start loop) fun _ _ _ _ h hturn => h.turn hturn
  constructor
  · intro hok e he te hte hret hmem
    have hstale := hinv.stale.mpr ⟨e, he, te, hte, hret, hmem⟩
    rw [hok.inList] at hstale
    cases hstale
  · intro hkeeps
    refine ⟨?_, hinv.firesOld, hinv.firesDue, hinv.timers⟩
    refine Bool.eq_false_iff.mpr fun hstale => ?_
    obtain ⟨e, he, te, hte, hret, hmem⟩ := hinv.stale.mp hstale
    exact hkeeps e he te hte hret hmem

/-- One event, due when the clock starts. -/
def oneEvent : EventLoop := aeCreateEventLoop.aeCreateTimeEvent ⟨0, 0⟩ 0 false false

/-- The handler creates an event and is called again in 100 milliseconds. -/
def createsAnother : Answers := ⟨⟨0, 0⟩, [.create ⟨0, 0⟩ 5 false false], 100, ⟨0, 1⟩, []⟩

theorem processTimeEvents_oneEvent : ∃ s,
    PassRun (processTimeEvents oneEvent) [(createsAnother, some ⟨0, 0, 0, false⟩)] s ∧
      PassOk oneEvent [(createsAnother, some ⟨0, 0, 0, false⟩)] s ∧
      s.loop.timeEventHead = [⟨1, 0, 5, false⟩, ⟨0, 0, 101, false⟩] := by
  have hrun : PassRun (processTimeEvents oneEvent) [(createsAnother, some ⟨0, 0, 0, false⟩)]
      ((processTimeEvents oneEvent).behind ⟨0, 0, 0, false⟩ createsAnother) := Run.nil.snoc rfl
  exact ⟨_, hrun, (processTimeEvents_iff oneEvent hrun).mpr (by decide), by decide⟩

/-- The handler deletes its own event and returns a delay. -/
def deletesItself : Answers := ⟨⟨0, 0⟩, [.delete 0], 100, ⟨0, 1⟩, []⟩

/-- The new time is written to an event that has been freed. -/
theorem processTimeEvents_deletesItself :
    ¬∀ (loop : EventLoop) (es : List (Answers × Option TimeEvent)) (s : Pass),
      PassRun (processTimeEvents loop) es s → PassOk loop es s := by
  intro hall
  have hrun : PassRun (processTimeEvents oneEvent) [(deletesItself, some ⟨0, 0, 0, false⟩)]
      ((processTimeEvents oneEvent).behind ⟨0, 0, 0, false⟩ deletesItself) := Run.nil.snoc rfl
  exact absurd (hall _ _ _ hrun).inList (by decide)

end Rtfsc.Redis.Ae
