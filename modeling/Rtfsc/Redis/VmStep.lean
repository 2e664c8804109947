import Rtfsc.Machine.Run
import Rtfsc.Redis.VmComplete

/-!
# redis: one step of the server

Every event keeps the invariant, and the server stops in one only where it may. A write to the swap
file that fails in a thread is the one event after which the stronger form of the invariant is lost.
-/

namespace Rtfsc.Redis.Vm

open Rtfsc.Machine

namespace State

variable {s s' : State} {ok : Prop} {owed : List Addr} {a key : Addr} {o : Object} {c : ClientId}
  {client client' : Client} {q' : Queues}

theorem whenIdle_ends {P : State → Prop} {x : Except Stop State}
    (h : s.queues.main = .idle → Ends (Allowed ok) P x) : Ends (Allowed ok) P (s.whenIdle x) := by
  unfold whenIdle
  exact Ends.check_bind h fun _ => allowed_disabled

/-- The queues move and hold the same jobs. -/
theorem Inv.moved (h : s.Inv ok owed) (hq : s.queues.Moved q') :
    ({ s with queues := q' } : State).Inv ok owed where
  counted := h.counted
  jobs := h.jobs.congr rfl hq.pending (fun _ => rfl) (fun _ => rfl) (fun _ _ => ⟨rfl, rfl⟩)
    (fun _ _ _ _ _ hk => hk) fun _ _ _ _ => rfl
  waits := h.waits.congr rfl rfl fun _ _ => rfl
  pages := h.pages.congr rfl rfl rfl rfl fun _ _ _ => rfl
  placed := ⟨hq.handOff, hq.placed.trans h.placed.jobs⟩

theorem moved_ends (h : s.Inv ok owed) {x : Except Stop Queues}
    (hx : Ends (· = .disabled) s.queues.Moved x) :
    Ends (Allowed ok) (fun s' => s'.Inv ok owed) (do return { s with queues := ← x }) :=
  (hx.mono (fun _ => id) fun _ => .inl).bind fun _ _ hq => Ends.pure (h.moved hq)

/-- What is written to a client's entry keeps its keys. -/
theorem Inv.setClient (h : s.Inv ok owed) (client' : Client) (hkeys : client'.ioKeys = s.keysOf c)
    (hdb : client'.ioKeys = [] ∨ ∃ client, s.clients.lookup c = some client ∧ client.db = client'.db)
    (ready : List ClientId) :
    ({ s with clients := s.clients.insert c client', ready } : State).Inv ok owed := by
  obtain ⟨clients, hclients⟩ : ∃ clients, clients = s.clients.insert c client' := ⟨_, rfl⟩
  rw [← hclients]
  have hrefs : ∀ a, ({ s with clients, ready } : State).waitRefs a = s.waitRefs a := by
    intro a
    have hclient : total (fun _ client => client.ioKeys.count a) clients =
        total (fun _ client => client.ioKeys.count a) s.clients := by
      rw [hclients]
      cases hc : s.clients.lookup c with
      | none =>
        unfold keysOf at hkeys
        rw [hc] at hkeys
        rw [total_insert_new hc, hkeys]
        exact Nat.zero_add _
      | some client =>
        rw [keysOf_eq hc] at hkeys
        have htotal := total_replace hc client' fun _ client => client.ioKeys.count a
        rw [hkeys] at htotal
        exact Nat.add_right_cancel htotal
    show total _ clients + total _ s.ioKeys = _
    rw [hclient]
    rfl
  have hawaited : ∀ c' db k, ({ s with clients, ready } : State).awaited c' db k =
      s.awaited c' db k := by
    intro c' db k
    have hlookup : ({ s with clients, ready } : State).clients.lookup c' =
        if c' = c then some client' else s.clients.lookup c' := by
      show clients.lookup c' = _
      rw [hclients, lookup_insert_eq]
    by_cases hcc : c' = c
    · subst hcc
      rw [if_pos rfl] at hlookup
      rw [awaited_eq hlookup]
      show (if client'.db = db then s.occurrences client'.ioKeys k else 0) = _
      cases hc : s.clients.lookup c' with
      | none =>
        unfold keysOf at hkeys
        rw [hc] at hkeys
        unfold awaited
        rw [hc, hkeys]
        exact ite_self 0
      | some client =>
        rw [awaited_eq hc]
        rw [keysOf_eq hc] at hkeys
        rw [← hkeys]
        rcases hdb with hnil | ⟨client₀, hc₀, hdb⟩
        · rw [hnil]
          have hzero : s.occurrences [] k = 0 := rfl
          rw [hzero, ite_self, ite_self]
        · rw [hc] at hc₀
          cases hc₀
          rw [hdb]
    · rw [if_neg hcc] at hlookup
      unfold awaited
      rw [hlookup]
      rfl
  refine h.steady (Steady.lists s clients s.ioKeys ready) ⟨?_, ?_, fun a ha => ?_⟩
  · refine (h.counted.lists clients s.ioKeys (fun a => ?_) fun a v ha => ?_)
    · exact congrArg (· + owed.count a) (hrefs a)
    · have hzero := (h.counted.pointer ha).2
      have hr := hrefs a
      unfold otherRefs at hzero
      show State.waitRefs { s with clients, ready } a = 0
      omega
  · refine ⟨fun c' db k => ?_, h.waits.nonempty, h.waits.keyObject⟩
    rw [hawaited]
    exact h.waits.count c' db k
  · rw [hrefs] at ha
    exact h.keys.memory a ha

end State

/-- The event is a write to the swap file by a thread, and it fails. -/
def Event.FailedWrite (s : State) : Event → Prop
  | .ioProcess t _ _ _ false => ∃ j job, s.queues.threads.lookup t = some (.working j) ∧
      s.jobs.lookup j = some job ∧ job.type = .doSwap
  | _ => False

namespace State

variable {s s' : State} {ok : Prop} {owed : List Addr} {a key : Addr} {o : Object} {c : ClientId}
  {client client' : Client} {q' : Queues}

/-- Every event keeps the invariant; the stronger form, unless it is a failed write. -/
theorem step_ends (h : s.Inv ok []) {e : Event} (he : ok → ¬ e.FailedWrite s) :
    Ends (Allowed ok) (fun s' => s'.Inv ok []) (s.step e) := by
  cases e with
  | client c db =>
    refine whenIdle_ends fun _ => ?_
    split
    · next hc =>
      refine Ends.pure (h.setClient ⟨db, [], false⟩ ?_ (.inl rfl) s.ready)
      unfold keysOf
      rw [hc]
      rfl
    · next client hc =>
      refine Ends.check_bind (fun hnil => ?_) fun _ => allowed_disabled
      exact Ends.pure (h.setClient { client with db } (keysOf_eq hc).symm (.inl hnil)
        s.ready)
  | argument a bytes =>
    refine whenIdle_ends fun _ => create_ends fun ha => Ends.pure ?_
    exact (h.create ha bytes).keep (heap_setCell_self ..) rfl
  | retain a =>
    refine whenIdle_ends fun _ => ?_
    split
    · next o ho =>
      refine Ends.check_bind (fun hs => ?_) fun _ => allowed_disabled
      rw [incrRefCount_eq ho, value_bind]
      exact Ends.pure ((h.incr ho hs).keep (heap_setCell_self ..) hs)
    · exact allowed_disabled
  | drop a =>
    refine whenIdle_ends fun _ => Ends.check_bind (fun ha => ?_) fun _ => allowed_disabled
    obtain ⟨o, ho, hs⟩ := h.held_object ha
    have hunkept := h.unkeep ha
    unfold decrRefCount
    rw [decrRefCountAux_memory 1 (s := { s with held := s.held.erase a }) ho hs
      (h.counted.refcount_pos ho)]
    exact hunkept.drop ho hs
  | store k a =>
    refine whenIdle_ends fun hmain => Ends.check_bind (fun ha => ?_) fun _ => allowed_disabled
    refine (dropValue_ends h hmain k (n := some a) ?_).bind fun s' _ hs' => Ends.pure hs'
    rintro _ ⟨⟩
    exact ha
  | delete k =>
    refine whenIdle_ends fun hmain => ?_
    exact (dropValue_ends h hmain k (n := none) fun _ hn => nomatch hn).bind fun s' _ hs' =>
      Ends.pure hs'
  | swapBlocking k pages random written vp =>
    refine whenIdle_ends fun _ => (candidate_ends h k).bind ?_
    rintro val - ⟨hk, o, ho, hs, hone⟩
    refine (vmSwapObjectBlocking_ends h hk ho hs hone pages random written).bind ?_
    rintro ⟨s', swapped⟩ - hs'
    cases swapped with
    | true => exact Ends.pure hs'
    | false => exact Ends.pure hs'
  | swapThreaded k key j t =>
    refine whenIdle_ends fun _ => (candidate_ends h k).bind ?_
    rintro val - ⟨hk, o, ho, hs, hone⟩
    exact vmSwapObjectThreaded_ends h hk ho hs hone key j t
  | load k val bytes =>
    refine whenIdle_ends fun hmain => Ends.need_bind (fun v hk => ?_) fun _ => allowed_disabled
    split
    · next vp hv =>
      exact (vmLoadObject_ends h hmain hk hv val bytes).bind fun s' _ hs' => Ends.pure hs'
    · exact allowed_disabled
    · next hnone => exact absurd hnone (h.counted.ne_none (dictRefs_pos hk))
  | wait c key j t =>
    refine whenIdle_ends fun hmain => Ends.check_bind (fun hkey => ?_) fun _ => allowed_disabled
    exact (waitForSwappedKey_ends h hmain hkey j t).bind fun r _ hr => Ends.pure hr
  | block c =>
    refine whenIdle_ends fun _ => Ends.need_bind (fun client hc => ?_) fun _ => allowed_disabled
    refine Ends.pure ?_
    split
    · exact h
    · exact h.setClient { client with ioWait := true } (keysOf_eq hc).symm
        (.inr ⟨client, hc, rfl⟩) s.ready
  | dontWait c key =>
    refine whenIdle_ends fun _ => Ends.need_bind (fun client hc => ?_) fun _ => allowed_disabled
    refine Ends.check_bind (fun hkey => ?_) fun _ => allowed_disabled
    obtain ⟨ko, hko, hks⟩ := h.keys.object (waitRefs_client hc hkey)
    obtain ⟨s', a, hs', hkeys, hsteady, -⟩ :=
      dontWaitForSwappedKey_eq h.keys hc hko hks ⟨key, hkey, bytesOf_robj hko⟩
    rw [hs', value_bind]
    exact Ends.pure (h.steady hsteady hkeys)
  | handle db key =>
    refine whenIdle_ends fun _ => Ends.check_bind (fun hkey => ?_) fun _ => allowed_disabled
    obtain ⟨ko, hko, hks⟩ := h.held_object hkey
    have hpin : 0 < s.jobRefs key + s.held.count key := by
      have hpos := List.count_pos_iff.mpr hkey
      omega
    obtain ⟨s', hs', hkeys, hsteady, -⟩ :=
      handleClientsBlockedOnSwappedKey_eq h.keys hko hks hpin db
    rw [hs']
    exact h.steady hsteady hkeys
  | resume =>
    refine whenIdle_ends fun _ => ?_
    split
    · exact allowed_disabled
    · next c rest hready =>
      refine Ends.need_bind (fun client hc => ?_) fun _ => allowed_disabled
      exact Ends.pure (h.setClient { client with ioWait := false } (keysOf_eq hc).symm
        (.inr ⟨client, hc, rfl⟩) rest)
  | wake => exact moved_ends h (Queues.wake_ends h.placed.handOff)
  | take => exact moved_ends h (Queues.take_ends h.placed.handOff)
  | complete canSwapOut random t vp =>
    rw [step]
    split
    · next j hmain =>
      exact (completeJob_ends h hmain canSwapOut random t vp).imp fun _ hs' => hs'.1.1
    · exact allowed_disabled
  | ioTake t => exact moved_ends h (Queues.ioTake_ends h.placed.handOff t)
  | ioProcess t val bytes pages written =>
    rw [step]
    split
    · next j ht =>
      refine (processJob_ends h ht val bytes pages fun hok job hj hd => ?_).bind fun s' _ hs' =>
        Ends.pure hs'
      cases written with
      | true => rfl
      | false => exact absurd ⟨j, job, ht, hj, hd⟩ (he hok)
    · exact allowed_disabled
  | ioAppend t => exact moved_ends h (Queues.ioAppend_ends h.placed.handOff t)
  | ioSignal t => exact moved_ends h (Queues.ioSignal_ends h.placed.handOff t)

/-! ## Runs -/

/-- The server before anything has happened. -/
theorem init_inv (pages : Nat) (maxThreads : Int) : (init pages maxThreads).Inv ok [] where
  counted _ := rfl
  jobs := by
    have hnone : ∀ j job, (init pages maxThreads).jobs.lookup j ≠ some job := fun j job hj =>
      nomatch (show none = some job from hj)
    have hidle : ∀ a, (init pages maxThreads).isSwapping a = false := fun _ => rfl
    refine ⟨fun a ha => ?_, fun _ => rfl, fun j job hj => absurd hj (hnone j job),
      fun j job hj => absurd hj (hnone j job), fun j job hj => absurd hj (hnone j job),
      fun _ j job hj => absurd hj (hnone j job)⟩
    rw [hidle] at ha
    cases ha
  waits := by
    have hnone : ∀ k e, (init pages maxThreads).ioKeys.lookup k ≠ some e := fun k e he =>
      nomatch (show none = some e from he)
    exact ⟨fun _ _ _ => rfl, fun k e he => absurd he (hnone k e), fun k e he => absurd he (hnone k e)⟩
  pages := by
    have hfree : ∀ p, ¬ (init pages maxThreads).swap.Used p := by
      intro p hu
      have htrue : (init pages maxThreads).swap.vmFreePage p = true := by
        rw [SwapFile.vmFreePage_eq]
        show (!Nat.testBit 0 (p % 8)) = true
        rw [Nat.zero_testBit]
        rfl
      unfold SwapFile.Used at hu
      rw [htrue] at hu
      cases hu
    refine ⟨rfl, ⟨∅, fun p => ?_, rfl⟩, Nat.zero_le _, fun _ p => ?_⟩
    · exact iff_of_false (Finset.notMem_empty p) (hfree p)
    · rw [if_neg (hfree p)]
      rfl
  placed := by
    refine ⟨⟨rfl, ?_, fun _ hne => absurd rfl hne, rfl, fun _ => rfl⟩, .refl _⟩
    show (0 : Int) ≤ max 0 maxThreads
    omega

end State

/-- A step that is taken. -/
def Steps (s : State) (e : Event) (s' : State) : Prop := s.step e = .ok s'

/-- A step that is taken and is no failed write. -/
def StepsWritten (s : State) (e : Event) (s' : State) : Prop := Steps s e s' ∧ ¬ e.FailedWrite s

namespace State

variable {pages : Nat} {maxThreads : Int} {es : List Event} {s : State}

/-- The invariant in every state of every run. -/
theorem run_inv (h : Run Steps (init pages maxThreads) es s) : s.Inv False [] := by
  refine h.stateInvariant (I := fun s => s.Inv False []) (init_inv pages maxThreads) ?_
  intro t e u ht he
  exact (step_ends ht False.elim).of_ok he

/-- Its stronger form in every state of a run without a failed write. -/
theorem writtenRun_inv (h : Run StepsWritten (init pages maxThreads) es s) : s.Inv True [] := by
  refine h.stateInvariant (I := fun s => s.Inv True []) (init_inv pages maxThreads) ?_
  intro t e u ht he
  exact (step_ends ht fun _ => he.2).of_ok he.1

end State

end Rtfsc.Redis.Vm
