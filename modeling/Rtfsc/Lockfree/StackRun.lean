import Rtfsc.Lockfree.StackSteps

/-!
# stack: runs

Whatever threads do to the stack, and however their accesses interleave: the calls come to what they
would come to on a sequential stack, if each command was carried out at once at one moment of its call.
-/

namespace Rtfsc.Lockfree

open Rtfsc.Machine

namespace Stack

open SequentialStack

variable {w : Nat} {Θ α : Type} [DecidableEq Θ] {s t : Stack w Θ α} {chain : List Nat}
  {own : Θ → List Nat} {pending : Θ → List (StackResult α)} {pc : StackPc w α} {θ : Θ}

/-! ## Events -/

/-- The pool answers a thread. -/
theorem Inv.answer (h : s.Inv chain own pending) {n : Option Nat} (ht : s.answer θ n = some t) :
    t.Sound := by
  have hdoing := h.doing θ
  cases n with
  | none =>
    simp only [Stack.answer] at ht
    cases hpc : s.pc θ with
    | construct v =>
      rw [hpc] at hdoing
      simp only [hpc, Option.some.injEq] at ht
      subst ht
      exact h.noop hdoing.1 hdoing.2 rfl
    | constructEnd v rest =>
      rw [hpc] at hdoing
      simp only [hpc, Option.some.injEq] at ht
      subst ht
      exact h.noop hdoing.1 hdoing.2 rfl
    | constructNext newTop endNode done v rest =>
      rw [hpc] at hdoing
      simp only [hpc, Option.some.injEq] at ht
      subst ht
      exact h.quiet_read hdoing
    | _ =>
      simp only [hpc] at ht
      cases ht
  | some n =>
    simp only [Stack.answer] at ht
    cases hpc : s.pc θ with
    | construct v =>
      rw [hpc] at hdoing
      simp only [hpc] at ht
      obtain ⟨u, hu, rfl⟩ := Option.map_eq_some_iff.mp ht
      exact h.constructed hu hdoing.1 fun _ hv =>
        ⟨⟨[], rfl, rfl, congrArg (· :: []) hv⟩, hdoing.2⟩
    | constructEnd v rest =>
      rw [hpc] at hdoing
      simp only [hpc] at ht
      obtain ⟨u, hu, rfl⟩ := Option.map_eq_some_iff.mp ht
      exact h.constructed hu hdoing.1 fun _ hv => ⟨rfl, hv, hdoing.2⟩
    | constructNext newTop endNode done v rest =>
      rw [hpc] at hdoing
      simp only [hpc] at ht
      obtain ⟨u, hu, rfl⟩ := Option.map_eq_some_iff.mp ht
      exact h.constructed hu rfl fun hsame hv =>
        ⟨own θ, rfl, hdoing.1.keep hsame, hv, hdoing.2⟩
    | _ =>
      simp only [hpc] at ht
      cases ht

/-- A call begins. -/
theorem Inv.begin (h : s.Inv chain own pending) (hidle : isIdle (s.pc θ) = true) {c : StackCall α}
    (hpc : s.Doing chain [] [] pc) : (s.begin θ c pc).Sound := by
  have hcalled (called : Θ → List (StackCall α)) :
      { s with called := called }.Inv chain own pending :=
    ⟨h.links, h.split, h.content, h.tag, h.results, h.doing⟩
  have hdoing := h.doing θ
  cases hi : s.pc θ with
  | idle =>
    rw [hi] at hdoing
    refine (hcalled _).quiet_read ?_
    rw [hdoing.1, hdoing.2]
    exact hpc
  | _ =>
    rw [hi] at hidle
    cases hidle

/-- The pool writes into a node that it has. -/
theorem Inv.poolWrite (h : s.Inv chain own pending) {n : Nat} (hn : n ∈ s.free) (next : Option Nat) :
    (s.setNext n next).Inv chain own pending := by
  have hne : ∀ i, i ≠ .pool → ∀ a ∈ s.held chain own i,
      Function.update s.next n next a = s.next a := fun i hi a ha =>
    Function.update_of_ne (h.ne_of_held hi ha (j := .pool) hn) ..
  have hchain := hne .stack nofun
  refine { h with links := h.links.congr hchain, doing := fun θ => ?_ }
  exact (h.doing θ).keep le_rfl (fun _ c hc => ⟨hc, hchain c hc⟩) fun a ha =>
    ⟨hne (.thread θ) nofun a ha, rfl⟩

theorem step_sound {e : StackEvent Θ α} (h : s.Sound) (hs : s.Step e t) : t.Sound := by
  obtain ⟨chain, own, pending, h⟩ := h
  obtain ⟨hstep, htime⟩ := hs
  unfold step at hstep
  cases e with
  | push θ v =>
    obtain ⟨hidle, heq⟩ := Option.ite_none_right_eq_some.mp hstep
    cases heq
    exact h.begin hidle ⟨rfl, rfl⟩
  | pushRange θ v rest =>
    obtain ⟨hidle, heq⟩ := Option.ite_none_right_eq_some.mp hstep
    cases heq
    exact h.begin hidle ⟨rfl, rfl⟩
  | pop θ =>
    obtain ⟨hidle, heq⟩ := Option.ite_none_right_eq_some.mp hstep
    cases heq
    exact h.begin hidle ⟨rfl, rfl⟩
  | consumeAll θ reversed =>
    obtain ⟨hidle, heq⟩ := Option.ite_none_right_eq_some.mp hstep
    cases heq
    exact h.begin hidle ⟨rfl, rfl⟩
  | construct θ n => exact h.answer hstep
  | access θ fails => exact h.access hstep htime
  | poolWrite n next =>
    obtain ⟨hn, heq⟩ := Option.ite_none_right_eq_some.mp hstep
    cases heq
    exact ⟨chain, own, pending, h.poolWrite hn next⟩

theorem new_sound (next : Nat → Option Nat) : (new next : Stack w Θ α).Sound := by
  refine ⟨[], fun _ => [], fun _ => [], rfl, ⟨fun a => ?_, ?_, ?_⟩, rfl, rfl, fun _ => rfl,
    fun _ => ⟨rfl, rfl⟩⟩
  · refine ⟨fun ha => absurd ha (Nat.not_lt_zero a), ?_⟩
    rintro ⟨_ | _ | θ, ha⟩ <;> cases ha
  · rintro (_ | _ | θ) <;> exact List.nodup_nil
  · rintro (_ | _ | θ) j a ha <;> cases ha

theorem run_sound {next : Nat → Option Nat} {es : List (StackEvent Θ α)}
    (h : Run Step (new next) es s) : s.Sound :=
  h.stateInvariant (I := Sound) (new_sound next) fun _ _ _ => step_sound

/-! ## Where commands take effect -/

/-- Where a command takes effect: with a successful `compare_exchange_weak` on `tos`, or when a load finds
the stack empty. Without a node to push, a push has none. -/
def TakesEffect (s t : Stack w Θ α) (θ : Θ) : StackCommand α → Prop
  | .push range n =>
    (n = 0 ∧ t.tos = s.tos) ∨ ∃ newTop endNode done rest,
      s.pc θ = .pushCas newTop endNode done rest s.tos ∧ range = done ++ rest ∧ n = done.length ∧
        t.tos = ⟨some newTop, s.tos.tag⟩
  | .pop =>
    (s.tos.node = none ∧ t.tos = s.tos) ∨ ∃ n newTos seen,
      s.pc θ = .popCas n s.tos.tag newTos seen ∧ s.tos.node = some n ∧ t.tos = newTos
  | .consumeAll reversed =>
    (s.tos.node = none ∧ t.tos = s.tos) ∨ ∃ n,
      s.pc θ = .allCas reversed n s.tos.tag ∧ s.tos.node = some n ∧ t.tos = ⟨none, s.tos.tag + 1⟩

/-- Nothing takes effect, or one command of this thread. -/
def Effect (s t : Stack w Θ α) (θ : Θ) : Prop :=
  (t.log = s.log ∧ t.tos = s.tos) ∨ ∃ c, t.log = s.log ++ [(θ, c)] ∧ s.TakesEffect t θ c

theorem popSees_effect : s.Effect (s.popSees θ) θ := by
  unfold popSees
  split
  · next htos => exact .inr ⟨.pop, rfl, .inl ⟨htos, rfl⟩⟩
  · exact .inl ⟨rfl, rfl⟩

theorem allSees_effect {reversed : Bool} : s.Effect (s.allSees θ reversed) θ := by
  unfold allSees
  split
  · next htos => exact .inr ⟨.consumeAll reversed, rfl, .inl ⟨htos, rfl⟩⟩
  · exact .inl ⟨rfl, rfl⟩

theorem access_effect {fails : Bool} (ht : s.access θ fails = some t) : s.Effect t θ := by
  unfold access at ht
  cases hpc : s.pc θ with
  | pushCas newTop endNode done rest oldTos =>
    simp only [hpc] at ht
    split at ht
    · next hcas =>
      obtain ⟨rfl, -⟩ := hcas
      cases ht
      exact .inr ⟨_, rfl, .inr ⟨newTop, endNode, done, rest, hpc, rfl, rfl, rfl⟩⟩
    · cases ht
      exact .inl ⟨rfl, rfl⟩
  | popLoad =>
    simp only [hpc, Option.some.injEq] at ht
    subst ht
    exact popSees_effect
  | popCas n tag newTos seen =>
    simp only [hpc] at ht
    split at ht
    · next hcas =>
      cases ht
      refine .inr ⟨.pop, rfl, .inr ⟨n, newTos, seen, ?_, ?_, rfl⟩⟩
      · rw [hcas.1]
        exact hpc
      · rw [hcas.1]
    · cases ht
      exact popSees_effect
  | allLoad reversed =>
    simp only [hpc, Option.some.injEq] at ht
    subst ht
    exact allSees_effect
  | allCas reversed n tag =>
    simp only [hpc] at ht
    split at ht
    · next hcas =>
      cases ht
      refine .inr ⟨.consumeAll reversed, rfl, .inr ⟨n, ?_, ?_, ?_⟩⟩
      · rw [hcas.1]
        exact hpc
      · rw [hcas.1]
      · rw [hcas.1]
        rfl
    · cases ht
      exact allSees_effect
  | popApply n =>
    simp only [hpc] at ht
    obtain ⟨v, -, rfl⟩ := Option.map_eq_some_iff.mp ht
    exact .inl ⟨rfl, rfl⟩
  | allApply reversed n got elementCount =>
    simp only [hpc] at ht
    obtain ⟨v, -, rfl⟩ := Option.map_eq_some_iff.mp ht
    exact .inl ⟨rfl, rfl⟩
  | reverseLink n last next =>
    simp only [hpc] at ht
    split at ht <;> cases ht <;> exact .inl ⟨rfl, rfl⟩
  | allDestruct reversed n next got elementCount =>
    simp only [hpc] at ht
    split at ht <;> cases ht <;> exact .inl ⟨rfl, rfl⟩
  | _ =>
    simp only [hpc] at ht
    cases ht
    try exact .inl ⟨rfl, rfl⟩

/-- The thread that an event is of. -/
def eventThread : StackEvent Θ α → Option Θ
  | .push θ _ => some θ
  | .pushRange θ _ _ => some θ
  | .pop θ => some θ
  | .consumeAll θ _ => some θ
  | .construct θ _ => some θ
  | .access θ _ => some θ
  | .poolWrite _ _ => none

omit [DecidableEq Θ] in
theorem construct_same {n : Nat} {v : α} (hs : s.construct n v = some t) :
    t.log = s.log ∧ t.tos = s.tos ∧ t.called = s.called ∧ t.finished = s.finished ∧
      t.pc = s.pc := by
  unfold construct at hs
  split at hs
  · cases hs
    exact ⟨rfl, rfl, rfl, rfl, rfl⟩
  · split at hs <;> cases hs
    exact ⟨rfl, rfl, rfl, rfl, rfl⟩

theorem answer_effect {n : Option Nat} (ht : s.answer θ n = some t) : s.Effect t θ := by
  cases n with
  | none =>
    simp only [answer] at ht
    split at ht <;> cases ht
    · exact .inr ⟨_, rfl, .inl ⟨rfl, rfl⟩⟩
    · exact .inr ⟨_, rfl, .inl ⟨rfl, rfl⟩⟩
    · exact .inl ⟨rfl, rfl⟩
  | some n =>
    simp only [answer] at ht
    split at ht
    case h_4 => cases ht
    all_goals
      obtain ⟨u, hu, rfl⟩ := Option.map_eq_some_iff.mp ht
      obtain ⟨hlog, htos, -⟩ := construct_same hu
      exact .inl ⟨hlog, htos⟩

theorem step_effect {e : StackEvent Θ α} (hs : s.step e = some t) :
    (t.log = s.log ∧ t.tos = s.tos) ∨ ∃ θ c, eventThread e = some θ ∧
      t.log = s.log ++ [(θ, c)] ∧ s.TakesEffect t θ c := by
  have hof (θ : Θ) (hθ : eventThread e = some θ) (h : s.Effect t θ) :
      (t.log = s.log ∧ t.tos = s.tos) ∨ ∃ θ c, eventThread e = some θ ∧
        t.log = s.log ++ [(θ, c)] ∧ s.TakesEffect t θ c := by
    rcases h with h | ⟨c, hlog, hc⟩
    · exact .inl h
    · exact .inr ⟨θ, c, hθ, hlog, hc⟩
  unfold step at hs
  cases e with
  | construct θ n => exact hof θ rfl (answer_effect hs)
  | access θ fails => exact hof θ rfl (access_effect hs)
  | _ =>
    obtain ⟨-, heq⟩ := Option.ite_none_right_eq_some.mp hs
    cases heq
    exact .inl ⟨rfl, rfl⟩

/-! ## Calls and their results -/

/-- The calls of every thread, and the results of those that have returned. -/
def Called (s : Stack w Θ α) : Prop :=
  ∀ θ, ∃ cs, s.called θ = cs ++ (s.pc θ).call ∧ List.Forall₂ StackCall.Answer cs (s.finished θ)

theorem Called.setPc {u : Stack w Θ α} (h : s.Called) (hcalled : u.called = s.called)
    (hfinished : u.finished = s.finished) (hpcs : u.pc = s.pc) (hcall : pc.call = (s.pc θ).call) :
    (u.setPc θ pc).Called := by
  intro θ'
  obtain ⟨cs, hcs, hanswers⟩ := h θ'
  refine ⟨cs, ?_, ?_⟩
  · rcases eq_or_ne θ' θ with rfl | hne
    · rw [setPc_self, hcall, ← hcs]
      exact congrFun hcalled θ'
    · rw [setPc_of_ne hne, hpcs, ← hcs]
      exact congrFun hcalled θ'
  · change List.Forall₂ _ cs (u.finished θ')
    rw [hfinished]
    exact hanswers

theorem Called.finish {u : Stack w Θ α} (h : s.Called) (hcalled : u.called = s.called)
    (hfinished : u.finished = s.finished) (hpcs : u.pc = s.pc) {c : StackCall α}
    {r : StackResult α} (hcall : (s.pc θ).call = [c]) (hr : c.Answer r) :
    (u.finish θ r).Called := by
  intro θ'
  obtain ⟨cs, hcs, hanswers⟩ := h θ'
  rcases eq_or_ne θ' θ with rfl | hne
  · refine ⟨cs ++ [c], ?_, ?_⟩
    · rw [Stack.finish, setPc_self, StackPc.call, List.append_nil, ← hcall, ← hcs]
      exact congrFun hcalled θ'
    · change List.Forall₂ _ _ (Function.update u.finished θ' _ θ')
      rw [Function.update_self, hfinished]
      exact List.rel_append hanswers (.cons hr .nil)
  · refine ⟨cs, ?_, ?_⟩
    · rw [Stack.finish, setPc_of_ne hne, hpcs, ← hcs]
      exact congrFun hcalled θ'
    · change List.Forall₂ _ _ (Function.update u.finished θ _ θ')
      rw [Function.update_of_ne hne, hfinished]
      exact hanswers

theorem Called.begin (h : s.Called) (hidle : isIdle (s.pc θ) = true) {c : StackCall α}
    (hcall : pc.call = [c]) : (s.begin θ c pc).Called := by
  have hnone : (s.pc θ).call = [] := by
    cases hi : s.pc θ <;> first | rfl | (rw [hi] at hidle; cases hidle)
  intro θ'
  obtain ⟨cs, hcs, hanswers⟩ := h θ'
  refine ⟨cs, ?_, hanswers⟩
  rcases eq_or_ne θ' θ with rfl | hne
  · rw [Stack.begin, setPc_self, hcall]
    rw [hnone, List.append_nil] at hcs
    exact (Function.update_self ..).trans (congrArg (· ++ [c]) hcs)
  · rw [Stack.begin, setPc_of_ne hne, ← hcs]
    exact Function.update_of_ne hne ..

theorem Called.popSees (h : s.Called) (hcall : (s.pc θ).call = [.pop]) : (s.popSees θ).Called := by
  unfold Stack.popSees
  split
  · exact h.finish rfl rfl rfl hcall trivial
  · exact h.setPc rfl rfl rfl hcall.symm

theorem Called.allSees (h : s.Called) {reversed : Bool}
    (hcall : (s.pc θ).call = [.consumeAll reversed]) : (s.allSees θ reversed).Called := by
  unfold Stack.allSees
  split
  · exact h.finish rfl rfl rfl hcall rfl
  · exact h.setPc rfl rfl rfl hcall.symm

theorem call_nextRound {newTop endNode : Nat} {done rest : List α} :
    (StackPc.nextRound newTop endNode done rest : StackPc w α).call = [.push (done ++ rest)] := by
  cases rest <;> rfl

theorem Called.access {fails : Bool} (h : s.Called) (ht : s.access θ fails = some t) : t.Called := by
  unfold Stack.access at ht
  have hcall : ∀ {pc}, s.pc θ = pc → (s.pc θ).call = pc.call := fun heq => congrArg StackPc.call heq
  cases hpc : s.pc θ with
  | clearEnd endNode v rest =>
    simp only [hpc, Option.some.injEq] at ht
    subst ht
    exact h.setPc rfl rfl rfl (call_nextRound.trans (hcall hpc).symm)
  | linkNext newnode newTop endNode done v rest =>
    simp only [hpc, Option.some.injEq] at ht
    subst ht
    refine h.setPc rfl rfl rfl (call_nextRound.trans (Eq.trans ?_ (hcall hpc).symm))
    rw [List.append_assoc]
    rfl
  | pushCas newTop endNode done rest oldTos =>
    simp only [hpc] at ht
    split at ht
    · cases ht
      refine h.finish rfl rfl rfl (hcall hpc) ⟨rfl, ?_⟩
      rw [List.length_append]
      exact Nat.le_add_right ..
    · cases ht
      exact h.setPc rfl rfl rfl (hcall hpc).symm
  | popLoad =>
    simp only [hpc, Option.some.injEq] at ht
    subst ht
    exact h.popSees (hcall hpc)
  | popCas n tag newTos seen =>
    simp only [hpc] at ht
    split at ht
    · cases ht
      exact h.setPc rfl rfl rfl (hcall hpc).symm
    · cases ht
      exact h.popSees (hcall hpc)
  | popApply n =>
    simp only [hpc] at ht
    obtain ⟨v, -, rfl⟩ := Option.map_eq_some_iff.mp ht
    exact h.setPc rfl rfl rfl (hcall hpc).symm
  | popDestruct n v =>
    simp only [hpc, Option.some.injEq] at ht
    subst ht
    exact h.finish rfl rfl rfl (hcall hpc) trivial
  | allLoad reversed =>
    simp only [hpc, Option.some.injEq] at ht
    subst ht
    exact h.allSees (hcall hpc)
  | allCas reversed n tag =>
    simp only [hpc] at ht
    split at ht
    · cases ht
      refine h.setPc rfl rfl rfl (Eq.trans ?_ (hcall hpc).symm)
      cases reversed <;> rfl
    · cases ht
      exact h.allSees (hcall hpc)
  | reverseLink n last next =>
    simp only [hpc] at ht
    split at ht <;> cases ht <;> exact h.setPc rfl rfl rfl (hcall hpc).symm
  | allApply reversed n got elementCount =>
    simp only [hpc] at ht
    obtain ⟨v, -, rfl⟩ := Option.map_eq_some_iff.mp ht
    exact h.setPc rfl rfl rfl (hcall hpc).symm
  | allDestruct reversed n next got elementCount =>
    simp only [hpc] at ht
    split at ht <;> cases ht
    · exact h.finish rfl rfl rfl (hcall hpc) rfl
    · exact h.setPc rfl rfl rfl (hcall hpc).symm
  | _ =>
    simp only [hpc] at ht
    cases ht
    try exact h.setPc rfl rfl rfl (hcall hpc).symm

theorem Called.answer {n : Option Nat} (h : s.Called) (ht : s.answer θ n = some t) : t.Called := by
  have hcall : ∀ {pc}, s.pc θ = pc → (s.pc θ).call = pc.call := fun heq => congrArg StackPc.call heq
  cases n with
  | none =>
    simp only [Stack.answer] at ht
    split at ht <;> cases ht
    · next hpc => exact h.finish rfl rfl rfl (hcall hpc) ⟨rfl, Nat.zero_le _⟩
    · next hpc => exact h.finish rfl rfl rfl (hcall hpc) ⟨rfl, Nat.zero_le _⟩
    · next hpc => exact h.setPc rfl rfl rfl (hcall hpc).symm
  | some n =>
    simp only [Stack.answer] at ht
    split at ht
    case h_4 => cases ht
    all_goals
      next hpc =>
      obtain ⟨u, hu, rfl⟩ := Option.map_eq_some_iff.mp ht
      obtain ⟨-, -, hcalled, hfinished, hpcs⟩ := construct_same hu
      exact h.setPc hcalled hfinished hpcs (hcall hpc).symm

theorem step_called {e : StackEvent Θ α} (h : s.Called) (hs : s.step e = some t) : t.Called := by
  unfold step at hs
  cases e with
  | construct θ n => exact h.answer hs
  | access θ fails => exact h.access hs
  | poolWrite n next =>
    obtain ⟨-, heq⟩ := Option.ite_none_right_eq_some.mp hs
    cases heq
    exact h
  | _ =>
    obtain ⟨hidle, heq⟩ := Option.ite_none_right_eq_some.mp hs
    cases heq
    exact h.begin hidle rfl

omit [DecidableEq Θ] in
/-- What a command has come to answers the call that it is of. -/
theorem Doing.answers {p : List Nat} {r : List (StackResult α)} (h : s.Doing chain p r pc) :
    ∃ cs rest, pc.call = cs ++ rest ∧ List.Forall₂ StackCall.Answer cs r := by
  have hnone (hr : r = []) : ∃ cs rest, pc.call = cs ++ rest ∧ List.Forall₂ StackCall.Answer cs r :=
    ⟨[], pc.call, rfl, hr ▸ .nil⟩
  have hone {c : StackCall α} {res : StackResult α} (hcall : pc.call = [c]) (hr : r = [res])
      (hres : c.Answer res) : ∃ cs rest, pc.call = cs ++ rest ∧ List.Forall₂ StackCall.Answer cs r :=
    ⟨[c], [], hcall, hr ▸ .cons hres .nil⟩
  cases pc with
  | clearEnd endNode v rest => exact hnone h.2.2
  | linkNext newnode newTop endNode done v rest =>
    obtain ⟨l, -, -, -, hr⟩ := h
    exact hnone hr
  | pushCas newTop endNode done rest oldTos => exact hnone h.2.2
  | popNext n tag seen => exact hnone h.2.1
  | popCas n tag newTos seen => exact hnone h.2.1
  | popApply n =>
    obtain ⟨v, -, -, hr⟩ := h
    exact hone rfl hr trivial
  | popDestruct n v => exact hone rfl h.2 trivial
  | reverseNext n last =>
    obtain ⟨l, q, -, vs, -, -, -, hr⟩ := h
    exact hone rfl hr rfl
  | reverseLink n last next =>
    obtain ⟨l, q, -, vs, -, -, -, hr⟩ := h
    exact hone rfl hr rfl
  | allApply reversed n got elementCount =>
    obtain ⟨vs, -, -, hr⟩ := h
    exact hone rfl hr rfl
  | allNext reversed n got elementCount =>
    obtain ⟨l, -, vs, -, -, hr⟩ := h
    exact hone rfl hr rfl
  | allDestruct reversed n next got elementCount =>
    obtain ⟨l, -, vs, -, -, hr⟩ := h
    exact hone rfl hr rfl
  | _ => exact hnone h.2

/-- A thread in a call can make its next access, or has the answer of the pool. -/
theorem Inv.progress (h : s.Inv chain own pending) (hpc : s.pc θ ≠ .idle) :
    (s.answer θ none).isSome = true ∨ ∀ fails, (s.access θ fails).isSome = true := by
  have hdoing := h.doing θ
  cases hi : s.pc θ with
  | idle => exact absurd hi hpc
  | construct v | constructEnd v rest | constructNext newTop endNode done v rest =>
    refine .inl ?_
    simp only [Stack.answer, hi, Option.isSome_some]
  | popApply n =>
    rw [hi] at hdoing
    obtain ⟨v, -, hv, -⟩ := hdoing
    refine .inr fun _ => ?_
    simp only [Stack.access, hi, hv, Option.map_some, Option.isSome_some]
  | allApply reversed n got elementCount =>
    rw [hi] at hdoing
    obtain ⟨vs, hlinks, hvalues, -⟩ := hdoing
    refine .inr fun _ => ?_
    cases hp : own θ with
    | nil =>
      rw [hp] at hlinks
      cases hlinks
    | cons a l =>
      rw [hp] at hlinks hvalues
      cases hlinks.1
      cases vs with
      | nil => cases hvalues
      | cons v vs =>
        rw [List.map_cons, List.map_cons, List.cons.injEq] at hvalues
        simp only [Stack.access, hi, hvalues.1, Option.map_some, Option.isSome_some]
  | pushCas | popCas | allCas =>
    refine .inr fun _ => ?_
    simp only [Stack.access, hi]
    split <;> rfl
  | reverseLink n last next =>
    refine .inr fun _ => ?_
    simp only [Stack.access, hi]
    split <;> rfl
  | allDestruct reversed n next got elementCount =>
    refine .inr fun _ => ?_
    simp only [Stack.access, hi]
    split <;> rfl
  | _ =>
    refine .inr fun _ => ?_
    simp only [Stack.access, hi, Option.isSome_some]

/-! ## Linearizability -/

/-- The stack as it is, against the sequential one: its nodes hold the same values; every node is on the
stack, in the pool or with one thread; and every value that was pushed has been removed, once, or is on
the stack. The results of a thread are those of the sequential stack, and answer its calls in their
order; at most one call goes on, whose command has taken effect or waits to. -/
structure Linearized (s : Stack w Θ α) (chain : List Nat) (own : Θ → List Nat) : Prop where
  links : Links s.next s.tos.node chain
  values : chain.map s.v = (replay s.log).content.map some
  places : Split (s.held chain own) (· < s.created)
  once : (replay s.log).pushedValues.Perm
    ((replay s.log).removedValues ++ (replay s.log).content)
  results : ∀ θ, ∃ answered waiting pending, s.called θ = answered ++ waiting ∧
    (replay s.log).resultsOf θ = s.finished θ ++ pending ∧
    List.Forall₂ StackCall.Answer answered ((replay s.log).resultsOf θ) ∧
    pending.length + waiting.length ≤ 1 ∧
    (s.pc θ = .idle → pending = [] ∧ waiting = [] ∧ own θ = [])

omit [DecidableEq Θ] in
theorem length_call (pc : StackPc w α) : pc.call.length ≤ 1 := by
  cases pc <;> first | exact le_rfl | exact Nat.zero_le 1

theorem Inv.linearized (h : s.Inv chain own pending) (hcalled : s.Called) :
    s.Linearized chain own where
  links := h.links
  values := h.content
  places := h.split
  once := pushed_perm s.log
  results θ := by
    obtain ⟨cs, hcs, hanswers⟩ := hcalled θ
    obtain ⟨cs', rest, hcall, hpending⟩ := (h.doing θ).answers
    refine ⟨cs ++ cs', rest, pending θ, ?_, h.results θ, ?_, ?_, fun hidle => ?_⟩
    · rw [hcs, hcall, List.append_assoc]
    · rw [h.results θ]
      exact List.rel_append hanswers hpending
    · have hlength := length_call (s.pc θ)
      rw [hcall, List.length_append, hpending.length_eq] at hlength
      exact hlength
    · have hdoing := h.doing θ
      rw [hidle] at hdoing hcall
      obtain ⟨-, hrest⟩ := List.append_eq_nil_iff.mp hcall.symm
      exact ⟨hdoing.2, hrest, hdoing.1⟩

/-- The stack is linearizable. After every run of any threads it is as a sequential stack, on which
commands have been carried out in the order in which they took effect; a command takes effect in a step
of its own thread, at a successful `compare_exchange_weak` on `tos` or when a load finds the stack empty;
and no thread reads what is not there. -/
theorem run_linearizable {next : Nat → Option Nat} {es : List (StackEvent Θ α)}
    (h : Run Step (new next) es s) :
    (∃ chain own, s.Linearized chain own) ∧
      (∀ e t, s.Step e t → (t.log = s.log ∧ t.tos = s.tos) ∨ ∃ θ c, eventThread e = some θ ∧
        t.log = s.log ++ [(θ, c)] ∧ s.TakesEffect t θ c) ∧
      ∀ θ, s.pc θ ≠ .idle →
        (s.answer θ none).isSome = true ∨ ∀ fails, (s.access θ fails).isSome = true := by
  obtain ⟨chain, own, pending, hinv⟩ := run_sound h
  have hcalled : s.Called := by
    refine h.stateInvariant (I := Called) (fun θ => ⟨[], rfl, .nil⟩) fun _ _ _ hc hs => ?_
    exact step_called hc hs.1
  exact ⟨⟨chain, own, hinv.linearized hcalled⟩, fun e t hs => step_effect hs.1,
    fun θ => hinv.progress⟩

/-- One thread pushes a range and another one a value; the first one is about to pop when the other
consumes everything, and then finds the stack empty. -/
def contendedStack : List (StackEvent Bool Nat) :=
  [.pushRange false 1 [2], .construct false (some 0), .access false false, .construct false (some 1),
    .access false false, .access false false, .access false false, .access false false,
    .pop false, .access false false, .push true 3, .construct true (some 2), .access true false,
    .access true false, .access true false, .access false false,
    .consumeAll true true, .access true false, .access true false,
    .access false false,
    .access true false, .access true false, .access true false, .access true false,
    .access true false, .access true false,
    .access true false, .access true false, .access true false,
    .access true false, .access true false, .access true false,
    .access true false, .access true false, .access true false]

theorem run_linearizable_contended :
    ∃ s : Stack 16 Bool Nat, Run Step (new fun _ => none) contendedStack s ∧
      (s.tos, s.finished false, s.finished true, s.free) =
        (⟨none, 1⟩, [.pushed [1, 2] 2, .empty], [.pushed [3] 1, .consumed true [1, 2, 3] 3],
          [2, 1, 0]) ∧
      ∃ chain own, s.Linearized chain own := by
  obtain ⟨s, hrun, hs⟩ := Run.exists_of_foldlM_option
    (fun (s : Stack 16 Bool Nat) e => if s.Timely e then s.step e else none) (new fun _ => none)
    contendedStack (fun s => (s.tos, s.finished false, s.finished true, s.free))
    (b := (⟨none, 1⟩, [.pushed [1, 2] 2, .empty], [.pushed [3] 1, .consumed true [1, 2, 3] 3],
      [2, 1, 0])) (by decide)
  have hrun' : Run Step (new fun _ => none) contendedStack s := by
    refine hrun.mono fun t e u he => ?_
    obtain ⟨htime, hstep⟩ := Option.ite_none_right_eq_some.mp he
    exact ⟨hstep, htime⟩
  exact ⟨s, hrun', hs, (run_linearizable hrun').1⟩

end Stack

end Rtfsc.Lockfree
