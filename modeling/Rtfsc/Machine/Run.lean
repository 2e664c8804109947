import Mathlib.Data.List.Basic

/-!
# Runs of a step relation

A step relation says which event takes a state to which next state. A run is a finite sequence of
steps together with the events it produced, so that a property of a run may speak about its history
and not only about the state it ends in.
-/

namespace Rtfsc.Machine

variable {σ ε : Type}

/-- `Run step s es t`: the steps from `s` to `t` produce the events `es`, oldest first. -/
inductive Run (step : σ → ε → σ → Prop) (s : σ) : List ε → σ → Prop
  | nil : Run step s [] s
  | snoc {es : List ε} {t u : σ} {e : ε} : Run step s es t → step t e u → Run step s (es ++ [e]) u

namespace Run

variable {step step' : σ → ε → σ → Prop} {s t u : σ} {es es' : List ε}

/-- What holds of the empty history and is kept by every step holds of every run. -/
theorem invariant {I : List ε → σ → Prop} (h0 : I [] s)
    (hstep : ∀ es t e u, I es t → step t e u → I (es ++ [e]) u) (h : Run step s es t) : I es t := by
  induction h with
  | nil => exact h0
  | snoc _ he ih => exact hstep _ _ _ _ ih he

/-- The same for a property of states alone. -/
theorem stateInvariant {I : σ → Prop} (h0 : I s)
    (hstep : ∀ t e u, I t → step t e u → I u) (h : Run step s es t) : I t :=
  h.invariant (I := fun _ t => I t) h0 fun _ t e u => hstep t e u

/-- A run of a relation is a run of every larger one. -/
theorem mono (hle : ∀ t e u, step t e u → step' t e u) (h : Run step s es t) :
    Run step' s es t := by
  induction h with
  | nil => exact nil
  | snoc _ he ih => exact ih.snoc (hle _ _ _ he)

theorem append (h : Run step s es t) (h' : Run step t es' u) : Run step s (es ++ es') u := by
  induction h' with
  | nil => simpa using h
  | snoc _ he ih =>
    rw [← List.append_assoc]
    exact ih.snoc he

/-- A run can be cut anywhere. -/
theorem split (h : Run step s (es ++ es') u) : ∃ t, Run step s es t ∧ Run step t es' u := by
  generalize hall : es ++ es' = all at h
  induction h generalizing es' with
  | nil =>
    obtain ⟨rfl, rfl⟩ := List.append_eq_nil_iff.mp hall
    exact ⟨s, nil, nil⟩
  | @snoc all t u e hrun he ih =>
    rcases List.eq_nil_or_concat es' with rfl | ⟨front, last, rfl⟩
    · rw [List.append_nil] at hall
      rw [hall]
      exact ⟨u, hrun.snoc he, nil⟩
    · rw [List.concat_eq_append, ← List.append_assoc] at hall
      obtain ⟨hfront, hlast⟩ := List.append_inj' hall rfl
      obtain ⟨v, hv, hrest⟩ := ih hfront
      rw [List.concat_eq_append, List.head_eq_of_cons_eq hlast]
      exact ⟨v, hv, hrest.snoc he⟩

theorem eq_of_nil (h : Run step s [] t) : t = s := by
  generalize hnil : ([] : List ε) = es at h
  cases h with
  | nil => rfl
  | snoc => exact absurd hnil (by simp)

/-- A run that is not empty starts with a step. -/
theorem uncons {e : ε} (h : Run step s (e :: es) u) : ∃ t, step s e t ∧ Run step t es u := by
  have hsplit : ∃ t, Run step s [e] t ∧ Run step t es u := split h
  obtain ⟨t, hone, hrest⟩ := hsplit
  generalize hsingle : [e] = one at hone
  cases hone with
  | nil => cases hsingle
  | @snoc front v _ d hrun he =>
    have hparts : [] ++ [e] = front ++ [d] := hsingle
    obtain ⟨rfl, hlast⟩ := List.append_inj' hparts rfl
    rw [List.head_eq_of_cons_eq hlast, ← eq_of_nil hrun]
    exact ⟨t, he, hrest⟩

theorem first {e : ε} (h : Run step s (e :: es) u) : ∃ t, step s e t := by
  obtain ⟨t, he, -⟩ := h.uncons
  exact ⟨t, he⟩

/-- Where a step has one outcome, a run goes on from every state that a part of it leads to. -/
theorem rest (hdet : ∀ t e u u', step t e u → step t e u' → u' = u) (h : Run step s (es ++ es') u)
    (ht : Run step s es t) : Run step t es' u := by
  induction es generalizing s with
  | nil => rwa [eq_of_nil ht]
  | cons e es ih =>
    obtain ⟨v, he, hrest⟩ := h.uncons
    obtain ⟨v', he', hrest'⟩ := ht.uncons
    rw [hdet _ _ _ _ he he'] at hrest'
    exact ih hrest hrest'

/-- What can only come about in a state with `P`, and goes with the events in `stops`, tells that there was
such a state, and no such event since. -/
theorem exists_since {P Q : σ → Prop} {stops : ε → Prop} (h0 : Q s → P s)
    (hstep : ∀ t e u, step t e u → Q u → P u ∨ Q t ∧ ¬stops e) (h : Run step s es t) (hQ : Q t) :
    ∃ es₁ es₂ u, es = es₁ ++ es₂ ∧ Run step s es₁ u ∧ Run step u es₂ t ∧ P u ∧
      ∀ e ∈ es₂, ¬stops e := by
  induction h with
  | nil => exact ⟨[], [], s, rfl, nil, nil, h0 hQ, fun _ he => nomatch he⟩
  | @snoc es t v e hrun he ih =>
    rcases hstep t e v he hQ with hP | ⟨hQt, hstops⟩
    · exact ⟨es ++ [e], [], v, (List.append_nil _).symm, hrun.snoc he, nil, hP, fun _ he => nomatch he⟩
    · obtain ⟨es₁, es₂, u, rfl, h₁, h₂, hP, hnone⟩ := ih hQt
      refine ⟨es₁, es₂ ++ [e], u, List.append_assoc .., h₁, h₂.snoc he, hP, fun d hd => ?_⟩
      rcases List.mem_append.mp hd with hd | hd
      · exact hnone d hd
      · rwa [List.mem_singleton.mp hd]

/-- Every step of a run may be given what holds of its event in any state. -/
theorem and {P : σ → ε → Prop} (h : Run step s es t) (hP : ∀ e ∈ es, ∀ t, P t e) :
    Run (fun t e u => step t e u ∧ P t e) s es t := by
  induction h with
  | nil => exact nil
  | snoc _ he ih =>
    refine (ih fun e he => hP e (List.mem_append_left _ he)).snoc ⟨he, hP _ ?_ _⟩
    exact List.mem_append_right _ (List.mem_singleton_self _)

/-- The events of a list, executed one after the other, are a run. -/
theorem of_foldlM {ω : Type} {exec : σ → ε → Except ω σ} (h : es.foldlM exec s = .ok t) :
    Run (fun t e u => exec t e = .ok u) s es t := by
  induction es generalizing s with
  | nil =>
    cases h
    exact nil
  | cons e es ih =>
    rw [List.foldlM_cons] at h
    cases he : exec s e with
    | error _ =>
      rw [he] at h
      cases h
    | ok u =>
      rw [he] at h
      exact (nil.snoc he).append (ih h)

/-- A list of events that can be executed is a run, and what is seen of its last state is what the
execution shows. -/
theorem exists_of_foldlM {ω β : Type} {exec : σ → ε → Except ω σ} {f : σ → β} {b : β}
    (h : (es.foldlM exec s).map f = .ok b) :
    ∃ t, Run (fun t e u => exec t e = .ok u) s es t ∧ f t = b := by
  cases ht : es.foldlM exec s with
  | error _ =>
    rw [ht] at h
    cases h
  | ok t =>
    rw [ht] at h
    exact ⟨t, of_foldlM ht, Except.ok.inj h⟩

/-- The same for steps that are possible or not. -/
theorem exists_of_foldlM_option {β : Type} (exec : σ → ε → Option σ) (s : σ) (es : List ε)
    (f : σ → β) {b : β} (h : (es.foldlM exec s).map f = some b) :
    ∃ t, Run (fun t e u => exec t e = some u) s es t ∧ f t = b := by
  induction es generalizing s with
  | nil => exact ⟨s, nil, Option.some.inj h⟩
  | cons e es ih =>
    rw [List.foldlM_cons] at h
    cases he : exec s e with
    | none =>
      rw [he] at h
      cases h
    | some u =>
      rw [he] at h
      obtain ⟨t, ht, hb⟩ := ih u h
      exact ⟨t, (nil.snoc he).append ht, hb⟩

end Run

/-- Some event of a history sets, and none after it clears. -/
def Standing (sets clears : ε → Prop) (es : List ε) : Prop :=
  ∃ es₁ e es₂, es = es₁ ++ e :: es₂ ∧ sets e ∧ ∀ d ∈ es₂, ¬clears d

namespace Standing

variable {sets clears : ε → Prop} {es : List ε} {e : ε}

theorem not_nil : ¬Standing sets clears [] := by
  rintro ⟨es₁, e, es₂, h, -, -⟩
  exact absurd h (by simp)

/-- One event more: it sets, or it does not clear what was standing. -/
theorem snoc_iff :
    Standing sets clears (es ++ [e]) ↔ sets e ∨ Standing sets clears es ∧ ¬clears e := by
  constructor
  · rintro ⟨es₁, d, es₂, heq, hset, hnone⟩
    rcases List.eq_nil_or_concat es₂ with rfl | ⟨es₂, c, rfl⟩
    · have hlast := List.append_inj' heq rfl
      rw [List.head_eq_of_cons_eq hlast.2]
      exact .inl hset
    · rw [List.concat_eq_append, ← List.cons_append, ← List.append_assoc] at heq
      obtain ⟨rfl, hlast⟩ := List.append_inj' heq rfl
      rw [List.head_eq_of_cons_eq hlast]
      refine .inr ⟨⟨es₁, d, es₂, rfl, hset, fun x hx => hnone x ?_⟩, hnone c ?_⟩
      · rw [List.concat_eq_append]
        exact List.mem_append_left _ hx
      · rw [List.concat_eq_append]
        exact List.mem_append_right _ (List.mem_singleton_self c)
  · rintro (hset | ⟨⟨es₁, d, es₂, rfl, hset, hnone⟩, hkeep⟩)
    · exact ⟨es, e, [], rfl, hset, fun _ hd => nomatch hd⟩
    · refine ⟨es₁, d, es₂ ++ [e], by simp, hset, fun x hx => ?_⟩
      rcases List.mem_append.mp hx with hx | hx
      · exact hnone x hx
      · rwa [List.mem_singleton.mp hx]

end Standing

end Rtfsc.Machine
