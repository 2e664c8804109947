import Rtfsc.Lockfree.Stack
import Mathlib.Data.List.Induction
import Mathlib.Data.List.Perm.Basic

/-!
# stack: the invariant

The nodes behind `tos` hold the values of a sequential stack on which the commands were carried out in
the order in which they took effect. Every node is on the stack, in the pool, or with one thread; and what
a thread still has to do with its nodes gives what its command has come to.
-/

namespace Rtfsc.Lockfree

open Rtfsc.Machine

variable {w : Nat} {Θ α : Type}

/-! ## The sequential stack -/

namespace SequentialStack

variable {q : SequentialStack Θ α} {c : StackCommand α} {θ θ' : Θ} {log : List (Θ × StackCommand α)}

theorem replay_concat (log : List (Θ × StackCommand α)) (c : Θ × StackCommand α) :
    replay (log ++ [c]) = (replay log).apply c := List.foldl_append ..

theorem resultsOf_apply [DecidableEq Θ] :
    (q.apply (θ, c)).resultsOf θ = q.resultsOf θ ++ [(c.apply q.content).2] := by
  simp [resultsOf, apply]

theorem resultsOf_apply_of_ne [DecidableEq Θ] (h : θ' ≠ θ) :
    (q.apply (θ, c)).resultsOf θ' = q.resultsOf θ' := by
  simp [resultsOf, apply, Ne.symm h]

theorem apply_perm (c : StackCommand α) (l : List α) :
    ((c.apply l).2.pushes ++ l).Perm ((c.apply l).2.removes ++ (c.apply l).1) := by
  cases c with
  | push range n => exact (List.reverse_perm _).symm.append_right l
  | pop =>
    cases l with
    | nil => exact .refl _
    | cons v l => exact .refl _
  | consumeAll reversed =>
    cases reversed with
    | false => exact .of_eq (List.append_nil l).symm
    | true => exact (List.reverse_perm l).symm.trans (.of_eq (List.append_nil _).symm)

/-- Every value that was pushed has been removed, once, or is still there. -/
theorem pushed_perm (log : List (Θ × StackCommand α)) :
    (replay log).pushedValues.Perm ((replay log).removedValues ++ (replay log).content) := by
  induction log using List.reverseRecOn with
  | nil => exact .refl _
  | append_singleton log c ih =>
    rw [replay_concat]
    generalize replay log = q at ih
    have hpushed : (q.apply c).pushedValues = q.pushedValues ++ (c.2.apply q.content).2.pushes := by
      simp [pushedValues, apply]
    have hremoved : (q.apply c).removedValues = q.removedValues ++ (c.2.apply q.content).2.removes := by
      simp [removedValues, apply]
    rw [hpushed, hremoved, List.append_assoc]
    calc (q.pushedValues ++ (c.2.apply q.content).2.pushes).Perm
          (q.removedValues ++ q.content ++ (c.2.apply q.content).2.pushes) := ih.append_right _
      _ = q.removedValues ++ (q.content ++ (c.2.apply q.content).2.pushes) := List.append_assoc ..
      List.Perm _ (q.removedValues ++ ((c.2.apply q.content).2.pushes ++ q.content)) :=
        List.perm_append_comm.append_left _
      List.Perm _ _ := (apply_perm c.2 q.content).append_left _

end SequentialStack

/-! ## The invariant -/

/-- Where a node may be. -/
inductive StackHolder (Θ : Type)
  | stack
  | pool
  | thread (θ : Θ)
deriving DecidableEq

namespace Stack

open SequentialStack

/-- The nodes at a place, when `chain` is the stack and `own` are the nodes of the threads. -/
def held (s : Stack w Θ α) (chain : List Nat) (own : Θ → List Nat) : StackHolder Θ → List Nat
  | .stack => chain
  | .pool => s.free
  | .thread θ => own θ

/-- The nodes `p` from `newTop` to `endNode` have the values that are to be pushed, the last one on top. -/
def Prepared (s : Stack w Θ α) (newTop endNode : Nat) (done : List α) (p : List Nat) : Prop :=
  ∃ l, p = newTop :: l ∧ Segment s.next newTop l endNode ∧ p.map s.v = done.reverse.map some

/-- The nodes `p` are linked from `head` on, and with their values behind those that it got, the call comes
to `r`. -/
def Remaining (s : Stack w Θ α) (head : Option Nat) (p : List Nat) (reversed : Bool) (got : List α)
    (elementCount : Nat) (r : List (StackResult α)) : Prop :=
  ∃ vs, Links s.next head p ∧ p.map s.v = vs.map some ∧
    r = [.consumed reversed (got ++ vs) (elementCount + vs.length)]

/-- The nodes `p` are linked from `head` on, and those that are relinked, from `last` on; the other way
round, and these behind them, they come to `r`. -/
def Reversing (s : Stack w Θ α) (head last : Option Nat) (turned p q : List Nat)
    (r : List (StackResult α)) : Prop :=
  ∃ vs, Links s.next head p ∧ Links s.next last q ∧
    ((turned ++ p).reverse ++ q).map s.v = vs.map some ∧ r = [.consumed true vs vs.length]

/-- What a thread has at hand: its nodes `p`, what it has read of the stack, and what its command has come
to if it has taken effect. -/
def Doing (s : Stack w Θ α) (chain p : List Nat) (r : List (StackResult α)) :
    StackPc w α → Prop
  | .clearEnd endNode v _ => p = [endNode] ∧ s.v endNode = some v ∧ r = []
  | .constructNext newTop endNode done _ _ => s.Prepared newTop endNode done p ∧ r = []
  | .linkNext newnode newTop endNode done v _ =>
    ∃ l, p = newnode :: l ∧ s.Prepared newTop endNode done l ∧ s.v newnode = some v ∧ r = []
  | .pushLoad newTop endNode done _ => s.Prepared newTop endNode done p ∧ r = []
  | .pushNext newTop endNode done _ _ => s.Prepared newTop endNode done p ∧ r = []
  | .pushCas newTop endNode done _ oldTos =>
    s.Prepared newTop endNode done p ∧ s.next endNode = oldTos.node ∧ r = []
  | .popNext n tag seen =>
    p = [] ∧ r = [] ∧ tag = BitVec.ofNat w seen ∧ seen ≤ s.removals ∧
      (seen = s.removals → n ∈ chain)
  | .popCas n tag newTos seen =>
    p = [] ∧ r = [] ∧ tag = BitVec.ofNat w seen ∧ newTos.tag = tag + 1 ∧
      Noted chain s.next s.removals seen n newTos.node
  | .popApply n => ∃ v, p = [n] ∧ s.v n = some v ∧ r = [.popped v]
  | .popDestruct n v => p = [n] ∧ r = [.popped v]
  | .reverseNext n last =>
    ∃ l q, p = l ++ q ∧ s.Reversing (some n) last [] l q r
  | .reverseLink n last next =>
    ∃ l q, p = n :: l ++ q ∧ s.Reversing next last [n] l q r
  | .allApply reversed n got elementCount => s.Remaining (some n) p reversed got elementCount r
  | .allNext reversed n got elementCount =>
    ∃ l, p = n :: l ∧ s.Remaining (s.next n) l reversed got elementCount r
  | .allDestruct reversed n next got elementCount =>
    ∃ l, p = n :: l ∧ s.Remaining next l reversed got elementCount r
  | _ => p = [] ∧ r = []

/-- The invariant: `chain` are the nodes from `tos` on, `own` those of the threads, and `pending` are the
results of commands that have taken effect in calls that have not returned. -/
structure Inv (s : Stack w Θ α) [DecidableEq Θ] (chain : List Nat) (own : Θ → List Nat)
    (pending : Θ → List (StackResult α)) : Prop where
  links : Links s.next s.tos.node chain
  split : Split (s.held chain own) (· < s.created)
  content : chain.map s.v = (replay s.log).content.map some
  tag : s.tos.tag = BitVec.ofNat w s.removals
  results : ∀ θ, (replay s.log).resultsOf θ = s.finished θ ++ pending θ
  doing : ∀ θ, s.Doing chain (own θ) (pending θ) (s.pc θ)

variable {s t : Stack w Θ α} {chain chain' p q l : List Nat} {own : Θ → List Nat}
  {pending : Θ → List (StackResult α)} {r : List (StackResult α)} {pc : StackPc w α} {θ : Θ}
  {n : Nat} {v : α} {head last : Option Nat}

/-! ## What others leave alone -/

/-- Nodes that have the same links and values. -/
def Same (s t : Stack w Θ α) (p : List Nat) : Prop := ∀ a ∈ p, t.next a = s.next a ∧ t.v a = s.v a

theorem Same.values (h : s.Same t p) : p.map t.v = p.map s.v :=
  List.map_congr_left fun a ha => (h a ha).2

theorem Same.mono (h : s.Same t p) (hq : ∀ a ∈ q, a ∈ p) : s.Same t q := fun a ha => h a (hq a ha)

theorem Prepared.keep {newTop endNode : Nat} {done : List α} (h : s.Prepared newTop endNode done p)
    (hsame : s.Same t p) : t.Prepared newTop endNode done p := by
  obtain ⟨l, rfl, hseg, hvalues⟩ := h
  exact ⟨l, rfl, hseg.congr fun b hb => (hsame b hb).1, hsame.values.trans hvalues⟩

theorem Remaining.keep {reversed : Bool} {got : List α} {elementCount : Nat}
    (h : s.Remaining head p reversed got elementCount r) (hsame : s.Same t p) :
    t.Remaining head p reversed got elementCount r := by
  obtain ⟨vs, hlinks, hvalues, hr⟩ := h
  exact ⟨vs, hlinks.congr fun a ha => (hsame a ha).1, hsame.values.trans hvalues, hr⟩

theorem Reversing.keep {turned : List Nat} (h : s.Reversing head last turned p q r)
    (hsame : s.Same t (turned ++ p ++ q)) : t.Reversing head last turned p q r := by
  obtain ⟨vs, hp, hq, hvalues, hr⟩ := h
  refine ⟨vs, hp.congr fun a ha => (hsame a ?_).1, hq.congr fun a ha => (hsame a ?_).1, ?_, hr⟩
  · exact List.mem_append_left _ (List.mem_append_right _ ha)
  · exact List.mem_append_right _ ha
  · refine (hsame.mono fun a ha => ?_).values.trans hvalues
    rcases List.mem_append.mp ha with ha | ha
    · exact List.mem_append_left _ (List.mem_reverse.mp ha)
    · exact List.mem_append_right _ ha

/-- What a thread has at hand stays, while nothing is done to its nodes, and to those of the stack as long
as nothing is removed. -/
theorem Doing.keep (h : s.Doing chain p r pc) (hle : s.removals ≤ t.removals)
    (hkeep : s.removals = t.removals → ∀ c ∈ chain, c ∈ chain' ∧ t.next c = s.next c)
    (hsame : s.Same t p) : t.Doing chain' p r pc := by
  cases pc with
  | clearEnd endNode v rest =>
    obtain ⟨rfl, hv, hr⟩ := h
    exact ⟨rfl, (hsame _ List.mem_cons_self).2.trans hv, hr⟩
  | constructNext newTop endNode done v rest => exact ⟨h.1.keep hsame, h.2⟩
  | linkNext newnode newTop endNode done v rest =>
    obtain ⟨l, rfl, hl, hv, hr⟩ := h
    exact ⟨l, rfl, hl.keep (hsame.mono fun a => List.mem_cons_of_mem _),
      (hsame _ List.mem_cons_self).2.trans hv, hr⟩
  | pushLoad newTop endNode done rest => exact ⟨h.1.keep hsame, h.2⟩
  | pushNext newTop endNode done rest oldTos => exact ⟨h.1.keep hsame, h.2⟩
  | pushCas newTop endNode done rest oldTos =>
    obtain ⟨hp, hnext, hr⟩ := h
    have hend : endNode ∈ p := by
      obtain ⟨l, rfl, hseg, -⟩ := hp
      exact hseg.mem
    exact ⟨hp.keep hsame, (hsame _ hend).1.trans hnext, hr⟩
  | popNext n tag seen =>
    obtain ⟨hp, hr, htag, hseen, hmem⟩ := h
    refine ⟨hp, hr, htag, hseen.trans hle, fun heq => ?_⟩
    have hst : s.removals = t.removals := hle.antisymm (heq ▸ hseen)
    exact (hkeep hst n (hmem (heq.trans hst.symm))).1
  | popCas n tag newTos seen =>
    obtain ⟨hp, hr, htag, hnew, hnoted⟩ := h
    exact ⟨hp, hr, htag, hnew, hnoted.keep hle hkeep⟩
  | popApply n =>
    obtain ⟨v, rfl, hv, hr⟩ := h
    exact ⟨v, rfl, (hsame _ List.mem_cons_self).2.trans hv, hr⟩
  | reverseNext n last =>
    obtain ⟨l, q, rfl, hrev⟩ := h
    exact ⟨l, q, rfl, hrev.keep hsame⟩
  | reverseLink n last next =>
    obtain ⟨l, q, rfl, hrev⟩ := h
    exact ⟨l, q, rfl, hrev.keep hsame⟩
  | allApply reversed n got elementCount => exact Remaining.keep h hsame
  | allNext reversed n got elementCount =>
    obtain ⟨l, rfl, hl⟩ := h
    refine ⟨l, rfl, ?_⟩
    rw [(hsame n List.mem_cons_self).1]
    exact hl.keep (hsame.mono fun a => List.mem_cons_of_mem _)
  | allDestruct reversed n next got elementCount =>
    obtain ⟨l, rfl, hl⟩ := h
    exact ⟨l, rfl, hl.keep (hsame.mono fun a => List.mem_cons_of_mem _)⟩
  | _ => exact h

/-! ## What a thread does to its nodes -/

theorem Doing.nextRound {newTop endNode : Nat} {done rest : List α}
    (h : s.Prepared newTop endNode done p) (hr : r = []) :
    s.Doing chain p r (.nextRound newTop endNode done rest) := by
  cases rest with
  | nil => exact ⟨h, hr⟩
  | cons v rest => exact ⟨h, hr⟩

/-- A node is linked in front of those that are prepared. -/
theorem Prepared.link {newTop endNode : Nat} {done : List α} (h : s.Prepared newTop endNode done p)
    (hn : n ∉ p) (hv : s.v n = some v) :
    (s.setNext n (some newTop)).Prepared n endNode (done ++ [v]) (n :: p) := by
  obtain ⟨l, rfl, hseg, hvalues⟩ := h
  refine ⟨newTop :: l, rfl, ⟨Function.update_self .., hseg.congr fun b hb => ?_⟩, ?_⟩
  · exact Function.update_of_ne (ne_of_mem_of_not_mem hb hn) ..
  · rw [List.reverse_append]
    exact congrArg₂ List.cons hv hvalues

/-- The last node that is prepared is linked to what `tos` was. -/
theorem Prepared.linkEnd {newTop endNode : Nat} {done : List α} (h : s.Prepared newTop endNode done p)
    (hnodup : p.Nodup) (next : Option Nat) :
    (s.setNext endNode next).Prepared newTop endNode done p := by
  obtain ⟨l, rfl, hseg, hvalues⟩ := h
  exact ⟨l, rfl, hseg.updateLast hnodup next, hvalues⟩

theorem Prepared.end_mem {newTop endNode : Nat} {done : List α}
    (h : s.Prepared newTop endNode done p) : endNode ∈ p := by
  obtain ⟨l, rfl, hseg, -⟩ := h
  exact hseg.mem

/-- One node is relinked. -/
theorem Reversing.link {next last : Option Nat} {q : List Nat}
    (h : s.Reversing next last [n] l q r) (hnodup : (n :: l ++ q).Nodup) :
    (s.setNext n last).Reversing next (some n) [] l (n :: q) r := by
  obtain ⟨vs, hl, hq, hvalues, hr⟩ := h
  rw [List.cons_append, List.nodup_cons, List.mem_append, not_or] at hnodup
  refine ⟨vs, hl.update hnodup.1.1 _, hq.push hnodup.1.2, ?_, hr⟩
  refine Eq.trans (congrArg (List.map s.v) ?_) hvalues
  rw [List.nil_append, List.singleton_append, List.reverse_cons, List.append_assoc]
  rfl

end Stack

end Rtfsc.Lockfree
