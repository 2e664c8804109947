import Rtfsc.Lockfree.StackInv

/-!
# stack: every step keeps the invariant

The successful `compare_exchange_weak` of a call carries its command out on the sequential stack; the
other steps only change what the thread itself has at hand.
-/

namespace Rtfsc.Lockfree

open Rtfsc.Machine

namespace Stack

open SequentialStack

variable {w : Nat} {Θ α : Type} [DecidableEq Θ] {s t u : Stack w Θ α} {chain chain' p l : List Nat}
  {own : Θ → List Nat} {pending : Θ → List (StackResult α)} {r : List (StackResult α)}
  {pc : StackPc w α} {θ : Θ} {n : Nat} {v : α}

/-- The invariant, for some nodes and results. -/
def Sound (s : Stack w Θ α) : Prop := ∃ chain own pending, s.Inv chain own pending

theorem setPc_self : (s.setPc θ pc).pc θ = pc := Function.update_self ..

theorem setPc_of_ne {θ' : Θ} (h : θ' ≠ θ) : (s.setPc θ pc).pc θ' = s.pc θ' :=
  Function.update_of_ne h ..

/-- Nodes at two places are different ones. -/
theorem Inv.ne_of_held (h : s.Inv chain own pending) {i j : StackHolder Θ} (hij : i ≠ j) {a b : Nat}
    (ha : a ∈ s.held chain own i) (hb : b ∈ s.held chain own j) : a ≠ b := by
  rintro rfl
  exact hij (h.split.apart i j a ha hb)

theorem held_self : s.held chain (Function.update own θ p) (.thread θ) = p := Function.update_self ..

/-- What one thread holds does not matter for the other places, where nothing else has changed. -/
theorem held_of_ne {k : StackHolder Θ} (hθ : k ≠ .thread θ) (hstack : k = .stack → chain' = chain)
    (hpool : k = .pool → t.free = s.free) :
    t.held chain' (Function.update own θ p) k = s.held chain own k := by
  cases k with
  | stack => exact hstack rfl
  | pool => exact hpool rfl
  | thread θ' => exact Function.update_of_ne (fun heq => hθ (congrArg _ heq)) ..

/-- A step of one thread, from what it does to the others. -/
theorem Inv.next (h : s.Inv chain own pending) (θ : Θ) (chain' : List Nat) (hlinks : Links t.next t.tos.node chain')
    (hsplit : Split (t.held chain' (Function.update own θ p)) (· < t.created))
    (hcontent : chain'.map t.v = (replay t.log).content.map some)
    (htag : t.tos.tag = BitVec.ofNat w t.removals)
    (hresults : (replay t.log).resultsOf θ = t.finished θ ++ r)
    (hothers : ∀ θ', θ' ≠ θ → t.pc θ' = s.pc θ' ∧ t.finished θ' = s.finished θ' ∧
      (replay t.log).resultsOf θ' = (replay s.log).resultsOf θ' ∧ s.Same t (own θ'))
    (hle : s.removals ≤ t.removals)
    (hkeep : s.removals = t.removals → ∀ c ∈ chain, c ∈ chain' ∧ t.next c = s.next c)
    (hdoing : t.Doing chain' p r (t.pc θ)) : t.Sound := by
  refine ⟨chain', Function.update own θ p, Function.update pending θ r, hlinks, hsplit, hcontent, htag,
    fun θ' => ?_, fun θ' => ?_⟩
  · rcases eq_or_ne θ' θ with rfl | hne
    · rw [Function.update_self]
      exact hresults
    · obtain ⟨-, hfinished, hres, -⟩ := hothers θ' hne
      rw [Function.update_of_ne hne, hres, hfinished]
      exact h.results θ'
  · rcases eq_or_ne θ' θ with rfl | hne
    · rw [Function.update_self, Function.update_self]
      exact hdoing
    · obtain ⟨hpc, -, -, hsame⟩ := hothers θ' hne
      rw [Function.update_of_ne hne, Function.update_of_ne hne, hpc]
      exact (h.doing θ').keep hle hkeep hsame

/-- The nodes at the places, when those of one thread are listed in another order. -/
theorem Inv.split_perm (h : s.Inv chain own pending) (hperm : p.Perm (own θ)) :
    Split (s.held chain (Function.update own θ p)) (· < s.created) := by
  refine h.split.congr fun k => ?_
  rcases eq_or_ne k (.thread θ) with rfl | hne
  · rw [held_self]
    exact hperm
  · rw [held_of_ne hne (fun _ => rfl) fun _ => rfl]

/-- A thread goes on, and writes at most the links of its own nodes. -/
theorem Inv.quiet (h : s.Inv chain own pending) (next : Nat → Option Nat)
    (hnext : ∀ a, a ∉ own θ → next a = s.next a) (hperm : p.Perm (own θ))
    (hdoing : { s with next := next }.Doing chain p (pending θ) pc) :
    ({ s with next := next }.setPc θ pc).Sound := by
  have hchain : ∀ c ∈ chain, next c = s.next c := fun c hc => hnext c fun hown =>
    h.ne_of_held (i := .stack) (j := .thread θ) nofun hc hown rfl
  refine h.next (p := p) (r := pending θ) θ chain (h.links.congr hchain) (h.split_perm hperm) h.content h.tag
    (h.results θ) (fun θ' hne => ⟨setPc_of_ne hne, rfl, rfl, fun a ha => ⟨hnext a fun hown => ?_, rfl⟩⟩)
    le_rfl (fun _ c hc => ⟨hc, hchain c hc⟩) ?_
  · refine h.ne_of_held (i := .thread θ') (j := .thread θ) ?_ ha hown rfl
    exact fun heq => hne (StackHolder.thread.inj heq)
  · rw [setPc_self]
    exact hdoing

theorem Inv.quiet_setNext (h : s.Inv chain own pending) {next : Option Nat} (hn : n ∈ own θ)
    (hperm : p.Perm (own θ)) (hdoing : (s.setNext n next).Doing chain p (pending θ) pc) :
    ((s.setNext n next).setPc θ pc).Sound :=
  h.quiet _ (fun _ ha => Function.update_of_ne (ne_of_mem_of_not_mem hn ha).symm ..) hperm hdoing

theorem Inv.quiet_read (h : s.Inv chain own pending)
    (hdoing : s.Doing chain (own θ) (pending θ) pc) : (s.setPc θ pc).Sound :=
  h.quiet s.next (fun _ _ => rfl) (.refl _) hdoing

/-- A call takes effect, without any, and returns. -/
theorem Inv.noop (h : s.Inv chain own pending) (hown : own θ = []) (hpending : pending θ = [])
    {c : StackCommand α} {res : StackResult α}
    (hc : c.apply (replay s.log).content = ((replay s.log).content, res)) :
    ((s.commit θ c).finish θ res).Sound := by
  have hlog : replay (s.log ++ [(θ, c)]) = (replay s.log).apply (θ, c) := replay_concat _ _
  refine h.next (p := []) (r := []) θ chain h.links (h.split_perm (hown ▸ .refl _)) ?_ h.tag ?_
    (fun θ' hne => ⟨setPc_of_ne hne, Function.update_of_ne hne .., ?_, fun a _ => ⟨rfl, rfl⟩⟩) le_rfl
    (fun _ c hc => ⟨hc, rfl⟩) ?_
  · change _ = (replay (s.log ++ [(θ, c)])).content.map some
    rw [hlog]
    change _ = (c.apply (replay s.log).content).1.map some
    rw [hc]
    exact h.content
  · change (replay (s.log ++ [(θ, c)])).resultsOf θ = Function.update s.finished θ _ θ ++ []
    rw [hlog, resultsOf_apply, hc, h.results, hpending, Function.update_self, List.append_nil,
      List.append_nil]
    rfl
  · change (replay (s.log ++ [(θ, c)])).resultsOf θ' = _
    rw [hlog, resultsOf_apply_of_ne hne]
  · rw [finish, setPc_self]
    exact ⟨rfl, rfl⟩

/-! ## Nodes of the pool -/

/-- A node comes from the pool to a thread. -/
structure Constructs (s u : Stack w Θ α) (chain : List Nat) (own : Θ → List Nat) (θ : Θ) (n : Nat)
    (v : α) (p : List Nat) : Prop where
  split : Split (u.held chain (Function.update own θ (n :: p))) (· < u.created)
  same : ∀ i, i ≠ .pool → ∀ a ∈ s.held chain own i, u.v a = s.v a
  value : u.v n = some v
  rest : u = { s with free := u.free, created := u.created, v := Function.update s.v n (some v) }

theorem Inv.construct (h : s.Inv chain own pending) (hu : s.construct n v = some u) (hp : own θ = p) :
    s.Constructs u chain own θ n v p := by
  subst hp
  have hthread : Function.update own θ (n :: own θ) θ = n :: own θ := Function.update_self ..
  have hkeep (hout : ∀ i, i ≠ .pool → n ∉ s.held chain own i) :
      ∀ i, i ≠ .pool → ∀ a ∈ s.held chain own i, Function.update s.v n (some v) a = s.v a :=
    fun i hi a ha => Function.update_of_ne (ne_of_mem_of_not_mem ha (hout i hi)) ..
  unfold Stack.construct at hu
  split at hu
  · next hfree =>
    cases hu
    refine ⟨?_, hkeep fun i hi hn => h.ne_of_held hi hn (j := .pool) hfree rfl,
      Function.update_self .., rfl⟩
    exact h.split.move (i := .pool) (j := .thread θ) (l := [n]) nofun (List.perm_cons_erase hfree)
      (.of_eq hthread) fun k hpool hθ => held_of_ne hθ (fun _ => rfl) fun heq => absurd heq hpool
  · split at hu
    · next hnew =>
      cases hu
      have hn : ¬n < s.created := fun hlt => lt_irrefl _ (hnew ▸ hlt)
      refine ⟨?_, hkeep fun i _ hi => hn ((h.split.cover n).mpr ⟨i, hi⟩),
        Function.update_self .., rfl⟩
      have hadd : Split (s.held chain (Function.update own θ (n :: own θ)))
          (fun a => a = n ∨ a < s.created) := by
        have hperm : (s.held chain (Function.update own θ (n :: own θ)) (.thread θ)).Perm
            (n :: s.held chain own (.thread θ)) := .of_eq hthread
        exact h.split.add hn hperm fun k hθ => held_of_ne hθ (fun _ => rfl) fun _ => rfl
      refine ⟨fun a => Iff.trans ?_ (hadd.cover a), hadd.nodup, hadd.apart⟩
      rw [hnew]
      exact Nat.lt_succ_iff_lt_or_eq.trans or_comm
    · cases hu

/-- A thread goes on with a node from the pool. -/
theorem Inv.constructed (h : s.Inv chain own pending) (hu : s.construct n v = some u) (hp : own θ = p)
    (hdoing : s.Same u p → u.v n = some v → u.Doing chain (n :: p) (pending θ) pc) :
    (u.setPc θ pc).Sound := by
  obtain ⟨hsplit, hsame, hv, heq⟩ := h.construct hu hp
  have hnext : u.next = s.next := by
    rw [heq]
  have hown : s.Same u p := by
    subst hp
    exact fun a ha => ⟨congrFun hnext a, hsame (.thread θ) nofun a ha⟩
  replace hdoing := hdoing hown hv
  have hchain := hsame .stack nofun
  rw [heq] at hsplit hdoing hsame hchain ⊢
  refine h.next (p := n :: p) (r := pending θ) θ chain h.links hsplit ?_ h.tag (h.results θ)
    (fun θ' hne => ⟨setPc_of_ne hne, rfl, rfl, fun a ha => ⟨rfl, hsame (.thread θ') nofun a ha⟩⟩) le_rfl
    (fun _ c hc => ⟨hc, rfl⟩) ?_
  · exact (List.map_congr_left hchain).trans h.content
  · rw [setPc_self]
    exact hdoing

/-- A node goes back to the pool. -/
structure Destructs (s u : Stack w Θ α) (chain : List Nat) (own : Θ → List Nat) (θ : Θ) (p : List Nat) :
    Prop where
  split : Split (u.held chain (Function.update own θ p)) (· < s.created)
  chain : ∀ c ∈ chain, u.v c = s.v c
  others : ∀ θ', θ' ≠ θ → s.Same u (own θ')

theorem Inv.destruct (h : s.Inv chain own pending) (hp : own θ = n :: p) :
    s.Destructs (s.destruct n) chain own θ p := by
  have hn : n ∈ s.held chain own (.thread θ) := by
    rw [held, hp]
    exact List.mem_cons_self
  refine ⟨?_, fun c hc => ?_, fun θ' hne a ha => ⟨rfl, ?_⟩⟩
  · refine h.split.move (i := .thread θ) (j := .pool) (l := [n]) nofun ?_ (.refl _)
      fun k hθ hpool => held_of_ne hθ (fun _ => rfl) fun heq => absurd heq hpool
    rw [held_self, held, hp]
    exact .refl _
  · exact Function.update_of_ne (h.ne_of_held (i := .stack) (j := .thread θ) nofun hc hn) ..
  · refine Function.update_of_ne (h.ne_of_held (i := .thread θ') ?_ ha hn) ..
    exact fun heq => hne (StackHolder.thread.inj heq)

/-- A call has consumed its node and goes on. -/
theorem Inv.destructed (h : s.Inv chain own pending) (hp : own θ = n :: p)
    (hdoing : (s.destruct n).Doing chain p (pending θ) pc) : ((s.destruct n).setPc θ pc).Sound := by
  obtain ⟨hsplit, hchain, hothers⟩ := h.destruct hp
  refine h.next (p := p) (r := pending θ) θ chain h.links hsplit
    ((List.map_congr_left hchain).trans h.content) h.tag (h.results θ)
    (fun θ' hne => ⟨setPc_of_ne hne, rfl, rfl, hothers θ' hne⟩) le_rfl (fun _ c hc => ⟨hc, rfl⟩) ?_
  rw [setPc_self]
  exact hdoing

/-- A call has consumed its last node and returns. -/
theorem Inv.returned (h : s.Inv chain own pending) (hp : own θ = [n]) {res : StackResult α}
    (hpending : pending θ = [res]) : ((s.destruct n).finish θ res).Sound := by
  obtain ⟨hsplit, hchain, hothers⟩ := h.destruct hp
  refine h.next (p := []) (r := []) θ chain h.links hsplit
    ((List.map_congr_left hchain).trans h.content) h.tag ?_
    (fun θ' hne => ⟨setPc_of_ne hne, Function.update_of_ne hne .., rfl, hothers θ' hne⟩) le_rfl
    (fun _ c hc => ⟨hc, rfl⟩) ?_
  · refine (h.results θ).trans ?_
    rw [hpending, List.append_nil]
    exact (Function.update_self (f := s.finished) ..).symm
  · rw [finish, setPc_self]
    exact ⟨rfl, rfl⟩

/-! ## Commands -/

/-- A successful `compare_exchange_weak` of `link_nodes_atomic`. -/
theorem Inv.pushed (h : s.Inv chain own pending) {newTop endNode : Nat} {done rest : List α}
    (hpc : s.pc θ = .pushCas newTop endNode done rest s.tos) :
    ({ s with tos := ⟨some newTop, s.tos.tag⟩ }.commit θ (.push (done ++ rest) done.length)
      |>.finish θ (.pushed (done ++ rest) done.length)).Sound := by
  have hdoing := h.doing θ
  rw [hpc] at hdoing
  obtain ⟨⟨l, hp, hseg, hvalues⟩, hnext, hpending⟩ := hdoing
  have hlog : replay (s.log ++ [(θ, .push (done ++ rest) done.length)]) =
    (replay s.log).apply (θ, .push (done ++ rest) done.length) := replay_concat _ _
  refine h.next (p := []) (r := []) θ (own θ ++ chain) ?_ ?_ ?_ h.tag ?_
    (fun θ' hne => ⟨setPc_of_ne hne, Function.update_of_ne hne .., ?_, fun a _ => ⟨rfl, rfl⟩⟩) le_rfl
    (fun _ c hc => ⟨List.mem_append_right _ hc, rfl⟩) ?_
  · rw [hp]
    exact hseg.links hnext h.links
  · refine h.split.move (i := .thread θ) (j := .stack) (l := own θ) nofun ?_ (.refl _)
      fun k hθ hstack => held_of_ne hθ (fun heq => absurd heq hstack) fun _ => rfl
    rw [held_self, held, List.append_nil]
  · change (own θ ++ chain).map s.v = (replay (s.log ++ [_])).content.map some
    rw [hlog, List.map_append, hvalues, h.content, ← List.map_append]
    simp only [apply, StackCommand.apply, List.take_left]
  · change (replay (s.log ++ [_])).resultsOf θ = Function.update s.finished θ _ θ ++ []
    rw [hlog, resultsOf_apply, h.results, hpending, Function.update_self, List.append_nil,
      List.append_nil]
    rfl
  · change (replay (s.log ++ [_])).resultsOf θ' = _
    rw [hlog, resultsOf_apply_of_ne hne]
  · rw [finish, setPc_self]
    exact ⟨rfl, rfl⟩

/-- A successful `compare_exchange_weak` of `consume_one`: the tag tells that nothing was removed since
`next` was read. -/
theorem Inv.popped (h : s.Inv chain own pending) {tag : BitVec w} {newTos : TaggedHandle w}
    {seen : Nat} (hpc : s.pc θ = .popCas n tag newTos seen) (htos : s.tos = ⟨some n, tag⟩)
    (htime : s.removals < seen + 2 ^ w) :
    ({ s with tos := newTos, removals := s.removals + 1 }.commit θ .pop
      |>.setPc θ (.popApply n)).Sound := by
  have hdoing := h.doing θ
  rw [hpc] at hdoing
  obtain ⟨hp, hpending, htag, hnewTag, hnoted⟩ := hdoing
  have htag' := h.tag
  rw [htos] at htag'
  have hmod : seen % 2 ^ w = s.removals % 2 ^ w := by
    have := congrArg BitVec.toNat (htag.symm.trans htag')
    rwa [BitVec.toNat_ofNat, BitVec.toNat_ofNat] at this
  -- so the node is still the top one, and what is behind it was read right
  obtain ⟨hmem, hnext⟩ := hnoted.of_mod_eq hmod htime
  have hlog : replay (s.log ++ [(θ, .pop)]) = (replay s.log).apply (θ, .pop) := replay_concat _ _
  have hlinks := h.links
  rw [htos] at hlinks
  cases chain with
  | nil => cases hmem
  | cons a l =>
    obtain ⟨ha, htail⟩ := hlinks
    cases ha
    have hcontent := h.content
    obtain ⟨v, vs, hvs⟩ : ∃ v vs, (replay s.log).content = v :: vs := by
      cases hc : (replay s.log).content with
      | nil =>
        rw [hc] at hcontent
        cases hcontent
      | cons v vs => exact ⟨v, vs, rfl⟩
    rw [hvs, List.map_cons, List.map_cons, List.cons.injEq] at hcontent
    have happly : StackCommand.apply .pop (replay s.log).content = (vs, .popped v) := by
      rw [hvs]
      rfl
    refine h.next (p := [n]) (r := [.popped v]) θ l ?_ ?_ ?_ ?_ ?_
      (fun θ' hne => ⟨setPc_of_ne hne, rfl, ?_, fun a _ => ⟨rfl, rfl⟩⟩) (Nat.le_succ _)
      (fun heq => absurd heq (Nat.ne_of_lt (Nat.lt_succ_self _))) ?_
    · rw [hnext] at htail
      exact htail
    · refine h.split.move (i := .stack) (j := .thread θ) (l := [n]) nofun (.refl _) ?_
        fun k hstack hθ => held_of_ne hθ (fun heq => absurd heq hstack) fun _ => rfl
      rw [held_self, held, hp]
      exact .refl _
    · change l.map s.v = (replay (s.log ++ [(θ, .pop)])).content.map some
      rw [hlog]
      change _ = (StackCommand.apply .pop (replay s.log).content).1.map some
      rw [happly]
      exact hcontent.2
    · refine hnewTag.trans ?_
      rw [show tag = _ from htag']
      exact (BitVec.ofNat_add ..).symm
    · change (replay (s.log ++ [(θ, .pop)])).resultsOf θ = s.finished θ ++ _
      rw [hlog, resultsOf_apply, happly, h.results, hpending, List.append_nil]
    · change (replay (s.log ++ [(θ, .pop)])).resultsOf θ' = _
      rw [hlog, resultsOf_apply_of_ne hne]
    · rw [setPc_self]
      exact ⟨v, rfl, hcontent.1, rfl⟩

/-- A successful `compare_exchange_weak` of `consume_all_atomic`: the thread has all nodes of the stack. -/
theorem Inv.consumedAll (h : s.Inv chain own pending) {tag : BitVec w} {reversed : Bool}
    (hpc : s.pc θ = .allCas reversed n tag) (htos : s.tos = ⟨some n, tag⟩) :
    ({ s with tos := ⟨none, tag + 1⟩, removals := s.removals + 1 }.commit θ (.consumeAll reversed)
      |>.setPc θ (if reversed then .reverseNext n none else .allApply reversed n [] 0)).Sound := by
  have hdoing := h.doing θ
  rw [hpc] at hdoing
  obtain ⟨hp, hpending⟩ := hdoing
  have hlinks := h.links
  have htag := h.tag
  rw [htos] at hlinks htag
  have hlog : replay (s.log ++ [(θ, .consumeAll reversed)]) =
    (replay s.log).apply (θ, .consumeAll reversed) := replay_concat _ _
  refine h.next (p := chain)
    (r := [(StackCommand.apply (.consumeAll reversed) (replay s.log).content).2]) θ [] rfl ?_
    ?_ ?_ ?_ (fun θ' hne => ⟨setPc_of_ne hne, rfl, ?_, fun a _ => ⟨rfl, rfl⟩⟩) (Nat.le_succ _)
    (fun heq => absurd heq (Nat.ne_of_lt (Nat.lt_succ_self _))) ?_
  · refine h.split.move (i := .stack) (j := .thread θ) (l := chain) nofun ?_ ?_
      fun k hstack hθ => held_of_ne hθ (fun heq => absurd heq hstack) fun _ => rfl
    · rw [held, held, List.append_nil]
    · rw [held_self, held, hp, List.append_nil]
  · change _ = (replay (s.log ++ [_])).content.map some
    rw [hlog]
    rfl
  · rw [show tag = _ from htag]
    exact (BitVec.ofNat_add ..).symm
  · change (replay (s.log ++ [_])).resultsOf θ = s.finished θ ++ _
    rw [hlog, resultsOf_apply, h.results, hpending, List.append_nil]
  · change (replay (s.log ++ [_])).resultsOf θ' = _
    rw [hlog, resultsOf_apply_of_ne hne]
  · rw [setPc_self]
    cases reversed with
    | false =>
      refine ⟨(replay s.log).content, hlinks, h.content, ?_⟩
      simp [StackCommand.apply]
    | true =>
      -- the nodes are still linked from the top down, none is relinked
      refine ⟨chain, [], (List.append_nil _).symm, (replay s.log).content.reverse, hlinks, rfl, ?_, ?_⟩
      · rw [List.nil_append, List.append_nil, List.map_reverse, List.map_reverse]
        exact congrArg List.reverse h.content
      · simp [StackCommand.apply]

/-! ## Accesses -/

theorem Inv.popSees (h : s.Inv chain own pending) (hp : own θ = []) (hr : pending θ = []) :
    (s.popSees θ).Sound := by
  unfold Stack.popSees
  have hlinks := h.links
  cases htos : s.tos.node with
  | none =>
    rw [htos] at hlinks
    refine h.noop hp hr ?_
    have hcontent := h.content
    rw [hlinks.head_eq_none.mp rfl] at hcontent
    rw [List.map_eq_nil_iff.mp hcontent.symm]
    rfl
  | some n =>
    refine h.quiet_read ⟨hp, hr, h.tag, le_rfl, fun _ => ?_⟩
    rw [htos] at hlinks
    cases chain with
    | nil => cases hlinks
    | cons a l =>
      cases hlinks.1
      exact List.mem_cons_self

theorem Inv.allSees (h : s.Inv chain own pending) (hp : own θ = []) (hr : pending θ = [])
    (reversed : Bool) : (s.allSees θ reversed).Sound := by
  unfold Stack.allSees
  have hlinks := h.links
  cases htos : s.tos.node with
  | none =>
    rw [htos] at hlinks
    refine h.noop hp hr ?_
    have hcontent := h.content
    rw [hlinks.head_eq_none.mp rfl] at hcontent
    rw [List.map_eq_nil_iff.mp hcontent.symm]
    cases reversed <;> rfl
  | some n => exact h.quiet_read ⟨hp, hr⟩

/-- The next access of a thread. -/
theorem Inv.access (h : s.Inv chain own pending) {fails : Bool} (ht : s.access θ fails = some t)
    (htime : s.Timely (.access θ fails)) : t.Sound := by
  have hdoing := h.doing θ
  have hnodup := h.split.nodup (.thread θ)
  rw [held] at hnodup
  unfold Stack.access at ht
  cases hpc : s.pc θ with
  | clearEnd endNode v rest =>
    rw [hpc] at hdoing
    simp only [hpc, Option.some.injEq] at ht
    obtain ⟨hp, hv, hr⟩ := hdoing
    subst ht
    refine h.quiet_setNext (p := [endNode]) (hp ▸ List.mem_cons_self) (.of_eq hp.symm) ?_
    exact Doing.nextRound ⟨[], rfl, rfl, congrArg (· :: []) hv⟩ hr
  | linkNext newnode newTop endNode done v rest =>
    rw [hpc] at hdoing
    simp only [hpc, Option.some.injEq] at ht
    obtain ⟨l, hp, hl, hv, hr⟩ := hdoing
    rw [hp, List.nodup_cons] at hnodup
    subst ht
    exact h.quiet_setNext (p := newnode :: l) (hp ▸ List.mem_cons_self) (.of_eq hp.symm)
      (Doing.nextRound (hl.link hnodup.1 hv) hr)
  | pushLoad newTop endNode done rest =>
    rw [hpc] at hdoing
    simp only [hpc, Option.some.injEq] at ht
    subst ht
    exact h.quiet_read hdoing
  | pushNext newTop endNode done rest oldTos =>
    rw [hpc] at hdoing
    simp only [hpc, Option.some.injEq] at ht
    subst ht
    exact h.quiet_setNext hdoing.1.end_mem (.refl _)
      ⟨hdoing.1.linkEnd hnodup _, Function.update_self .., hdoing.2⟩
  | pushCas newTop endNode done rest oldTos =>
    rw [hpc] at hdoing
    simp only [hpc] at ht
    split at ht
    · next hcas =>
      obtain ⟨rfl, -⟩ := hcas
      cases ht
      exact h.pushed hpc
    · cases ht
      exact h.quiet_read ⟨hdoing.1, hdoing.2.2⟩
  | popLoad =>
    rw [hpc] at hdoing
    simp only [hpc, Option.some.injEq] at ht
    subst ht
    exact h.popSees hdoing.1 hdoing.2
  | popNext n tag seen =>
    rw [hpc] at hdoing
    simp only [hpc, Option.some.injEq] at ht
    obtain ⟨hp, hr, htag, hseen, hmem⟩ := hdoing
    subst ht
    exact h.quiet_read ⟨hp, hr, htag, rfl, hseen, fun heq => ⟨hmem heq, rfl⟩⟩
  | popCas n tag newTos seen =>
    rw [hpc] at hdoing
    simp only [Timely, hpc] at ht htime
    split at ht
    · next hcas =>
      cases ht
      exact h.popped hpc hcas.1 htime
    · cases ht
      exact h.popSees hdoing.1 hdoing.2.1
  | popApply n =>
    rw [hpc] at hdoing
    simp only [hpc] at ht
    obtain ⟨v, hp, hv, hr⟩ := hdoing
    rw [hv] at ht
    cases ht
    exact h.quiet_read ⟨hp, hr⟩
  | popDestruct n v =>
    rw [hpc] at hdoing
    simp only [hpc, Option.some.injEq] at ht
    subst ht
    exact h.returned hdoing.1 hdoing.2
  | allLoad reversed =>
    rw [hpc] at hdoing
    simp only [hpc, Option.some.injEq] at ht
    subst ht
    exact h.allSees hdoing.1 hdoing.2 reversed
  | allCas reversed n tag =>
    rw [hpc] at hdoing
    simp only [hpc] at ht
    split at ht
    · next hcas =>
      cases ht
      exact h.consumedAll hpc hcas.1
    · cases ht
      exact h.allSees hdoing.1 hdoing.2 reversed
  | reverseNext n last =>
    rw [hpc] at hdoing
    simp only [hpc, Option.some.injEq] at ht
    obtain ⟨l, q, hp, vs, hl, hq, hvalues, hr⟩ := hdoing
    subst ht
    cases l with
    | nil => cases hl
    | cons a l =>
      cases hl.1
      exact h.quiet_read ⟨l, q, hp, vs, hl.2, hq, hvalues, hr⟩
  | reverseLink n last next =>
    rw [hpc] at hdoing
    simp only [hpc] at ht
    obtain ⟨l, q, hp, hrev⟩ := hdoing
    rw [hp] at hnodup
    have hlink := hrev.link hnodup
    have hmem : n ∈ own θ := hp ▸ List.mem_cons_self
    have hperm : (l ++ n :: q).Perm (own θ) := hp ▸ List.perm_middle
    cases next with
    | none =>
      -- all nodes are relinked: the last one is the first to be consumed
      cases ht
      obtain ⟨vs, hl, hq, hvalues, hr⟩ := hlink
      cases hl.head_eq_none.mp rfl
      refine h.quiet_setNext hmem hperm ⟨vs, hq, hvalues, hr.trans ?_⟩
      rw [List.nil_append, Nat.zero_add]
    | some m =>
      cases ht
      exact h.quiet_setNext hmem hperm ⟨l, n :: q, rfl, hlink⟩
  | allApply reversed n got elementCount =>
    rw [hpc] at hdoing
    simp only [hpc] at ht
    obtain ⟨vs, hlinks, hvalues, hr⟩ := hdoing
    cases hp : own θ with
    | nil =>
      rw [hp] at hlinks
      cases hlinks
    | cons a l =>
      rw [hp] at hlinks hvalues
      cases hlinks.1
      cases vs with
      | nil => cases hvalues
      | cons v vs =>
        rw [List.map_cons, List.map_cons, List.cons.injEq] at hvalues
        rw [hvalues.1] at ht
        cases ht
        refine h.quiet_read ⟨l, hp, vs, hlinks.2, hvalues.2, hr.trans ?_⟩
        rw [List.append_assoc, List.length_cons, Nat.add_right_comm]
        rfl
  | allNext reversed n got elementCount =>
    rw [hpc] at hdoing
    simp only [hpc, Option.some.injEq] at ht
    subst ht
    exact h.quiet_read hdoing
  | allDestruct reversed n next got elementCount =>
    rw [hpc] at hdoing
    simp only [hpc] at ht
    obtain ⟨l, hp, hrem⟩ := hdoing
    cases next with
    | none =>
      cases ht
      obtain ⟨vs, hl, hvalues, hr⟩ := hrem
      cases hl.head_eq_none.mp rfl
      rw [List.map_eq_nil_iff.mp hvalues.symm, List.append_nil] at hr
      exact h.returned hp hr
    | some m =>
      cases ht
      rw [hp, List.nodup_cons] at hnodup
      refine h.destructed hp (hrem.keep fun a ha => ⟨rfl, ?_⟩)
      exact Function.update_of_ne (ne_of_mem_of_not_mem ha hnodup.1) ..
  | _ =>
    simp only [hpc] at ht
    cases ht

end Stack

end Rtfsc.Lockfree
