import Rtfsc.Lockfree.RangePush

/-!
# stack: what the push of a range does

A push takes one node for each element, up to the element for which there is none. Where it throws, the
handler gives back what is linked, which the node under construction is not yet.
-/

namespace Rtfsc.Lockfree

open Rtfsc.Machine

namespace NodeStack

variable {α : Type} {s t u : NodeStack α} {m : PushMode} {x : RangeItem α} {items rest : List (RangeItem α)}
  {top : Option Nat} {taken stack : List (Nat × α)} {free : List Nat} {bounded : Bool} {n : Nat}

/-! ## The elements that get a node -/

/-- So many elements have a node. -/
def available (bounded : Bool) (count free : Nat) : Nat :=
  if bounded then min count free else count

/-- Where a copy throws, this element or one in front of it has no node: the free list is used up, and the
push is bounded or the allocator throws. -/
def Spared (bounded : Bool) (items : List (RangeItem α)) (free : Nat) : Prop :=
  ∀ i x, items[i]? = some x → x.copyThrows = true →
    ∃ j y, j ≤ i ∧ free ≤ j ∧ items[j]? = some y ∧ (bounded = true ∨ y.allocThrows = true)

theorem spared_nil (bounded : Bool) (free : Nat) :
    Spared bounded ([] : List (RangeItem α)) free :=
  fun _ _ hx => nomatch hx

theorem spared_of_refused (h : bounded = true ∨ x.allocThrows = true) :
    Spared bounded (x :: rest) 0 :=
  fun i _ _ _ => ⟨0, x, Nat.zero_le i, le_refl 0, rfl, h⟩

theorem spared_cons {free : Nat} (h : free ≠ 0 ∨ bounded = false ∧ x.allocThrows = false) :
    Spared bounded (x :: rest) free ↔
      x.copyThrows = false ∧ Spared bounded rest (free - 1) := by
  constructor
  · intro hspared
    constructor
    · refine Bool.eq_false_iff.2 fun hthrows => ?_
      obtain ⟨j, y, hj, hfree, hy, hrefused⟩ := hspared 0 x rfl hthrows
      cases Nat.le_zero.1 hj
      cases Option.some.inj hy
      rcases h with h | ⟨hb, ha⟩
      · exact h (Nat.le_zero.1 hfree)
      · rw [hb, ha] at hrefused
        exact hrefused.elim Bool.false_ne_true Bool.false_ne_true
    · intro i z hz hthrows
      obtain ⟨j, y, hj, hfree, hy, hrefused⟩ := hspared (i + 1) z hz hthrows
      cases j with
      | zero =>
        cases Option.some.inj hy
        rcases h with h | ⟨hb, ha⟩
        · exact absurd (Nat.le_zero.1 hfree) h
        · rw [hb, ha] at hrefused
          exact absurd hrefused (by decide)
      | succ j =>
        exact ⟨j, y, Nat.succ_le_succ_iff.1 hj, Nat.sub_le_iff_le_add.2 hfree, hy, hrefused⟩
  · rintro ⟨hcopy, hspared⟩ i z hz hthrows
    cases i with
    | zero =>
      cases Option.some.inj hz
      exact absurd (hcopy.symm.trans hthrows) Bool.false_ne_true
    | succ i =>
      obtain ⟨j, y, hj, hfree, hy, hrefused⟩ := hspared i z hz hthrows
      exact ⟨j + 1, y, Nat.succ_le_succ hj, Nat.sub_le_iff_le_add.1 hfree, hy, hrefused⟩

/-! ## One node -/

/-- What `allocate` may do: it takes a node, finds none, or throws. -/
inductive Allocated (m : PushMode) (x : RangeItem α) (s : NodeStack α) (top : Option Nat)
    (taken stack : List (Nat × α)) (free : List Nat) :
    NodeStack α × Except PushThrow (Option Nat) → Prop
  | taken {t : NodeStack α} {n : Nat} {left : List Nat}
      (hnode : free.length ≠ 0 ∨ m.bounded = false ∧ x.allocThrows = false)
      (hleft : left.length = free.length - 1) (hparts : t.Parts top taken stack left)
      (hnew : n ∉ cells taken stack left) (hlt : n < t.created)
      (hconserved : Conserved s t (cells taken stack free) (n :: cells taken stack left)) :
      Allocated m x s top taken stack free (t, .ok (some n))
  | none (hfree : free = []) (hbounded : m.bounded = true) :
      Allocated m x s top taken stack free (s, .ok none)
  | thrown (hfree : free = []) (hbounded : m.bounded = false) (hthrows : x.allocThrows = true) :
      Allocated m x s top taken stack free (s, .error .badAlloc)

theorem Parts.allocate (h : s.Parts top taken stack free) (m : PushMode) (x : RangeItem α) :
    Allocated m x s top taken stack free (s.allocate m x) := by
  rw [allocate_eq, allocateImplUnsafe]
  cases free with
  | nil =>
    rw [show s.pool.ptr = none from h.freeLinks]
    dsimp only
    unfold allocateNew
    split
    · next hbounded => exact .none rfl hbounded
    next hbounded =>
    have hunbounded := Bool.eq_false_iff.2 hbounded
    split
    · next hthrows => exact .thrown rfl hunbounded hthrows
    · next hthrows =>
      refine .taken (.inr ⟨hunbounded, Bool.eq_false_iff.2 hthrows⟩) rfl h.create.1 h.create.2
        (Nat.lt_succ_self _) ⟨Nat.le_succ _, fun k => ?_⟩
      rw [List.mem_cons, or_comm]
      refine or_congr_right ⟨?_, fun hk => ?_⟩
      · rintro rfl
        exact ⟨le_refl _, Nat.lt_succ_self _⟩
      · exact Nat.le_antisymm (Nat.lt_succ_iff.1 hk.2) hk.1
  | cons n left =>
    rw [h.freeLinks.1]
    obtain ⟨hparts, hnew, hlt⟩ := h.unpool (s.pool.tag + 1)
    exact .taken (.inl (Nat.succ_ne_zero _)) rfl hparts hnew hlt
      (.of_perm (cells_middle taken stack n left) rfl)

/-- What `construct` may do, with the node linked to the chain. The node of a copy that throws is in no
place. -/
inductive Constructed (m : PushMode) (x : RangeItem α) (s : NodeStack α) (top : Option Nat)
    (taken stack : List (Nat × α)) (free : List Nat) :
    NodeStack α × Except PushThrow (Option Nat) → Prop
  | built {t : NodeStack α} {n : Nat} {left : List Nat}
      (hnode : free.length ≠ 0 ∨ m.bounded = false ∧ x.allocThrows = false)
      (hcopy : x.copyThrows = false) (hleft : left.length = free.length - 1)
      (hparts : (t.setNext n top).Parts (some n) ((n, x.value) :: taken) stack left)
      (hconserved : Conserved s (t.setNext n top) (cells taken stack free)
        (cells ((n, x.value) :: taken) stack left)) :
      Constructed m x s top taken stack free (t, .ok (some n))
  | none (hfree : free = []) (hbounded : m.bounded = true) :
      Constructed m x s top taken stack free (s, .ok none)
  | thrown (hfree : free = []) (hbounded : m.bounded = false) (hthrows : x.allocThrows = true) :
      Constructed m x s top taken stack free (s, .error .badAlloc)
  | lost {t : NodeStack α} {n : Nat} {left : List Nat}
      (hnode : free.length ≠ 0 ∨ m.bounded = false ∧ x.allocThrows = false)
      (hcopy : x.copyThrows = true) (hparts : t.Parts top taken stack left)
      (hnew : n ∉ cells taken stack left) (hlt : n < t.created)
      (hconserved : Conserved s t (cells taken stack free) (n :: cells taken stack left)) :
      Constructed m x s top taken stack free (t, .error .copy)

theorem Parts.construct (h : s.Parts top taken stack free) (m : PushMode) (x : RangeItem α) :
    Constructed m x s top taken stack free (s.construct m x) := by
  have hallocated := h.allocate m x
  unfold NodeStack.construct
  generalize s.allocate m x = o at hallocated
  cases hallocated with
  | none hfree hbounded => exact .none hfree hbounded
  | thrown hfree hbounded hthrows => exact .thrown hfree hbounded hthrows
  | taken hnode hleft hparts hnew hlt hconserved =>
    dsimp only
    split
    · next hcopy => exact .lost hnode hcopy hparts hnew hlt hconserved
    · next hcopy =>
      exact .built hnode (Bool.eq_false_iff.2 hcopy) hleft (hparts.link hnew hlt x.value)
        ⟨hconserved.created, hconserved.mem⟩

/-- The chain goes back, node after node. -/
theorem Parts.destructChain (h : s.Parts top taken stack free) (m : PushMode) {rounds : Nat}
    (hrounds : taken.length ≤ rounds) :
    ∃ t left, destructChain m rounds s top = some t ∧ t.Holds stack left ∧
      Conserved s t (cells taken stack free) (cells [] stack left) := by
  induction taken generalizing s top free rounds with
  | nil =>
    cases h.takenLinks
    refine ⟨s, free, ?_, h, .of_perm (.refl _) rfl⟩
    cases rounds <;> rfl
  | cons c taken ih =>
    obtain ⟨n, value⟩ := c
    cases rounds with
    | zero => exact absurd hrounds (Nat.not_succ_le_zero _)
    | succ rounds =>
      cases h.takenLinks.1
      obtain ⟨t, left, ht, hholds, hconserved⟩ := ih (h.destruct m) (Nat.succ_le_succ_iff.1 hrounds)
      refine ⟨t, left, ht, hholds, Conserved.trans (t := s.destruct m n) ?_ hconserved⟩
      refine .of_perm (cells_middle taken stack n free).symm ?_
      rw [NodeStack.destruct, deallocate_eq]
      rfl

/-! ## The loop -/

/-- The elements are pushed one by one, on what is there. -/
def pushedOn (items : List (RangeItem α)) (content : List α) : List α :=
  items.foldl (fun l x => x.value :: l) content

/-- What the loop may do: it links what gets a node; or the handler gives everything back; or everything
but the node of the copy that has thrown. -/
inductive Prepared (m : PushMode) (items : List (RangeItem α)) (s : NodeStack α)
    (taken stack : List (Nat × α)) (free : List Nat) (it : Nat) :
    NodeStack α × Except PushThrow (Nat × Nat) → Prop
  | done {t : NodeStack α} {newTop : Nat} {linked : List (Nat × α)} {left : List Nat}
      (hspared : Spared m.bounded items free.length)
      (hparts : t.Parts (some newTop) linked stack left)
      (hlast : linked.getLast? = taken.getLast?)
      (hcontent : (linked ++ stack).map Prod.snd =
        pushedOn (items.take (available m.bounded items.length free.length))
          ((taken ++ stack).map Prod.snd))
      (hconserved : Conserved s t (cells taken stack free) (cells linked stack left)) :
      Prepared m items s taken stack free it
        (t, .ok (newTop, it + available m.bounded items.length free.length))
  | undone {t : NodeStack α} {e : PushThrow} {left : List Nat}
      (hspared : Spared m.bounded items free.length) (hholds : t.Holds stack left)
      (hconserved : Conserved s t (cells taken stack free) (cells [] stack left)) :
      Prepared m items s taken stack free it (t, .error e)
  | lost {t : NodeStack α} {e : PushThrow} {n : Nat} {left : List Nat}
      (hspared : ¬Spared m.bounded items free.length) (hholds : t.Holds stack left)
      (hnew : n ∉ cells [] stack left)
      (hconserved : Conserved s t (cells taken stack free) (n :: cells [] stack left)) :
      Prepared m items s taken stack free it (t, .error e)

/-- The node under construction stays where it is when the chain goes back. -/
theorem Conserved.cons {ns ns' : List Nat} (h : Conserved s t ns ns') (hn : n ∉ ns)
    (hlt : n < s.created) : n ∉ ns' ∧ Conserved s t (n :: ns) (n :: ns') := by
  refine ⟨fun hmem => ?_, h.created, fun k => ?_⟩
  · rcases (h.mem n).1 hmem with hmem | hcreated
    · exact hn hmem
    · exact absurd (hlt.trans_le hcreated.1) (lt_irrefl n)
  · rw [List.mem_cons, List.mem_cons, h.mem, or_assoc]

theorem available_zero {count free : Nat} (h : count = 0 ∨ bounded = true ∧ free = 0) :
    available bounded count free = 0 := by
  unfold available
  rcases h with rfl | ⟨rfl, rfl⟩
  · rw [Nat.zero_min, ite_self]
  · rw [if_pos rfl, Nat.min_zero]

theorem available_succ {count free : Nat} (h : free ≠ 0 ∨ bounded = false) :
    available bounded (count + 1) free = available bounded count (free - 1) + 1 := by
  unfold available
  split
  · next hbounded =>
    rcases h with h | h
    · obtain ⟨k, rfl⟩ := Nat.exists_eq_succ_of_ne_zero h
      exact Nat.succ_min_succ count k
    · exact absurd (h.symm.trans hbounded) Bool.false_ne_true
  · rfl

/-- By induction on what is left of the range. -/
theorem Parts.prepareRest {newTop it : Nat} (h : s.Parts (some newTop) taken stack free)
    (hit : taken.length ≤ it) (m : PushMode) (items : List (RangeItem α)) :
    ∃ o, prepareRest m s newTop it items = some o ∧
      Prepared m items s taken stack free it o := by
  induction items generalizing s newTop it taken free with
  | nil =>
    have hzero : available m.bounded ([] : List (RangeItem α)).length free.length = 0 :=
      available_zero (.inl rfl)
    have hdone : Prepared m [] s taken stack free it _ :=
      .done (spared_nil m.bounded free.length) h rfl (by rw [hzero]; rfl) (.of_perm (.refl _) rfl)
    rw [hzero] at hdone
    exact ⟨_, rfl, hdone⟩
  | cons x rest ih =>
    have hconstructed := h.construct m x
    unfold NodeStack.prepareRest
    generalize s.construct m x = o at hconstructed
    cases hconstructed with
    | none hfree hbounded =>
      have hzero : available m.bounded (x :: rest).length free.length = 0 :=
        available_zero (.inr ⟨hbounded, by rw [hfree]; rfl⟩)
      have hspared : Spared m.bounded (x :: rest) free.length := by
        rw [hfree]
        exact spared_of_refused (.inl hbounded)
      have hdone : Prepared m (x :: rest) s taken stack free it _ :=
        .done hspared h rfl (by rw [hzero]; rfl) (.of_perm (.refl _) rfl)
      rw [hzero] at hdone
      exact ⟨_, rfl, hdone⟩
    | thrown hfree hbounded hthrows =>
      obtain ⟨t, left, ht, hholds, hconserved⟩ := h.destructChain m hit
      have hspared : Spared m.bounded (x :: rest) free.length := by
        rw [hfree]
        exact spared_of_refused (.inr hthrows)
      dsimp only
      rw [ht]
      exact ⟨_, rfl, .undone hspared hholds hconserved⟩
    | lost hnode hcopy hparts hnew hlt hconserved =>
      obtain ⟨t, left, ht, hholds, hback⟩ := hparts.destructChain m hit
      have hspared : ¬Spared m.bounded (x :: rest) free.length := fun hspared =>
        absurd (((spared_cons hnode).1 hspared).1.symm.trans hcopy) Bool.false_ne_true
      obtain ⟨hstill, hback⟩ := hback.cons hnew hlt
      dsimp only
      rw [ht]
      exact ⟨_, rfl, .lost hspared hholds hstill (hconserved.trans hback)⟩
    | built hnode hcopy hleft hparts hconserved =>
      obtain ⟨o, ho, hprepared⟩ := ih hparts (Nat.succ_le_succ hit)
      have hspared : Spared m.bounded (x :: rest) free.length ↔ _ := spared_cons hnode
      rw [← hleft] at hspared
      have hcount : available m.bounded (x :: rest).length free.length =
          available m.bounded rest.length (free.length - 1) + 1 :=
        available_succ (hnode.imp id And.left)
      rw [← hleft] at hcount
      refine ⟨o, ho, ?_⟩
      cases hprepared with
      | undone hsp hholds hback => exact .undone (hspared.2 ⟨hcopy, hsp⟩) hholds (hconserved.trans hback)
      | lost hsp hholds hnew hback =>
        exact .lost (fun hall => hsp (hspared.1 hall).2) hholds hnew (hconserved.trans hback)
      | done hsp hlinked hlast hcontent hback =>
        have htaken : taken ≠ [] := by
          rintro rfl
          exact nomatch h.takenLinks
        have hdone : Prepared m (x :: rest) s taken stack free it _ :=
          .done (hspared.2 ⟨hcopy, hsp⟩) hlinked (hlast.trans (List.getLast?_cons_of_ne_nil htaken))
            (by rw [hcount, hcontent]; rfl) (hconserved.trans hback)
        rw [hcount] at hdone
        rw [Nat.succ_add_eq_add_succ]
        exact hdone

/-! ## The push -/

/-- What is claimed of a push: it returns in front of the first element without a node, and the elements
before it are pushed one by one; or it throws, and the stack is what it was. The nodes of the stack and of
the free list are those that there were. -/
def RangePushed (m : PushMode) (items : List (RangeItem α)) (s : NodeStack α) (stack : List (Nat × α))
    (free : List Nat) : Prop :=
  match s.doPush m items with
  | none => False
  | some (t, .ok ret) =>
    ret = available m.bounded items.length free.length ∧ ∃ stack' left, t.Holds stack' left ∧
      stack'.map Prod.snd = pushedOn (items.take ret) (stack.map Prod.snd) ∧
      Conserved s t (cells [] stack free) (cells [] stack' left)
  | some (t, .error _) =>
    ∃ left, t.Holds stack left ∧ Conserved s t (cells [] stack free) (cells [] stack left)

/-- The chain comes in front of the stack. -/
theorem Parts.linkNodes {newTop endNode : Nat} {linked : List (Nat × α)}
    (h : s.Parts (some newTop) linked stack free) (hlast : (linked.map Prod.fst).getLast? = some endNode)
    (m : PushMode) : (s.linkNodes m newTop endNode).Holds (linked ++ stack) free := by
  rw [linkNodes_eq]
  cases linked with
  | nil => cases hlast
  | cons c linked =>
    cases h.takenLinks.1
    obtain ⟨hseg, -⟩ := Segment.of_links h.takenLinks hlast
    have hnodup := List.nodup_append.1 h.nodup
    have hend : endNode ∈ (c :: linked).map Prod.fst := hseg.mem
    have hnew : endNode ∉ stack.map Prod.fst ++ free := fun hmem => hnodup.2.2 _ hend _ hmem rfl
    have hcells : cells [] ((c :: linked) ++ stack) free = cells (c :: linked) stack free := by
      unfold cells
      rw [List.map_append, List.append_assoc]
      rfl
    exact
      { takenLinks := rfl
        stackLinks := by
          rw [List.map_append]
          exact (hseg.updateLast hnodup.1 _).links (Function.update_self ..)
            (h.stackLinks.update (fun hmem => hnew (List.mem_append_left _ hmem)) _)
        freeLinks := h.freeLinks.update (fun hmem => hnew (List.mem_append_right _ hmem)) _
        values := h.values
        nodup := by
          rw [hcells]
          exact h.nodup
        created := by
          rw [hcells]
          exact h.created }

/-- With a node that is in no place, the claim fails. -/
theorem not_rangePushed_of_lost {e : PushThrow} {left : List Nat} (hpush : s.doPush m items = some (t, .error e))
    (hholds : t.Holds stack left) (hnew : n ∉ cells [] stack left)
    (hconserved : Conserved s t (cells [] stack free) (n :: cells [] stack left)) :
    ¬RangePushed m items s stack free := by
  unfold RangePushed
  rw [hpush]
  rintro ⟨left', hholds', hconserved'⟩
  cases hholds'.freeLinks.unique hholds.freeLinks
  exact hnew ((hconserved'.mem n).2 ((hconserved.mem n).1 List.mem_cons_self))

/-- The push of a range does what is claimed if and only if the range is not empty and every copy is
spared that throws. -/
theorem rangePushed_iff (h : s.Holds stack free) (m : PushMode) (items : List (RangeItem α)) :
    RangePushed m items s stack free ↔ items ≠ [] ∧ Spared m.bounded items free.length := by
  cases items with
  | nil => exact iff_of_false id fun hne => hne.1 rfl
  | cons x rest =>
    rw [and_iff_right (List.cons_ne_nil x rest)]
    have hconstructed := Parts.construct h m x
    generalize ho : s.construct m x = o at hconstructed
    cases hconstructed with
    | none hfree hbounded =>
      have hpush : s.doPush m (x :: rest) = some (s, .ok 0) := by
        rw [doPush, prepareNodeList, ho]
      have hzero : available m.bounded (x :: rest).length free.length = 0 :=
        available_zero (.inr ⟨hbounded, by rw [hfree]; rfl⟩)
      have hspared : Spared m.bounded (x :: rest) free.length := by
        rw [hfree]
        exact spared_of_refused (.inl hbounded)
      refine iff_of_true ?_ hspared
      unfold RangePushed
      rw [hpush]
      exact ⟨hzero.symm, stack, free, h, rfl, .of_perm (.refl _) rfl⟩
    | thrown hfree hbounded hthrows =>
      have hpush : s.doPush m (x :: rest) = some (s, .error .badAlloc) := by
        rw [doPush, prepareNodeList, ho]
      have hspared : Spared m.bounded (x :: rest) free.length := by
        rw [hfree]
        exact spared_of_refused (.inr hthrows)
      refine iff_of_true ?_ hspared
      unfold RangePushed
      rw [hpush]
      exact ⟨free, h, .of_perm (.refl _) rfl⟩
    | @lost t n left hnode hcopy hparts hnew hlt hconserved =>
      have hpush : s.doPush m (x :: rest) = some (t, .error .copy) := by
        rw [doPush, prepareNodeList, ho]
      refine iff_of_false (not_rangePushed_of_lost hpush hparts hnew hconserved) fun hspared => ?_
      exact absurd (((spared_cons hnode).1 hspared).1.symm.trans hcopy) Bool.false_ne_true
    | @built t n left hnode hcopy hleft hparts hconserved =>
      obtain ⟨o, hrest, hprepared⟩ := hparts.prepareRest (le_refl 1) m rest
      have hspared : Spared m.bounded (x :: rest) free.length ↔ _ := spared_cons hnode
      have hcount : available m.bounded (x :: rest).length free.length =
          available m.bounded rest.length (free.length - 1) + 1 :=
        available_succ (hnode.imp id And.left)
      rw [← hleft] at hspared hcount
      cases hprepared with
      | @undone u e left' hsp hholds hback =>
        have hpush : s.doPush m (x :: rest) = some (u, .error e) := by
          rw [doPush, prepareNodeList, ho]
          dsimp only
          rw [hrest]
        refine iff_of_true ?_ (hspared.2 ⟨hcopy, hsp⟩)
        unfold RangePushed
        rw [hpush]
        exact ⟨left', hholds, hconserved.trans hback⟩
      | @lost u e k left' hsp hholds hnew hback =>
        have hpush : s.doPush m (x :: rest) = some (u, .error e) := by
          rw [doPush, prepareNodeList, ho]
          dsimp only
          rw [hrest]
        exact iff_of_false (not_rangePushed_of_lost hpush hholds hnew (hconserved.trans hback))
          fun hall => hsp (hspared.1 hall).2
      | @done u newTop linked left' hsp hlinked hlast hcontent hback =>
        have hpush : s.doPush m (x :: rest) = some (u.linkNodes m newTop n,
            .ok (1 + available m.bounded rest.length left.length)) := by
          rw [doPush, prepareNodeList, ho]
          dsimp only
          rw [hrest]
        have hend : (linked.map Prod.fst).getLast? = some n := by
          rw [List.getLast?_map, hlast]
          rfl
        have hcreated : (u.linkNodes m newTop n).created = u.created := by
          rw [linkNodes_eq]
          rfl
        have hcells : (cells linked stack left').Perm (cells [] (linked ++ stack) left') := by
          unfold cells
          rw [List.map_append, List.append_assoc]
          exact .refl _
        refine iff_of_true ?_ (hspared.2 ⟨hcopy, hsp⟩)
        unfold RangePushed
        rw [hpush, hcount]
        refine ⟨Nat.add_comm .., linked ++ stack, left', hlinked.linkNodes hend m, ?_,
          (hconserved.trans hback).trans (.of_perm hcells hcreated)⟩
        rw [hcontent, Nat.add_comm 1]
        rfl

/-- A stack of two elements, and a free node. -/
def oneFree : NodeStack Nat where
  next := fun n => if n = 0 then some 1 else none
  v := fun n => if n = 1 then some 10 else if n = 0 then some 11 else none
  pool := ⟨some 2, 7⟩
  tos := ⟨some 0, 0⟩
  created := 3

/-- `push` of a range, where the chain is linked at the second try. -/
def unboundedPush : PushMode := ⟨true, false, fun _ => 0, 1⟩

theorem oneFree_holds : oneFree.Holds [(0, 11), (1, 10)] [2] where
  takenLinks := rfl
  stackLinks := ⟨rfl, rfl, rfl⟩
  freeLinks := ⟨rfl, rfl⟩
  values := by decide
  nodup := by decide
  created := by decide

theorem rangePushed_iff_twoElements :
    RangePushed unboundedPush [⟨12, 1, false, false⟩, ⟨13, 0, true, true⟩] oneFree [(0, 11), (1, 10)]
      [2] :=
  (rangePushed_iff oneFree_holds unboundedPush _).2 ⟨List.cons_ne_nil _ _, fun i x hx hthrows =>
    match i with
    | 0 => by
      cases Option.some.inj hx
      cases hthrows
    | 1 => ⟨1, _, le_refl 1, le_refl 1, rfl, .inr rfl⟩⟩

/-- The copy of the only element throws, and the free node is gone. -/
theorem rangePushed_copyThrows :
    ¬∀ (s : NodeStack Nat) (stack : List (Nat × Nat)) (free : List Nat) (m : PushMode)
      (items : List (RangeItem Nat)), s.Holds stack free → RangePushed m items s stack free := by
  intro h
  have hpushed := h oneFree [(0, 11), (1, 10)] [2] unboundedPush [⟨12, 0, false, true⟩] oneFree_holds
  obtain ⟨left, hholds, hconserved⟩ := hpushed
  have hnil : left = [] := hholds.freeLinks.unique rfl
  subst hnil
  exact absurd ((hconserved.mem 2).2 (.inl (by decide))) (by decide)

end NodeStack

end Rtfsc.Lockfree
