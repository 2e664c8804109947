import Rtfsc.Redis.Vm

/-!
# redis: who refers to an object

The references to an address are counted by their holders: entries of the databases, jobs, the lists
of clients and of keys they wait for, and the rest of the server. A function that has taken a
reference and not yet stored it, or has unlinked one and not yet dropped it, owes it: the count of an
object in memory is the number of its holders and of the references owed.
-/

namespace Rtfsc.Redis.Vm

open Rtfsc.Machine

/-- References from one job. -/
def IoJob.refs (job : IoJob) (a : Addr) : Nat :=
  (if job.key = a then 1 else 0) + if job.val = some a then 1 else 0

/-- An object in memory has as many references as its count says, from databases, from elsewhere and
owed ones, a `vmpointer` exactly the one of its key, and what has been freed none. -/
def CellCounted (c : Option Cell) (dict other owed : Nat) : Prop :=
  match c with
  | none => dict + other + owed = 0
  | some (.robj o) => o.refcount = (dict + other + owed : Nat) ∧ 0 < dict + other + owed
  | some (.vmpointer _) => dict + owed = 1 ∧ other = 0

namespace State

variable (s : State)

/-- References from the databases. -/
def dictRefs (a : Addr) : Nat := total (fun _ v => if v = a then 1 else 0) s.dict

/-- References from jobs. -/
def jobRefs (a : Addr) : Nat := total (fun _ job => job.refs a) s.jobs

/-- References from the `io_keys` lists of clients and from the `io_keys` dictionaries. -/
def waitRefs (a : Addr) : Nat :=
  total (fun _ client => client.ioKeys.count a) s.clients +
    total (fun _ e => if e.1 = a then 1 else 0) s.ioKeys

/-- References that are not from a database. -/
def otherRefs (a : Addr) : Nat := s.jobRefs a + s.waitRefs a + s.held.count a

/-- Every address is in order, the references in `owed` included. -/
def Counted (owed : List Addr) : Prop :=
  ∀ a, CellCounted (s.heap a) (s.dictRefs a) (s.otherRefs a) (owed.count a)

/-! ## What is at an address -/

/-- `storage == REDIS_VM_SWAPPING`. -/
def isSwapping (a : Addr) : Bool :=
  match s.heap a with
  | some (.robj o) => o.swapping
  | _ => false

/-- `storage == REDIS_VM_LOADING`. -/
def isLoading (a : Addr) : Bool :=
  match s.heap a with
  | some (.vmpointer v) => v.loading
  | _ => false

/-- The bytes of the object at an address. -/
def bytesOf (a : Addr) : Option CStr :=
  match s.heap a with
  | some (.robj o) => some o.ptr
  | _ => none

/-- The pages of the `vmpointer` at an address. -/
def pagesOf (a : Addr) : Option (Nat × Nat) :=
  match s.heap a with
  | some (.vmpointer v) => some (v.page, v.usedpages)
  | _ => none

variable {s} {owed : List Addr} {a b : Addr} {o : Object}

theorem object_eq_ok : s.object a = .ok o ↔ s.heap a = some (.robj o) := by
  unfold object
  split
  · next o' h => simp [h]
  · next h =>
    refine ⟨fun h' => (nomatch h'), fun h' => absurd h' (h o)⟩

theorem Counted.robj (h : s.Counted owed) (ha : s.heap a = some (.robj o)) :
    o.refcount = (s.dictRefs a + s.otherRefs a + owed.count a : Nat) ∧
      0 < s.dictRefs a + s.otherRefs a + owed.count a := by
  have hc := h a
  rw [ha] at hc
  exact hc

theorem Counted.freed (h : s.Counted owed) (ha : s.heap a = none) :
    s.dictRefs a = 0 ∧ s.otherRefs a = 0 ∧ owed.count a = 0 := by
  have hc := h a
  rw [ha] at hc
  have hsum : s.dictRefs a + s.otherRefs a + owed.count a = 0 := hc
  omega

theorem Counted.pointer (h : s.Counted owed) {v : VmPointer} (ha : s.heap a = some (.vmpointer v)) :
    s.dictRefs a + owed.count a = 1 ∧ s.otherRefs a = 0 := by
  have hc := h a
  rw [ha] at hc
  exact hc

/-- There is an object where a reference that is not a database's leads. -/
theorem Counted.object (h : s.Counted owed) (ha : 0 < s.otherRefs a) :
    ∃ o, s.heap a = some (.robj o) := by
  cases hcell : s.heap a with
  | none =>
    have := h.freed hcell
    omega
  | some cell =>
    cases cell with
    | robj o => exact ⟨o, rfl⟩
    | vmpointer v =>
      have := h.pointer hcell
      omega

/-- There is something where a reference of a database leads. -/
theorem Counted.ne_none (h : s.Counted owed) (ha : 0 < s.dictRefs a) : s.heap a ≠ none := by
  intro hnone
  have := h.freed hnone
  omega

/-- References change hands: what one holder has more, another has less. -/
theorem Counted.move {s' : State} {owed' : List Addr} (h : s.Counted owed)
    (hheap : s'.heap = s.heap)
    (hrefs : ∀ a, s'.dictRefs a + s'.otherRefs a + owed'.count a =
      s.dictRefs a + s.otherRefs a + owed.count a)
    (hpointer : ∀ a v, s.heap a = some (.vmpointer v) → s'.otherRefs a = 0) :
    s'.Counted owed' := by
  intro a
  have hr := hrefs a
  rw [hheap]
  cases hcell : s.heap a with
  | none =>
    have hc := h.freed hcell
    show _ + _ + _ = 0
    omega
  | some cell =>
    cases cell with
    | robj o =>
      have hc := h.robj hcell
      rw [← hr] at hc
      exact hc
    | vmpointer v =>
      have hc := h.pointer hcell
      have hp := hpointer a v hcell
      refine ⟨?_, hp⟩
      omega

theorem Counted.perm {owed' : List Addr} (h : s.Counted owed) (hperm : owed.Perm owed') :
    s.Counted owed' := by
  intro a
  rw [← hperm.count_eq a]
  exact h a

/-- One address is written to. -/
theorem Counted.write {s' : State} {owed' : List Addr} {c : Option Cell} (h : s.Counted owed)
    (hheap : s'.heap = Function.update s.heap a c) (hdict : s'.dictRefs = s.dictRefs)
    (hother : s'.otherRefs = s.otherRefs) (howed : ∀ b, b ≠ a → owed'.count b = owed.count b)
    (hc : CellCounted c (s.dictRefs a) (s.otherRefs a) (owed'.count a)) : s'.Counted owed' := by
  intro b
  rw [hheap, hdict, hother]
  by_cases hb : b = a
  · subst hb
    rw [Function.update_self]
    exact hc
  · rw [Function.update_of_ne hb, howed b hb]
    exact h b

theorem count_cons_ne {l : List Addr} (h : b ≠ a) : (a :: l).count b = l.count b :=
  List.count_cons_of_ne (Ne.symm h)

/-! ## Taking and dropping a reference -/

theorem incrRefCount_eq (h : s.heap a = some (.robj o)) :
    s.incrRefCount a = .ok (s.setCell a (some (.robj { o with refcount := o.refcount + 1 }))) := by
  unfold incrRefCount
  rw [object_eq_ok.mpr h]
  rfl

/-- A taken reference is owed. -/
theorem Counted.incr (h : s.Counted owed) (ha : s.heap a = some (.robj o)) :
    (s.setCell a (some (.robj { o with refcount := o.refcount + 1 }))).Counted (a :: owed) := by
  have hc := h.robj ha
  refine h.write rfl rfl rfl (fun b hb => count_cons_ne hb) ?_
  rw [List.count_cons_self]
  refine ⟨?_, by omega⟩
  show o.refcount + 1 = _
  omega

/-- What is left of an object when one reference is dropped: nothing after the last one. -/
def dropCell (o : Object) : Option Cell :=
  if o.refcount - 1 = 0 then none else some (.robj { o with refcount := o.refcount - 1 })

theorem dropReference_eq (h : s.heap a = some (.robj o)) :
    s.dropReference a = .ok (s.setCell a (dropCell o)) := by
  unfold dropReference dropCell
  rw [object_eq_ok.mpr h, value_bind]
  split
  · rfl
  · rfl

/-- A dropped reference is no longer owed. -/
theorem Counted.drop (h : s.Counted (a :: owed)) (ha : s.heap a = some (.robj o)) :
    (s.setCell a (dropCell o)).Counted owed := by
  have hc := h.robj ha
  rw [List.count_cons_self] at hc
  refine h.write rfl rfl rfl (fun b hb => (count_cons_ne hb).symm) ?_
  unfold dropCell
  split
  · show s.dictRefs a + s.otherRefs a + owed.count a = 0
    omega
  · refine ⟨?_, by omega⟩
    show o.refcount - 1 = _
    omega

/-- A new object is owed once. -/
theorem Counted.create (h : s.Counted owed) (ha : s.heap a = none) (bytes : CStr) :
    (s.setCell a (some (.robj ⟨1, false, bytes⟩))).Counted (a :: owed) := by
  have hc := h.freed ha
  refine h.write rfl rfl rfl (fun b hb => count_cons_ne hb) ?_
  rw [List.count_cons_self]
  refine ⟨?_, by omega⟩
  show (1 : Int) = _
  omega

/-- So is a new `vmpointer`. -/
theorem Counted.createPointer (h : s.Counted owed) (ha : s.heap a = none) (v : VmPointer) :
    (s.setCell a (some (.vmpointer v))).Counted (a :: owed) := by
  have hc := h.freed ha
  refine h.write rfl rfl rfl (fun b hb => count_cons_ne hb) ?_
  rw [List.count_cons_self]
  exact ⟨by omega, by omega⟩

/-- A `vmpointer` is freed with its only reference. -/
theorem Counted.freePointer (h : s.Counted (a :: owed)) {v : VmPointer}
    (ha : s.heap a = some (.vmpointer v)) : (s.setCell a none).Counted owed := by
  have hc := h.pointer ha
  rw [List.count_cons_self] at hc
  refine h.write rfl rfl rfl (fun b hb => (count_cons_ne hb).symm) ?_
  show s.dictRefs a + s.otherRefs a + owed.count a = 0
  omega

/-- Setting the storage of an object keeps the counts. -/
theorem Counted.setSwapping (h : s.Counted owed) (ha : s.heap a = some (.robj o)) (b : Bool) :
    (s.setCell a (some (.robj { o with swapping := b }))).Counted owed := by
  have hc := h.robj ha
  exact h.write rfl rfl rfl (fun _ _ => rfl) hc

theorem Counted.setLoading (h : s.Counted owed) {v : VmPointer}
    (ha : s.heap a = some (.vmpointer v)) (b : Bool) :
    (s.setCell a (some (.vmpointer { v with loading := b }))).Counted owed := by
  have hc := h.pointer ha
  exact h.write rfl rfl rfl (fun _ _ => rfl) hc

/-! ## Bytes do not change -/

/-- An object that is still there has its old bytes. -/
def SameBytes (s s' : State) : Prop :=
  ∀ a o o', s.heap a = some (.robj o) → s'.heap a = some (.robj o') → o'.ptr = o.ptr

theorem SameBytes.of_heap_eq {s' : State} (h : s'.heap = s.heap) : SameBytes s s' := by
  intro a o o' ho ho'
  rw [h, ho] at ho'
  cases ho'
  rfl

theorem SameBytes.setCell {s' : State} {c : Option Cell} (h : s'.heap = Function.update s.heap a c)
    (hc : ∀ o o', s.heap a = some (.robj o) → c = some (.robj o') → o'.ptr = o.ptr) :
    SameBytes s s' := by
  intro b o o' ho ho'
  rw [h] at ho'
  by_cases hb : b = a
  · subst hb
    rw [Function.update_self] at ho'
    exact hc o o' ho ho'
  · rw [Function.update_of_ne hb, ho] at ho'
    cases ho'
    rfl

/-- Referenced before and after, an object has the same bytes. -/
theorem SameBytes.bytesOf {s' : State} {owed' : List Addr} (h : SameBytes s s')
    (hc : s.Counted owed) (hc' : s'.Counted owed') (ha : 0 < s.otherRefs a)
    (ha' : 0 < s'.otherRefs a) : s'.bytesOf a = s.bytesOf a := by
  obtain ⟨o, ho⟩ := hc.object ha
  obtain ⟨o', ho'⟩ := hc'.object ha'
  unfold State.bytesOf
  rw [ho, ho']
  exact congrArg some (h a o o' ho ho')

end State

end Rtfsc.Redis.Vm
