import Rtfsc.Machine.Links
import Rtfsc.Machine.Run
import Rtfsc.Machine.Shared

/-!
# stack

The stack of nodes behind `tos`, with any number of threads that push, pop and consume all. A step is
one access of a thread to `tos`, to the `next` or the value of a node, or to the pool, together with what
it does by itself behind the access. The pool hands out nodes that it has, or new ones, and writes into
those that it has; a handle is a node or none, as a pointer or as an index. Values are copied without
exceptions.
-/

namespace Rtfsc.Lockfree

open Rtfsc.Machine

/-! ## A sequential stack -/

/-- What is done to a stack: the first `n` values of a range are pushed, a value is popped, or all are
consumed. -/
inductive StackCommand (α : Type)
  | push (range : List α) (n : Nat)
  | pop
  | consumeAll (reversed : Bool)

/-- What a call comes to: how many values of the range it has pushed; the value that it has popped; or the
values that the functor was called with, in this order, and how many they are said to be. -/
inductive StackResult (α : Type)
  | pushed (range : List α) (n : Nat)
  | popped (v : α)
  | empty
  | consumed (reversed : Bool) (vs : List α) (elementCount : Nat)
deriving DecidableEq

/-- The values that a call has pushed. -/
def StackResult.pushes {α : Type} : StackResult α → List α
  | .pushed range n => range.take n
  | _ => []

/-- The values that a call has removed. -/
def StackResult.removes {α : Type} : StackResult α → List α
  | .popped v => [v]
  | .consumed _ vs _ => vs
  | _ => []

/-- What a thread calls: a push of one value or of a range, a pop, or a consumption. -/
inductive StackCall (α : Type)
  | push (range : List α)
  | pop
  | consumeAll (reversed : Bool)
deriving DecidableEq

/-- The results that a call may have. -/
def StackCall.Answer {α : Type} : StackCall α → StackResult α → Prop
  | .push range, .pushed range' n => range' = range ∧ n ≤ range.length
  | .pop, .popped _ => True
  | .pop, .empty => True
  | .consumeAll reversed, .consumed reversed' _ _ => reversed' = reversed
  | _, _ => False

namespace StackCommand

variable {α : Type}

/-- The command on a stack, the top first. -/
def apply : StackCommand α → List α → List α × StackResult α
  | .push range n, l => ((range.take n).reverse ++ l, .pushed range n)
  | .pop, [] => ([], .empty)
  | .pop, v :: l => (l, .popped v)
  | .consumeAll reversed, l =>
    ([], .consumed reversed (if reversed then l.reverse else l) l.length)

end StackCommand

/-- A sequential stack with the results of the threads, in the order of the commands. -/
structure SequentialStack (Θ α : Type) where
  content : List α
  results : List (Θ × StackResult α)

namespace SequentialStack

variable {Θ α : Type}

def apply (q : SequentialStack Θ α) (c : Θ × StackCommand α) : SequentialStack Θ α :=
  ⟨(c.2.apply q.content).1, q.results ++ [(c.1, (c.2.apply q.content).2)]⟩

/-- One command after the other, from the empty stack. -/
def replay (log : List (Θ × StackCommand α)) : SequentialStack Θ α := log.foldl apply ⟨[], []⟩

/-- The results of one thread. -/
def resultsOf [DecidableEq Θ] (q : SequentialStack Θ α) (θ : Θ) : List (StackResult α) :=
  (q.results.filter (·.1 = θ)).map Prod.snd

/-- The values that were pushed, and those that were removed. -/
def pushedValues (q : SequentialStack Θ α) : List α := q.results.flatMap fun r => r.2.pushes

def removedValues (q : SequentialStack Θ α) : List α := q.results.flatMap fun r => r.2.removes

end SequentialStack

/-! ## The stack of the threads -/

/-- `tagged_node_handle`, with a tag of `w` bits. -/
structure TaggedHandle (w : Nat) where
  node : Option Nat
  tag : BitVec w
deriving DecidableEq

/-- Where a thread is, in front of an access. Of a range, the values in `done` have nodes, those in `rest`
have not. With a value of `tos` that is to be popped goes how many removals there had been when it was
loaded, for the record. -/
inductive StackPc (w : Nat) (α : Type)
  | idle
  /-- `do_push`: the node for its value is constructed -/
  | construct (v : α)
  /-- `prepare_node_list`: the first node is constructed, its `next` is cleared; another one is
  constructed, and its `next` is written -/
  | constructEnd (v : α) (rest : List α)
  | clearEnd (endNode : Nat) (v : α) (rest : List α)
  | constructNext (newTop endNode : Nat) (done : List α) (v : α) (rest : List α)
  | linkNext (newnode newTop endNode : Nat) (done : List α) (v : α) (rest : List α)
  /-- `link_nodes_atomic` -/
  | pushLoad (newTop endNode : Nat) (done rest : List α)
  | pushNext (newTop endNode : Nat) (done rest : List α) (oldTos : TaggedHandle w)
  | pushCas (newTop endNode : Nat) (done rest : List α) (oldTos : TaggedHandle w)
  /-- `consume_one`, with the node and the tag of `old_tos` -/
  | popLoad
  | popNext (n : Nat) (tag : BitVec w) (seen : Nat)
  | popCas (n : Nat) (tag : BitVec w) (newTos : TaggedHandle w) (seen : Nat)
  | popApply (n : Nat)
  | popDestruct (n : Nat) (v : α)
  /-- `consume_all_atomic` and `consume_all_atomic_reversed`, up to the `compare_exchange_weak` -/
  | allLoad (reversed : Bool)
  | allCas (reversed : Bool) (n : Nat) (tag : BitVec w)
  /-- the loop that relinks the nodes -/
  | reverseNext (n : Nat) (last : Option Nat)
  | reverseLink (n : Nat) (last next : Option Nat)
  /-- the loop that consumes them, with what the functor was called with so far -/
  | allApply (reversed : Bool) (n : Nat) (got : List α) (elementCount : Nat)
  | allNext (reversed : Bool) (n : Nat) (got : List α) (elementCount : Nat)
  | allDestruct (reversed : Bool) (n : Nat) (next : Option Nat) (got : List α) (elementCount : Nat)

/-- Behind a node of the range: the next round of the loop, or its end. -/
def StackPc.nextRound {w : Nat} {α : Type} (newTop endNode : Nat) (done : List α) :
    List α → StackPc w α
  | [] => .pushLoad newTop endNode done []
  | v :: rest => .constructNext newTop endNode done v rest

/-- The call that a thread is in. -/
def StackPc.call {w : Nat} {α : Type} : StackPc w α → List (StackCall α)
  | .idle => []
  | .construct v => [.push [v]]
  | .constructEnd v rest => [.push (v :: rest)]
  | .clearEnd _ v rest => [.push (v :: rest)]
  | .constructNext _ _ done v rest => [.push (done ++ v :: rest)]
  | .linkNext _ _ _ done v rest => [.push (done ++ v :: rest)]
  | .pushLoad _ _ done rest => [.push (done ++ rest)]
  | .pushNext _ _ done rest _ => [.push (done ++ rest)]
  | .pushCas _ _ done rest _ => [.push (done ++ rest)]
  | .popLoad => [.pop]
  | .popNext _ _ _ => [.pop]
  | .popCas _ _ _ _ => [.pop]
  | .popApply _ => [.pop]
  | .popDestruct _ _ => [.pop]
  | .allLoad reversed => [.consumeAll reversed]
  | .allCas reversed _ _ => [.consumeAll reversed]
  | .reverseNext _ _ => [.consumeAll true]
  | .reverseLink _ _ _ => [.consumeAll true]
  | .allApply reversed _ _ _ => [.consumeAll reversed]
  | .allNext reversed _ _ _ => [.consumeAll reversed]
  | .allDestruct reversed _ _ _ _ => [.consumeAll reversed]

/-- The nodes, `tos`, what the pool has, the threads, what they have called, and what their calls have
come to. For the record: what has taken effect, in this order, and how often nodes were removed. -/
structure Stack (w : Nat) (Θ α : Type) where
  next : Nat → Option Nat
  v : Nat → Option α
  tos : TaggedHandle w
  free : List Nat
  created : Nat
  pc : Θ → StackPc w α
  called : Θ → List (StackCall α)
  finished : Θ → List (StackResult α)
  log : List (Θ × StackCommand α)
  removals : Nat

/-- What happens: a call; the pool answers a thread, with a node or with `NULL`; a thread makes its next
access, where a `compare_exchange_weak` may fail for no reason; or the pool writes into a node. -/
inductive StackEvent (Θ α : Type)
  | push (θ : Θ) (v : α)
  | pushRange (θ : Θ) (v : α) (rest : List α)
  | pop (θ : Θ)
  | consumeAll (θ : Θ) (reversed : Bool)
  | construct (θ : Θ) (n : Option Nat)
  | access (θ : Θ) (fails : Bool)
  | poolWrite (n : Nat) (next : Option Nat)

namespace Stack

variable {w : Nat} {Θ α : Type}

/-- The empty stack, over nodes with whatever is in their `next`. -/
def new (next : Nat → Option Nat) : Stack w Θ α where
  next := next
  v := fun _ => none
  tos := ⟨none, 0⟩
  free := []
  created := 0
  pc := fun _ => .idle
  called := fun _ => []
  finished := fun _ => []
  log := []
  removals := 0

def setNext (s : Stack w Θ α) (n : Nat) (next : Option Nat) : Stack w Θ α :=
  { s with next := Function.update s.next n next }

/-- `pool.construct`: the node `n` is one that the pool has, or a new one. -/
def construct (s : Stack w Θ α) (n : Nat) (v : α) : Option (Stack w Θ α) :=
  if n ∈ s.free then some { s with free := s.free.erase n, v := Function.update s.v n (some v) }
  else if n = s.created then
    some { s with created := s.created + 1, v := Function.update s.v n (some v) }
  else none

/-- `pool.destruct` -/
def destruct (s : Stack w Θ α) (n : Nat) : Stack w Θ α :=
  { s with free := n :: s.free, v := Function.update s.v n none }

/-- A command takes effect. -/
def commit (s : Stack w Θ α) (θ : Θ) (c : StackCommand α) : Stack w Θ α :=
  { s with log := s.log ++ [(θ, c)] }

variable [DecidableEq Θ]

def setPc (s : Stack w Θ α) (θ : Θ) (pc : StackPc w α) : Stack w Θ α :=
  { s with pc := Function.update s.pc θ pc }

/-- A thread calls. -/
def begin (s : Stack w Θ α) (θ : Θ) (c : StackCall α) (pc : StackPc w α) : Stack w Θ α :=
  { s with called := Function.update s.called θ (s.called θ ++ [c]) }.setPc θ pc

/-- The call of a thread returns. -/
def finish (s : Stack w Θ α) (θ : Θ) (r : StackResult α) : Stack w Θ α :=
  { s with finished := Function.update s.finished θ (s.finished θ ++ [r]) }.setPc θ .idle

/-- `consume_one` has loaded `tos`. -/
def popSees (s : Stack w Θ α) (θ : Θ) : Stack w Θ α :=
  match s.tos.node with
  | none => (s.commit θ .pop).finish θ .empty
  | some n => s.setPc θ (.popNext n s.tos.tag s.removals)

/-- `consume_all_atomic` has loaded `tos`. -/
def allSees (s : Stack w Θ α) (θ : Θ) (reversed : Bool) : Stack w Θ α :=
  match s.tos.node with
  | none => (s.commit θ (.consumeAll reversed)).finish θ (.consumed reversed [] 0)
  | some n => s.setPc θ (.allCas reversed n s.tos.tag)

/-- The pool answers. Without a first node nothing is pushed, without another one what there is. -/
def answer (s : Stack w Θ α) (θ : Θ) : Option Nat → Option (Stack w Θ α)
  | none =>
    match s.pc θ with
    | .construct v => some ((s.commit θ (.push [v] 0)).finish θ (.pushed [v] 0))
    | .constructEnd v rest =>
      some ((s.commit θ (.push (v :: rest) 0)).finish θ (.pushed (v :: rest) 0))
    | .constructNext newTop endNode done v rest =>
      some (s.setPc θ (.pushLoad newTop endNode done (v :: rest)))
    | _ => none
  | some n =>
    match s.pc θ with
    | .construct v => (s.construct n v).map (setPc · θ (.pushLoad n n [v] []))
    | .constructEnd v rest => (s.construct n v).map (setPc · θ (.clearEnd n v rest))
    | .constructNext newTop endNode done v rest =>
      (s.construct n v).map (setPc · θ (.linkNext n newTop endNode done v rest))
    | _ => none

/-- The next access of a thread. A value that is read must be there. -/
def access (s : Stack w Θ α) (θ : Θ) (fails : Bool) : Option (Stack w Θ α) :=
  match s.pc θ with
  | .idle => none
  | .construct _ => none
  | .constructEnd _ _ => none
  | .constructNext _ _ _ _ _ => none
  | .clearEnd endNode v rest =>
    some ((s.setNext endNode none).setPc θ (.nextRound endNode endNode [v] rest))
  | .linkNext newnode newTop endNode done v rest =>
    some ((s.setNext newnode (some newTop)).setPc θ (.nextRound newnode endNode (done ++ [v]) rest))
  | .pushLoad newTop endNode done rest => some (s.setPc θ (.pushNext newTop endNode done rest s.tos))
  | .pushNext newTop endNode done rest oldTos =>
    some ((s.setNext endNode oldTos.node).setPc θ (.pushCas newTop endNode done rest oldTos))
  | .pushCas newTop endNode done rest oldTos =>
    if s.tos = oldTos ∧ fails = false then
      some <| { s with tos := ⟨some newTop, oldTos.tag⟩ }
        |>.commit θ (.push (done ++ rest) done.length)
        |>.finish θ (.pushed (done ++ rest) done.length)
    else some (s.setPc θ (.pushNext newTop endNode done rest s.tos))
  | .popLoad => some (s.popSees θ)
  | .popNext n tag seen => some (s.setPc θ (.popCas n tag ⟨s.next n, tag + 1⟩ seen))
  | .popCas n tag newTos _ =>
    if s.tos = ⟨some n, tag⟩ ∧ fails = false then
      some <| { s with tos := newTos, removals := s.removals + 1 }
        |>.commit θ .pop
        |>.setPc θ (.popApply n)
    else some (s.popSees θ)
  | .popApply n => (s.v n).map fun v => s.setPc θ (.popDestruct n v)
  | .popDestruct n v => some ((s.destruct n).finish θ (.popped v))
  | .allLoad reversed => some (s.allSees θ reversed)
  | .allCas reversed n tag =>
    if s.tos = ⟨some n, tag⟩ ∧ fails = false then
      some <| { s with tos := ⟨none, tag + 1⟩, removals := s.removals + 1 }
        |>.commit θ (.consumeAll reversed)
        |>.setPc θ (if reversed then .reverseNext n none else .allApply reversed n [] 0)
    else some (s.allSees θ reversed)
  | .reverseNext n last => some (s.setPc θ (.reverseLink n last (s.next n)))
  | .reverseLink n last next =>
    match next with
    | none => some ((s.setNext n last).setPc θ (.allApply true n [] 0))
    | some m => some ((s.setNext n last).setPc θ (.reverseNext m (some n)))
  | .allApply reversed n got elementCount =>
    (s.v n).map fun v => s.setPc θ (.allNext reversed n (got ++ [v]) (elementCount + 1))
  | .allNext reversed n got elementCount =>
    some (s.setPc θ (.allDestruct reversed n (s.next n) got elementCount))
  | .allDestruct reversed n next got elementCount =>
    match next with
    | none => some ((s.destruct n).finish θ (.consumed reversed got elementCount))
    | some m => some ((s.destruct n).setPc θ (.allApply reversed m got elementCount))

/-- A thread that is in no call. -/
def isIdle : StackPc w α → Bool
  | .idle => true
  | _ => false

/-- An event, where it is possible: a thread is in one call at a time. -/
def step (s : Stack w Θ α) : StackEvent Θ α → Option (Stack w Θ α)
  | .push θ v => if isIdle (s.pc θ) then some (s.begin θ (.push [v]) (.construct v)) else none
  | .pushRange θ v rest =>
    if isIdle (s.pc θ) then some (s.begin θ (.push (v :: rest)) (.constructEnd v rest)) else none
  | .pop θ => if isIdle (s.pc θ) then some (s.begin θ .pop .popLoad) else none
  | .consumeAll θ reversed =>
    if isIdle (s.pc θ) then some (s.begin θ (.consumeAll reversed) (.allLoad reversed)) else none
  | .construct θ n => s.answer θ n
  | .access θ fails => s.access θ fails
  | .poolWrite n next => if n ∈ s.free then some (s.setNext n next) else none

/-- Between a thread's load of `tos` and the `compare_exchange_weak` that is to pop there are fewer removals
than tags. -/
def Timely (s : Stack w Θ α) : StackEvent Θ α → Prop
  | .access θ _ =>
    match s.pc θ with
    | .popCas _ _ _ seen => s.removals < seen + 2 ^ w
    | _ => True
  | _ => True

instance (s : Stack w Θ α) (e : StackEvent Θ α) : Decidable (s.Timely e) := by
  unfold Timely
  split
  · split <;> infer_instance
  · infer_instance

/-- A step of a run. -/
def Step (s : Stack w Θ α) (e : StackEvent Θ α) (t : Stack w Θ α) : Prop :=
  s.step e = some t ∧ s.Timely e

end Stack

end Rtfsc.Lockfree
