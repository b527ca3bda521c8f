import QuickStructs.Structs.SPSCQueue

/-!
# The observers of the queue

`empty`, `full` and `size` load the two counters one after the other and compare them. The
two endpoint threads call them between their own operations; a third thread may call them
at any time. The steps of the queue stay what they are, and between the two loads of a call
the other threads go on.

What a call records besides its first load is not in the code: how much had been published
and popped at the first load, and how many elements there were at every instant since then.
-/

namespace QuickStructs.SPSCQueue

open Lib

inductive Observer where
  | empty
  | full
  | size
  deriving DecidableEq, Repr

inductive Caller where
  | producer
  | consumer
  | third
  deriving DecidableEq, Repr

/-- What an observer returns. -/
inductive Answer where
  | truth (b : Bool)
  | number (n : UInt64)
  deriving DecidableEq, Repr

variable {α : Type}

/-- `empty` loads `m_tail` first, the other two load `m_head` first. -/
def Observer.first (o : Observer) (q : Queue α) : UInt64 :=
  match o with
  | .empty => q.mTail
  | .full | .size => q.mHead

def Observer.second (o : Observer) (q : Queue α) : UInt64 :=
  match o with
  | .empty => q.mHead
  | .full | .size => q.mTail

/-- What is made of the two loads, in their order. -/
def Capacity.answer (C : Capacity) (o : Observer) (first second : UInt64) : Answer :=
  match o with
  | .empty => .truth (second = first)
  | .full => .truth (first - second = C.kCapacity)
  | .size => .number (first - second)

/-- The number of published, unpopped elements. -/
def Queue.count (q : Queue α) : Nat := q.pushed.length - q.popped.length

/-- A call after its first load. -/
structure Call where
  observer : Observer
  loaded : UInt64
  /-- How many values had been published by then. -/
  pushedAt : Nat
  /-- How many values had been popped by then. -/
  poppedAt : Nat
  /-- The number of elements then, and after each step since. -/
  seen : List Nat
  deriving DecidableEq, Repr

/-- A call that has returned. -/
structure Return where
  caller : Caller
  call : Call
  answer : Answer
  /-- How many values had been popped at the second load. -/
  poppedBy : Nat
  deriving DecidableEq, Repr

structure Watched (α : Type) where
  queue : Queue α := {}
  calls : Caller → Option Call := fun _ => none
  returned : List Return := []

/-- The thread that takes a step of the queue. -/
def Action.caller : Action α → Caller
  | .emplace _ | .loadTail | .construct | .publish => .producer
  | .pop | .loadHead | .move | .destroy | .release => .consumer

/-- The thread is between two operations on the queue. -/
def Queue.between (q : Queue α) : Caller → Bool
  | .producer =>
    match q.producer with
    | .idle => true
    | _ => false
  | .consumer =>
    match q.consumer with
    | .idle => true
    | _ => false
  | .third => true

/-- A call sees what a step of the queue has led to. -/
def Call.see (c : Call) (q : Queue α) : Call := { c with seen := c.seen ++ [q.count] }

/-- The first load of a call. -/
def Queue.begin (q : Queue α) (o : Observer) : Call where
  observer := o
  loaded := o.first q
  pushedAt := q.pushed.length
  poppedAt := q.popped.length
  seen := [q.count]

/-- The second load, and the return. -/
def Call.finish (C : Capacity) (t : Caller) (c : Call) (q : Queue α) : Return where
  caller := t
  call := c
  answer := C.answer c.observer c.loaded (c.observer.second q)
  poppedBy := q.popped.length

inductive Watch (α : Type) where
  | queue (a : Action α)
  | call (t : Caller) (o : Observer)
  | finish (t : Caller)
  deriving DecidableEq, Repr

/-- The steps of the threads, with their calls of the observers. -/
def watch (C : Capacity) (w : Watched α) : Watch α → Option (Watched α)
  | .queue a =>
    if w.calls a.caller = none then
      (step C w.queue a).map fun q =>
        { w with queue := q, calls := fun t => (w.calls t).map fun c => c.see q }
    else none
  | .call t o =>
    if w.calls t = none ∧ w.queue.between t = true then
      some { w with calls := Function.update w.calls t (some (w.queue.begin o)) }
    else none
  | .finish t =>
    match w.calls t with
    | some c =>
      some { w with
        calls := Function.update w.calls t none
        returned := w.returned ++ [c.finish C t w.queue] }
    | none => none

/-- What runs of the threads reach. -/
abbrev WatchedReachable (C : Capacity) (w : Watched α) : Prop :=
  Transition.Reach (Transition.Of (watch C)) {} w

end QuickStructs.SPSCQueue
