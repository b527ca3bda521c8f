import QuickStructs.Lib.Transition
import Mathlib.Data.Fintype.Basic

/-!
# The locking queue

`ThreadSafeQueue` is a `std::queue` with a mutex and a condition variable. `n` threads
call `push` and `wait_and_pop`, any number of times and in any order. One step is one
operation on a shared object: a lock or an unlock, one operation on the queue, the
`notify_one`, or the atomic unlock-and-wait of the condition variable. A notification wakes
one of the waiting threads, whichever, and none if none waits; a waiting thread may also
wake on its own.

The last three fields of a queue are not in the code: they record what the steps did.
-/

namespace QuickStructs.ThreadSafeQueue

open Lib

variable {n : Nat} {T : Type}

/-- Where a thread is. -/
inductive Thread (T : Type) where
  /-- In no call. -/
  | idle
  /-- In `push(value)`, before the `lock_guard`. -/
  | pushLock (value : T)
  /-- Before `_queue.push(std::move(value))`. -/
  | pushItem (value : T)
  /-- Before the end of the `lock_guard`. -/
  | pushUnlock
  /-- Before `_cv.notify_one()`. -/
  | notify
  /-- In `wait_and_pop()`, before the `unique_lock`. -/
  | popLock
  /-- In `_cv.wait(..)`, before the predicate. -/
  | test
  /-- Before the atomic unlock-and-wait. -/
  | wait
  /-- Blocked. -/
  | waiting
  /-- Awake again, and before it has the lock back. -/
  | woken
  /-- Before `T val = std::move(_queue.front())`. -/
  | front
  /-- Before `_queue.pop()`. -/
  | pop (val : T)
  /-- Before the end of the `unique_lock`, and the return. -/
  | popUnlock (val : T)
  deriving DecidableEq, Repr

/-- Does the thread have the mutex? -/
def Thread.holds : Thread T → Bool
  | .pushItem _ => true
  | .pushUnlock => true
  | .test => true
  | .wait => true
  | .front => true
  | .pop _ => true
  | .popUnlock _ => true
  | _ => false

/-- Has it enqueued an item, with its `notify_one` still to come? -/
def Thread.notifies : Thread T → Bool
  | .pushUnlock => true
  | .notify => true
  | _ => false

/-- Is it in `wait_and_pop()`, and comes to the queue before it blocks or returns? -/
def Thread.awake : Thread T → Bool
  | .popLock => true
  | .test => true
  | .woken => true
  | .front => true
  | .pop _ => true
  | _ => false

/-- Is it blocked? -/
def Thread.blocked : Thread T → Bool
  | .waiting => true
  | _ => false

/-- The item that it has popped and not yet returned. -/
def Thread.hand : Thread T → List T
  | .popUnlock val => [val]
  | _ => []

/-- `ThreadSafeQueue`. -/
structure Queue (n : Nat) (T : Type) where
  queue : List T := []
  /-- Who has locked the mutex. -/
  mutex : Option (Fin n) := none
  threads : Fin n → Thread T := fun _ => .idle
  /-- The items, in the order in which the pushes have enqueued them. -/
  enqueued : List T := []
  /-- The items that were popped, in order, and by whom. -/
  popped : List (Fin n × T) := []
  /-- What the calls of a thread have returned. -/
  returned : Fin n → List T := fun _ => []

def Queue.goto (q : Queue n T) (t : Fin n) (p : Thread T) : Queue n T :=
  { q with threads := Function.update q.threads t p }

/-- Lock the mutex, once it is free. -/
def Queue.lock (q : Queue n T) (t : Fin n) (p : Thread T) : Option (Queue n T) :=
  if q.mutex = none then some { q.goto t p with mutex := some t } else none

/-- Unlock the mutex. -/
def Queue.unlock (q : Queue n T) (t : Fin n) (p : Thread T) : Queue n T :=
  { q.goto t p with mutex := none }

/-- The next operation of a thread, the notification apart. `moved` is what is left of an
item when it was moved from. -/
def Queue.advance (moved : T → T) (q : Queue n T) (t : Fin n) : Option (Queue n T) :=
  match q.threads t with
  | .idle => none
  | .pushLock value => q.lock t (.pushItem value)
  | .pushItem value =>
    some { q.goto t .pushUnlock with
      queue := q.queue ++ [value], enqueued := q.enqueued ++ [value] }
  | .pushUnlock => some (q.unlock t .notify)
  | .notify => none
  | .popLock => q.lock t .test
  | .test => some (q.goto t (if !q.queue.isEmpty then .front else .wait))
  | .wait => some (q.unlock t .waiting)
  | .waiting => none
  | .woken => q.lock t .test
  | .front =>
    match q.queue with
    | val :: rest => some { q.goto t (.pop val) with queue := moved val :: rest }
    | [] => none
  | .pop val =>
    some { q.goto t (.popUnlock val) with
      queue := q.queue.tail, popped := q.popped ++ [(t, val)] }
  | .popUnlock val =>
    some { q.unlock t .idle with
      returned := Function.update q.returned t (q.returned t ++ [val]) }

inductive Action (n : Nat) (T : Type) where
  /-- A call of `push(value)`. -/
  | push (t : Fin n) (value : T)
  /-- A call of `wait_and_pop()`. -/
  | waitAndPop (t : Fin n)
  | advance (t : Fin n)
  /-- The `notify_one` of thread `t`, which wakes `u`. -/
  | notifyOne (t u : Fin n)
  /-- The `notify_one` of thread `t`, when nobody waits. -/
  | notifyNone (t : Fin n)
  /-- A waiting thread wakes without a notification. -/
  | spurious (t : Fin n)
  deriving DecidableEq, Repr

def step (moved : T → T) (q : Queue n T) : Action n T → Option (Queue n T)
  | .push t value =>
    match q.threads t with
    | .idle => some (q.goto t (.pushLock value))
    | _ => none
  | .waitAndPop t =>
    match q.threads t with
    | .idle => some (q.goto t .popLock)
    | _ => none
  | .advance t => q.advance moved t
  | .notifyOne t u =>
    match q.threads t, q.threads u with
    | .notify, .waiting => some ((q.goto t .idle).goto u .woken)
    | _, _ => none
  | .notifyNone t =>
    match q.threads t with
    | .notify => if ∀ u, (q.threads u).blocked = false then some (q.goto t .idle) else none
    | _ => none
  | .spurious t =>
    match q.threads t with
    | .waiting => some (q.goto t .woken)
    | _ => none

/-- The queues that any interleaving of the threads reaches. -/
abbrev Reachable (moved : T → T) (q : Queue n T) : Prop :=
  Transition.Reach (Transition.Of (step moved)) {} q

end QuickStructs.ThreadSafeQueue
