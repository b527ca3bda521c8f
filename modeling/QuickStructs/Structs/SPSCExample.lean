import QuickStructs.Structs.SPSCQueue

/-!
# The example program of the single-producer, single-consumer queue

Two threads and a queue: `prod` emplaces the items 0, 1, .. one after the other, each one again
and again until there is room for it, and `cons` pops until it has popped as many. The program
makes 100000 items, doubles, in a queue of 128 slots. Here their number, the conversion of the
loop counter and the capacity are parameters. What a thread does between two accesses to the
queue, its counter included, belongs to the step before. `main` joins both threads and then
destroys the queue.
-/

namespace QuickStructs.SPSCQueue

open Lib

variable {α : Type}

/-- The two threads. -/
inductive Turn where
  | prod
  | cons
  deriving DecidableEq, Repr

structure Example (α : Type) where
  queue : Queue α := {}
  /-- The loop counter of `prod`. -/
  i : Nat := 0
  /-- What `cons` has counted. -/
  cnt : Nat := 0

/-- The next step of `prod`, if its loop is not over. -/
def Example.prodNext (item : Nat → α) (total : Nat) (e : Example α) : Option (Action α) :=
  match e.queue.producer with
  | .idle => if e.i < total then some (.emplace (item e.i)) else none
  | .loadTail _ _ => some .loadTail
  | .construct _ _ => some .construct
  | .publish _ _ => some .publish

/-- The next step of `cons`, if its loop is not over. -/
def Example.consNext (total : Nat) (e : Example α) : Option (Action α) :=
  match e.queue.consumer with
  | .idle => if e.cnt < total then some .pop else none
  | .loadHead _ => some .loadHead
  | .move _ => some .move
  | .destroy _ _ => some .destroy
  | .release _ _ => some .release

/-- `emplace` and `pop` return true in their last step, and only if they come to it. -/
def Action.returnsTrue : Action α → Bool
  | .publish | .release => true
  | _ => false

/-- The counter goes up when the call returns true. -/
def counted (n : Nat) (a : Action α) : Nat := if a.returnsTrue then n + 1 else n

def exampleStep (C : Capacity) (item : Nat → α) (total : Nat) (e : Example α) :
    Turn → Option (Example α)
  | .prod => (e.prodNext item total).bind fun a =>
    (step C e.queue a).map fun q => { e with queue := q, i := counted e.i a }
  | .cons => (e.consNext total).bind fun a =>
    (step C e.queue a).map fun q => { e with queue := q, cnt := counted e.cnt a }

/-- Both loops are over. -/
def Example.joined (item : Nat → α) (total : Nat) (e : Example α) : Prop :=
  e.prodNext item total = none ∧ e.consNext total = none

/-- A round of turns in which neither thread was forgotten: one whose loop is not over has had
as many turns as a call takes steps. -/
def FairRound (total : Nat) (r : List Turn) (e : Example α) : Prop :=
  (e.i < total → 4 ≤ r.count .prod) ∧ (e.cnt < total → 5 ≤ r.count .cons)

end QuickStructs.SPSCQueue
