import QuickStructs.Lib.Loop
import QuickStructs.Lib.Transition
import Mathlib.Logic.Function.Basic

/-!
# The single-producer, single-consumer queue

`SPSCQueue` is a ring of `kCapacity` slots and two counters. The producer writes
`m_head`, the consumer writes `m_tail`, both count without end modulo 2^64, and a
counter is turned into a slot by masking. Each atomic access and each operation on a
slot is one step; what a thread does between two of them (the tests on what it has
read) belongs to the step before. The last four fields of a queue are not in the code:
they record what the steps did.
-/

namespace QuickStructs.SPSCQueue

open Lib

/-- `CapacityPow2`, with what the `static_assert` checks. A queue with no slots is no
C++ object: its storage would be an array of no bytes. -/
structure Capacity where
  kCapacity : UInt64
  pow2 : kCapacity &&& (kCapacity - 1) = 0
  pos : 0 < kCapacity

variable {α : Type}

/-- What lives in a slot: a value, in an object with a number of its own. -/
structure Object (α : Type) where
  object : Nat
  value : α
  deriving DecidableEq, Repr

/-- Where the producer is in `emplace`, with what it has read. -/
inductive Producer (α : Type) where
  | idle
  | loadTail (x : α) (head : UInt64)
  | construct (x : α) (head : UInt64)
  | publish (x : α) (head : UInt64)
  deriving DecidableEq, Repr

/-- Where the consumer is in `pop`. A read of a slot with no object gives no value. -/
inductive Consumer (α : Type) where
  | idle
  | loadHead (tail : UInt64)
  | move (tail : UInt64)
  | destroy (tail : UInt64) (out : Option α)
  | release (tail : UInt64) (out : Option α)
  deriving DecidableEq, Repr

structure Queue (α : Type) where
  mHead : UInt64 := 0
  mTail : UInt64 := 0
  mStorage : UInt64 → Option (Object α) := fun _ => none
  producer : Producer α := .idle
  consumer : Consumer α := .idle
  /-- The values of the emplaces that returned true. -/
  pushed : List α := []
  /-- The values of the pops that returned true. -/
  popped : List (Option α) := []
  /-- How many objects were constructed; this is also the number of the next one. -/
  built : Nat := 0
  /-- The objects destroyed, in order. -/
  destroyed : List Nat := []

def Capacity.kMask (C : Capacity) : UInt64 := C.kCapacity - 1

/-- `slot_ptr`: the slot a counter falls on. -/
def Capacity.slotPtr (C : Capacity) (idx : UInt64) : UInt64 := idx &&& C.kMask

/-- `construct_at`. An object that already lives there is lost without a trace. -/
def Queue.constructAt (q : Queue α) (slot : UInt64) (x : α) : Queue α :=
  { q with
    mStorage := Function.update q.mStorage slot (some { object := q.built, value := x })
    built := q.built + 1 }

/-- The numbers of the objects in a slot. -/
def occupants (mStorage : UInt64 → Option (Object α)) (slot : UInt64) : List Nat :=
  ((mStorage slot).map Object.object).toList

/-- `destroy_at`. -/
def Queue.destroyAt (q : Queue α) (slot : UInt64) : Queue α :=
  { q with
    mStorage := Function.update q.mStorage slot none
    destroyed := q.destroyed ++ occupants q.mStorage slot }

/-- The steps of the two threads. `push` is `emplace`. -/
inductive Action (α : Type) where
  | emplace (x : α)
  | loadTail
  | construct
  | publish
  | pop
  | loadHead
  | move
  | destroy
  | release
  deriving DecidableEq, Repr

def step (C : Capacity) (q : Queue α) : Action α → Option (Queue α)
  | .emplace x =>
    match q.producer with
    | .idle => some { q with producer := .loadTail x q.mHead }
    | _ => none
  | .loadTail =>
    match q.producer with
    | .loadTail x head =>
      -- full if the producer is kCapacity ahead of what it reads
      if head - q.mTail = C.kCapacity then some { q with producer := .idle }
      else some { q with producer := .construct x head }
    | _ => none
  | .construct =>
    match q.producer with
    | .construct x head =>
      some { q.constructAt (C.slotPtr head) x with producer := .publish x head }
    | _ => none
  | .publish =>
    match q.producer with
    | .publish x head =>
      some { q with producer := .idle, mHead := head + 1, pushed := q.pushed ++ [x] }
    | _ => none
  | .pop =>
    match q.consumer with
    | .idle => some { q with consumer := .loadHead q.mTail }
    | _ => none
  | .loadHead =>
    match q.consumer with
    | .loadHead tail =>
      if q.mHead = tail then some { q with consumer := .idle }
      else some { q with consumer := .move tail }
    | _ => none
  | .move =>
    match q.consumer with
    | .move tail =>
      some { q with consumer := .destroy tail ((q.mStorage (C.slotPtr tail)).map Object.value) }
    | _ => none
  | .destroy =>
    match q.consumer with
    | .destroy tail out => some { q.destroyAt (C.slotPtr tail) with consumer := .release tail out }
    | _ => none
  | .release =>
    match q.consumer with
    | .release tail out =>
      some { q with consumer := .idle, mTail := tail + 1, popped := q.popped ++ [out] }
    | _ => none

/-- The queues that runs of one producer and one consumer reach. -/
abbrev Reachable (C : Capacity) (q : Queue α) : Prop :=
  Transition.Reach (Transition.Of (step C)) {} q

/-! ## The destructor -/

/-- The variables of the drain loop. -/
structure Drain (α : Type) where
  tail : UInt64
  queue : Queue α

/-- One pass of `while (tail != head)`. -/
def drainPass (C : Capacity) (head : UInt64) (d : Drain α) : Option (Drain α) :=
  if d.tail = head then none
  else some { tail := d.tail + 1, queue := d.queue.destroyAt (C.slotPtr d.tail) }

/-- What the loop starts from: the two counters, read with no thread active. -/
def Queue.drainStart (q : Queue α) : Drain α := { tail := q.mTail, queue := q }

/-- `~SPSCQueue`. A pass brings `tail` one nearer to `head`, so as many passes as they
are apart are enough (`drain_exits`). -/
def Queue.destructor (C : Capacity) (q : Queue α) : Drain α :=
  Loop.iterate (drainPass C q.mHead) (q.mHead - q.mTail).toNat q.drainStart

end QuickStructs.SPSCQueue
