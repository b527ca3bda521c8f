import QuickStructs.Lib.Published
import QuickStructs.Structs.SPSCQueue

/-!
# The queue under its memory orders

The steps of `SPSCQueue`, with what the memory orders allow. A thread loads its own counter
with relaxed order and gets what it has stored last. The counter of the other thread it loads
with acquire order, and gets any value that was stored, no older than the last one it got; the
stores have release order. The slots are plain memory: what keeps the two threads from racing
for a slot is only what these loads have seen.

`queue` is what there is in memory. Its counters are the ones stored last.
-/

namespace QuickStructs.SPSCQueue

open Lib

inductive MemoryOrder where
  | relaxed
  | acquire
  | release
  deriving DecidableEq, Repr

/-- The orders of the accesses to a counter between the two threads. -/
structure Orders where
  /-- `m_tail.load(..)` in `emplace`. -/
  loadTail : MemoryOrder := .acquire
  /-- `m_head.store(..)` in `emplace`. -/
  publish : MemoryOrder := .release
  /-- `m_head.load(..)` in `pop`. -/
  loadHead : MemoryOrder := .acquire
  /-- `m_tail.store(..)` in `pop`. -/
  release : MemoryOrder := .release
  deriving DecidableEq, Repr

/-- What happened before the store happens before what comes after the load. -/
def synchronizes (store load : MemoryOrder) : Bool := store = .release && load = .acquire

def Orders.heads (o : Orders) : Bool := synchronizes o.publish o.loadHead

def Orders.tails (o : Orders) : Bool := synchronizes o.release o.loadTail

variable {α : Type}

structure Weak (α : Type) where
  queue : Queue α := {}
  /-- `m_head` -/
  heads : Published UInt64 := { stores := [(0, 0)] }
  /-- `m_tail` -/
  tails : Published UInt64 := { stores := [(0, 0)] }
  /-- The accesses of the two threads to the slots. -/
  producer : Side UInt64 := {}
  consumer : Side UInt64 := {}
  raced : Bool := false

def Weak.touchProducer (w : Weak α) (slot : UInt64) : Weak α :=
  { w with
    producer := w.producer.touch slot
    raced := w.raced || w.producer.races w.consumer slot }

def Weak.touchConsumer (w : Weak α) (slot : UInt64) : Weak α :=
  { w with
    consumer := w.consumer.touch slot
    raced := w.raced || w.consumer.races w.producer slot }

/-- What a step other than a load does besides its step in memory, which leads to `q`. -/
def Weak.perform (C : Capacity) (w : Weak α) (a : Action α) (q : Queue α) : Weak α :=
  match a, w.queue.producer, w.queue.consumer with
  | .construct, .construct _ head, _ => { w.touchProducer (C.slotPtr head) with queue := q }
  | .publish, _, _ => { w with queue := q, heads := w.heads.store q.mHead w.producer.done }
  | .move, _, .move tail => { w.touchConsumer (C.slotPtr tail) with queue := q }
  | .destroy, _, .destroy tail _ => { w.touchConsumer (C.slotPtr tail) with queue := q }
  | .release, _, _ => { w with queue := q, tails := w.tails.store q.mTail w.consumer.done }
  | _, _, _ => { w with queue := q }

/-- A load of `m_tail` that sees store `i`. -/
def Weak.loadTail (tails : Bool) (C : Capacity) (w : Weak α) (i : Nat) : Option (Weak α) :=
  (w.tails.load i).bind fun (tail, done) =>
    (step C { w.queue with mTail := tail } .loadTail).map fun q =>
      { w with
        queue := { q with mTail := w.queue.mTail }
        tails := w.tails.see i
        producer := if tails then w.producer.learn done else w.producer }

/-- A load of `m_head` that sees store `i`. -/
def Weak.loadHead (heads : Bool) (C : Capacity) (w : Weak α) (i : Nat) : Option (Weak α) :=
  (w.heads.load i).bind fun (head, done) =>
    (step C { w.queue with mHead := head } .loadHead).map fun q =>
      { w with
        queue := { q with mHead := w.queue.mHead }
        heads := w.heads.see i
        consumer := if heads then w.consumer.learn done else w.consumer }

/-- A step; a load is given the store that it sees. Whether the stores of each counter pass on
what happened before them is up to their orders. -/
def stepWith (heads tails : Bool) (C : Capacity) (w : Weak α) : Action α × Nat → Option (Weak α)
  | (.loadTail, i) => w.loadTail tails C i
  | (.loadHead, i) => w.loadHead heads C i
  | (a, _) => (step C w.queue a).map (w.perform C a)

def weakStep (o : Orders) (C : Capacity) (w : Weak α) (a : Action α × Nat) : Option (Weak α) :=
  stepWith o.heads o.tails C w a

/-- What runs of the two threads reach, with loads that see any store they may. -/
abbrev WeakReachable (o : Orders) (C : Capacity) (w : Weak α) : Prop :=
  Transition.Reach (Transition.Of (weakStep o C)) {} w

end QuickStructs.SPSCQueue
