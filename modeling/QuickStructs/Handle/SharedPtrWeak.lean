import QuickStructs.Handle.SharedPtr
import QuickStructs.Lib.Before

/-!
# The shared pointer under its memory orders

The steps of the handles, with the accesses they make to the control blocks and to the objects,
and with what the memory orders of `fetch_add` and `fetch_sub` let the threads know of each other.
A program uses an object through a handle; how it keeps its uses apart from each other is its own
matter, but the deleter races with each use that does not happen before it. So does the freeing
of a control block with the operations on its count. A use is therefore put down as a read, also
where it writes: reads do not race with each other, and with the making and the deletion of the
object both do.

A thread that is given a handle goes on where the thread that gave it was. What a thread may learn
from `use_count()` is left out.
-/

namespace QuickStructs.SharedPtr

open Lib

/-- The orders of the operations on `m_count`. -/
structure Orders where
  /-- In `add_ref`. -/
  fetchAdd : MemoryOrder := .acq_rel
  /-- In `release`. -/
  fetchSub : MemoryOrder := .acq_rel
  deriving DecidableEq, Repr

/-- What the threads share. -/
inductive Cell where
  /-- A control block. -/
  | block (b : Nat)
  /-- What a raw pointer points to. -/
  | object (x : Nat)
  deriving DecidableEq, Repr

variable {n : Nat} {T D : Type}

structure Weak (n : Nat) (T D : Type) where
  world : World n T D
  before : Before T Nat Cell := {}

variable [DecidableEq T] [Fintype T]

/-- A new control block, for a pointer that the thread has. -/
def createCells (s : Before T Nat Cell) (t : T) (b : Nat) (pointer : Option Nat) :
    Before T Nat Cell :=
  let s := s.write t (.block b)
  match pointer with
  | some x => s.write t (.object x)
  | none => s

/-- The accesses of the next step of a thread that is in an operation. -/
def World.advanceCells (o : Orders) (w : World n T D) (t : T) (s : Before T Nat Cell) :
    Before T Nat Cell :=
  match w.threads t with
  | .idle => s
  | .release h _ =>
    match w.p_cb h with
    | some b => (s.read t (.block b)).exchange o.fetchSub t b
    | none => s
  | .dispose b _ _ =>
    match (w.blocks.cells b).bind ControlBlock.p_obj with
    | some x => (s.write t (.object x)).write t (.block b)
    | none => s.read t (.block b)
  | .free b _ _ => s.write t (.block b)
  | .write _ (.create pointer _) => createCells s t w.blocks.next pointer
  | .write _ (.adopt (some x) _) => createCells s t w.blocks.next (some x)
  | .write _ _ => s
  | .addRef h =>
    match w.p_cb h with
    | some b => (s.read t (.block b)).exchange o.fetchAdd t b
    | none => s

def World.cells (o : Orders) (w : World n T D) (a : Action n T D) (s : Before T Nat Cell) :
    Before T Nat Cell :=
  match a with
  | .call _ _ => s
  | .advance t => w.advanceCells o t s
  | .give h t => s.hand (w.owner h) t

/-- What a program does. -/
inductive WeakAction (n : Nat) (T D : Type) where
  | act (a : Action n T D)
  /-- `*h` or `h->`, and what is done with the object, be it reading or writing. -/
  | use (t : T) (h : Fin n)
  /-- `h.use_count()` -/
  | useCount (t : T) (h : Fin n)
  deriving DecidableEq, Repr

/-- May the thread use its handle now? -/
def World.uses (w : World n T D) (t : T) (h : Fin n) : Bool :=
  w.threads t matches .idle && decide (w.mayUse t h)

def weakStep [Inhabited D] (o : Orders) (w : Weak n T D) : WeakAction n T D → Option (Weak n T D)
  | .act a => (step w.world a).map fun w' => { world := w', before := w.world.cells o a w.before }
  | .use t h =>
    match (w.world.handles h).bind Handle.p_obj with
    | some x =>
      if w.world.uses t h then some { w with before := w.before.read t (.object x) } else none
    | none => none
  | .useCount t h =>
    if w.world.uses t h then
      match w.world.p_cb h with
      | some b => some { w with before := w.before.read t (.block b) }
      | none => some w
    else none

/-- What any interleaving of the threads reaches. -/
def WeakReachable [Inhabited D] (o : Orders) (w : Weak n T D) : Prop :=
  ∃ owner, Transition.Reach (Transition.Of (weakStep o)) { world := .start owner } w

end QuickStructs.SharedPtr
