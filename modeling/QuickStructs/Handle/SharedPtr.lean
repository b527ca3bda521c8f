import QuickStructs.Lib.Heap
import QuickStructs.Lib.Transition

/-!
# The shared pointer

`n` handles, any number of threads. A handle is worked on by one thread at a time, its
owner, which may hand it over between two operations; what the threads share are the
control blocks. One step is one `fetch_add` or `fetch_sub`, the call of a deleter, the
freeing of a control block, or what an operation does to the fields of its own handles.

All operations that give up a reference start in the same way, with `p_cb->release()`
if `p_cb` is not null; they differ in what they write to their handle then. Constructors
write at once. Raw pointers are numbered, and null is `none`. The last fields of a world
are not in the code: they record what the steps did.
-/

namespace QuickStructs.SharedPtr

open Lib

/-- `control_block`. -/
structure ControlBlock (D : Type) where
  deleter : D
  m_count : Nat := 1
  p_obj : Option Nat
  freed : Bool := false
  /-- The pointer the block was made for. -/
  managed : Option Nat
  deriving DecidableEq, Repr

/-- `shared_ptr`. -/
structure Handle where
  p_obj : Option Nat := none
  p_cb : Option Nat := none
  deriving DecidableEq, Repr

/-- What an operation writes to its handle, once the old reference is given up. -/
inductive Write (n : Nat) (D : Type) where
  /-- The fields of another handle, which it keeps; then `add_ref()`. -/
  | copy (other : Fin n)
  /-- The fields of another handle, which becomes null. -/
  | move (other : Fin n)
  /-- Null. -/
  | null
  /-- A pointer and a new control block for it. -/
  | create (pointer : Option Nat) (d : D)
  /-- A pointer and a new control block for it, unless it is null. -/
  | adopt (pointer : Option Nat) (d : D)
  /-- Null, at the end of the handle's lifetime. -/
  | destroy
  deriving DecidableEq, Repr

/-- Where a thread is. -/
inductive Thread (n : Nat) (D : Type) where
  | idle
  /-- Before `if (p_cb) p_cb->release()`. -/
  | release (h : Fin n) (w : Write n D)
  /-- In `release()` of the last reference, before the deleter. -/
  | dispose (b : Nat) (h : Fin n) (w : Write n D)
  /-- In `release()` of the last reference, before the block is freed. -/
  | free (b : Nat) (h : Fin n) (w : Write n D)
  /-- Before the fields of the handle are written. -/
  | write (h : Fin n) (w : Write n D)
  /-- Before `if (p_cb) p_cb->add_ref()`. -/
  | addRef (h : Fin n)
  deriving DecidableEq, Repr

/-- The call of a deleter on a managed pointer. -/
structure Deletion (D : Type) where
  block : Nat
  obj : Nat
  deleter : D
  deriving DecidableEq, Repr

structure World (n : Nat) (T D : Type) where
  /-- The handles within their lifetimes. -/
  handles : Fin n → Option Handle := fun _ => none
  blocks : Heap (ControlBlock D) := {}
  threads : T → Thread n D := fun _ => .idle
  owner : Fin n → T
  /-- The block whose count includes the handle. -/
  counted : Fin n → Option Nat := fun _ => none
  /-- The raw pointers that were adopted. -/
  adopted : List Nat := []
  deletions : List (Deletion D) := []
  /-- Has a step operated on memory that holds no control block? -/
  faulted : Bool := false

variable {n : Nat} {T D : Type} [DecidableEq T]

def World.goto (w : World n T D) (t : T) (p : Thread n D) : World n T D :=
  { w with threads := Function.update w.threads t p }

/-- Operate on the control block at `b`. -/
def World.touch (w : World n T D) (b : Nat) (f : ControlBlock D → World n T D) : World n T D :=
  match w.blocks.cells b with
  | some block => if block.freed then { w with faulted := true } else f block
  | none => { w with faulted := true }

def World.setBlock (w : World n T D) (b : Nat)
    (f : ControlBlock D → ControlBlock D) : World n T D :=
  { w with blocks := w.blocks.modify b f }

def World.setHandle (w : World n T D) (h : Fin n) (x : Option Handle) : World n T D :=
  { w with handles := Function.update w.handles h x }

def World.setCounted (w : World n T D) (h : Fin n) (b : Option Nat) : World n T D :=
  { w with counted := Function.update w.counted h b }

/-- The value of `p_cb`. -/
def World.p_cb (w : World n T D) (h : Fin n) : Option Nat := (w.handles h).bind Handle.p_cb

/-- `p_cb->release()`, up to its `fetch_sub`. -/
def World.fetchSub (w : World n T D) (t : T) (h : Fin n) (wr : Write n D) (b : Nat) : World n T D :=
  w.touch b fun block =>
    ((w.setBlock b fun c => { c with m_count := c.m_count - 1 }).setCounted h none).goto t
      (if block.m_count = 1 then .dispose b h wr else .write h wr)

/-- `if (p_obj) { deleter(p_obj); p_obj = nullptr; }` of `release()`. -/
def World.dispose (w : World n T D) (t : T) (h : Fin n) (wr : Write n D) (b : Nat) : World n T D :=
  w.touch b fun block =>
    match block.p_obj with
    | some x =>
      { (w.setBlock b fun c => { c with p_obj := none }).goto t (.free b h wr) with
        deletions := w.deletions ++ [⟨b, x, block.deleter⟩] }
    | none => w.goto t (.free b h wr)

/-- `std::destroy_at(this); ::operator delete(this)` of `release()`. -/
def World.free (w : World n T D) (t : T) (h : Fin n) (wr : Write n D) (b : Nat) : World n T D :=
  w.touch b fun _ => (w.setBlock b fun c => { c with freed := true }).goto t (.write h wr)

/-- `p_cb->add_ref()`. -/
def World.fetchAdd (w : World n T D) (t : T) (h : Fin n) (b : Nat) : World n T D :=
  w.touch b fun _ =>
    ((w.setBlock b fun c => { c with m_count := c.m_count + 1 }).setCounted h (some b)).goto t .idle

/-- `p_obj = pointer`, and `p_cb` a new control block for it. -/
def World.create (w : World n T D) (h : Fin n) (pointer : Option Nat) (d : D) : World n T D :=
  { (w.setHandle h (some ⟨pointer, some w.blocks.next⟩)).setCounted h (some w.blocks.next) with
    blocks := w.blocks.alloc { deleter := d, p_obj := pointer, managed := pointer }
    adopted := pointer.toList ++ w.adopted }

/-- Take the fields of another handle, and leave it null. -/
def World.steal (w : World n T D) (h other : Fin n) : World n T D :=
  (((w.setHandle h (w.handles other)).setHandle other (some {})).setCounted h
    (w.counted other)).setCounted other none

/-- Write the fields of handle `h`. A pointer is adopted only once. -/
def World.write (w : World n T D) (t : T) (h : Fin n) : Write n D → Option (World n T D)
  | .copy other => some ((w.setHandle h (w.handles other)).goto t (.addRef h))
  | .move other => some ((w.steal h other).goto t .idle)
  | .null => some ((w.setHandle h (some {})).goto t .idle)
  | .create pointer d =>
    if ∀ x ∈ pointer, x ∉ w.adopted then some ((w.create h pointer d).goto t .idle) else none
  | .adopt none _ => some ((w.setHandle h (some {})).goto t .idle)
  | .adopt (some x) d =>
    if x ∉ w.adopted then some ((w.create h (some x) d).goto t .idle) else none
  | .destroy => some ((w.setHandle h none).goto t .idle)

/-- The next step of a thread that is in an operation. -/
def World.advance (w : World n T D) (t : T) : Option (World n T D) :=
  match w.threads t with
  | .idle => none
  | .release h wr =>
    match w.p_cb h with
    | some b => some (w.fetchSub t h wr b)
    | none => some (w.goto t (.write h wr))
  | .dispose b h wr => some (w.dispose t h wr b)
  | .free b h wr => some (w.free t h wr b)
  | .write h wr => w.write t h wr
  | .addRef h =>
    match w.p_cb h with
    | some b => some (w.fetchAdd t h b)
    | none => some (w.goto t .idle)

/-- The operations, each on the handle `h`. -/
inductive Op (n : Nat) (D : Type) where
  /-- `shared_ptr()` -/
  | defaultCtor (h : Fin n)
  /-- `shared_ptr(pointer)` -/
  | pointerCtor (h : Fin n) (pointer : Option Nat)
  /-- `shared_ptr(pointer, d)` -/
  | deleterCtor (h : Fin n) (pointer : Option Nat) (d : D)
  | copyCtor (h other : Fin n)
  | moveCtor (h other : Fin n)
  | copyAssign (h other : Fin n)
  | moveAssign (h other : Fin n)
  | reset (h : Fin n)
  /-- `reset(pointer, d)` -/
  | resetTo (h : Fin n) (pointer : Option Nat) (d : D)
  /-- `~shared_ptr()` -/
  | dtor (h : Fin n)
  deriving DecidableEq, Repr

/-- A handle of the thread, within its lifetime. -/
def World.mayUse (w : World n T D) (t : T) (h : Fin n) : Prop := w.owner h = t ∧ w.handles h ≠ none

/-- A handle of the thread, to be constructed. -/
def World.mayConstruct (w : World n T D) (t : T) (h : Fin n) : Prop :=
  w.owner h = t ∧ w.handles h = none

instance (w : World n T D) (t : T) (h : Fin n) : Decidable (w.mayUse t h) :=
  inferInstanceAs (Decidable (_ ∧ _))

instance (w : World n T D) (t : T) (h : Fin n) : Decidable (w.mayConstruct t h) :=
  inferInstanceAs (Decidable (_ ∧ _))

/-- The begin of an operation of thread `t`. -/
def World.call [Inhabited D] (w : World n T D) (t : T) : Op n D → Option (World n T D)
  | .defaultCtor h => if w.mayConstruct t h then some (w.goto t (.write h .null)) else none
  | .pointerCtor h pointer =>
    if w.mayConstruct t h then some (w.goto t (.write h (.create pointer default))) else none
  | .deleterCtor h pointer d =>
    if w.mayConstruct t h then some (w.goto t (.write h (.create pointer d))) else none
  | .copyCtor h other =>
    if w.mayConstruct t h ∧ w.mayUse t other then some (w.goto t (.write h (.copy other))) else none
  | .moveCtor h other =>
    if w.mayConstruct t h ∧ w.mayUse t other then some (w.goto t (.write h (.move other))) else none
  | .copyAssign h other =>
    if w.mayUse t h ∧ w.mayUse t other then
      some (if h ≠ other then w.goto t (.release h (.copy other)) else w)
    else none
  | .moveAssign h other =>
    if w.mayUse t h ∧ w.mayUse t other then
      some (if h ≠ other then w.goto t (.release h (.move other)) else w)
    else none
  | .reset h => if w.mayUse t h then some (w.goto t (.release h .null)) else none
  | .resetTo h pointer d =>
    if w.mayUse t h then some (w.goto t (.release h (.adopt pointer d))) else none
  | .dtor h => if w.mayUse t h then some (w.goto t (.release h .destroy)) else none

inductive Action (n : Nat) (T D : Type) where
  | call (t : T) (op : Op n D)
  | advance (t : T)
  /-- A thread hands a handle over to another one. -/
  | give (h : Fin n) (t : T)
  deriving DecidableEq, Repr

def step [Inhabited D] (w : World n T D) : Action n T D → Option (World n T D)
  | .call t op => if w.threads t matches .idle then w.call t op else none
  | .advance t => w.advance t
  | .give h t =>
    if w.threads (w.owner h) matches .idle then
      some { w with owner := Function.update w.owner h t }
    else none

/-- The worlds that any interleaving of the threads reaches. -/
def Reachable [Inhabited D] (w : World n T D) : Prop :=
  ∃ owner, Transition.Reach (Transition.Of step) { owner := owner } w

/-- No handles yet, for the threads that will have them. -/
def World.start (owner : Fin n → T) : World n T D := { owner := owner }

end QuickStructs.SharedPtr
