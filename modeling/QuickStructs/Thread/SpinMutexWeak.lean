import QuickStructs.Lib.Before
import QuickStructs.Thread.SpinMutex

/-!
# The spin mutex under its memory orders

A `test_and_set` reads and writes the flag in one step, and so finds the value that was written
last. A `test` with relaxed order may see an old one, and tells the thread nothing else; it is let
see either. In between, the owner of the mutex makes accesses to cells that the mutex is there for.
-/

namespace QuickStructs.SpinMutex

open Lib

/-- The orders of the operations on the flag. -/
structure Orders where
  /-- The first `test_and_set` of `lock`. -/
  fast : MemoryOrder := .acquire
  /-- The `test_and_set` after a `test` in the loop of `lock`. -/
  spin : MemoryOrder := .acquire
  /-- The `test_and_set` of `try_lock`. -/
  tryLock : MemoryOrder := .acquire
  /-- The `clear` of `unlock`. -/
  clear : MemoryOrder := .release
  deriving DecidableEq, Repr

structure Weak (T C : Type) where
  mutex : Mutex T := {}
  before : Before T Unit C := {}

inductive WeakAction (T C : Type) where
  | lock (t : T)
  | tryLock (t : T)
  | unlock (t : T)
  /-- The next operation of a thread; a `test` sees `seen`. -/
  | advance (t : T) (seen : Bool)
  /-- The owner reads what the mutex protects. -/
  | read (t : T) (c : C)
  | write (t : T) (c : C)
  deriving DecidableEq, Repr

variable {T C : Type} [DecidableEq T]

/-- What a thread learns, or leaves behind, by its next operation. -/
def Weak.exchange (o : Orders) (w : Weak T C) (t : T) : Before T Unit C :=
  match w.mutex.threads t with
  | .fast => w.before.exchange o.fast t ()
  | .testAndSet _ => w.before.exchange o.spin t ()
  | .trying => w.before.exchange o.tryLock t ()
  | _ => w.before

/-- The next operation of a thread on the flag. -/
def Weak.advance (o : Orders) (w : Weak T C) (t : T) (seen : Bool) : Option (Weak T C) :=
  match w.mutex.threads t with
  | .test _ =>
    (step { w.mutex with flag := seen } (.advance t)).map fun m =>
      { w with mutex := { m with flag := w.mutex.flag } }
  | _ => (step w.mutex (.advance t)).map fun m => { mutex := m, before := w.exchange o t }

variable [DecidableEq C] [Fintype T]

def weakStep (o : Orders) (w : Weak T C) : WeakAction T C → Option (Weak T C)
  | .lock t => (step w.mutex (.lock t)).map fun m => { w with mutex := m }
  | .tryLock t => (step w.mutex (.tryLock t)).map fun m => { w with mutex := m }
  | .unlock t =>
    (step w.mutex (.unlock t)).map fun m =>
      { mutex := m, before := w.before.store o.clear t () }
  | .advance t seen => w.advance o t seen
  | .read t c =>
    if w.mutex.threads t = .owner then some { w with before := w.before.read t c } else none
  | .write t c =>
    if w.mutex.threads t = .owner then some { w with before := w.before.write t c } else none

/-- The action is no call of `try_lock()`. -/
def WeakLockOnly (_ : Weak T C) : WeakAction T C → Prop
  | .tryLock _ => False
  | _ => True

instance (w : Weak T C) : (a : WeakAction T C) → Decidable (WeakLockOnly w a)
  | .tryLock _ => isFalse id
  | .lock _ | .unlock _ | .advance _ _ | .read _ _ | .write _ _ => isTrue trivial

/-- What threads reach that call `lock` and `unlock`. -/
abbrev WeakReachable (o : Orders) (w : Weak T C) : Prop :=
  Transition.Reach (Transition.When WeakLockOnly (Transition.Of (weakStep o))) {} w

end QuickStructs.SpinMutex
