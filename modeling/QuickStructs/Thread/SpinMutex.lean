import QuickStructs.Lib.Transition
import Mathlib.Logic.Function.Basic

/-!
# The spin mutex

`Mutex` is one atomic flag. One step is one operation on it: a `test_and_set`, a `test`
or the `clear` of an unlock. The `_mm_pause`s and the loop conditions touch nothing
shared and belong to the step before them; the `yield` is a step, since any thread may
run in between. A thread considers itself the owner when `lock()` has returned or
`try_lock()` has returned true, and only an owner calls `unlock()`.

The last field of a mutex is not in the code: it records what the calls of `try_lock()`
did.
-/

namespace QuickStructs.SpinMutex

open Lib

/-- Where a thread is. -/
inductive Thread where
  /-- In no call, and not the owner. -/
  | outside
  /-- In `lock()`, before the `test_and_set` of the fast path. -/
  | fast
  /-- In round `i` of the spin phase, before the `test`. -/
  | test (i : Nat)
  /-- In round `i` of the spin phase, before the `test_and_set`. -/
  | testAndSet (i : Nat)
  /-- Before `std::this_thread::yield()`. -/
  | yield
  /-- In `try_lock()`. -/
  | trying
  /-- The owner. -/
  | owner
  deriving DecidableEq, Repr

/-- A call of `try_lock()`: what it returned, and the flag before and after it. -/
structure Try where
  returned : Bool
  before : Bool
  after : Bool
  deriving DecidableEq, Repr

structure Mutex (T : Type) where
  flag : Bool := false
  threads : T → Thread := fun _ => .outside
  /-- The calls of `try_lock()` that have returned. -/
  tries : List Try := []

variable {T : Type} [DecidableEq T]

def Mutex.goto (m : Mutex T) (t : T) (p : Thread) : Mutex T :=
  { m with threads := Function.update m.threads t p }

/-- The loop condition of the spin phase, at round `i`. -/
def spinFrom (i : Nat) : Thread := if i < 64 then .test i else .yield

/-- The next atomic operation of a thread that is in `lock()` or in `try_lock()`. -/
def Mutex.advance (m : Mutex T) (t : T) : Option (Mutex T) :=
  match m.threads t with
  | .outside => none
  | .fast => some { m.goto t (if !m.flag then .owner else spinFrom 0) with flag := true }
  | .test i => some (m.goto t (if !m.flag then .testAndSet i else spinFrom (i + 1)))
  | .testAndSet i =>
    some { m.goto t (if !m.flag then .owner else spinFrom (i + 1)) with flag := true }
  | .yield => some (m.goto t (spinFrom 0))
  | .trying =>
    some { m.goto t (if m.flag then .owner else .outside) with
      flag := true, tries := m.tries ++ [⟨m.flag, m.flag, true⟩] }
  | .owner => none

inductive Action (T : Type) where
  /-- A call of `lock()`. -/
  | lock (t : T)
  /-- A call of `try_lock()`. -/
  | tryLock (t : T)
  /-- The `clear` of `unlock()`. -/
  | unlock (t : T)
  | advance (t : T)
  deriving DecidableEq, Repr

def step (m : Mutex T) : Action T → Option (Mutex T)
  | .lock t => if m.threads t = .outside then some (m.goto t .fast) else none
  | .tryLock t => if m.threads t = .outside then some (m.goto t .trying) else none
  | .unlock t =>
    if m.threads t = .owner then some { m.goto t .outside with flag := false } else none
  | .advance t => m.advance t

/-- The states that any interleaving of the threads reaches. -/
abbrev Reachable (m : Mutex T) : Prop := Transition.Reach (Transition.Of step) {} m

/-- The step is not the `test_and_set` of a `try_lock()`. -/
def NoTry (m : Mutex T) : Action T → Prop
  | .advance t => m.threads t ≠ .trying
  | _ => True

/-- The action is no call of `try_lock()`. -/
def LockOnly (_ : Mutex T) : Action T → Prop
  | .tryLock _ => False
  | _ => True

instance (m : Mutex T) : (a : Action T) → Decidable (NoTry m a)
  | .advance t => inferInstanceAs (Decidable (m.threads t ≠ .trying))
  | .lock _ | .tryLock _ | .unlock _ => isTrue trivial

instance (m : Mutex T) : (a : Action T) → Decidable (LockOnly m a)
  | .tryLock _ => isFalse id
  | .lock _ | .unlock _ | .advance _ => isTrue trivial

end QuickStructs.SpinMutex
