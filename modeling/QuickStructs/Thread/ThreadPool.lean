import QuickStructs.Lib.Transition
import Mathlib.Logic.Function.Basic
import Mathlib.Data.Fintype.Basic

/-!
# The thread pool

`ThreadPool` is a queue of tasks under a mutex, a counting semaphore, a flag
`m_stopping`, and `m_num_threads` jthreads, each with a stop flag of its own. One step
is one operation on a shared object: a load or a store, a `release` or an `acquire`, a
locked block, the start or the end of a task. Enqueue calls may be made at any time by
any number of threads, tasks included; they are known by the task they push. Tasks are
numbered in the order they are pushed. The last three fields of a pool are not in the
code: they record what the steps did. `ThreadPoolLocks.lean` takes the locked blocks
apart.
-/

namespace QuickStructs.ThreadPool

open Lib

/-- Where a worker is in its loop. -/
inductive Worker where
  /-- Before `stoken.stop_requested()` of the loop condition. -/
  | testStop
  /-- Before `m_stopping.load(..)`. -/
  | testStopping
  /-- Before, or blocked in, `m_semaphore.acquire()`. -/
  | acquire
  /-- Before `stoken.stop_requested()` of the `break`. -/
  | checkStop
  /-- Before `m_tasks.empty()` of the `break`. -/
  | checkEmpty
  /-- Before the locked block. -/
  | pop
  /-- Before `task()`. -/
  | call (t : Nat)
  /-- In `task()`. -/
  | running (t : Nat)
  /-- Out of the loop. -/
  | exited
  deriving DecidableEq, Repr

/-- The data members. -/
inductive Member where
  | numThreads
  | tasks
  | workers
  | mutex
  | semaphore
  | activeTasks
  | stopping
  deriving DecidableEq, Repr

/-- The order in which the class declares them. -/
def declared : List Member :=
  [.numThreads, .tasks, .workers, .mutex, .semaphore, .activeTasks, .stopping]

/-- Where `~ThreadPool` is. -/
inductive Destructor where
  /-- Not begun. -/
  | idle
  /-- In the loop of the body, before `m_semaphore.release()` for thread `i`. -/
  | release (i : Nat)
  /-- Before `thread.request_stop()`. -/
  | requestStop (i : Nat)
  /-- Past the body, with these members still to destroy. -/
  | members (left : List Member)
  deriving DecidableEq, Repr

structure Pool (N : Nat) where
  tasks : List Nat := []
  permits : Nat := 0
  stopping : Bool := false
  stopRequested : Fin N → Bool := fun _ => false
  workers : Fin N → Worker := fun _ => .testStop
  destructor : Destructor := .idle
  /-- The tasks of the enqueue calls that have pushed and not yet released. -/
  pending : List Nat := []
  /-- The number of the next task pushed. -/
  next : Nat := 0
  /-- The tasks of the enqueue calls that have returned. -/
  returned : List Nat := []
  /-- The tasks taken from the queue, in order. -/
  popped : List Nat := []
  /-- The tasks called, in order. -/
  invoked : List Nat := []

variable {N : Nat}

/-- Worker `i` moves on to a point of its loop. -/
def Pool.goto (p : Pool N) (i : Fin N) (w : Worker) : Pool N :=
  { p with workers := Function.update p.workers i w }

/-- The next step of worker `i`. -/
def Pool.workerStep (p : Pool N) (i : Fin N) : Option (Pool N) :=
  match p.workers i with
  | .testStop => some (p.goto i (if p.stopRequested i then .exited else .testStopping))
  | .testStopping => some (p.goto i (if p.stopping then .exited else .acquire))
  | .acquire =>
    if 0 < p.permits then some { p.goto i .checkStop with permits := p.permits - 1 } else none
  | .checkStop => some (p.goto i (if p.stopRequested i then .checkEmpty else .pop))
  | .checkEmpty => some (p.goto i (if p.tasks = [] then .exited else .pop))
  | .pop =>
    match p.tasks with
    | [] => some (p.goto i .testStop)
    | t :: rest => some { p.goto i (.call t) with tasks := rest, popped := p.popped ++ [t] }
  | .call t => some { p.goto i (.running t) with invoked := p.invoked ++ [t] }
  | .running _ => some (p.goto i .testStop)
  | .exited => none

/-- The loop of the destructor's body, at thread `i`. Past the last thread the members
are destroyed, the last declared first. -/
def bodyAt (N i : Nat) : Destructor :=
  if i < N then .release i else .members declared.reverse

/-- The next step of `~ThreadPool`. Destroying `m_workers` joins the jthreads. -/
def Pool.destructorStep (p : Pool N) : Option (Pool N) :=
  match p.destructor with
  | .idle => some { p with stopping := true, destructor := bodyAt N 0 }
  | .release i => some { p with permits := p.permits + 1, destructor := .requestStop i }
  | .requestStop i =>
    some { p with
      stopRequested := fun j => if j.val = i then true else p.stopRequested j
      destructor := bodyAt N (i + 1) }
  | .members [] => none
  | .members (m :: left) =>
    if m = .workers ∧ ¬∀ i, p.workers i = .exited then none
    else some { p with destructor := .members left }

inductive Action (N : Nat) where
  /-- The locked block of an enqueue call. -/
  | push
  /-- The release of the enqueue call that pushed `t`, and its return. -/
  | release (t : Nat)
  | worker (i : Fin N)
  | destructor
  deriving DecidableEq, Repr

def step (p : Pool N) : Action N → Option (Pool N)
  | .push =>
    some { p with
      tasks := p.tasks ++ [p.next], pending := p.pending ++ [p.next], next := p.next + 1 }
  | .release t =>
    if t ∈ p.pending then
      some { p with
        permits := p.permits + 1, pending := p.pending.erase t, returned := p.returned ++ [t] }
    else none
  | .worker i => p.workerStep i
  | .destructor => p.destructorStep

/-- The pools that runs of any clients, the workers and the destructor reach. -/
abbrev Reachable (p : Pool N) : Prop := Transition.Reach (Transition.Of step) {} p

end QuickStructs.ThreadPool
