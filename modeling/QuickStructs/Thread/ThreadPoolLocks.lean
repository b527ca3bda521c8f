import QuickStructs.Thread.ThreadPool

/-!
# The thread pool, lock by lock

`ThreadPool.lean` takes a locked block as one step and the calls of the clients and of
the tasks as nobody's. Here both are taken apart. To lock `m_mutex`, to do what is done
under it and to unlock it are steps of their own, and a call of `enqueue` or
`get_num_active_tasks` is made by a thread, which goes through it step by step: by one of
`M` clients, or by a worker that runs a task. (`get_num_threads` reads a number that
outlives the workers, and `get_thread_id` no member.)
-/

namespace QuickStructs.ThreadPool

open Lib

/-- The functions a client or a task may call. -/
inductive Method where
  | enqueue
  | getNumActiveTasks
  deriving DecidableEq, Repr

/-- Where a thread is in such a call. -/
inductive Call where
  /-- `enqueue`, before, or blocked in, the lock of `m_mutex`. -/
  | lockPush
  /-- Before `m_tasks.emplace(..)`. -/
  | emplace
  /-- Before the unlock, with the task that was pushed. -/
  | unlockPush (t : Nat)
  /-- Before `m_semaphore.release()`. -/
  | release (t : Nat)
  /-- `get_num_active_tasks`, before, or blocked in, the lock of `m_mutex`. -/
  | lockSize
  /-- Before `m_tasks.size()`. -/
  | size
  /-- Before the unlock. -/
  | unlockSize
  deriving DecidableEq, Repr

def Method.entry : Method → Call
  | .enqueue => .lockPush
  | .getNumActiveTasks => .lockSize

/-- Where a worker is in its loop. -/
inductive Place where
  /-- Before `stoken.stop_requested()` of the loop condition. -/
  | testStop
  /-- Before `m_stopping.load(..)`. -/
  | testStopping
  /-- Before, or blocked in, `m_semaphore.acquire()`. -/
  | acquire
  /-- Before `stoken.stop_requested()` of the `break`. -/
  | checkStop
  /-- Before `m_tasks.empty()` of the `break`. -/
  | checkEmpty
  /-- Before, or blocked in, the lock of the locked block. -/
  | lock
  /-- Before `m_tasks.empty()` of the `continue`. -/
  | empty
  /-- Before `m_tasks.front()` and `m_tasks.pop()`. -/
  | take
  /-- Before the unlock, with the task if there was one. -/
  | unlock (t : Option Nat)
  /-- Before `task()`. -/
  | call (t : Nat)
  /-- In `task()`, and in the call that the task has made, if any. -/
  | running (t : Nat) (c : Option Call)
  /-- Out of the loop. -/
  | exited
  deriving DecidableEq, Repr

/-- A pool, its `N` workers and `M` clients. The last four fields are records, as in
`Pool`. -/
structure LockedPool (N M : Nat) where
  tasks : List Nat := []
  permits : Nat := 0
  stopping : Bool := false
  /-- The thread that has locked `m_mutex`. -/
  holder : Option (Fin N ⊕ Fin M) := none
  stopRequested : Fin N → Bool := fun _ => false
  workers : Fin N → Place := fun _ => .testStop
  clients : Fin M → Option Call := fun _ => none
  destructor : Destructor := .idle
  /-- The number of the next task pushed. -/
  next : Nat := 0
  pending : List Nat := []
  returned : List Nat := []
  popped : List Nat := []
  invoked : List Nat := []

variable {N M : Nat}

/-- Worker `i` moves on to a place of its loop. -/
def LockedPool.goto (p : LockedPool N M) (i : Fin N) (w : Place) : LockedPool N M :=
  { p with workers := Function.update p.workers i w }

/-- Client `j` moves on in its call, or returns from it. -/
def LockedPool.clientAt (p : LockedPool N M) (j : Fin M) (c : Option Call) : LockedPool N M :=
  { p with clients := Function.update p.clients j c }

/-- The next step of a call that the thread `me` makes, and where it is then. -/
def LockedPool.callStep (p : LockedPool N M) (me : Fin N ⊕ Fin M) :
    Call → Option (LockedPool N M × Option Call)
  | .lockPush =>
    if p.holder = none then some ({ p with holder := some me }, some .emplace) else none
  | .emplace =>
    some ({ p with
      tasks := p.tasks ++ [p.next], pending := p.pending ++ [p.next], next := p.next + 1 },
      some (.unlockPush p.next))
  | .unlockPush t => some ({ p with holder := none }, some (.release t))
  | .release t =>
    some ({ p with
      permits := p.permits + 1, pending := p.pending.erase t, returned := p.returned ++ [t] },
      none)
  | .lockSize =>
    if p.holder = none then some ({ p with holder := some me }, some .size) else none
  | .size => some (p, some .unlockSize)
  | .unlockSize => some ({ p with holder := none }, none)

/-- The next step of worker `i`. A task that is in no call ends. -/
def LockedPool.workerStep (p : LockedPool N M) (i : Fin N) : Option (LockedPool N M) :=
  match p.workers i with
  | .testStop => some (p.goto i (if p.stopRequested i then .exited else .testStopping))
  | .testStopping => some (p.goto i (if p.stopping then .exited else .acquire))
  | .acquire =>
    if 0 < p.permits then some { p.goto i .checkStop with permits := p.permits - 1 } else none
  | .checkStop => some (p.goto i (if p.stopRequested i then .checkEmpty else .lock))
  | .checkEmpty => some (p.goto i (if p.tasks = [] then .exited else .lock))
  | .lock =>
    if p.holder = none then some { p.goto i .empty with holder := some (.inl i) } else none
  | .empty => some (p.goto i (if p.tasks = [] then .unlock none else .take))
  | .take =>
    match p.tasks with
    -- `front()` of an empty queue
    | [] => none
    | t :: rest =>
      some { p.goto i (.unlock (some t)) with tasks := rest, popped := p.popped ++ [t] }
  | .unlock t => some { p.goto i (t.elim .testStop .call) with holder := none }
  | .call t => some { p.goto i (.running t none) with invoked := p.invoked ++ [t] }
  | .running _ none => some (p.goto i .testStop)
  | .running t (some c) => (p.callStep (.inl i) c).map fun r => r.1.goto i (.running t r.2)
  | .exited => none

/-- The next step of `~ThreadPool`. Destroying `m_workers` joins the jthreads. -/
def LockedPool.destructorStep (p : LockedPool N M) : Option (LockedPool N M) :=
  match p.destructor with
  | .idle => some { p with stopping := true, destructor := bodyAt N 0 }
  | .release i => some { p with permits := p.permits + 1, destructor := .requestStop i }
  | .requestStop i =>
    some { p with
      stopRequested := fun j => if j.val = i then true else p.stopRequested j
      destructor := bodyAt N (i + 1) }
  | .members [] => none
  | .members (m :: left) =>
    if m = .workers ∧ ¬∀ i, p.workers i = .exited then none
    else some { p with destructor := .members left }

inductive Move (N M : Nat) where
  | worker (i : Fin N)
  /-- The task that worker `i` runs calls the pool. -/
  | taskCalls (i : Fin N) (f : Method)
  | clientCalls (j : Fin M) (f : Method)
  /-- Client `j` goes on in its call. -/
  | client (j : Fin M)
  | destructor
  deriving DecidableEq, Repr

def LockedPool.step (p : LockedPool N M) : Move N M → Option (LockedPool N M)
  | .worker i => p.workerStep i
  | .taskCalls i f =>
    match p.workers i with
    | .running t none => some (p.goto i (.running t (some f.entry)))
    | _ => none
  | .clientCalls j f =>
    match p.clients j with
    | none => some (p.clientAt j (some f.entry))
    | some _ => none
  | .client j =>
    match p.clients j with
    | none => none
    | some c => (p.callStep (.inr j) c).map fun r => r.1.clientAt j r.2
  | .destructor => p.destructorStep

/-- The pools that runs of the clients, the workers and the destructor reach. -/
abbrev LockedPool.Reachable (p : LockedPool N M) : Prop :=
  Transition.Reach (Transition.Of LockedPool.step) {} p

/-- Has the member not been destroyed yet? -/
def LockedPool.alive (p : LockedPool N M) (m : Member) : Bool :=
  match p.destructor with
  | .members left => left.contains m
  | _ => true

/-- The members the next step of a call operates on. -/
def Call.touches : Call → List Member
  | .lockPush | .unlockPush _ | .lockSize | .unlockSize => [.mutex]
  | .emplace | .size => [.tasks]
  | .release _ => [.semaphore]

/-- The members a worker operates on in its next step. -/
def Place.touches : Place → List Member
  | .testStopping => [.stopping]
  | .acquire => [.semaphore]
  | .checkEmpty | .empty | .take => [.tasks]
  | .lock | .unlock _ => [.mutex]
  | .running _ (some c) => c.touches
  | _ => []

end QuickStructs.ThreadPool
