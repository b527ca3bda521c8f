import QuickStructs.Lib.Decimal
import QuickStructs.Lib.Transition
import Mathlib.Logic.Function.Basic

/-!
# The logger

There is one `Logger` for each tag type, made by the first call of `get_instance` for the tag.
A call puts its whole line together in a stream of its own. It then takes the mutex of its logger
and writes the line to `std::cout`. The loggers share `std::cout`, which is one character after
the other: no mutex is common to two loggers.

The last two fields of a state are not in the code: they record what was called and in which
order the mutexes were taken.
-/

namespace QuickStructs.Logger

open Lib

inductive Level where
  | info
  | debug
  | error
  | warn
  deriving DecidableEq, Repr

/-- `_level_to_string` -/
def levelToString : Level → List Char
  | .info => ['I', 'N', 'F', 'O']
  | .debug => ['D', 'E', 'B', 'U', 'G']
  | .error => ['E', 'R', 'R', 'O', 'R']
  | .warn => ['W', 'A', 'R', 'N']

/-- `_level_to_color` -/
def levelToColor : Level → List Char
  | .info => ['\x1b', '[', '3', '2', 'm']
  | .debug => ['\x1b', '[', '3', '6', 'm']
  | .error => ['\x1b', '[', '3', '1', 'm']
  | .warn => ['\x1b', '[', '3', '3', 'm']

/-- What the clock says, as `localtime_r` has it, and the milliseconds of the second. These are
negative before 1970. -/
structure Time where
  tmHour : Nat
  tmMin : Nat
  tmSec : Nat
  ms : Int
  deriving DecidableEq, Repr

/-- What a call gets, with what each argument writes for itself, and the time. -/
structure Call where
  level : Level
  func : List Char
  line : Int
  args : List (List Char)
  time : Time
  deriving DecidableEq, Repr

/-- `(n < 10 ? "0" : "") << n` -/
def padded (n : Nat) : List Char := if n < 10 then '0' :: Decimal.natural n else Decimal.natural n

/-- What `_log` puts into the stream `oss`, one after the other. -/
def Call.oss (mName : List Char) (c : Call) : List Char :=
  [levelToColor c.level, ['['],
    padded c.time.tmHour, [':'], padded c.time.tmMin, [':'], padded c.time.tmSec, ['.'],
    Decimal.integer c.time.ms, [']'], ['['], levelToString c.level, [']'],
    ['['], mName, [':', ':'], c.func, [':'], Decimal.integer c.line, [']', ' '],
    c.args.flatten, ['\x1b', '[', '0', 'm'], ['\n']].flatten

/-- Where a thread is in `_log`. -/
inductive Stage (κ : Type) where
  | idle
  /-- Before the mutex, with the line. -/
  | built (tag : κ) (call : Call) (oss : List Char)
  /-- With the mutex, and what is left of the line. -/
  | writing (tag : κ) (rest : List Char)
  deriving DecidableEq, Repr

structure State (τ κ : Type) where
  /-- The `m_name` of the instance of each tag, if there is one. -/
  instances : κ → Option (List Char) := fun _ => none
  /-- Who has the `m_log_mutex` of each tag. -/
  logMutex : κ → Option τ := fun _ => none
  stage : τ → Stage κ := fun _ => .idle
  /-- `std::cout`: each character, and the logger that it comes from. -/
  cout : List (κ × Char) := []
  called : List (τ × κ × Call) := []
  taken : List (τ × κ × Call) := []

inductive Action (τ κ : Type) where
  /-- `get_instance`, with no call after it. -/
  | getInstance (tag : κ) (name : List Char)
  /-- A call, with the name that it passes to `get_instance`. -/
  | log (t : τ) (tag : κ) (name : List Char) (call : Call)
  | lock (t : τ)
  | put (t : τ)
  | unlock (t : τ)
  deriving DecidableEq, Repr

variable {τ κ : Type} [DecidableEq τ] [DecidableEq κ]

/-- `get_instance`: a name that comes later is dropped. -/
def State.getInstance (s : State τ κ) (tag : κ) (name : List Char) : State τ κ :=
  { s with instances := Function.update s.instances tag (some ((s.instances tag).getD name)) }

/-- The `m_name` of a logger that there is. -/
def State.mName (s : State τ κ) (tag : κ) : List Char := (s.instances tag).getD []

def State.goto (s : State τ κ) (t : τ) (p : Stage κ) : State τ κ :=
  { s with stage := Function.update s.stage t p }

/-- The line is put together. -/
def State.build (s : State τ κ) (t : τ) (tag : κ) (call : Call) : State τ κ :=
  { s.goto t (.built tag call (call.oss (s.mName tag))) with
    called := s.called ++ [(t, tag, call)] }

/-- The mutex is locked. -/
def State.take (s : State τ κ) (t : τ) (tag : κ) (call : Call) (oss : List Char) : State τ κ :=
  { s.goto t (.writing tag oss) with
    logMutex := Function.update s.logMutex tag (some t)
    taken := s.taken ++ [(t, tag, call)] }

/-- One character is written. -/
def State.emit (s : State τ κ) (t : τ) (tag : κ) (c : Char) (rest : List Char) : State τ κ :=
  { s.goto t (.writing tag rest) with cout := s.cout ++ [(tag, c)] }

/-- The mutex is unlocked. -/
def State.give (s : State τ κ) (t : τ) (tag : κ) : State τ κ :=
  { s.goto t .idle with logMutex := Function.update s.logMutex tag none }

def step (s : State τ κ) : Action τ κ → Option (State τ κ)
  | .getInstance tag name => some (s.getInstance tag name)
  | .log t tag name call =>
    match s.stage t with
    | .idle => some ((s.getInstance tag name).build t tag call)
    | _ => none
  | .lock t =>
    match s.stage t with
    | .built tag call oss => if s.logMutex tag = none then some (s.take t tag call oss) else none
    | _ => none
  | .put t =>
    match s.stage t with
    | .writing tag (c :: rest) => some (s.emit t tag c rest)
    | _ => none
  | .unlock t =>
    match s.stage t with
    | .writing tag [] => some (s.give t tag)
    | _ => none

/-- What runs of any number of threads reach. -/
abbrev Reachable (s : State τ κ) : Prop := Transition.Reach (Transition.Of step) {} s

end QuickStructs.Logger
