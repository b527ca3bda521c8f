import QuickStructs.Lib.Descriptors
import QuickStructs.Lib.Transition

/-!
# The socket handle

`SocketRAII` holds a descriptor, or a negative number for none. The class has no copies; it
is moved, it is assigned an `int`, and it closes what it holds.

A non-negative number that is passed in is one that the system has just returned: it was not
open, but it may have been open before and closed.
-/

namespace QuickStructs.SocketRAII

open Lib

/-- `SocketRAII`. -/
structure Socket where
  fd : Int := -1
  deriving DecidableEq, Repr

inductive TcpError where
  | BAD_SOCKET
  | BIND_FAIL
  | LISTEN_FAIL
  | CONNECT_FAIL
  | ACCEPT_FAIL
  | SEND_FAIL
  | RECV_FAIL
  | INVALID_IP
  deriving DecidableEq, Repr

structure World (H : Type) where
  /-- The handles within their lifetimes. -/
  handles : H → Option Socket := fun _ => none
  os : Descriptors := {}

variable {H : Type} [DecidableEq H]

def World.set (w : World H) (h : H) (x : Option Socket) : World H :=
  { w with handles := Function.update w.handles h x }

/-- `valid` -/
def Socket.valid (x : Socket) : Bool := decide (0 ≤ x.fd)

/-- `if (_fd >= 0) close(_fd);` -/
def World.closeHeld (w : World H) (x : Socket) : World H :=
  if x.valid then { w with os := w.os.close x.fd } else w

/-- `SocketRAII(SocketRAII &&other)` -/
def World.moveCtor (w : World H) (h other : H) (y : Socket) : World H :=
  (w.set h (some ⟨y.fd⟩)).set other (some ⟨-1⟩)

/-- `operator=(SocketRAII &&other)` -/
def World.moveAssign (w : World H) (h other : H) (x y : Socket) : World H :=
  if h ≠ other then ((w.closeHeld x).set h (some ⟨y.fd⟩)).set other (some ⟨-1⟩) else w

/-- `operator=(int newfd)` -/
def World.assign (w : World H) (h : H) (x : Socket) (newfd : Int) : World H :=
  (w.closeHeld x).set h (some ⟨newfd⟩)

/-- `reset` -/
def World.reset (w : World H) (h : H) (x : Socket) (newfd : Int) : World H :=
  (w.closeHeld x).set h (some ⟨newfd⟩)

/-- `~SocketRAII()` -/
def World.dtor (w : World H) (h : H) (x : Socket) : World H := (w.closeHeld x).set h none

/-- `Tcp::create_socket`, on the handle `m_sock`; `fd` is what `::socket` has returned. -/
def World.createSocket (w : World H) (mSock : H) (x : Socket) (fd : Int) :
    World H × Except TcpError Unit :=
  if fd < 0 then (w, .error .BAD_SOCKET) else (w.assign mSock x fd, .ok ())

inductive Op (H : Type) where
  /-- `SocketRAII()` -/
  | defaultCtor (h : H)
  /-- `SocketRAII(fd)` -/
  | ctor (h : H) (fd : Int)
  | moveCtor (h other : H)
  | moveAssign (h other : H)
  /-- `operator=(newfd)` -/
  | assign (h : H) (newfd : Int)
  | reset (h : H) (newfd : Int)
  /-- `Tcp::create_socket`, where `::socket` returns `fd`. -/
  | createSocket (h : H) (fd : Int)
  /-- `~SocketRAII()` -/
  | dtor (h : H)
  deriving DecidableEq, Repr

/-- A descriptor that the system can return now, or no descriptor. -/
def World.mayReceive (w : World H) (fd : Int) : Prop := 0 ≤ fd → w.os.table fd = none

instance (w : World H) (fd : Int) : Decidable (w.mayReceive fd) :=
  inferInstanceAs (Decidable (_ → _))

/-- The system has returned a descriptor. -/
def World.receive (w : World H) (fd : Int) : World H :=
  if 0 ≤ fd then { w with os := w.os.issue fd } else w

def step (w : World H) : Op H → Option (World H)
  | .defaultCtor h =>
    match w.handles h with
    | none => some (w.set h (some {}))
    | some _ => none
  | .ctor h fd =>
    match w.handles h with
    | none => if w.mayReceive fd then some ((w.receive fd).set h (some ⟨fd⟩)) else none
    | some _ => none
  | .moveCtor h other =>
    match w.handles h, w.handles other with
    | none, some y => some (w.moveCtor h other y)
    | _, _ => none
  | .moveAssign h other =>
    match w.handles h, w.handles other with
    | some x, some y => some (w.moveAssign h other x y)
    | _, _ => none
  | .assign h newfd =>
    match w.handles h with
    | some x => if w.mayReceive newfd then some ((w.receive newfd).assign h x newfd) else none
    | none => none
  | .reset h newfd =>
    match w.handles h with
    | some x => if w.mayReceive newfd then some ((w.receive newfd).reset h x newfd) else none
    | none => none
  | .createSocket h fd =>
    match w.handles h with
    | some x => if w.mayReceive fd then some ((w.receive fd).createSocket h x fd).1 else none
    | none => none
  | .dtor h => (w.handles h).map fun x => w.dtor h x

/-- The worlds that sequences of operations reach. -/
abbrev Reachable (w : World H) : Prop := Transition.Reach (Transition.Of step) {} w

end QuickStructs.SocketRAII
