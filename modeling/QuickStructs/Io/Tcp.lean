import QuickStructs.Io.SocketRAII

/-!
# Servers and clients

`TcpServer` and `TcpClient` are a `Tcp`: an address, the handle `m_sock` of a socket, and a flag.
They make their calls to the system one after the other and give up at the first that fails.
What a call returns is up to the system. An `accept` gives a descriptor only on a socket that
listens; which sockets listen, and the address that `bind` was asked for, is not in the code but in
the system. The code takes what `inet_addr` returns without looking at it, and a port of 0 is one
that the system chooses: so the address asked for need not be the one in the text.

A program has these objects and handles of its own, those for the clients that were accepted. The
handle of a server or a client is the one with the same name.
-/

namespace QuickStructs.TcpServer

open Lib SocketRAII

/-- `Tcp`, but for `m_sock`. -/
structure Tcp where
  ip : List Char := []
  port : UInt16 := 0
  running : Bool := false
  deriving DecidableEq, Repr

/-- What `start` asks `bind` for: what `inet_addr` returns for the text, and the port. -/
def Tcp.address (inetAddr : List Char → UInt32) (x : Tcp) : UInt32 × UInt16 :=
  (inetAddr x.ip, x.port)

structure Net (H : Type) where
  sockets : World H := {}
  /-- The servers and clients within their lifetimes. -/
  tcps : H → Option Tcp := fun _ => none
  /-- The connections that listen, and the addresses that `bind` was asked for. -/
  listening : Nat → Option (UInt32 × UInt16) := fun _ => none
  /-- What the last call that may fail has returned. -/
  returned : Except TcpError Unit := .ok ()

/-- What happens to the objects of a program. -/
inductive Op (H : Type) where
  /-- `TcpServer(ip, port)` or `TcpClient(ip, port)` -/
  | ctor (h : H) (ip : List Char) (port : UInt16)
  /-- `start`, where `::socket`, `::bind` and `::listen` return this. -/
  | start (h : H) (fd bind listen : Int)
  /-- `connect_to_server`, where `::socket`, `::inet_pton` and `::connect` return this. -/
  | connectToServer (h : H) (fd pton connect : Int)
  /-- `accept_client`, where `::accept` returns this. The handle returned is `client`. -/
  | acceptClient (h client : H) (fd : Int)
  /-- A move leaves the string it moves from with any content. -/
  | moveCtor (h other : H) (left : List Char)
  | moveAssign (h other : H) (left : List Char)
  | dtor (h : H)
  /-- The handles of the program's own. -/
  | socket (op : SocketRAII.Op H)
  deriving DecidableEq, Repr

/-- The handles that an operation is on. -/
def handlesOf {H : Type} : SocketRAII.Op H → List H
  | .defaultCtor h | .ctor h _ | .assign h _ | .reset h _ | .createSocket h _ | .dtor h => [h]
  | .moveCtor h other | .moveAssign h other => [h, other]

/-- What `start` returns. -/
def startResult (fd bind listen : Int) : Except TcpError Unit :=
  if fd < 0 then .error .BAD_SOCKET
  else if bind < 0 then .error .BIND_FAIL
  else if listen < 0 then .error .LISTEN_FAIL
  else .ok ()

/-- What `connect_to_server` returns. -/
def connectResult (fd pton connect : Int) : Except TcpError Unit :=
  if fd < 0 then .error .BAD_SOCKET
  else if pton ≤ 0 then .error .INVALID_IP
  else if connect < 0 then .error .CONNECT_FAIL
  else .ok ()

/-- What `accept_client` returns, but for the handle. -/
def acceptResult (fd : Int) : Except TcpError Unit := if fd < 0 then .error .BAD_SOCKET else .ok ()

variable {H : Type} [DecidableEq H] (inetAddr : List Char → UInt32)

/-- The address that the socket of a handle was bound for, if it listens. -/
def Net.listensAt (n : Net H) (h : H) : Option (UInt32 × UInt16) :=
  (n.sockets.handles h).bind fun x => (n.sockets.os.table x.fd).bind n.listening

/-- The socket of `start` is there. Only if all calls succeed does it listen. -/
def Net.started (n : Net H) (h : H) (x : Tcp) (fd : Int) (result : Except TcpError Unit) :
    Net H :=
  match result with
  | .ok () =>
    { n with
      returned := result
      tcps := Function.update n.tcps h (some { x with running := true })
      listening := match n.sockets.os.table fd with
        | some c => Function.update n.listening c (some (x.address inetAddr))
        | none => n.listening }
  | .error _ => { n with returned := result }

/-- The members are moved one by one. -/
def Net.moved (n : Net H) (h other : H) (y : Tcp) (left : List Char) : Net H :=
  { n with
    tcps := Function.update (Function.update n.tcps h (some y)) other (some { y with ip := left }) }

def Net.withSockets (n : Net H) (w : World H) : Net H := { n with sockets := w }

def step (n : Net H) : Op H → Option (Net H)
  | .ctor h ip port =>
    (SocketRAII.step n.sockets (.ctor h (-1))).map fun w =>
      { n.withSockets w with tcps := Function.update n.tcps h (some { ip := ip, port := port }) }
  | .start h fd bind listen =>
    (n.tcps h).bind fun x =>
      (SocketRAII.step n.sockets (.createSocket h fd)).map fun w =>
        (n.withSockets w).started inetAddr h x fd (startResult fd bind listen)
  | .connectToServer h fd pton connect =>
    (n.tcps h).bind fun _ =>
      (SocketRAII.step n.sockets (.createSocket h fd)).map fun w =>
        { n.withSockets w with returned := connectResult fd pton connect }
  | .acceptClient h client fd =>
    (n.tcps h).bind fun _ =>
      if fd < 0 then some { n with returned := acceptResult fd }
      else if (n.listensAt h).isSome then
        (SocketRAII.step n.sockets (.ctor client fd)).map fun w =>
          { n.withSockets w with returned := acceptResult fd }
      else none
  | .moveCtor h other left =>
    (n.tcps other).bind fun y =>
      (SocketRAII.step n.sockets (.moveCtor h other)).map fun w =>
        (n.withSockets w).moved h other y left
  | .moveAssign h other left =>
    -- moved to itself, an object keeps all but its string
    (n.tcps h).bind fun _ =>
      (n.tcps other).bind fun y =>
        (SocketRAII.step n.sockets (.moveAssign h other)).map fun w =>
          (n.withSockets w).moved h other y left
  | .dtor h =>
    (n.tcps h).bind fun _ =>
      (SocketRAII.step n.sockets (.dtor h)).map fun w =>
        { n.withSockets w with tcps := Function.update n.tcps h none }
  | .socket op =>
    if ∀ h ∈ handlesOf op, n.tcps h = none then
      (SocketRAII.step n.sockets op).map n.withSockets
    else none

abbrev Reachable (n : Net H) : Prop := Transition.Reach (Transition.Of (step inetAddr)) {} n

/-- No server or client is moved to itself. -/
def Op.MovesOn : Op H → Prop
  | .moveAssign h other _ => h ≠ other
  | _ => True

instance (op : Op H) : Decidable op.MovesOn :=
  match op with
  | .moveAssign h other _ => inferInstanceAs (Decidable (h ≠ other))
  | .ctor .. | .start .. | .connectToServer .. | .acceptClient .. | .moveCtor .. | .dtor _
  | .socket _ => inferInstanceAs (Decidable True)

end QuickStructs.TcpServer
