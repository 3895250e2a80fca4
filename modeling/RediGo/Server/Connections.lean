/-
RediGo.Server.Connections — connections, descriptors and the handlers' loops
(`internal/server/io_handler.go`, `internal/server/single_listener_server.go`,
`internal/server/multi_listeners_server.go`), around the workers of
`RediGo.Server.Sharding`.

A handler knows its connections by their descriptors. It reads a command
through the connection object, waits for the reply, and writes it to the
descriptor number, so a reply goes to whoever has that number then. The
kernel gives a new connection any number that is not in use.

Steps are as small as the source's own synchronisation allows. `AddConn` and
`closeConn` hold the handler's mutex, but closing a connection frees its
number before the mutex is released, and other handlers and listeners go on
meanwhile. The listener may be one or several: the handler a connection is
given to is chosen freely, which covers the counter that the listeners of
`StartMultiListeners` share without synchronisation.

What the kernel decides is part of the action: the number of a new
connection, which descriptors are ready, what a read gives, and how much of a
reply a write takes. The handler does not look at the result of the write, so
what the kernel did not take is lost. `asked`, `written` and `received` record
what happened and are read by no step.
-/
import RediGo.Server.Ledger

namespace RediGo.Server

open RediGo.Go RediGo.HashTable RediGo.Core RediGo.Lib

/-- Where a handler is in `IOHandler.Run`. -/
inductive Phase where
  /-- in `Wait`, or at the next event -/
  | polling
  /-- the connection of the event was found -/
  | reading (fd conn : Nat)
  /-- a command was parsed -/
  | asking (fd conn : Nat) (command : Command)
  /-- the command was dispatched as task `id` -/
  | awaiting (fd conn : Nat) (command : Command) (id : Nat)
  /-- the reply was received -/
  | answering (fd conn : Nat) (command : Command) (id : Nat) (reply : Bytes)
  /-- the read failed: `closeConn` is called -/
  | closing (fd : Nat)
  /-- in `closeConn`: the connection is closed and not yet deleted -/
  | closed (fd conn : Nat)

/-- Where a listener is in its loop. -/
inductive Acceptor (H : Nat) where
  | accepting
  /-- a connection was accepted -/
  | holding (conn fd : Nat)
  /-- in `AddConn` of `h`: the connection is stored and not yet monitored -/
  | adding (conn fd : Nat) (h : Fin H)

/-- Who holds a handler's mutex. -/
inductive Holder (A : Nat) where
  | handler
  | acceptor (a : Fin A)
  deriving DecidableEq

/-- A call of `syscall.Write`: the connection that has the number, the reply,
and how many bytes of it the kernel took. A call that failed took none. -/
structure Delivery where
  conn : Nat
  reply : Bytes
  count : Nat

structure Net (W H A : Nat) where
  server : State W H
  /-- the descriptor table of the process -/
  fds : Nat → Option Nat
  /-- the number of connections accepted so far -/
  opened : Nat
  /-- `IOHandler.conns` -/
  conns : Fin H → Nat → Option Nat
  /-- the descriptors that a handler's multiplexer monitors -/
  interest : Fin H → Nat → Bool
  /-- the events of the last `Wait` that are left -/
  events : Fin H → List Nat
  phase : Fin H → Phase
  acceptors : Fin A → Acceptor H
  /-- `IOHandler.mu` -/
  mu : Fin H → Option (Holder A)
  /-- the commands read, with the connection they came from -/
  asked : List (Nat × Command)
  written : List Delivery
  /-- the bytes that went to a connection -/
  received : Nat → Bytes

variable {W H A : Nat}

namespace Net

def init (W H A : Nat) : Net W H A where
  server := State.init W H
  fds := fun _ => none
  opened := 0
  conns := fun _ _ => none
  interest := fun _ _ => false
  events := fun _ => []
  phase := fun _ => .polling
  acceptors := fun _ => .accepting
  mu := fun _ => none
  asked := []
  written := []
  received := fun _ => []

/-- `conn.Close()`: the number is free, and no multiplexer monitors it any
more. -/
def free (n : Net W H A) (conn : Nat) : Net W H A :=
  { n with
    fds := fun fd => if n.fds fd = some conn then none else n.fds fd
    interest := fun h fd => n.interest h fd && decide (n.fds fd ≠ some conn) }

def goto (n : Net W H A) (h : Fin H) (phase : Phase) : Net W H A :=
  { n with phase := Function.update n.phase h phase }

/-- A listener has accepted a connection with the number `fd`. -/
def accepted (n : Net W H A) (a : Fin A) (fd : Nat) : Net W H A :=
  { n with
    fds := Function.update n.fds fd (some n.opened)
    opened := n.opened + 1
    acceptors := Function.update n.acceptors a (.holding n.opened fd) }

/-- The listener `a` has locked the handler and stored the connection. -/
def stored (n : Net W H A) (a : Fin A) (h : Fin H) (conn fd : Nat) : Net W H A :=
  { n with
    mu := Function.update n.mu h (some (.acceptor a))
    conns := Function.update n.conns h (Function.update (n.conns h) fd (some conn))
    acceptors := Function.update n.acceptors a (.adding conn fd h) }

/-- The connection is monitored, if that succeeds, and the handler unlocked. -/
def monitored (n : Net W H A) (a : Fin A) (h : Fin H) (fd : Nat) (ok : Bool) : Net W H A :=
  { n with
    mu := Function.update n.mu h none
    interest := Function.update n.interest h
      (Function.update (n.interest h) fd (ok || n.interest h fd))
    acceptors := Function.update n.acceptors a .accepting }

/-- The listener has closed a connection that no handler took. -/
def refused (n : Net W H A) (a : Fin A) (conn : Nat) : Net W H A :=
  { n.free conn with acceptors := Function.update n.acceptors a .accepting }

/-- The handler has locked itself and closed the connection. -/
def shut (n : Net W H A) (h : Fin H) (fd conn : Nat) : Net W H A :=
  { (n.free conn).goto h (.closed fd conn) with mu := Function.update n.mu h (some .handler) }

/-- The handler has deleted the connection and unlocked itself. -/
def deleted (n : Net W H A) (h : Fin H) (fd : Nat) : Net W H A :=
  { n.goto h .polling with
    conns := Function.update n.conns h (Function.update (n.conns h) fd none)
    mu := Function.update n.mu h none }

/-- A write to the number `fd`, of which `count` bytes are taken. -/
def write (n : Net W H A) (fd : Nat) (reply : Bytes) (count : Nat) : Net W H A :=
  match n.fds fd with
  | some conn =>
    { n with
      written := n.written ++ [⟨conn, reply, count⟩]
      received := Function.update n.received conn (n.received conn ++ reply.take count) }
  | none => n

end Net

inductive NetAction (W H A : Nat) where
  /-- a worker takes or executes a task -/
  | take (w : Fin W)
  | execute (w : Fin W) (env : Env)
  /-- `Accept` returns a connection with the number `fd` -/
  | accept (a : Fin A) (fd : Nat)
  /-- `AddConn` of handler `h` locks and stores the connection -/
  | add (a : Fin A) (h : Fin H)
  /-- `Monitor`, whose error is not looked at, and the end of `AddConn` -/
  | monitor (a : Fin A) (ok : Bool)
  /-- `AddConn` returned an error: the listener closes the connection -/
  | refuse (a : Fin A)
  /-- `Wait` returns these events -/
  | wait (h : Fin H) (ready : List Nat)
  /-- the connection of the next event is looked up -/
  | find (h : Fin H)
  /-- `readCommandConn` fails, or returns a command -/
  | read (h : Fin H) (outcome : Option Command)
  | dispatch (h : Fin H) (any : Fin W)
  | receive (h : Fin H)
  /-- `syscall.Write(connFd, res)`, which takes at most `count` bytes -/
  | write (h : Fin H) (count : Nat)
  /-- `closeConn` locks, looks the connection up and closes it -/
  | close (h : Fin H)
  /-- `closeConn` deletes the connection and unlocks -/
  | delete (h : Fin H)

/-- One step, if it is possible. -/
def netStep (cfg : Config) (hash : Bytes → UInt32) (n : Net (W + 1) H A) :
    NetAction (W + 1) H A → Option (Net (W + 1) H A)
  | .take w => (step cfg hash n.server (.take w)).map fun s => { n with server := s }
  | .execute w env => (step cfg hash n.server (.execute w env)).map fun s => { n with server := s }
  | .accept a fd =>
    match n.acceptors a, n.fds fd with
    | .accepting, none => some (n.accepted a fd)
    | _, _ => none
  | .add a h =>
    match n.acceptors a, n.mu h with
    | .holding conn fd, none => some (n.stored a h conn fd)
    | _, _ => none
  | .monitor a ok =>
    match n.acceptors a with
    | .adding _ fd h => some (n.monitored a h fd ok)
    | _ => none
  | .refuse a =>
    match n.acceptors a with
    | .holding conn _ => some (n.refused a conn)
    | _ => none
  | .wait h ready =>
    match n.phase h, n.events h with
    | .polling, [] =>
      if ready.Nodup ∧ ∀ fd ∈ ready, n.interest h fd = true then
        some { n with events := Function.update n.events h ready }
      else none
    | _, _ => none
  | .find h =>
    match n.phase h, n.events h, n.mu h with
    | .polling, fd :: rest, none =>
      let n' := { n with events := Function.update n.events h rest }
      match n.conns h fd with
      | none => some n'
      | some conn => some (n'.goto h (.reading fd conn))
    | _, _, _ => none
  | .read h outcome =>
    match n.phase h with
    | .reading fd conn =>
      match outcome with
      | none => some (n.goto h (.closing fd))
      | some command => some { n.goto h (.asking fd conn command) with
          asked := n.asked ++ [(conn, command)] }
    | _ => none
  | .dispatch h any =>
    match n.phase h with
    | .asking fd conn command =>
      (step cfg hash n.server (.dispatch h command any)).map fun s =>
        { n.goto h (.awaiting fd conn command n.server.dispatched.length) with server := s }
    | _ => none
  | .receive h =>
    match n.phase h with
    | .awaiting fd conn command id =>
      match n.server.replyCh id with
      | [] => none
      | reply :: _ => (step cfg hash n.server (.receive h)).map fun s =>
          { n.goto h (.answering fd conn command id reply) with server := s }
    | _ => none
  | .write h count =>
    match n.phase h with
    | .answering fd _ _ _ reply => some ((n.write fd reply count).goto h .polling)
    | _ => none
  | .close h =>
    match n.phase h, n.mu h with
    | .closing fd, none =>
      match n.conns h fd with
      | none => some (n.goto h .polling)
      | some conn => some (n.shut h fd conn)
    | _, _ => none
  | .delete h =>
    match n.phase h with
    | .closed fd _ => some (n.deleted h fd)
    | _ => none

end RediGo.Server
