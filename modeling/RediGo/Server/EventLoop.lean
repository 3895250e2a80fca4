/-
RediGo.Server.EventLoop — the single-threaded server
(`internal/server/server.go`, `RunIoMultiplexingServer`) with its clients.

One goroutine waits for events and handles them one by one: it accepts a
connection, or reads once from a connection and executes the first command
of what it read. Nothing else works on the stores or the descriptors, so the
handling of one event is one step; clients send and hang up between them.

What the kernel decides is part of the action: the descriptor of a new
connection, the events that `Wait` returns, how much a read gives, whether a
write succeeds. A read gives part of what was sent and not yet read, and is
parsed with the zeros behind it. Bytes that are no request, and bytes behind
the first request, are dropped. A panic ends the process.

The status word and its tests are in `RediGo.Server.Status`; a loop that has
returned is a run that stays where it ended. `requests`, `ops` and
`exchanges` record what happened and are read by no step.
-/
import RediGo.Core.IdealServer
import RediGo.Lib.Runs
import RediGo.Server.ReadCommand

namespace RediGo.Server

open RediGo.Go RediGo.HashTable RediGo.Core RediGo.Lib

/-- What `Wait` reports. -/
inductive LoopEvent where
  /-- on `serverFd` -/
  | listener
  | conn (fd : Nat)
  deriving DecidableEq

/-- What `syscall.Read` returns. -/
inductive ReadResult where
  /-- an error other than `ECONNRESET` -/
  | failed
  | reset
  /-- the number of bytes, zero at the end of the stream -/
  | bytes (n : Nat)

/-- What `syscall.Accept` and `Monitor` return. -/
inductive AcceptResult where
  | failed
  | conn (fd : Nat)
  /-- the connection cannot be monitored, which ends the process -/
  | unmonitored

/-- One command that was executed for a connection. -/
structure Exchange where
  conn : Nat
  command : Command
  reply : Bytes
  /-- the reply could be written -/
  delivered : Bool

structure Loop where
  stores : Stores ZSet
  /-- the connections by their descriptors -/
  fds : Nat → Option Nat
  /-- the number of connections accepted so far -/
  opened : Nat
  interest : Nat → Bool
  /-- the events of the last `Wait` that are left -/
  events : List LoopEvent
  /-- what a client has sent and the server not yet read -/
  unread : Nat → Bytes
  /-- the client has closed its side -/
  ended : Nat → Bool
  crashed : Bool
  /-- what each client has sent, one entry for each time it did -/
  requests : Nat → List Bytes
  /-- what was done to the stores -/
  ops : List (ServerOp × Env)
  exchanges : List Exchange

namespace Loop

def init : Loop where
  stores := .init
  fds := fun _ => none
  opened := 0
  interest := fun _ => false
  events := []
  unread := fun _ => []
  ended := fun _ => false
  crashed := false
  requests := fun _ => []
  ops := []
  exchanges := []

/-- What `Wait` can report. -/
def watches (s : Loop) : LoopEvent → Bool
  | .listener => true
  | .conn fd => s.interest fd

/-- `Unmonitor` and `syscall.Close` -/
def close (s : Loop) (fd : Nat) : Loop :=
  { s with
    fds := Function.update s.fds fd none
    interest := Function.update s.interest fd false }

def crash (s : Loop) : Loop := { s with crashed := true }

/-- The next event is taken. -/
def pop (s : Loop) (rest : List LoopEvent) : Loop := { s with events := rest }

/-- A client has sent something. -/
def sent (s : Loop) (conn : Nat) (bytes : Bytes) : Loop :=
  { s with
    unread := Function.update s.unread conn (s.unread conn ++ bytes)
    requests := Function.update s.requests conn (s.requests conn ++ [bytes]) }

/-- A client has closed its side. -/
def hungUp (s : Loop) (conn : Nat) : Loop := { s with ended := Function.update s.ended conn true }

/-- A connection was accepted and is monitored. -/
def accepted (s : Loop) (fd : Nat) : Loop :=
  { s with
    fds := Function.update s.fds fd (some s.opened)
    interest := Function.update s.interest fd true
    opened := s.opened + 1 }

/-- The stores are about to be changed. -/
def noted (s : Loop) (op : ServerOp) (env : Env) : Loop := { s with ops := s.ops ++ [(op, env)] }

/-- The stores were changed. -/
def stored (s : Loop) (stores : Stores ZSet) : Loop := { s with stores := stores }

/-- A command was executed. -/
def exchanged (s : Loop) (e : Exchange) : Loop := { s with exchanges := s.exchanges ++ [e] }

/-- One call of `ActiveDeleteExpiredKeys` -/
def expire (env : Env) (s : Loop) : Loop :=
  match activeDeleteExpiredKeys env s.stores.keyspace with
  | .error _ => (s.noted .expire env).crash
  | .ok keyspace => (s.noted .expire env).stored { s.stores with keyspace := keyspace }

/-- The reply was written, or the connection is closed. -/
def replied (s : Loop) (fd : Nat) (e : Exchange) : Loop :=
  if e.delivered then s.exchanged e else (s.exchanged e).close fd

/-- `ExecuteAndResponse` and what follows it -/
def answer (deps : Deps) (env : Env) (s : Loop) (fd conn : Nat) (cmd : Command)
    (delivered : Bool) : Loop :=
  match executeAndResponse deps env cmd s.stores with
  | .error _ => (s.noted (.command cmd) env).crash
  | .ok (reply, stores) =>
    ((s.noted (.command cmd) env).stored stores).replied fd ⟨conn, cmd, reply, delivered⟩

/-- The next `n` bytes of the connection were read. -/
def drained (s : Loop) (conn n : Nat) : Loop :=
  { s with unread := Function.update s.unread conn ((s.unread conn).drop n) }

/-- `readCommand` with at least one byte, and what follows it -/
def receive (deps : Deps) (env : Env) (s : Loop) (fd conn n : Nat) (delivered : Bool) : Loop :=
  match readCommand ((s.unread conn).take n) with
  | .error _ => (s.drained conn n).crash
  | .ok (.error _) => s.drained conn n
  | .ok (.ok cmd) => (s.drained conn n).answer deps env fd conn cmd delivered

end Loop

inductive LoopAction where
  /-- a client sends, or closes its side of the connection -/
  | send (conn : Nat) (bytes : Bytes)
  | hangUp (conn : Nat)
  /-- the expiry cycle is due -/
  | expire (env : Env)
  | wait (ready : List LoopEvent)
  | accept (result : AcceptResult)
  /-- a read, and the write of a reply, if there is one -/
  | handle (result : ReadResult) (env : Env) (delivered : Bool)

/-- One step, if it is possible. -/
def loopStep (deps : Deps) (s : Loop) : LoopAction → Option Loop
  | .send conn bytes =>
    if conn < s.opened ∧ s.ended conn = false then some (s.sent conn bytes) else none
  | .hangUp conn => if conn < s.opened then some (s.hungUp conn) else none
  | .expire env =>
    if s.crashed = false ∧ s.events = [] then some (s.expire env) else none
  | .wait ready =>
    if s.crashed = false ∧ s.events = [] ∧ ready.Nodup ∧ ∀ e ∈ ready, s.watches e = true then
      some (s.pop ready)
    else none
  | .accept result =>
    if s.crashed then none
    else
      match s.events with
      | .listener :: rest =>
        match result with
        | .failed => some (s.pop rest)
        | .conn fd => if s.fds fd = none then some ((s.pop rest).accepted fd) else none
        | .unmonitored => some (s.pop rest).crash
      | _ => none
  | .handle result env delivered =>
    if s.crashed then none
    else
      match s.events with
      | .conn fd :: rest =>
        match result, s.fds fd with
        | .failed, _ => some (s.pop rest)
        | _, none => none
        | .reset, some _ => some ((s.pop rest).close fd)
        | .bytes 0, some conn =>
          if s.unread conn = [] ∧ s.ended conn then some ((s.pop rest).close fd) else none
        | .bytes (n + 1), some conn =>
          if n + 1 ≤ bufSize ∧ n + 1 ≤ (s.unread conn).length then
            some ((s.pop rest).receive deps env fd conn (n + 1) delivered)
          else none
      | _ => none

end RediGo.Server
