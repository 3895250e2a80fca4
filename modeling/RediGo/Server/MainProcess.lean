/-
RediGo.Server.MainProcess — the goroutines of the process (`cmd/main.go`,
`StartSingleListener` in `internal/server/single_listener_server.go`,
`WaitForSignal` and `Server.Stop` in `internal/server/server.go`).

`main` waits for two goroutines. One accepts connections; the other waits
for the signal and then stops the server. They share the status word and the
field `s.listener`, and each of them writes one and then looks at the other:

  accepting                      stopping
    s.listener = listener          serverStatus = Shutdown
    if serverStatus == Shutdown    if s.listener != nil
      return                         s.listener.Close()
    listener.Accept()

The workers, the handlers and the part of `Stop` that goes through the
workers are those of `Shutdown`. What `Accept` finds on an open listener is
part of the action. `AddConn` and the `Stop` of a handler are one step each:
they take the handler's lock, under which nobody waits.

`net.Listen` succeeds here; the `log.Fatal` after it is left out. The steps are
interleaved as if memory were sequentially consistent. The status word is
atomic, but `s.listener` is a plain field that both goroutines use without a
lock, so for it this is an assumption that Go's memory model does not grant.
-/
import RediGo.Server.Shutdown

namespace RediGo.Server.Shutdown

open RediGo.Go RediGo.HashTable RediGo.Core

/-! ## The process -/

/-- The field `s.listener` and what became of the listener. -/
inductive Listener where
  | unset
  | open
  | closed
  deriving DecidableEq, Repr

/-- Where `StartSingleListener` is. -/
inductive AcceptPc where
  /-- in `net.Listen` -/
  | listen
  /-- before `s.listener = listener` -/
  | publish
  /-- before the `Load` at the head of the loop -/
  | head
  /-- in `Accept` -/
  | accept
  /-- before the `Load` after an error of `Accept` -/
  | failed
  /-- before `AddConn` -/
  | accepted
  | returned
  deriving DecidableEq, Repr

/-- Where `WaitForSignal` is. -/
inductive SignalPc where
  /-- in `<-sigChan` -/
  | waiting
  /-- before the `Store` of `Server.Stop` -/
  | store
  /-- before `s.listener != nil` -/
  | check
  /-- before `s.listener.Close()` -/
  | close
  /-- in the loop over the workers -/
  | workers
  /-- in the loop over the handlers, of which so many are left -/
  | handlers (left : Nat)
  /-- before the `Store` behind `Stop` -/
  | storeAgain
  | done
  deriving DecidableEq, Repr

structure Process (W H : Nat) where
  sys : System W H
  /-- `serverStatus == Shutdown` -/
  shutdown : Bool
  listener : Listener
  accept : AcceptPc
  signal : SignalPc

def Process.init (W H : Nat) : Process W H where
  sys := .init W H
  shutdown := false
  listener := .unset
  accept := .listen
  signal := .waiting

/-- What `Accept` finds on a listener that is open. -/
inductive Accepted where
  | nothing
  | conn
  | error

inductive Turn (W H : Nat) where
  /-- a handler or a worker moves -/
  | work (a : Act W H)
  /-- the accept loop moves -/
  | accept (found : Accepted)
  /-- the signal arrives, or `WaitForSignal` moves -/
  | signal

variable {W H : Nat} {cfg : Config} {hash : Bytes → UInt32}

namespace Process

/-- `return` runs the deferred `listener.Close()`. -/
def leave (p : Process W H) : Process W H :=
  { p with listener := .closed, accept := .returned }

def acceptStep (p : Process W H) (found : Accepted) : Option (Process W H) :=
  match p.accept with
  | .listen => some { p with accept := .publish }
  | .publish => some { p with listener := .open, accept := .head }
  | .head => if p.shutdown then some p.leave else some { p with accept := .accept }
  | .accept =>
    if p.listener = .closed then some { p with accept := .failed }
    else
      match found with
      | .nothing => none
      | .conn => some { p with accept := .accepted }
      | .error => some { p with accept := .failed }
  | .failed => if p.shutdown then some p.leave else some { p with accept := .head }
  | .accepted => some { p with accept := .head }
  | .returned => none

def setSys (p : Process W H) (sys : System W H) : Process W H := { p with sys := sys }

def signalStep (cfg : Config) (hash : Bytes → UInt32) (p : Process (W + 1) H) :
    Option (Process (W + 1) H) :=
  match p.signal with
  | .waiting => some { p with signal := .store }
  | .store => some { p with shutdown := true, signal := .check }
  | .check => some { p with signal := if p.listener = .unset then .workers else .close }
  | .close => some { p with listener := .closed, signal := .workers }
  | .workers =>
    match p.sys.stop with
    | none => (stopStep cfg hash p.sys .callStop).map p.setSys
    | some (i, _) =>
      if i = W + 1 then some { p with signal := .handlers H }
      else (stopStep cfg hash p.sys .stop).map p.setSys
  | .handlers 0 => some { p with signal := .storeAgain }
  | .handlers (left + 1) => some { p with signal := .handlers left }
  | .storeAgain => some { p with shutdown := true, signal := .done }
  | .done => none

/-- The goroutines `main` waits for. -/
def waitGroup (p : Process W H) : Nat :=
  (if p.accept = .returned then 0 else 1) + if p.signal = .done then 0 else 1

end Process

/-- One step, if it is possible. Nothing happens after a panic. -/
def turn (cfg : Config) (hash : Bytes → UInt32) (p : Process (W + 1) H) (t : Turn (W + 1) H) :
    Option (Process (W + 1) H) :=
  if p.sys.panicked.isSome then none
  else
    match t with
    | .work .callStop | .work .stop => none
    | .work a => (stopStep cfg hash p.sys a).map p.setSys
    | .accept found => p.acceptStep found
    | .signal => p.signalStep cfg hash

end RediGo.Server.Shutdown
