/-
RediGo.Server.Shutdown — `Server.Stop` and `Worker.Stop`
(`internal/server/server.go`, `internal/core/worker.go`) against handlers
and workers that go on working.

The system of `Sharding` gets what a shutdown adds: each worker's context
can be cancelled, its task channel closed, and its `run` can return. `Stop`
is one goroutine that goes through the workers in order and cancels, closes
and waits for each. The handlers are stopped after the workers, and that
only closes their multiplexers: a handler that goes through a batch of
events goes on, so here it can always dispatch.

At its `select` a worker may take any branch that is ready. A cancelled
context is ready whether or not tasks are queued; a closed channel still
delivers what is queued before it reports that it is closed. Sending on a
closed channel panics and ends the process.

`put` records which worker's channel each task was put in and is read by no
step.
-/
import RediGo.Server.Sharding

namespace RediGo.Server.Shutdown

open RediGo.Go RediGo.HashTable RediGo.Core

/-- What has become of a worker. -/
structure Lifecycle where
  /-- `w.cancel()` was called -/
  cancelled : Bool
  /-- `close(w.TaskCh)` was called -/
  closed : Bool
  /-- `run` has returned -/
  exited : Bool
  deriving DecidableEq, Repr

/-- What `Worker.Stop` does next. -/
inductive StopPhase where
  | cancel
  | close
  | wait
  deriving DecidableEq, Repr

structure System (W H : Nat) where
  server : State W H
  life : Fin W → Lifecycle
  /-- the worker `Server.Stop` is at, once it was called -/
  stop : Option (Nat × StopPhase)
  /-- a handler that sent on a closed channel -/
  panicked : Option (Fin H)
  put : List (Fin W × Task H)

/-- The state after `NewServer`. -/
def System.init (W H : Nat) : System W H where
  server := .init W H
  life := fun _ => ⟨false, false, false⟩
  stop := none
  panicked := none
  put := []

inductive Act (W H : Nat) where
  /-- a handler or a worker does its work -/
  | serve (a : Action W H)
  /-- `Server.Stop` is called -/
  | callStop
  /-- `Server.Stop` moves -/
  | stop
  /-- the worker's `select` takes `ctx.Done()` -/
  | takeDone (w : Fin W)
  /-- the worker's `select` finds the channel closed and empty -/
  | takeClosed (w : Fin W)

variable {W H : Nat}

namespace System

def updateLife (s : System W H) (w : Fin W) (f : Lifecycle → Lifecycle) : System W H :=
  { s with life := Function.update s.life w (f (s.life w)) }

/-- The worker's `run` returns. -/
def exit (s : System W H) (w : Fin W) : System W H :=
  s.updateLife w fun l => { l with exited := true }

/-- One move of `Server.Stop`, which is at worker `w`. -/
def stopWorker (s : System W H) (w : Fin W) : StopPhase → Option (System W H)
  | .cancel =>
    some { s.updateLife w (fun l => { l with cancelled := true }) with stop := some (w, .close) }
  | .close =>
    some { s.updateLife w (fun l => { l with closed := true }) with stop := some (w, .wait) }
  | .wait => if (s.life w).exited then some { s with stop := some (w + 1, .cancel) } else none

end System

/-- A handler's or a worker's step. A worker that has exited takes no task. -/
def serveStep (cfg : Config) (hash : Bytes → UInt32) (s : System (W + 1) H) :
    Action (W + 1) H → Option (System (W + 1) H)
  | .dispatch h command any =>
    let w := target hash command any
    if s.server.waiting h = none ∧ (s.life w).closed then some { s with panicked := some h }
    else
      (step cfg hash s.server (.dispatch h command any)).map fun server =>
        { s with
          server := server
          put := s.put ++ [(w, ⟨s.server.dispatched.length, h, command⟩)] }
  | .take w =>
    if (s.life w).exited then none
    else (step cfg hash s.server (.take w)).map fun server => { s with server := server }
  | .execute w env =>
    (step cfg hash s.server (.execute w env)).map fun server => { s with server := server }
  | .receive h =>
    (step cfg hash s.server (.receive h)).map fun server => { s with server := server }

/-- One step, if it is possible. Nothing happens after a panic. -/
def stopStep (cfg : Config) (hash : Bytes → UInt32) (s : System (W + 1) H)
    (a : Act (W + 1) H) : Option (System (W + 1) H) :=
  if s.panicked.isSome then none
  else
    match a with
    | .serve a => serveStep cfg hash s a
    | .callStop => if s.stop.isNone then some { s with stop := some (0, .cancel) } else none
    | .stop =>
      match s.stop with
      | none => none
      | some (i, phase) => if h : i < W + 1 then s.stopWorker ⟨i, h⟩ phase else none
    | .takeDone w =>
      if (s.life w).exited = false ∧ (s.server.workers w).current.isNone ∧ (s.life w).cancelled then
        some (s.exit w)
      else none
    | .takeClosed w =>
      if (s.life w).exited = false ∧ (s.server.workers w).current.isNone ∧ (s.life w).closed ∧
          (s.server.workers w).taskCh.isEmpty then some (s.exit w)
      else none

end RediGo.Server.Shutdown
