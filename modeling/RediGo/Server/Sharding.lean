/-
RediGo.Server.Sharding — I/O handlers and workers
(`internal/server/server.go`, `internal/server/io_handler.go` and
`Worker.run`), as a system of interleaved steps.

A handler dispatches a parsed command to the task channel of one worker and
waits for the reply; a worker takes the head of its channel, executes it on
its own dictionary and sends the reply on the task's own channel. The
channels are bounded as in the source: 1024 tasks, one reply. A step that
would block is not possible.

The hash is an arbitrary function. The choice of a worker for a command
without arguments, the command itself, and what a command reads from outside
are part of the action, so a list of actions is one interleaving.

Executing a command is one step. A worker has its dictionary for itself, but
under `allkeys-lru` all workers evict through the one pool `ePool`, which has no
lock: two evictions at a time are a data race, and what a torn pool would do is
left out. The other policies do not use the pool.

`dispatched`, `executed` and `delivered` record what happened and are read
by no step.
-/
import Mathlib.Data.Fintype.Basic
import RediGo.Core.Worker

namespace RediGo.Server

open RediGo.Go RediGo.HashTable RediGo.Core

/-- `core.Task`. The reply channel is made together with the task, so `id`
names both. -/
structure Task (H : Nat) where
  id : Nat
  handler : Fin H
  command : Command

/-- A worker: its dictionary, its task channel, and the task it has taken
and not yet executed. -/
structure WorkerState (H : Nat) where
  dictStore : Dict
  taskCh : List (Task H)
  current : Option (Task H)

/-- A task that was executed, with what it read and what it replied. -/
structure Execution (H : Nat) where
  task : Task H
  env : Env
  reply : Bytes

structure State (W H : Nat) where
  workers : Fin W → WorkerState H
  /-- the task whose reply the handler waits for -/
  waiting : Fin H → Option Nat
  /-- the contents of the reply channels -/
  replyCh : Nat → List Bytes
  /-- the shared package variable -/
  ePool : LruEvictionPool
  dispatched : List (Task H)
  executed : List (Execution H)
  delivered : List (Nat × Bytes)

/-- The capacity of a task channel. -/
def taskChCap : Nat := 1024

/-- The state after `NewServer`. -/
def State.init (W H : Nat) : State W H where
  workers := fun _ => ⟨.create, [], none⟩
  waiting := fun _ => none
  replyCh := fun _ => []
  ePool := []
  dispatched := []
  executed := []
  delivered := []

/-- `getPartitionID`, for a server with at least one worker -/
def getPartitionID {W : Nat} (hash : Bytes → UInt32) (key : Bytes) : Fin (W + 1) :=
  ⟨(hash key).toNat % (W + 1), Nat.mod_lt _ (Nat.succ_pos W)⟩

/-- The worker a command goes to: that of its first argument, or the one
`rand.Intn` chose. -/
def target {W : Nat} (hash : Bytes → UInt32) (command : Command) (any : Fin (W + 1)) :
    Fin (W + 1) :=
  match command.Args with
  | [] => any
  | key :: _ => getPartitionID hash key

inductive Action (W H : Nat) where
  /-- handler `h` dispatches a command -/
  | dispatch (h : Fin H) (command : Command) (any : Fin W)
  /-- worker `w` receives from its task channel -/
  | take (w : Fin W)
  /-- worker `w` executes the task it took and sends the reply -/
  | execute (w : Fin W) (env : Env)
  /-- handler `h` receives the reply it waits for -/
  | receive (h : Fin H)

variable {W H : Nat}

namespace State

/-- Send `task` to worker `w`. -/
def send (s : State W H) (w : Fin W) (task : Task H) : State W H :=
  { s with
    workers := Function.update s.workers w
      { s.workers w with taskCh := (s.workers w).taskCh ++ [task] }
    waiting := Function.update s.waiting task.handler (some task.id)
    dispatched := s.dispatched ++ [task] }

/-- Worker `w` holds `task`, and `rest` is left in its channel. -/
def pick (s : State W H) (w : Fin W) (task : Task H) (rest : List (Task H)) : State W H :=
  { s with
    workers := Function.update s.workers w
      { s.workers w with taskCh := rest, current := some task } }

/-- Worker `w` executes `task`. -/
def perform (cfg : Config) (s : State W H) (w : Fin W) (env : Env) (task : Task H) : State W H :=
  let (reply, ks) := Worker.execute cfg env task.command ⟨(s.workers w).dictStore, s.ePool⟩
  { s with
    workers := Function.update s.workers w
      { s.workers w with dictStore := ks.dictStore, current := none }
    replyCh := Function.update s.replyCh task.id (s.replyCh task.id ++ [reply])
    ePool := ks.ePool
    executed := s.executed ++ [⟨task, env, reply⟩] }

/-- Handler `h` receives `reply` from the channel of task `id`. -/
def deliver (s : State W H) (h : Fin H) (id : Nat) (reply : Bytes) (rest : List Bytes) :
    State W H :=
  { s with
    waiting := Function.update s.waiting h none
    replyCh := Function.update s.replyCh id rest
    delivered := s.delivered ++ [(id, reply)] }

end State

/-- One step, if it is possible. -/
def step (cfg : Config) (hash : Bytes → UInt32) (s : State (W + 1) H) :
    Action (W + 1) H → Option (State (W + 1) H)
  | .dispatch h command any =>
    let w := target hash command any
    if s.waiting h = none ∧ (s.workers w).taskCh.length < taskChCap then
      some (s.send w ⟨s.dispatched.length, h, command⟩)
    else none
  | .take w =>
    match (s.workers w).current, (s.workers w).taskCh with
    | none, task :: rest => some (s.pick w task rest)
    | _, _ => none
  | .execute w env =>
    match (s.workers w).current with
    | some task => if s.replyCh task.id = [] then some (s.perform cfg w env task) else none
    | none => none
  | .receive h =>
    match s.waiting h with
    | none => none
    | some id =>
      match s.replyCh id with
      | [] => none
      | reply :: rest => some (s.deliver h id reply rest)

/-! ## The single worker -/

/-- One worker with one dictionary that executes the given commands one at a
time: its replies and its key space. -/
def single (cfg : Config) : List (Command × Env) → Keyspace → List Bytes × Keyspace
  | [], ks => ([], ks)
  | (command, env) :: rest, ks =>
    let (reply, ks) := Worker.execute cfg env command ks
    let (replies, ks) := single cfg rest ks
    (reply :: replies, ks)

/-- The commands the workers executed, in the order of execution. -/
def State.history (s : State W H) : List (Command × Env) :=
  s.executed.map fun e => (e.task.command, e.env)

end RediGo.Server
