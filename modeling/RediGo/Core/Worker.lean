/-
RediGo.Core.Worker — the commands of a shard (`internal/core/worker.go`).

A worker owns a `Dict` and executes one task after the other on it. Its
commands are those of the executor with two differences: the third argument
of `SET` is not looked at, and there are only three commands. The eviction
pool is a package variable and therefore shared by all workers, so it is
passed beside the worker's dictionary as the rest of the `Keyspace`.
-/
import RediGo.Core.Executor

namespace RediGo.Core.Worker

open RediGo.Go RediGo.HashTable

/-- `Worker.cmdPING` -/
def cmdPING (args : List Bytes) : Bytes :=
  match args with
  | [] => encode (.str (lit "PONG")) true
  | [arg] => encode (.str arg) false
  | _ => encode (.error (lit "ERR wrong number of arguments for 'ping' command")) false

/-- The checks at the head of `Worker.cmdSET`, as `parseSET`. -/
def parseSET (args : List Bytes) : Except Bytes (Bytes × Bytes × Option Int64) :=
  match args with
  | [key, value] => .ok (key, value, none)
  | [key, value, _, seconds] =>
    match parseInt seconds with
    | none => .error (errorReply "(error) ERR value is not an integer or out of range")
    | some ttlSec => .ok (key, value, some ttlSec)
  | _ => .error (errorReply "(error) ERR wrong number of arguments for 'SET' command")

/-- `Worker.cmdSET` -/
def cmdSET (cfg : Config) (env : Env) (args : List Bytes) (ks : Keyspace) : Bytes × Keyspace :=
  match parseSET args with
  | .error reply => (reply, ks)
  | .ok (key, value, ttlSec) => (RespOk, setKey cfg env ks key value (ttlMs ttlSec))

/-- `Worker.cmdGET` -/
def cmdGET (env : Env) (args : List Bytes) (ks : Keyspace) : Bytes × Keyspace :=
  match args with
  | [key] =>
    let (obj, d) := ks.dictStore.get env key
    match obj with
    | none => (RespNil, { ks with dictStore := d })
    | some obj =>
      if d.hasExpired env key then (RespNil, { ks with dictStore := d })
      else (encode (.str obj.value) false, { ks with dictStore := d })
  | _ => (errorReply "(error) ERR wrong number of arguments for 'GET' command", ks)

/-- `Worker.ExecuteAndResponse`, up to sending the reply -/
def execute (cfg : Config) (env : Env) (command : Command) (ks : Keyspace) : Bytes × Keyspace :=
  if command.Cmd = lit "SET" then cmdSET cfg env command.Args ks
  else if command.Cmd = lit "GET" then cmdGET env command.Args ks
  else if command.Cmd = lit "PING" then (cmdPING command.Args, ks)
  else (lit "-CMD NOT FOUND\r\n", ks)

end RediGo.Core.Worker
