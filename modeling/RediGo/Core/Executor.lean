/-
RediGo.Core.Executor — the string commands of the single-threaded server
(`internal/core/executor.go`) and its expiry cycle
(`internal/core/expire.go`).

The package variables `dictStore` and `ePool` are the `Keyspace`. A command
takes what it reads from outside as an `Env` and returns its reply, the
bytes written to the connection, with the new key space.

`ActiveDeleteExpiredKeys` repeats rounds of at most twenty samples until a
round finds at most a tenth of them expired. Each further round removed
three entries, so the number of entries bounds the number of rounds.
-/
import RediGo.Core.Resp
import RediGo.HashTable.Dict

namespace RediGo.Core

open RediGo.Go RediGo.HashTable

/-! ## Constants of `internal/constant` -/

def RespOk : Bytes := lit "+OK\r\n"

def TtlKeyNotExist : Bytes := lit ":-2\r\n"

def TtlKeyExistNoExpire : Bytes := lit ":-1\r\n"

def ActiveExpireSampleSize : Nat := 20

/-! ## Commands -/

/-- The package variables the commands share. -/
structure Keyspace where
  dictStore : Dict
  ePool : LruEvictionPool

/-- The state after `init`. -/
def Keyspace.init : Keyspace := ⟨.create, []⟩

/-- `Encode(errors.New(text), false)` -/
def errorReply (text : String) : Bytes := encode (.error (lit text)) false

/-- `cmdPING`. An error is encoded the same way whether or not it is asked
for as a simple string. -/
def cmdPING (args : List Bytes) : Bytes :=
  match args with
  | [] => encode (.str (lit "PONG")) true
  | [arg] => encode (.str arg) false
  | _ => encode (.error (lit "ERR wrong number of arguments for 'ping' command")) true

/-- The checks at the head of `cmdSET`: the error reply, or key, value and
the seconds after `EX`. -/
def parseSET (args : List Bytes) : Except Bytes (Bytes × Bytes × Option Int64) :=
  match args with
  | [key, value] => .ok (key, value, none)
  | [key, value, ex, seconds] =>
    if ex ≠ lit "EX" then
      .error (encode (.error (lit "(error) ERR syntax error. Must be EX instead of " ++ ex)) false)
    else
      match parseInt seconds with
      | none => .error (errorReply "(error) ERR value is not an integer or out of range")
      | some ttlSec => .ok (key, value, some ttlSec)
  | _ => .error (errorReply "(error) ERR wrong number of arguments for 'SET' command")

/-- `ttlMs` in `cmdSET`; the product wraps around. -/
def ttlMs (ttlSec : Option Int64) : Int64 :=
  match ttlSec with
  | none => -1
  | some n => n * 1000

/-- `dictStore.Set(key, dictStore.NewObj(key, value, ttlMs))` -/
def setKey (cfg : Config) (env : Env) (ks : Keyspace) (key value : Bytes) (ttl : Int64) :
    Keyspace :=
  let (obj, d) := ks.dictStore.newObj env key value ttl
  let (d, pool) := d.set cfg env ks.ePool key obj
  ⟨d, pool⟩

/-- `cmdSET` -/
def cmdSET (cfg : Config) (env : Env) (args : List Bytes) (ks : Keyspace) : Bytes × Keyspace :=
  match parseSET args with
  | .error reply => (reply, ks)
  | .ok (key, value, ttlSec) => (RespOk, setKey cfg env ks key value (ttlMs ttlSec))

/-- `cmdGET` -/
def cmdGET (env : Env) (args : List Bytes) (ks : Keyspace) : Bytes × Keyspace :=
  match args with
  | [key] =>
    let (obj, d) := ks.dictStore.get env key
    match obj with
    | none => (RespNil, { ks with dictStore := d })
    | some obj =>
      if d.hasExpired env key then (RespNil, { ks with dictStore := d })
      else (encode (.str obj.value) false, { ks with dictStore := d })
  | _ => (errorReply "(error) ERR wrong number of arguments for 'GET' command", ks)

/-- `cmdTTL` -/
def cmdTTL (env : Env) (args : List Bytes) (ks : Keyspace) : Bytes × Keyspace :=
  match args with
  | [key] =>
    let (obj, d) := ks.dictStore.get env key
    match obj with
    | none => (TtlKeyNotExist, { ks with dictStore := d })
    | some _ =>
      match d.getExpiry key with
      | none => (TtlKeyExistNoExpire, { ks with dictStore := d })
      | some exp =>
        let remainMs := exp - env.now.toUInt64
        if exp ≤ env.now.toUInt64 then (TtlKeyNotExist, { ks with dictStore := d })
        else (encode (.int (remainMs / 1000).toInt64) false, { ks with dictStore := d })
  | _ => (errorReply "(error) ERR wrong number of arguments for 'TTL' command", ks)

/-! ## Active expiry -/

/-- One round over the keys still to be visited: `remain` samples are left
and `expired` keys were deleted so far. -/
def sampleLoop (now : Int64) : List Bytes → Int → Nat → Dict → Nat × Dict
  | [], _, expired, d => (expired, d)
  | key :: keys, remain, expired, d =>
    match d.expiredDictStore.lookup key with
    | none => sampleLoop now keys remain expired d
    | some expiredTime =>
      if remain - 1 < 0 then (expired, d)
      else if expiredTime.toInt64 < now then
        sampleLoop now keys (remain - 1) (expired + 1) (d.del key).2
      else sampleLoop now keys (remain - 1) expired d

/-- One round: the number of deleted keys and the dictionary. -/
def expireRound (env : Env) (round : Nat) (d : Dict) : Nat × Dict :=
  sampleLoop env.now ((env.order round).order d.expiredDictStore.keys) ActiveExpireSampleSize 0 d

/-- The outer loop. The test is `expired/20 <= 0.1` in `float64`, where
`2.0/20.0` is the number the literal `0.1` denotes. -/
def expireLoop (env : Env) : Nat → Nat → Dict → Except Fault Dict
  | 0, _, _ => .error .fuel
  | fuel + 1, round, d =>
    let (expired, d) := expireRound env round d
    if expired * 10 ≤ ActiveExpireSampleSize then .ok d else expireLoop env fuel (round + 1) d

/-- `ActiveDeleteExpiredKeys` -/
def activeDeleteExpiredKeys (env : Env) (ks : Keyspace) : Except Fault Keyspace := do
  let d ← expireLoop env (ks.dictStore.expiredDictStore.keys.length + 1) 0 ks.dictStore
  .ok { ks with dictStore := d }

/-! ## Runs -/

/-- A command on the key space, or one expiry cycle. -/
inductive KeyOp where
  | set (args : List Bytes)
  | get (args : List Bytes)
  | ttl (args : List Bytes)
  | expire

namespace Keyspace

/-- The reply, which a cycle does not have, and the new key space. -/
def step (cfg : Config) (env : Env) (op : KeyOp) (ks : Keyspace) :
    Except Fault (Option Bytes × Keyspace) :=
  match op with
  | .set args => .ok (some (cmdSET cfg env args ks).1, (cmdSET cfg env args ks).2)
  | .get args => .ok (some (cmdGET env args ks).1, (cmdGET env args ks).2)
  | .ttl args => .ok (some (cmdTTL env args ks).1, (cmdTTL env args ks).2)
  | .expire => (activeDeleteExpiredKeys env ks).map fun ks => (none, ks)

/-- One operation after the other, with all replies. -/
def run (cfg : Config) :
    List (KeyOp × Env) → Keyspace → Except Fault (List (Option Bytes) × Keyspace)
  | [], ks => .ok ([], ks)
  | (op, env) :: ops, ks => do
    let (reply, ks) ← step cfg env op ks
    let (replies, ks) ← run cfg ops ks
    .ok (reply :: replies, ks)

end Keyspace

end RediGo.Core
