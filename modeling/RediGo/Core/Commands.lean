/-
RediGo.Core.Commands — the other commands of the single-threaded server
(`internal/core/command_cms.go`, `command_help.go`, `command_info.go`,
`commands_set.go`, `commands_sorted_set.go`) and `ExecuteAndResponse`
(`executor.go`).

The package variables of `storage.go` are the `Stores`. A command returns
the bytes it writes and the new stores; a run-time panic writes nothing.
The maps hold pointers, each to its own object, so storing the changed
object under its key is what the Go code does.

The sorted-set commands call four methods of `SortedSet`. They are the
class `ScoredSet`, so that what is said about the commands does not depend
on the tree behind them. In the server it is the B+ tree over all of
`float64`: `ZADD` accepts a NaN too.
-/
import RediGo.Core.Executor
import RediGo.Go.Float
import RediGo.Probabilistic.CMS
import RediGo.SimpleSet.SimpleSet
import RediGo.SortedSet.SortedSet

namespace RediGo.Core

open RediGo.Go RediGo.HashTable RediGo.Probabilistic

/-! ## State -/

/-- The methods of `SortedSet` the commands call. -/
class ScoredSet (Z : Type) where
  /-- `NewSortedSet` with a B+ tree of `DefaultBPlusTreeDegree` -/
  new : Z
  add : Z → Float64 → Bytes → Except Fault (Int × Z)
  getScore : Z → Bytes → Option Float64
  getRank : Z → Bytes → Except Fault Int

def DefaultBPlusTreeDegree : Int := 4

/-- The sets of the server: a B+ tree over `float64` scores. -/
abbrev ZSet := SortedSet (SortedSet.BTreeIndex Float64) Float64

instance : ScoredSet ZSet where
  new := SortedSet.newSortedSetWithBTree DefaultBPlusTreeDegree
  add := SortedSet.add
  getScore := SortedSet.getScore
  getRank := SortedSet.getRank

/-- The package variables of `storage.go`, and the eviction pool. -/
structure Stores (Z : Type) where
  keyspace : Keyspace
  zsetStore : Map Z
  setStore : Map SimpleSet
  cmsStore : Map CMS

/-- The state after `init`. -/
def Stores.init {Z : Type} : Stores Z := ⟨.init, ∅, ∅, ∅⟩

/-- What stays the same for all commands: the configuration, the floating
point functions, murmur3. -/
structure Deps where
  cfg : Config
  impl : FloatImpl
  hash : ItemHash

/-- What a command writes, and the stores after it. -/
abbrev Answer (Z : Type) := Bytes × Stores Z

/-- `Encode(errors.New(text+arg), false)`, and `fmt.Errorf` with one `%s` at
the end -/
def errorWith (text : String) (arg : Bytes) : Bytes := encode (.error (lit text ++ arg)) false

/-- The reply is an error of the protocol. -/
def IsError (reply : Bytes) : Prop := reply.head? = some '-'.toUInt8

theorem isError_error (text : Bytes) : IsError (encode (.error text) false) := by
  rw [IsError, encode]
  rfl

theorem not_isError_int (n : Int64) : ¬ IsError (encode (.int n) false) := by
  rw [IsError, encode]
  exact fun h => absurd (Option.some.inj h) (by decide)

theorem not_isError_strs (l : List Bytes) : ¬ IsError (encode (.strs l) false) := by
  rw [IsError, encode]
  exact fun h => absurd (Option.some.inj h) (by decide)

section Commands

variable {Z : Type} [ScoredSet Z]

/-! ## Sorted sets -/

/-- The loop of `cmdZADD` over the arguments that are left. -/
def zaddLoop : List Bytes → Z → Int64 → Except Fault (Bytes × Z)
  | [], zset, count => .ok (encode (.int count) false, zset)
  | [_], _, _ => .error .index
  | scoreArg :: member :: args, zset, count =>
    match parseFloat scoreArg with
    | none => .ok (errorReply "(error) Score must be floating point number", zset)
    | some score => do
      let (ret, zset) ← ScoredSet.add zset score member
      if ret ≠ 1 then .ok (errorReply "error when adding element", zset)
      else zaddLoop args zset (count + 1)

/-- `cmdZADD`. `NewSortedSet` with a B+ tree returns no error. -/
def cmdZADD (args : List Bytes) (st : Stores Z) : Except Fault (Answer Z) :=
  match args with
  | key :: rest =>
    if args.length < 3 then
      .ok (errorReply "(error) ERR wrong number of arguments for 'ZADD' command", st)
    else if rest.length % 2 = 1 ∨ rest.length = 0 then
      .ok (errorWith "(error) Wrong number of (score, member) arg: "
        (formatInt (Int64.ofNat rest.length)), st)
    else do
      let zset := (st.zsetStore.lookup key).getD ScoredSet.new
      let (reply, zset) ← zaddLoop rest zset 0
      .ok (reply, { st with zsetStore := st.zsetStore.insert key zset })
  | [] => .ok (errorReply "(error) ERR wrong number of arguments for 'ZADD' command", st)

/-- `cmdZSCORE` -/
def cmdZSCORE (args : List Bytes) (st : Stores Z) : Except Fault (Answer Z) :=
  match args with
  | [key, member] =>
    match st.zsetStore.lookup key with
    | none => .ok (RespNil, st)
    | some zset =>
      match ScoredSet.getScore zset member with
      | none => .ok (RespNil, st)
      | some score => .ok (encode (.str score.format) false, st)
  | _ => .ok (errorReply "(error) ERR wrong number of arguments for 'ZSCORE' command", st)

/-- `cmdZRANK` -/
def cmdZRANK (args : List Bytes) (st : Stores Z) : Except Fault (Answer Z) :=
  match args with
  | [key, member] =>
    match st.zsetStore.lookup key with
    | none => .ok (RespNil, st)
    | some zset => do
      let rank ← ScoredSet.getRank zset member
      .ok (encode (.int (Int64.ofInt rank)) false, st)
  | _ => .ok (errorReply "(error) ERR wrong number of arguments for 'ZRANK' command", st)

/-! ## Sets -/

/-- `cmdSADD` and `cmdSREM`, which differ in the method they call. -/
def changeSet (change : SimpleSet → List Bytes → Nat × SimpleSet) (args : List Bytes)
    (st : Stores Z) : Except Fault (Answer Z) :=
  match args with
  | key :: m :: members =>
    let set := (st.setStore.lookup key).getD (.newSimpleSet key)
    let (count, set) := change set (m :: members)
    .ok (encode (.int (Int64.ofNat count)) false,
      { st with setStore := st.setStore.insert key set })
  | _ => .ok (errorReply "(error) ERR wrong number of arguments for 'SADD' command", st)

def cmdSADD (args : List Bytes) (st : Stores Z) : Except Fault (Answer Z) :=
  changeSet SimpleSet.add args st

/-- `cmdSREM`; its error names `SADD` too. -/
def cmdSREM (args : List Bytes) (st : Stores Z) : Except Fault (Answer Z) :=
  changeSet SimpleSet.rem args st

/-- `cmdSMEMBERS` -/
def cmdSMEMBERS (env : Env) (args : List Bytes) (st : Stores Z) : Except Fault (Answer Z) :=
  match args with
  | [key] =>
    match st.setStore.lookup key with
    | none => .ok (encode (.strs []) false, st)
    | some set => .ok (encode (.strs (set.members (env.order 0))) false, st)
  | _ => .ok (errorReply "(error) ERR wrong number of arguments for 'SMEMBERS' command", st)

/-- `cmdSISMEMBER` -/
def cmdSISMEMBER (args : List Bytes) (st : Stores Z) : Except Fault (Answer Z) :=
  match args with
  | [key, member] =>
    match st.setStore.lookup key with
    | none => .ok (encode (.int 0) false, st)
    | some set => .ok (encode (.int (Int64.ofNat (set.isMember member))) false, st)
  | _ => .ok (errorReply "(error) ERR wrong number of arguments for 'SISMEMBER' command", st)

/-! ## Count-Min sketches -/

/-- The end of both `CMS.INITBY` commands. -/
def initCMS (key : Bytes) (w d : UInt64) (st : Stores Z) : Except Fault (Answer Z) :=
  if key ∈ st.cmsStore then .ok (errorReply "CMS: key already exists", st)
  else do
    let cms ← CMS.newCMS w d
    .ok (RespOk, { st with cmsStore := st.cmsStore.insert key cms })

/-- `cmdCMSINITBYDIM`. The error for the height names the width. -/
def cmdCMSINITBYDIM (args : List Bytes) (st : Stores Z) : Except Fault (Answer Z) :=
  match args with
  | [key, widthArg, heightArg] =>
    match parseInt widthArg with
    | none => .ok (errorWith "width must be a integer number " widthArg, st)
    | some width =>
      match parseInt heightArg with
      | none => .ok (errorWith "height must be a integer number " widthArg, st)
      | some height => initCMS key width.toUInt64 height.toUInt64 st
  | _ => .ok (errorReply "(error) ERR wrong number of arguments for 'CMS.INITBYDIM' command", st)

/-- `x >= 1 || x <= 0`, which does not hold of NaN -/
def outsideUnit (x : Float64) : Bool := Float64.one.le x || x.le .zero

/-- `cmdCMSINITBYPROB` -/
def cmdCMSINITBYPROB (deps : Deps) (args : List Bytes) (st : Stores Z) : Except Fault (Answer Z) :=
  match args with
  | [key, errRateArg, probabilityArg] =>
    match parseFloat errRateArg with
    | none => .ok (errorWith "errRate must be a floating point number " errRateArg, st)
    | some errRate =>
      if outsideUnit errRate then .ok (errorReply "CMS: invalid overestimation value", st)
      else
        match parseFloat probabilityArg with
        | none => .ok (errorWith "probability must be a floating poit number " probabilityArg, st)
        | some probability =>
          if outsideUnit probability then .ok (errorReply "CMS: invalid prob value", st)
          else
            let (w, h) := CMS.calcCMSDim deps.impl errRate probability
            initCMS key w h st
  | _ => .ok (errorReply "(error) ERR wrong number of arguments for 'CMS.INITBYPROB' command", st)

/-- The loop of `cmdCMSINCRBY` over the arguments that are left, with the
results so far. The error for any increment names the first item. -/
def incrLoop (hash : ItemHash) (firstItem : Bytes) :
    List Bytes → CMS → List Bytes → Except Fault (Bytes × CMS)
  | [], cms, res => .ok (encode (.strs res) false, cms)
  | [_], _, _ => .error .index
  | item :: valueArg :: args, cms, res =>
    match parseUint valueArg with
    | none => .ok (errorWith "increment must be a non negative integer number " firstItem, cms)
    | some value => do
      let (count, cms) ← cms.incrBy hash item value
      let entry := if count = MaxUint64 then lit "CMS: INCRBY overflow" else decimal count.toNat
      incrLoop hash firstItem args cms (res ++ [entry])

/-- `cmdCMSINCRBY` -/
def cmdCMSINCRBY (deps : Deps) (args : List Bytes) (st : Stores Z) : Except Fault (Answer Z) :=
  match args with
  | key :: item :: rest =>
    if args.length < 3 ∨ args.length % 2 = 0 then
      .ok (errorReply "(error) ERR wrong number of arguments for 'CMS.INCBY' command", st)
    else
      match st.cmsStore.lookup key with
      | none => .ok (errorReply "CMS: key does not exist", st)
      | some cms => do
        let (reply, cms) ← incrLoop deps.hash item (item :: rest) cms []
        .ok (reply, { st with cmsStore := st.cmsStore.insert key cms })
  | _ => .ok (errorReply "(error) ERR wrong number of arguments for 'CMS.INCBY' command", st)

/-- The loop of `cmdCMSQUERY`. -/
def queryLoop (hash : ItemHash) (cms : CMS) : List Bytes → Except Fault (List Bytes)
  | [] => .ok []
  | item :: items => do
    let count ← cms.count hash item
    let res ← queryLoop hash cms items
    .ok (decimal count.toNat :: res)

/-- `cmdCMSQUERY` -/
def cmdCMSQUERY (deps : Deps) (args : List Bytes) (st : Stores Z) : Except Fault (Answer Z) :=
  match args with
  | key :: item :: items =>
    match st.cmsStore.lookup key with
    | none => .ok (errorReply "CMS: key does not exist", st)
    | some cms => do
      let res ← queryLoop deps.hash cms (item :: items)
      .ok (encode (.strs res) false, st)
  | _ => .ok (errorReply "(error) ERR wrong number of arguments for 'CMS.QUERY' command", st)

/-! ## The server itself -/

/-- The expiry times after now. -/
def liveExpiries (env : Env) (d : Dict) : List UInt64 :=
  (d.expiredDictStore.entries.map (·.2)).filter (env.now.toUInt64 < ·)

/-- `ExpiringKeysCount` -/
def expiringKeysCount (env : Env) (d : Dict) : Int64 := Int64.ofNat (liveExpiries env d).length

/-- `TLL_Avg` -/
def tllAvg (env : Env) (d : Dict) : UInt64 :=
  let live := liveExpiries env d
  if live = [] then 0
  else live.foldl (fun res exp => res + (exp - env.now.toUInt64)) 0 / UInt64.ofNat live.length

/-- `cmdINFO` -/
def cmdINFO (env : Env) (args : List Bytes) (st : Stores Z) : Except Fault (Answer Z) :=
  match args with
  | [] =>
    .ok (encode (.str (lit
      "All sections. I will implement later. You can try `INFO keyspace` command\n")) false, st)
  | [sectionName] =>
    if sectionName = lit "keyspace" then
      let d := st.keyspace.dictStore
      let info := lit "# Keyspace\r\n" ++ lit "db0:keys=" ++ formatInt (Int64.ofNat d.len) ++
        lit ",expires=" ++ formatInt (expiringKeysCount env d) ++
        lit ",avg_ttl=" ++ decimal (tllAvg env d).toNat ++ lit "\r\n"
      .ok (encode (.str info) false, st)
    else .ok (errorReply "(error) ERR unknown INFO section", st)
  | _ => .ok (errorReply "(error) ERR wrong number of arguments for 'INFO' command", st)

def helpCommands : List String :=
  ["--------------------------------",
   "PING [message] - Ping the server",
   "GET key - Get the value of a key",
   "SET key value - Set the value of a key",
   "EXISTS key - Check if a key exists",
   "TTL key - Get the time to live for a key",
   "SADD key member [member ...] - Add members to a set",
   "SREM key member [member ...] - Remove members from a set",
   "HELP - Show this help message",
   "CLEAR - Clear the terminal screen",
   "--------------------------------"]

/-- `cmdHELP` -/
def cmdHELP : Bytes := encode (.strs (helpCommands.map lit)) false

/-! ## Dispatch -/

/-- A command of the key space as a command of all stores. -/
def onKeyspace (cmd : Keyspace → Bytes × Keyspace) (st : Stores Z) : Except Fault (Answer Z) :=
  .ok ((cmd st.keyspace).1, { st with keyspace := (cmd st.keyspace).2 })

/-- `ExecuteAndResponse`, up to the system call that writes the reply -/
def executeAndResponse (deps : Deps) (env : Env) (cmd : Command) (st : Stores Z) :
    Except Fault (Answer Z) :=
  if cmd.Cmd = lit "PING" then .ok (cmdPING cmd.Args, st)
  else if cmd.Cmd = lit "SET" then onKeyspace (cmdSET deps.cfg env cmd.Args) st
  else if cmd.Cmd = lit "GET" then onKeyspace (cmdGET env cmd.Args) st
  else if cmd.Cmd = lit "TTL" then onKeyspace (cmdTTL env cmd.Args) st
  else if cmd.Cmd = lit "ZADD" then cmdZADD cmd.Args st
  else if cmd.Cmd = lit "ZSCORE" then cmdZSCORE cmd.Args st
  else if cmd.Cmd = lit "ZRANK" then cmdZRANK cmd.Args st
  else if cmd.Cmd = lit "SADD" then cmdSADD cmd.Args st
  else if cmd.Cmd = lit "SREM" then cmdSREM cmd.Args st
  else if cmd.Cmd = lit "SMEMBERS" then cmdSMEMBERS env cmd.Args st
  else if cmd.Cmd = lit "SISMEMBER" then cmdSISMEMBER cmd.Args st
  else if cmd.Cmd = lit "CMS.INITBYDIM" then cmdCMSINITBYDIM cmd.Args st
  else if cmd.Cmd = lit "CMS.INITBYPROB" then cmdCMSINITBYPROB deps cmd.Args st
  else if cmd.Cmd = lit "CMS.INCRBY" then cmdCMSINCRBY deps cmd.Args st
  else if cmd.Cmd = lit "CMS.QUERY" then cmdCMSQUERY deps cmd.Args st
  else if cmd.Cmd = lit "INFO" then cmdINFO env cmd.Args st
  else if cmd.Cmd = lit "HELP" then .ok (cmdHELP, st)
  else .ok (lit "-CMD NOT FOUND\r\n", st)

end Commands

end RediGo.Core
