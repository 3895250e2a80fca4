/-
RediGo.Core.IdealServer — what the single-threaded server is for.

The stores of the server are a hash table with expiry times and an eviction
pool, B+ trees, hash sets and tables of counters. Here each of them is what a
client takes it for: a timed map that may lose entries when it is full
(`LossyStore`), a map from members to scores, a finite set, and a sketch that
remembers all it was given (`Sketch`). A command acts on one of the four and
on one key of it.

Three replies are not determined by that: `SMEMBERS` lists a set in any
order, `ZRANK` says of a member with a score only that it is there, and
`INFO` says anything. All others are, the error replies included.

`Stores.run` is the run of the code to which `ServerRefinement` compares it.
-/
import RediGo.Core.CacheTheorems
import RediGo.Core.Commands
import RediGo.Probabilistic.CMSTheorems
import RediGo.SortedSet.SortedSetScores

namespace RediGo.Core

open RediGo.Go RediGo.HashTable RediGo.Lib RediGo.Probabilistic RediGo.SortedSet

/-! ## Commands by name -/

/-- What `ExecuteAndResponse` takes a command for. -/
inductive Call where
  | ping (args : List Bytes)
  | set (args : List Bytes)
  | get (args : List Bytes)
  | ttl (args : List Bytes)
  | zadd (args : List Bytes)
  | zscore (args : List Bytes)
  | zrank (args : List Bytes)
  | sadd (args : List Bytes)
  | srem (args : List Bytes)
  | smembers (args : List Bytes)
  | sismember (args : List Bytes)
  | initByDim (args : List Bytes)
  | initByProb (args : List Bytes)
  | incrBy (args : List Bytes)
  | query (args : List Bytes)
  | info (args : List Bytes)
  | help
  | unknown

def Command.call (cmd : Command) : Call :=
  if cmd.Cmd = lit "PING" then .ping cmd.Args
  else if cmd.Cmd = lit "SET" then .set cmd.Args
  else if cmd.Cmd = lit "GET" then .get cmd.Args
  else if cmd.Cmd = lit "TTL" then .ttl cmd.Args
  else if cmd.Cmd = lit "ZADD" then .zadd cmd.Args
  else if cmd.Cmd = lit "ZSCORE" then .zscore cmd.Args
  else if cmd.Cmd = lit "ZRANK" then .zrank cmd.Args
  else if cmd.Cmd = lit "SADD" then .sadd cmd.Args
  else if cmd.Cmd = lit "SREM" then .srem cmd.Args
  else if cmd.Cmd = lit "SMEMBERS" then .smembers cmd.Args
  else if cmd.Cmd = lit "SISMEMBER" then .sismember cmd.Args
  else if cmd.Cmd = lit "CMS.INITBYDIM" then .initByDim cmd.Args
  else if cmd.Cmd = lit "CMS.INITBYPROB" then .initByProb cmd.Args
  else if cmd.Cmd = lit "CMS.INCRBY" then .incrBy cmd.Args
  else if cmd.Cmd = lit "CMS.QUERY" then .query cmd.Args
  else if cmd.Cmd = lit "INFO" then .info cmd.Args
  else if cmd.Cmd = lit "HELP" then .help
  else .unknown

/-! ## Sets -/

/-- Finite sets by key; a key that was never used has the empty set. -/
abbrev SetMap := Bytes → Finset Bytes

inductive SetStep (m : SetMap) : Call → Bytes → SetMap → Prop
  | sadd (key x : Bytes) (xs : List Bytes) :
    SetStep m (.sadd (key :: x :: xs))
      (encode (.int (Int64.ofNat ((x :: xs).toFinset \ m key).card)) false)
      (Function.update m key (m key ∪ (x :: xs).toFinset))
  | srem (key x : Bytes) (xs : List Bytes) :
    SetStep m (.srem (key :: x :: xs))
      (encode (.int (Int64.ofNat (m key ∩ (x :: xs).toFinset).card)) false)
      (Function.update m key (m key \ (x :: xs).toFinset))
  | smembers (key : Bytes) {l : List Bytes} (hnodup : l.Nodup) (hl : l.toFinset = m key) :
    SetStep m (.smembers [key]) (encode (.strs l) false) m
  | sismember (key x : Bytes) :
    SetStep m (.sismember [key, x]) (encode (.int (if x ∈ m key then 1 else 0)) false) m
  | sadd_args {args : List Bytes} (h : args.length < 2) : SetStep m (.sadd args)
      (errorReply "(error) ERR wrong number of arguments for 'SADD' command") m
  | srem_args {args : List Bytes} (h : args.length < 2) : SetStep m (.srem args)
      (errorReply "(error) ERR wrong number of arguments for 'SADD' command") m
  | smembers_args {args : List Bytes} (h : args.length ≠ 1) : SetStep m (.smembers args)
      (errorReply "(error) ERR wrong number of arguments for 'SMEMBERS' command") m
  | sismember_args {args : List Bytes} (h : args.length ≠ 2) : SetStep m (.sismember args)
      (errorReply "(error) ERR wrong number of arguments for 'SISMEMBER' command") m

/-! ## Sorted sets -/

/-- `ZADD` on the scores of one key, with the number of members added so
far. A member that has a score ends it with an error, its score changed. -/
inductive Scored : List Bytes → ScoreMap Float64 → Int64 → Bytes → ScoreMap Float64 → Prop
  | done (m : ScoreMap Float64) (count : Int64) : Scored [] m count (encode (.int count) false) m
  | noScore {scoreArg : Bytes} (hscore : parseFloat scoreArg = none) (member : Bytes)
    (args : List Bytes) (m : ScoreMap Float64) (count : Int64) :
    Scored (scoreArg :: member :: args) m count
      (errorReply "(error) Score must be floating point number") m
  | added {scoreArg member : Bytes} {args : List Bytes} {m m' : ScoreMap Float64} {count : Int64}
    {score : Float64} {reply : Bytes} (hscore : parseFloat scoreArg = some score)
    (hadd : (m.put score member).1 = 1)
    (hrest : Scored args (m.put score member).2 (count + 1) reply m') :
    Scored (scoreArg :: member :: args) m count reply m'
  | refused {scoreArg member : Bytes} {m : ScoreMap Float64} {score : Float64}
    (hscore : parseFloat scoreArg = some score) (hadd : (m.put score member).1 ≠ 1)
    (args : List Bytes) (count : Int64) :
    Scored (scoreArg :: member :: args) m count (errorReply "error when adding element")
      (m.put score member).2

/-- Scores by key; a key exists from its first `ZADD` on. -/
abbrev ZSetMap := Bytes → Option (ScoreMap Float64)

inductive ZSetStep (m : ZSetMap) : Call → Bytes → ZSetMap → Prop
  | zadd {key : Bytes} {rest : List Bytes} {reply : Bytes} {scores : ScoreMap Float64}
    (hlen : 2 ≤ rest.length) (heven : rest.length % 2 = 0)
    (h : Scored rest ((m key).getD fun _ => none) 0 reply scores) :
    ZSetStep m (.zadd (key :: rest)) reply (Function.update m key (some scores))
  | zscore_none {key member : Bytes} (h : (m key).bind (· member) = none) :
    ZSetStep m (.zscore [key, member]) RespNil m
  | zscore {key member : Bytes} {score : Float64} (h : (m key).bind (· member) = some score) :
    ZSetStep m (.zscore [key, member]) (encode (.str score.format) false) m
  | zrank_none {key : Bytes} (h : m key = none) (member : Bytes) :
    ZSetStep m (.zrank [key, member]) RespNil m
  | zrank {key member : Bytes} {scores : ScoreMap Float64} {rank : Int} (h : m key = some scores)
    (hrank : -1 ≤ rank) (habsent : rank = -1 ↔ scores member = none) :
    ZSetStep m (.zrank [key, member]) (encode (.int (Int64.ofInt rank)) false) m
  | zadd_args {args : List Bytes} (h : args.length < 3) : ZSetStep m (.zadd args)
      (errorReply "(error) ERR wrong number of arguments for 'ZADD' command") m
  | zadd_odd {key : Bytes} {rest : List Bytes} (hlen : 2 ≤ rest.length)
    (hodd : rest.length % 2 = 1) : ZSetStep m (.zadd (key :: rest))
      (errorWith "(error) Wrong number of (score, member) arg: "
        (formatInt (Int64.ofNat rest.length))) m
  | zscore_args {args : List Bytes} (h : args.length ≠ 2) : ZSetStep m (.zscore args)
      (errorReply "(error) ERR wrong number of arguments for 'ZSCORE' command") m
  | zrank_args {args : List Bytes} (h : args.length ≠ 2) : ZSetStep m (.zrank args)
      (errorReply "(error) ERR wrong number of arguments for 'ZRANK' command") m

/-! ## Sketches -/

/-- A sketch and all increments it has counted. -/
structure Sketch where
  width : UInt64
  depth : UInt64
  incrs : List (Bytes × UInt64)

namespace Sketch

/-- `n` is what the sketch says about `x`. -/
def Estimates (hash : ItemHash) (s : Sketch) (x : Bytes) (n : Nat) : Prop :=
  CMS.IsEstimate hash s.width s.depth s.incrs x n

def incr (s : Sketch) (x : Bytes) (value : UInt64) : Sketch :=
  { s with incrs := s.incrs ++ [(x, value)] }

/-- The entry of an increment in the reply. -/
def entry (n : Nat) : Bytes := if n = 2 ^ 64 - 1 then lit "CMS: INCRBY overflow" else decimal n

/-- The increments one after the other, each with what the sketch then says. -/
inductive Counted (hash : ItemHash) : Sketch → List (Bytes × UInt64) → List Bytes → Sketch → Prop
  | nil (s : Sketch) : Counted hash s [] [] s
  | cons {s s' : Sketch} {x : Bytes} {value : UInt64} {pairs : List (Bytes × UInt64)}
    {entries : List Bytes} {n : Nat} (hest : (s.incr x value).Estimates hash x n)
    (hrest : Counted hash (s.incr x value) pairs entries s') :
    Counted hash s ((x, value) :: pairs) (entry n :: entries) s'

end Sketch

/-- The pairs before the first increment that is no number, and whether
there is none such. -/
def parsePairs : List Bytes → List (Bytes × UInt64) × Bool
  | item :: valueArg :: args =>
    match parseUint valueArg with
    | none => ([], false)
    | some value => ((item, value) :: (parsePairs args).1, (parsePairs args).2)
  | _ => ([], true)

/-- The checks of `CMS.INITBYDIM`: the error reply, or key, width and depth. -/
def parseDims (args : List Bytes) : Except Bytes (Bytes × UInt64 × UInt64) :=
  match args with
  | [key, widthArg, heightArg] =>
    match parseInt widthArg with
    | none => .error (errorWith "width must be a integer number " widthArg)
    | some width =>
      match parseInt heightArg with
      | none => .error (errorWith "height must be a integer number " widthArg)
      | some height => .ok (key, width.toUInt64, height.toUInt64)
  | _ => .error (errorReply "(error) ERR wrong number of arguments for 'CMS.INITBYDIM' command")

/-- The checks of `CMS.INITBYPROB`. -/
def parseRates (impl : FloatImpl) (args : List Bytes) : Except Bytes (Bytes × UInt64 × UInt64) :=
  match args with
  | [key, errRateArg, probabilityArg] =>
    match parseFloat errRateArg with
    | none => .error (errorWith "errRate must be a floating point number " errRateArg)
    | some errRate =>
      if outsideUnit errRate then .error (errorReply "CMS: invalid overestimation value")
      else
        match parseFloat probabilityArg with
        | none => .error (errorWith "probability must be a floating poit number " probabilityArg)
        | some probability =>
          if outsideUnit probability then .error (errorReply "CMS: invalid prob value")
          else .ok (key, CMS.calcCMSDim impl errRate probability)
  | _ => .error (errorReply "(error) ERR wrong number of arguments for 'CMS.INITBYPROB' command")

/-- The outcome of the checks of a call that makes a sketch. -/
def Call.dims (impl : FloatImpl) : Call → Option (Except Bytes (Bytes × UInt64 × UInt64))
  | .initByDim args => some (parseDims args)
  | .initByProb args => some (parseRates impl args)
  | _ => none

abbrev SketchMap := Bytes → Option Sketch

inductive SketchStep (deps : Deps) (m : SketchMap) : Call → Bytes → SketchMap → Prop
  | init_refused {call : Call} {reply : Bytes} (h : call.dims deps.impl = some (.error reply)) :
    SketchStep deps m call reply m
  | init_exists {call : Call} {key : Bytes} {w d : UInt64}
    (h : call.dims deps.impl = some (.ok (key, w, d))) (hkey : m key ≠ none) :
    SketchStep deps m call (errorReply "CMS: key already exists") m
  | init {call : Call} {key : Bytes} {w d : UInt64}
    (h : call.dims deps.impl = some (.ok (key, w, d))) (hkey : m key = none) :
    SketchStep deps m call RespOk (Function.update m key (some ⟨w, d, []⟩))
  | incr {key item : Bytes} {rest entries : List Bytes} {s s' : Sketch}
    (hlen : rest.length % 2 = 1) (hkey : m key = some s)
    (h : s.Counted deps.hash (parsePairs (item :: rest)).1 entries s') :
    SketchStep deps m (.incrBy (key :: item :: rest))
      (if (parsePairs (item :: rest)).2 then encode (.strs entries) false
        else errorWith "increment must be a non negative integer number " item)
      (Function.update m key (some s'))
  | incr_missing {key item : Bytes} {rest : List Bytes} (hlen : rest.length % 2 = 1)
    (hkey : m key = none) :
    SketchStep deps m (.incrBy (key :: item :: rest)) (errorReply "CMS: key does not exist") m
  | incr_args {args : List Bytes} (h : args.length < 3 ∨ args.length % 2 = 0) :
    SketchStep deps m (.incrBy args)
      (errorReply "(error) ERR wrong number of arguments for 'CMS.INCBY' command") m
  | query {key : Bytes} {items : List Bytes} {counts : List Nat} {s : Sketch} (hlen : items ≠ [])
    (hkey : m key = some s) (h : List.Forall₂ (s.Estimates deps.hash) items counts) :
    SketchStep deps m (.query (key :: items)) (encode (.strs (counts.map decimal)) false) m
  | query_missing {key : Bytes} {items : List Bytes} (hlen : items ≠ []) (hkey : m key = none) :
    SketchStep deps m (.query (key :: items)) (errorReply "CMS: key does not exist") m
  | query_args {args : List Bytes} (h : args.length < 2) : SketchStep deps m (.query args)
      (errorReply "(error) ERR wrong number of arguments for 'CMS.QUERY' command") m

/-! ## The server -/

structure Ideal where
  keys : TimedMap Bytes Bytes
  zsets : ZSetMap
  sets : SetMap
  sketches : SketchMap

namespace Ideal

def init : Ideal := ⟨.empty, fun _ => none, fun _ => ∅, fun _ => none⟩

/-- A call at time `t`: the reply and the server after it. -/
inductive CallStep (deps : Deps) (t : Nat) (m : Ideal) : Call → Bytes → Ideal → Prop
  | ping (args : List Bytes) : CallStep deps t m (.ping args) (cmdPING args) m
  | set {args : List Bytes} {reply : Bytes} {keys : TimedMap Bytes Bytes}
    (h : LossyStore.Step deps.cfg.maxKeyNumber t m.keys (.set args) (some reply) keys) :
    CallStep deps t m (.set args) reply { m with keys := keys }
  | get {args : List Bytes} {reply : Bytes} {keys : TimedMap Bytes Bytes}
    (h : LossyStore.Step deps.cfg.maxKeyNumber t m.keys (.get args) (some reply) keys) :
    CallStep deps t m (.get args) reply { m with keys := keys }
  | ttl {args : List Bytes} {reply : Bytes} {keys : TimedMap Bytes Bytes}
    (h : LossyStore.Step deps.cfg.maxKeyNumber t m.keys (.ttl args) (some reply) keys) :
    CallStep deps t m (.ttl args) reply { m with keys := keys }
  | zsets {call : Call} {reply : Bytes} {zsets : ZSetMap} (h : ZSetStep m.zsets call reply zsets) :
    CallStep deps t m call reply { m with zsets := zsets }
  | sets {call : Call} {reply : Bytes} {sets : SetMap} (h : SetStep m.sets call reply sets) :
    CallStep deps t m call reply { m with sets := sets }
  | sketches {call : Call} {reply : Bytes} {sketches : SketchMap}
    (h : SketchStep deps m.sketches call reply sketches) :
    CallStep deps t m call reply { m with sketches := sketches }
  | info (args : List Bytes) (v : GoValue) : CallStep deps t m (.info args) (encode v false) m
  | help : CallStep deps t m .help cmdHELP m
  | unknown : CallStep deps t m .unknown (lit "-CMD NOT FOUND\r\n") m

end Ideal

/-- What the loop of the server does with the stores: a command of a client,
or an expiry cycle. -/
inductive ServerOp where
  | command (cmd : Command)
  | expire

/-- The reply, which a cycle does not have, and the stores. -/
def Stores.step {Z : Type} [ScoredSet Z] (deps : Deps) (env : Env) (op : ServerOp) (st : Stores Z) :
    Except Fault (Option Bytes × Stores Z) :=
  match op with
  | .command cmd => do
    let (reply, st) ← executeAndResponse deps env cmd st
    .ok (some reply, st)
  | .expire => do
    let keyspace ← activeDeleteExpiredKeys env st.keyspace
    .ok (none, { st with keyspace := keyspace })

/-- One after the other, with all replies. -/
def Stores.run {Z : Type} [ScoredSet Z] (deps : Deps) :
    List (ServerOp × Env) → Stores Z → Except Fault (List (Option Bytes) × Stores Z)
  | [], st => .ok ([], st)
  | (op, env) :: ops, st => do
    let (reply, st) ← st.step deps env op
    let (replies, st) ← run deps ops st
    .ok (reply :: replies, st)

namespace Ideal

inductive Step (deps : Deps) (t : Nat) (m : Ideal) : ServerOp → Option Bytes → Ideal → Prop
  | command {cmd : Command} {reply : Bytes} {m' : Ideal}
    (h : CallStep deps t m cmd.call reply m') : Step deps t m (.command cmd) (some reply) m'
  | expire : Step deps t m .expire none m

/-- The replies that a run may give. -/
inductive Runs (deps : Deps) : List (ServerOp × Env) → Ideal → List (Option Bytes) → Ideal → Prop
  | nil (m : Ideal) : Runs deps [] m [] m
  | cons {op : ServerOp} {env : Env} {ops : List (ServerOp × Env)} {m m' m'' : Ideal}
    {reply : Option Bytes} {replies : List (Option Bytes)}
    (hstep : Step deps env.millis m op reply m') (hruns : Runs deps ops m' replies m'') :
    Runs deps ((op, env) :: ops) m (reply :: replies) m''

end Ideal

end RediGo.Core
