/-
RediGo.Core.WorkerTheorems — a command touches one key.

`cell ks k` is everything a key space holds for the key `k`. Below the key
limit a worker's command with arguments is local at its first argument, and
one without arguments is inert (`execute_localAt`, `execute_inert`), whatever
its name and however malformed it is.

`executor_agrees_iff` compares the worker's commands with those of the
executor, which were written separately: they differ in one check of `SET`.
-/
import RediGo.Core.ExpiryTheorems
import RediGo.Core.Worker
import RediGo.Lib.Shard

namespace RediGo.Core

open RediGo.Go RediGo.HashTable RediGo.Lib

/-- The object and the expiry time stored under a key. -/
abbrev Cell := Option Obj × Option UInt64

def Keyspace.cell (ks : Keyspace) (k : Bytes) : Cell :=
  (ks.dictStore.dictStore.lookup k, ks.dictStore.expiredDictStore.lookup k)

theorem Keyspace.notMem_of_cell {ks : Keyspace} {k : Bytes} (h : ks.cell k = (none, none)) :
    k ∉ ks.dictStore.dictStore ∧ k ∉ ks.dictStore.expiredDictStore :=
  ⟨AList.lookup_eq_none.1 (congrArg Prod.fst h), AList.lookup_eq_none.1 (congrArg Prod.snd h)⟩

/-- There is room for another key. -/
def Keyspace.HasRoom (cfg : Config) (ks : Keyspace) : Prop :=
  (ks.dictStore.len : Int) < cfg.maxKeyNumber

namespace Worker

variable {cfg : Config} {env : Env}

/-! ## `SET` -/

theorem parseSET_key {args : List Bytes} {key value : Bytes} {ttlSec : Option Int64}
    (h : parseSET args = .ok (key, value, ttlSec)) : args.head? = some key := by
  unfold parseSET at h
  split at h
  · cases h
    rfl
  · split at h
    · cases h
    · cases h
      rfl
  · cases h

/-- What `SET` leaves under its key. -/
theorem cell_setKey {ks : Keyspace} (hroom : ks.HasRoom cfg) (key value : Bytes) (ttl : Int64) :
    (setKey cfg env ks key value ttl).cell key =
      (some ⟨value, Dict.nowSec env⟩,
        if 0 < ttl then some (env.now.toUInt64 + ttl.toUInt64) else none) := by
  rw [setKey_of_lt hroom]
  unfold Keyspace.cell Dict.newObj
  dsimp only [Dict.put]
  rw [AList.lookup_insert]
  split
  · exact congrArg _ (AList.lookup_insert _)
  · exact congrArg _ (AList.lookup_erase _ _)

theorem cell_setKey_of_ne {ks : Keyspace} (hroom : ks.HasRoom cfg) {key k : Bytes} (hk : k ≠ key)
    (value : Bytes) (ttl : Int64) : (setKey cfg env ks key value ttl).cell k = ks.cell k := by
  rw [setKey_of_lt hroom]
  unfold Keyspace.cell Dict.newObj
  dsimp only [Dict.put]
  rw [AList.lookup_insert_ne hk]
  split
  · exact congrArg _ (AList.lookup_insert_ne hk)
  · exact congrArg _ (AList.lookup_erase_ne hk)

theorem cmdSET_localAt (key : Bytes) (args : List Bytes) :
    LocalAt Keyspace.cell (Keyspace.HasRoom cfg) (cmdSET cfg env (key :: args)) key := by
  unfold cmdSET
  rcases hparse : parseSET (key :: args) with reply | ⟨key', value, ttlSec⟩
  · exact Inert.localAt _ ⟨reply, fun _ => rfl⟩ _ _
  · obtain rfl : key = key' := Option.some.inj (parseSET_key hparse)
    constructor
    · intro ks hroom k hk
      exact cell_setKey_of_ne hroom hk value _
    · intro ks ks' hroom hroom' _
      exact ⟨rfl, (cell_setKey hroom ..).trans (cell_setKey hroom' ..).symm⟩

/-! ## `GET` -/

/-- What `Get` finds and leaves, from the cell of its key alone. -/
def getCell (env : Env) (c : Cell) : Option Obj × Cell :=
  match c with
  | (none, exp) => (none, (none, exp))
  | (some obj, none) => (some (Dict.touched env obj), (some (Dict.touched env obj), none))
  | (some obj, some exp) =>
    if exp ≤ env.now.toUInt64 then (none, (none, none))
    else (some (Dict.touched env obj), (some (Dict.touched env obj), some exp))

theorem get_eq_getCell (env : Env) (d : Dict) (pool : LruEvictionPool) (k : Bytes) :
    (d.get env k).1 = (getCell env (Keyspace.cell ⟨d, pool⟩ k)).1 ∧
      Keyspace.cell ⟨(d.get env k).2, pool⟩ k = (getCell env (Keyspace.cell ⟨d, pool⟩ k)).2 := by
  unfold Keyspace.cell
  cases hobj : d.dictStore.lookup k with
  | none =>
    rw [Dict.get_of_none hobj]
    exact ⟨rfl, by rw [hobj]; rfl⟩
  | some obj =>
    have hmem : k ∈ (d.touch env k obj).dictStore := (AList.mem_insert _).2 (.inl rfl)
    have hstore : (d.touch env k obj).dictStore.lookup k = some (Dict.touched env obj) :=
      AList.lookup_insert _
    have hexpired : (d.touch env k obj).expiredDictStore = d.expiredDictStore := rfl
    rw [Dict.get_of_some hobj]
    unfold Dict.hasExpired
    cases hexp : d.expiredDictStore.lookup k with
    | none => exact ⟨rfl, by simp [hstore, hexpired, hexp, getCell]⟩
    | some exp =>
      by_cases hle : exp ≤ env.now.toUInt64
      · simp [hle, getCell, Dict.del, hmem]
      · simp [hle, getCell, hstore, hexpired, hexp]

theorem cell_get_of_ne (d : Dict) (pool : LruEvictionPool) {key k : Bytes} (hk : k ≠ key) :
    Keyspace.cell ⟨(d.get env key).2, pool⟩ k = Keyspace.cell ⟨d, pool⟩ k := by
  unfold Keyspace.cell
  cases hobj : d.dictStore.lookup key with
  | none => rw [Dict.get_of_none hobj]
  | some obj =>
    rw [Dict.get_of_some hobj]
    have hmem : key ∈ (d.touch env key obj).dictStore := (AList.mem_insert _).2 (.inl rfl)
    have hstore : (d.touch env key obj).dictStore.lookup k = d.dictStore.lookup k :=
      AList.lookup_insert_ne hk
    split
    · simp only [Dict.del, hmem, if_true, AList.lookup_erase_ne hk, hstore]
      rfl
    · simp only [hstore]
      rfl

theorem cmdGET_localAt (key : Bytes) (args : List Bytes) :
    LocalAt Keyspace.cell (Keyspace.HasRoom cfg) (cmdGET env (key :: args)) key := by
  match args with
  | _ :: _ => exact Inert.localAt _ ⟨_, fun _ => rfl⟩ _ _
  | [] =>
    have hsecond : ∀ ks : Keyspace, (cmdGET env [key] ks).2 =
        { ks with dictStore := (ks.dictStore.get env key).2 } := cmdGET_snd env key
    constructor
    · intro ks _ k hk
      rw [hsecond]
      exact cell_get_of_ne ks.dictStore ks.ePool hk
    · intro ks ks' _ _ hcell
      obtain ⟨hobj, hafter⟩ := get_eq_getCell env ks.dictStore ks.ePool key
      obtain ⟨hobj', hafter'⟩ := get_eq_getCell env ks'.dictStore ks'.ePool key
      have hcells : Keyspace.cell ⟨(ks.dictStore.get env key).2, ks.ePool⟩ key =
          Keyspace.cell ⟨(ks'.dictStore.get env key).2, ks'.ePool⟩ key := by
        rw [hafter, hafter']
        exact congrArg (fun c => (getCell env c).2) hcell
      have hfound : (ks.dictStore.get env key).1 = (ks'.dictStore.get env key).1 := by
        rw [hobj, hobj']
        exact congrArg (fun c => (getCell env c).1) hcell
      refine ⟨?_, by rw [hsecond, hsecond]; exact hcells⟩
      have hexpired : (ks.dictStore.get env key).2.hasExpired env key =
          (ks'.dictStore.get env key).2.hasExpired env key := by
        unfold Dict.hasExpired
        rw [show (ks.dictStore.get env key).2.expiredDictStore.lookup key =
          (ks'.dictStore.get env key).2.expiredDictStore.lookup key from congrArg Prod.snd hcells]
      unfold cmdGET
      dsimp only
      rw [hfound, hexpired]
      split
      · rfl
      · split <;> rfl

/-! ## Any command -/

theorem execute_localAt {command : Command} {key : Bytes} {args : List Bytes}
    (h : command.Args = key :: args) :
    LocalAt Keyspace.cell (Keyspace.HasRoom cfg) (execute cfg env command) key := by
  unfold execute
  rw [h]
  by_cases hset : command.Cmd = lit "SET"
  · simp only [hset, if_true]
    exact cmdSET_localAt key args
  by_cases hget : command.Cmd = lit "GET"
  · simp only [hget, if_true]
    exact cmdGET_localAt key args
  by_cases hping : command.Cmd = lit "PING"
  · simp only [hping, if_true]
    exact Inert.localAt _ ⟨_, fun _ => rfl⟩ _ _
  · simp only [hset, hget, hping, if_false]
    exact Inert.localAt _ ⟨_, fun _ => rfl⟩ _ _

theorem execute_inert {command : Command} (h : command.Args = []) :
    Inert (execute cfg env command) := by
  unfold execute
  rw [h]
  by_cases hset : command.Cmd = lit "SET"
  · simp only [hset, if_true]
    exact ⟨_, fun _ => rfl⟩
  by_cases hget : command.Cmd = lit "GET"
  · simp only [hget, if_true]
    exact ⟨_, fun _ => rfl⟩
  by_cases hping : command.Cmd = lit "PING"
  · simp only [hping, if_true]
    exact ⟨_, fun _ => rfl⟩
  · simp only [hset, hget, hping, if_false]
    exact ⟨_, fun _ => rfl⟩

/-- The limit itself does not matter where there is room. -/
theorem execute_congr {cfg' : Config} {ks : Keyspace} (hroom : ks.HasRoom cfg)
    (hroom' : ks.HasRoom cfg') (env : Env) (command : Command) :
    execute cfg env command ks = execute cfg' env command ks := by
  have hset : cmdSET cfg env command.Args ks = cmdSET cfg' env command.Args ks := by
    unfold cmdSET
    split
    · rfl
    · rw [setKey_of_lt hroom, setKey_of_lt hroom']
  unfold execute
  rw [hset]

/-! ## The executor's commands -/

/-- The same reply, values and expiry times. -/
def SameResult (result result' : Bytes × Keyspace) : Prop :=
  result.1 = result'.1 ∧ result.2.dictStore.dictStore = result'.2.dictStore.dictStore ∧
    result.2.dictStore.expiredDictStore = result'.2.dictStore.expiredDictStore

theorem cmdPING_eq (args : List Bytes) : cmdPING args = Core.cmdPING args := by
  match args with
  | [] => rfl
  | [_] => rfl
  | _ :: _ :: _ => rfl

/-- The checks are the same but for the option. -/
theorem parseSET_eq {args : List Bytes} (h : args.length = 4 → args[2]? = some (lit "EX")) :
    parseSET args = Core.parseSET args := by
  match args with
  | [] => rfl
  | [_] => rfl
  | [_, _] => rfl
  | [_, _, _] => rfl
  | _ :: _ :: _ :: _ :: _ :: _ => rfl
  | [key, value, ex, seconds] =>
    have hex : ex = lit "EX" := by simpa using h rfl
    unfold parseSET Core.parseSET
    cases parseInt seconds with
    | none => exact (if_neg (not_not.2 hex)).symm
    | some ttlSec => exact (if_neg (not_not.2 hex)).symm

/-- The executor's reply to another option is none of the worker's: they
differ in the fourteenth byte, or in the first. -/
theorem reply_of_option (env : Env) (key value seconds : Bytes) {ex : Bytes} (ks : Keyspace)
    (hex : ex ≠ lit "EX") :
    (cmdSET cfg env [key, value, ex, seconds] ks).1 ≠
      (Core.cmdSET cfg env [key, value, ex, seconds] ks).1 := by
  have hreply : (Core.cmdSET cfg env [key, value, ex, seconds] ks).1 =
      encode (.error (lit "(error) ERR syntax error. Must be EX instead of " ++ ex)) false := by
    unfold Core.cmdSET Core.parseSET
    dsimp only
    rw [if_pos hex]
  have hminus : (encode (.error (lit "(error) ERR syntax error. Must be EX instead of " ++ ex))
      false)[0]? = some 45 := rfl
  have hletter : (encode (.error (lit "(error) ERR syntax error. Must be EX instead of " ++ ex))
      false)[13]? = some 115 := rfl
  rw [hreply]
  unfold cmdSET parseSET
  dsimp only
  intro h
  cases hparse : parseInt seconds with
  | none =>
    rw [hparse] at h
    rw [← h] at hletter
    exact absurd hletter (by decide : (errorReply _)[13]? ≠ some 115)
  | some ttlSec =>
    rw [hparse] at h
    rw [← h] at hminus
    exact absurd hminus (by decide : RespOk[0]? ≠ some 45)

/-- A worker's `PING` and `GET` are the executor's, and so is its `SET`
exactly if there is no option or it is `EX`. -/
theorem executor_agrees_iff (cfg : Config) (env : Env) (args : List Bytes) (ks : Keyspace) :
    cmdPING args = Core.cmdPING args ∧
      SameResult (cmdGET env args ks) (Core.cmdGET env args ks) ∧
      (SameResult (cmdSET cfg env args ks) (Core.cmdSET cfg env args ks) ↔
        (args.length = 4 → args[2]? = some (lit "EX"))) := by
  refine ⟨cmdPING_eq args, ⟨rfl, rfl, rfl⟩, fun hsame hfour => ?_, fun h => ?_⟩
  · match args, hfour with
    | [key, value, ex, seconds], _ =>
      by_contra hex
      exact reply_of_option env key value seconds ks (by simpa using hex) hsame.1
  · unfold cmdSET Core.cmdSET
    rw [parseSET_eq h]
    exact ⟨rfl, rfl, rfl⟩

/-- An option that the executor rejects and a worker does not look at. -/
theorem worker_ignores_option :
    (cmdSET ⟨10, 1, .allkeysRandom, 16, 5⟩ default [lit "k", lit "v", lit "PX", lit "10"]
      .init).1 = lit "+OK\r\n" ∧
    (Core.cmdSET ⟨10, 1, .allkeysRandom, 16, 5⟩ default [lit "k", lit "v", lit "PX", lit "10"]
      .init).1 = lit "-(error) ERR syntax error. Must be EX instead of PX\r\n" := by
  decide

end Worker

end RediGo.Core
