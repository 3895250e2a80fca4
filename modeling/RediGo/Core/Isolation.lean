/-
RediGo.Core.Isolation — when two workers do not notice each other.

Every worker has a dictionary of its own, but the eviction pool is a package
variable: under `allkeys-lru` each worker pushes samples of its keys into one
pool and pops the oldest entries of it, whoever pushed them. An entry that
another worker left there is popped in place of a key of one's own.

`isolated_iff` says which configurations exclude that. Either the pool is not
used, or nothing is popped from it, or an eviction pops all that it can have
sampled, so that the pool is empty whenever a command starts. Otherwise a
worker that fills its dictionary and writes one more key leaves an entry
behind, and another worker then evicts one key less than it would alone.
-/
import RediGo.Core.KeyLimit
import RediGo.Core.Worker
import RediGo.Lib.Unwinding

namespace RediGo.Core

open RediGo.Go RediGo.HashTable RediGo.Lib

/-! ## Two workers -/

namespace Worker

/-- One command on a worker's dictionary and the shared pool: the reply, the
dictionary and the pool. -/
def serve (cfg : Config) (act : Command × Env) (d : Dict) (pool : LruEvictionPool) :
    Bytes × Dict × LruEvictionPool :=
  let (reply, ks) := execute cfg act.2 act.1 ⟨d, pool⟩
  (reply, ks.dictStore, ks.ePool)

/-- Two workers after `NewWorker`. -/
def two : Joint Dict LruEvictionPool := ⟨.create, .create, []⟩

end Worker

open Worker

variable {cfg : Config} {env : Env} {d : Dict} {pool : LruEvictionPool}

/-! ## What a command does with the pool -/

theorem cmdGET_ignores_pool (env : Env) (args : List Bytes) (ks : Keyspace) :
    Worker.cmdGET env args ks = ((Worker.cmdGET env args ⟨ks.dictStore, []⟩).1,
      { ks with dictStore := (Worker.cmdGET env args ⟨ks.dictStore, []⟩).2.dictStore }) := by
  match args with
  | [] => rfl
  | _ :: _ :: _ => rfl
  | [key] =>
    unfold Worker.cmdGET
    dsimp only
    split
    · rfl
    · split <;> rfl

theorem len_cmdGET_le (env : Env) (args : List Bytes) (ks : Keyspace) :
    (Worker.cmdGET env args ks).2.dictStore.len ≤ ks.dictStore.len := by
  match args with
  | [] => exact Nat.le_refl _
  | _ :: _ :: _ => exact Nat.le_refl _
  | [key] =>
    have hsnd : (Worker.cmdGET env [key] ks).2 = _ := cmdGET_snd env key ks
    rw [hsnd]
    exact Dict.len_get_le env key

/-- A command either stores a key, or reads and changes the dictionary only
and makes it no larger. -/
theorem execute_cases (cfg : Config) (env : Env) (command : Command) :
    (∃ key value ttl, ∀ ks, execute cfg env command ks =
      (RespOk, setKey cfg env ks key value ttl)) ∨
    ∃ f : Dict → Bytes × Dict, (∀ d, (f d).2.len ≤ d.len) ∧ ∀ ks, execute cfg env command ks =
      ((f ks.dictStore).1, { ks with dictStore := (f ks.dictStore).2 }) := by
  unfold execute
  split
  · unfold Worker.cmdSET
    cases Worker.parseSET command.Args with
    | error reply => exact .inr ⟨fun d => (reply, d), fun d => Nat.le_refl _, fun ks => rfl⟩
    | ok parsed => exact .inl ⟨_, _, _, fun ks => rfl⟩
  · split
    · exact .inr ⟨fun d => ((Worker.cmdGET env command.Args ⟨d, []⟩).1,
          (Worker.cmdGET env command.Args ⟨d, []⟩).2.dictStore),
        fun d => len_cmdGET_le env command.Args ⟨d, []⟩, cmdGET_ignores_pool env command.Args⟩
    · split
      · exact .inr ⟨fun d => (_, d), fun d => Nat.le_refl _, fun ks => rfl⟩
      · exact .inr ⟨fun d => (_, d), fun d => Nat.le_refl _, fun ks => rfl⟩

/-! ## Isolated configurations -/

/-- Without entries to pop, the pool makes no difference to a dictionary. -/
theorem setKey_ignores_pool
    (h : cfg.evictionPolicy = .allkeysLru → cfg.evictCount ≤ 0) (key value : Bytes)
    (ttl : Int64) : (setKey cfg env ⟨d, pool⟩ key value ttl).dictStore =
      (setKey cfg env ⟨d, []⟩ key value ttl).dictStore := by
  by_cases hfull : cfg.maxKeyNumber ≤ d.len
  · rw [setKey_of_le hfull, setKey_of_le hfull]
    by_cases hlru : cfg.evictionPolicy = .allkeysLru
    · have hzero : cfg.evictCount.toNat = 0 := by
        have hle := h hlru
        omega
      simp only [Dict.evict_of_lru hlru, Dict.evictLru_eq, Dict.popped, hzero, List.take_zero]
    · simp only [Dict.evict_of_ne hlru]
  · rw [setKey_of_lt (by dsimp only; omega), setKey_of_lt (by dsimp only; omega)]

theorem isolated_of_unused (h : cfg.evictionPolicy = .allkeysLru → cfg.evictCount ≤ 0) :
    Joint.Isolated (serve cfg) two := by
  have hstep : ∀ (act : Command × Env) (d : Dict) (pool : LruEvictionPool), True → True →
      True ∧ True := fun _ _ _ _ _ => ⟨trivial, trivial⟩
  refine Joint.isolated_of_unwinding (r := []) hstep (fun act d pool _ _ => ?_) trivial trivial
    trivial
  obtain ⟨command, env⟩ := act
  unfold serve
  rcases execute_cases cfg env command with ⟨key, value, ttl, heq⟩ | ⟨f, -, heq⟩
  · simp only [heq, setKey_ignores_pool h key value ttl, and_self]
  · simp only [heq, and_self]

/-- Every eviction pops all that it can have sampled. -/
def Draining (cfg : Config) (d : Dict) : Prop :=
  cfg.epoolMaxSize ≤ cfg.evictCount ∨ (d.len : Int) ≤ cfg.evictCount ∨
    1 ≤ cfg.epoolLRUSampleSize ∧ cfg.epoolLRUSampleSize ≤ cfg.evictCount

theorem Draining.mono {d' : Dict} (h : Draining cfg d) (hle : d'.len ≤ d.len) :
    Draining cfg d' :=
  h.imp_right fun h => h.imp_left fun h => by omega

theorem Draining.ePool_setKey (hlru : cfg.evictionPolicy = .allkeysLru) (h : Draining cfg d)
    (key value : Bytes) (ttl : Int64) : (setKey cfg env ⟨d, []⟩ key value ttl).ePool = [] := by
  by_cases hfull : cfg.maxKeyNumber ≤ d.len
  · rw [setKey_of_le hfull, Dict.evict_of_lru hlru]
    exact Dict.evictLru_drains (h.mono (newObj_len env d key value ttl).le)
  · rw [setKey_of_lt (by dsimp only; omega)]

/-- A dictionary within the eviction count stays there when the key limit
does not exceed it: an eviction from the empty pool frees a slot. -/
theorem len_setKey_le (hlru : cfg.evictionPolicy = .allkeysLru) (hcount : 1 ≤ cfg.evictCount)
    (hcap : 1 ≤ cfg.epoolMaxSize) (hmax : cfg.maxKeyNumber ≤ cfg.evictCount)
    (h : (d.len : Int) ≤ cfg.evictCount) (key value : Bytes) (ttl : Int64) :
    ((setKey cfg env ⟨d, []⟩ key value ttl).dictStore.len : Int) ≤ cfg.evictCount := by
  have hlen := newObj_len env d key value ttl
  have hput := fun d' : Dict => d'.len_put_le key ⟨value, Dict.nowSec env⟩
  by_cases hfull : cfg.maxKeyNumber ≤ d.len
  · have hafter := hput ((d.newObj env key value ttl).2.evictLru cfg env []).1
    have hle : ((d.newObj env key value ttl).2.evictLru cfg env []).1.len ≤ d.len - 1 := by
      by_cases hpos : 0 < (d.newObj env key value ttl).2.len
      · have hlt : ((d.newObj env key value ttl).2.evictLru cfg env []).1.len < _ :=
          Dict.len_evictLru_lt hcap (.inl rfl) hcount hpos
        omega
      · have hdel : ((d.newObj env key value ttl).2.evictLru cfg env []).1.len ≤
            (d.newObj env key value ttl).2.len := by
          rw [Dict.evictLru_eq]
          exact Dict.len_delAll_le
        omega
    rw [setKey_of_le hfull, Dict.evict_of_lru hlru]
    dsimp only
    omega
  · have hafter := hput (d.newObj env key value ttl).2
    rw [setKey_of_lt (by dsimp only; omega)]
    dsimp only
    omega

/-- The configurations in which no eviction leaves anything in the pool. -/
def Drains (cfg : Config) : Prop :=
  cfg.epoolMaxSize ≤ cfg.evictCount ∨ cfg.maxKeyNumber ≤ cfg.evictCount ∨
    1 ≤ cfg.epoolLRUSampleSize ∧ cfg.epoolLRUSampleSize ≤ cfg.evictCount

theorem Draining.setKey (hlru : cfg.evictionPolicy = .allkeysLru) (hcount : 1 ≤ cfg.evictCount)
    (hcfg : Drains cfg) (h : Draining cfg d) (key value : Bytes) (ttl : Int64) :
    Draining cfg (setKey cfg env ⟨d, []⟩ key value ttl).dictStore := by
  by_cases hcap : cfg.epoolMaxSize ≤ cfg.evictCount
  · exact .inl hcap
  rcases hcfg with hcap' | hmax | hsample
  · exact .inl hcap'
  · refine .inr (h.resolve_left hcap |>.imp_left fun hlen => ?_)
    exact len_setKey_le hlru hcount (by omega) hmax hlen key value ttl
  · exact .inr (.inr hsample)

theorem isolated_of_drains (hlru : cfg.evictionPolicy = .allkeysLru)
    (hcount : 1 ≤ cfg.evictCount) (hcfg : Drains cfg) : Joint.Isolated (serve cfg) two := by
  have hcreate : Draining cfg .create := .inr (.inl (Int.le_trans (by decide) hcount))
  have hstep : ∀ (act : Command × Env) (d : Dict) (pool : LruEvictionPool), Draining cfg d →
      pool = [] → Draining cfg (serve cfg act d pool).2.1 ∧ (serve cfg act d pool).2.2 = [] := by
    rintro ⟨command, env⟩ d pool hd rfl
    unfold serve
    rcases execute_cases cfg env command with ⟨key, value, ttl, heq⟩ | ⟨f, hle, heq⟩
    · simp only [heq]
      exact ⟨hd.setKey hlru hcount hcfg key value ttl, hd.ePool_setKey hlru key value ttl⟩
    · simp only [heq]
      exact ⟨hd.mono (hle d), trivial⟩
  refine Joint.isolated_of_unwinding (r := []) hstep ?_ hcreate hcreate rfl
  rintro act d pool - rfl
  exact ⟨rfl, rfl⟩

/-! ## Interference -/

/-- `SET k "" EX 1` -/
def setCommand (k : Bytes) : Command := ⟨lit "SET", [k, [], lit "EX", lit "1"]⟩

theorem serve_setCommand (k : Bytes) (d : Dict) (pool : LruEvictionPool) :
    serve cfg (setCommand k, env) d pool =
      (RespOk, (write cfg env ⟨d, pool⟩ k).dictStore, (write cfg env ⟨d, pool⟩ k).ePool) := by
  have hparse : Worker.parseSET [k, [], lit "EX", lit "1"] = .ok (k, [], some 1) := rfl
  simp only [serve, setCommand, execute, if_true, Worker.cmdSET, hparse]
  rfl

/-- One party writes keys of the lengths from `i` on. -/
def writes (p : Party) (env : Env) (i n : Nat) : List (Party × Command × Env) :=
  (List.range n).map fun j => (p, setCommand (name (i + j)), env)

theorem writes_succ (p : Party) (env : Env) (i n : Nat) :
    writes p env i (n + 1) = writes p env i n ++ [(p, setCommand (name (i + n)), env)] := by
  simp [writes, List.range_succ]

theorem run_writes (p : Party) (i n : Nat) (j : Joint Dict LruEvictionPool) :
    (Joint.run (serve cfg) (writes p env i n) j).2 =
      match p with
      | .a => ⟨(fill cfg env i n ⟨j.a, j.shared⟩).dictStore, j.b,
          (fill cfg env i n ⟨j.a, j.shared⟩).ePool⟩
      | .b => ⟨j.a, (fill cfg env i n ⟨j.b, j.shared⟩).dictStore,
          (fill cfg env i n ⟨j.b, j.shared⟩).ePool⟩ := by
  induction n with
  | zero => cases p <;> rfl
  | succ n ih =>
    rw [writes_succ, Joint.run_append, ih]
    cases p <;> simp only [Joint.run, Joint.perform, serve_setCommand] <;> rfl

theorem own_writes_b (env : Env) (i n : Nat) (acts : List (Party × Command × Env)) :
    Joint.own (writes .b env i n ++ acts) = Joint.own acts := by
  simp [Joint.own, writes, List.filter_map, Function.comp_def]

section Interference

variable {n : Nat} (hlru : cfg.evictionPolicy = .allkeysLru) (hmax : cfg.maxKeyNumber = n)
  (hcount : 1 ≤ cfg.evictCount) (hcap : cfg.evictCount < cfg.epoolMaxSize)
  (hkeys : cfg.evictCount < n)
  (hsample : 1 ≤ cfg.epoolLRUSampleSize → cfg.evictCount < cfg.epoolLRUSampleSize)

include hlru hmax hcount hcap hkeys hsample

/-- What a worker leaves in the pool that filled its dictionary and wrote one
more key. -/
theorem leftover : 1 ≤ (fill cfg early 0 (n + 1) ⟨.create, []⟩).ePool.length ∧
    ∀ c ∈ (fill cfg early 0 (n + 1) ⟨.create, []⟩).ePool, Old (n + 1) c = true := by
  obtain ⟨hpool, hfilled⟩ := filled_fill cfg early 0 ⟨.create, []⟩ rfl hmax.ge
  have hold : ∀ c ∈ (fill cfg early 0 n ⟨.create, []⟩).ePool, Old 0 c = true := by simp [hpool]
  have hsamples := hfilled.lt_length_samples (name (0 + n)) hkeys (by omega) hsample
  constructor
  · exact hfilled.le_length_ePool hold hlru hmax.le hsamples (by omega) (by omega)
  · have hall := hfilled.old_ePool_write hold (k := name (0 + n)) hlru hmax.le rfl
    rw [show 0 + n + 1 = n + 1 by omega] at hall
    exact hall

/-- Alone, a worker evicts as many keys as it should. -/
theorem len_alone (i : Nat) :
    (fill cfg late i (n + 1) ⟨.create, []⟩).dictStore.len + cfg.evictCount.toNat = n + 1 := by
  obtain ⟨hpool, hfilled⟩ := filled_fill cfg late i ⟨.create, []⟩ rfl hmax.ge
  have hsamples := hfilled.lt_length_samples (name (i + n)) hkeys (by omega) hsample
  exact hfilled.len_write_of_nil hlru hmax.le hpool (by omega) hsamples.le

omit hcap hsample in
/-- After an entry that another worker left, it evicts at least one less. -/
theorem len_beside {i : Nat} (hold : ∀ c ∈ pool, Old i c = true) (hpool : 1 ≤ pool.length) :
    n + 2 ≤ (fill cfg late i (n + 1) ⟨.create, pool⟩).dictStore.len + cfg.evictCount.toNat := by
  obtain ⟨hkept, hfilled⟩ := filled_fill cfg late i ⟨.create, pool⟩ rfl hmax.ge
  have hlength : 1 ≤ (fill cfg late i n ⟨.create, pool⟩).ePool.length := by
    rw [hkept]
    exact hpool
  exact hfilled.le_len_write (hkept ▸ hold) hlru hmax.le (by omega) (by decide) hlength
    (by omega)

theorem not_isolated : ¬ Joint.Isolated (serve cfg) two := by
  intro h
  obtain ⟨hlength, hold⟩ := leftover hlru hmax hcount hcap hkeys hsample
  have hown := own_writes_b early 0 (n + 1) (writes .a late (n + 1) (n + 1))
  have hsame := (h _ _ hown).2
  rw [Joint.run_append, run_writes, run_writes, run_writes] at hsame
  have halone := len_alone hlru hmax hcount hcap hkeys hsample (n + 1)
  have hbeside := len_beside hlru hmax hcount hkeys hold hlength
  have hlen := congrArg Dict.len hsame
  simp only [two] at hlen
  omega

end Interference

/-- What a worker replies and stores depends on its own commands alone exactly
if the policy is not `allkeys-lru`, or evictions pop nothing, or they pop all
that they can have sampled. -/
theorem isolated_iff (cfg : Config) : Joint.Isolated (serve cfg) two ↔
    (cfg.evictionPolicy = .allkeysLru → 1 ≤ cfg.evictCount →
      cfg.epoolMaxSize ≤ cfg.evictCount ∨ cfg.maxKeyNumber ≤ cfg.evictCount ∨
        1 ≤ cfg.epoolLRUSampleSize ∧ cfg.epoolLRUSampleSize ≤ cfg.evictCount) := by
  constructor
  · intro h hlru hcount
    by_contra hbad
    have hn : cfg.maxKeyNumber = cfg.maxKeyNumber.toNat := by omega
    exact not_isolated hlru hn hcount (by omega) (by omega) (by omega) h
  · intro hcfg
    by_cases hused : cfg.evictionPolicy = .allkeysLru ∧ 1 ≤ cfg.evictCount
    · exact isolated_of_drains hused.1 hused.2 (hcfg hused.1 hused.2)
    · refine isolated_of_unused fun hlru => ?_
      have hcount := mt (And.intro hlru) hused
      omega

/-- Worker `b` leaves an entry in the pool; worker `a` pops it, and keeps a
key that it would have evicted alone. -/
theorem shared_pool_interferes :
    (Joint.run (serve ⟨2, 1, .allkeysLru, 16, 5⟩)
      [(.b, ⟨lit "SET", [lit "x", lit "v"]⟩, atSecond 0),
        (.b, ⟨lit "SET", [lit "y", lit "v"]⟩, atSecond 0),
        (.b, ⟨lit "SET", [lit "z", lit "v"]⟩, atSecond 0),
        (.a, ⟨lit "SET", [lit "p", lit "v"]⟩, atSecond 1),
        (.a, ⟨lit "SET", [lit "q", lit "v"]⟩, atSecond 2),
        (.a, ⟨lit "SET", [lit "r", lit "v"]⟩, atSecond 3),
        (.a, ⟨lit "GET", [lit "p"]⟩, atSecond 3)] two).1 =
      [lit "+OK\r\n", lit "+OK\r\n", lit "+OK\r\n", lit "$1\r\nv\r\n"] ∧
    (Joint.run (serve ⟨2, 1, .allkeysLru, 16, 5⟩)
      [(.a, ⟨lit "SET", [lit "p", lit "v"]⟩, atSecond 1),
        (.a, ⟨lit "SET", [lit "q", lit "v"]⟩, atSecond 2),
        (.a, ⟨lit "SET", [lit "r", lit "v"]⟩, atSecond 3),
        (.a, ⟨lit "GET", [lit "p"]⟩, atSecond 3)] two).1 =
      [lit "+OK\r\n", lit "+OK\r\n", lit "+OK\r\n", lit "$-1\r\n"] := by
  decide +kernel

end RediGo.Core
