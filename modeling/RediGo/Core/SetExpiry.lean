/-
RediGo.Core.SetExpiry — when `SET key value EX n` leaves the key with an
expiry time of now + 1000·n milliseconds.

`NewObj` writes the expiry time before `Set` makes room for the object. The
seconds are multiplied in `int64`, a product that is not positive removes
the expiry time instead, and the sum is taken in `uint64`. Three things can
therefore go wrong: the product wraps to a number that is not positive, the
sum wraps to a smaller one, or the eviction picks the very key that is
written, which takes its new expiry time away (`expiresAfter_setKey_iff`).
-/
import RediGo.Core.ExpiryTheorems
import RediGo.Core.Worker

namespace RediGo.Core

open RediGo.Go RediGo.HashTable

/-- The key expires `n` seconds after the clock reading, in numbers without
bound. -/
def ExpiresAfter (env : Env) (n : Int64) (d : Dict) (key : Bytes) : Prop :=
  ∃ exp, d.getExpiry key = some exp ∧ (exp.toNat : Int) = env.now.toInt + 1000 * n.toInt

/-- Writing the key evicts what is stored under it. -/
def EvictsItself (cfg : Config) (env : Env) (ks : Keyspace) (key : Bytes) : Prop :=
  cfg.maxKeyNumber ≤ ks.dictStore.len ∧ key ∈ ks.dictStore.dictStore ∧
    key ∈ ks.dictStore.victims cfg env ks.ePool

variable {cfg : Config} {env : Env} {ks : Keyspace} {d : Dict} {key value : Bytes} {n : Int64}

/-! ## One write -/

theorem getExpiry_newObj (ttl : Int64) : (d.newObj env key value ttl).2.getExpiry key =
    if 0 < ttl then some (env.now.toUInt64 + ttl.toUInt64) else none := by
  unfold Dict.newObj Dict.getExpiry
  dsimp only
  split
  · exact AList.lookup_insert _
  · exact AList.lookup_erase ..

theorem lookup_setKey (ttl : Int64) :
    (setKey cfg env ks key value ttl).dictStore.dictStore.lookup key =
      some ⟨value, Dict.nowSec env⟩ := AList.lookup_insert _

theorem getExpiry_setKey_of_evicts (h : EvictsItself cfg env ks key) (ttl : Int64) :
    (setKey cfg env ks key value ttl).dictStore.getExpiry key = none := by
  obtain ⟨hfull, hstored, hvictim⟩ := h
  have hstore := newObj_dictStore env ks.dictStore key value ttl
  rw [setKey_of_le hfull, Dict.evict_fst]
  show (Dict.delAll _ _).expiredDictStore.lookup key = none
  rw [Dict.lookup_expiry_delAll, Dict.victims_congr hstore, hstore, if_pos ⟨hvictim, hstored⟩]

theorem getExpiry_setKey_of_not (h : ¬ EvictsItself cfg env ks key) (ttl : Int64) :
    (setKey cfg env ks key value ttl).dictStore.getExpiry key =
      (ks.dictStore.newObj env key value ttl).2.getExpiry key := by
  by_cases hfull : cfg.maxKeyNumber ≤ ks.dictStore.len
  · have hstore := newObj_dictStore env ks.dictStore key value ttl
    rw [setKey_of_le hfull, Dict.evict_fst]
    show (Dict.delAll _ _).expiredDictStore.lookup key = _
    rw [Dict.lookup_expiry_delAll, Dict.victims_congr hstore, hstore,
      if_neg fun hkey => h ⟨hfull, hkey.2, hkey.1⟩]
    rfl
  · rw [setKey_of_lt (by omega)]
    rfl

/-- All that can go wrong. -/
theorem expiresAfter_setKey_iff :
    ExpiresAfter env n (setKey cfg env ks key value (ttlMs (some n))).dictStore key ↔
      ¬ EvictsItself cfg env ks key ∧ 0 < n * 1000 ∧
        0 ≤ env.now.toInt + 1000 * n.toInt ∧ env.now.toInt + 1000 * n.toInt < 2 ^ 64 := by
  have hmod := toNat_expiry_emod env n
  unfold ExpiresAfter
  by_cases hself : EvictsItself cfg env ks key
  · simp [getExpiry_setKey_of_evicts hself, hself]
  rw [getExpiry_setKey_of_not hself, getExpiry_newObj, ttlMs]
  by_cases hpos : 0 < n * 1000
  · simp only [hself, hpos, if_true, Option.some.injEq, exists_eq_left', hmod,
      not_false_eq_true, true_and]
    omega
  · simp [hpos]

/-! ## The command -/

theorem cmdSET_eq {seconds : Bytes} (hn : parseInt seconds = some n) :
    cmdSET cfg env [key, value, lit "EX", seconds] ks =
      (RespOk, setKey cfg env ks key value (ttlMs (some n))) := by
  simp [cmdSET, parseSET, hn]

/-- A worker does not look at the word before the seconds. -/
theorem worker_cmdSET_eq {ex seconds : Bytes} (hn : parseInt seconds = some n) :
    Worker.cmdSET cfg env [key, value, ex, seconds] ks =
      (RespOk, setKey cfg env ks key value (ttlMs (some n))) := by
  simp [Worker.cmdSET, Worker.parseSET, hn]

/-- The reply is `OK`, and the key has the value and expires in `n` seconds. -/
def SetsFor (env : Env) (n : Int64) (key value : Bytes) (after : Bytes × Keyspace) : Prop :=
  after.1 = RespOk ∧
    (∃ obj, after.2.dictStore.dictStore.lookup key = some obj ∧ obj.value = value) ∧
    ExpiresAfter env n after.2.dictStore key

/-- Of a `SET` with an expiry time that fits `int64`, value and expiry time
are there afterwards exactly if no eviction took them. Clock readings before
the epoch apart, nothing wraps around. -/
theorem cmdSET_keeps_ttl_iff (cfg : Config) (env : Env) (ks : Keyspace)
    (key value seconds : Bytes) (n : Int64) (hn : parseInt seconds = some n) (h1 : 1 ≤ n.toInt)
    (hfit : env.now.toInt + 1000 * n.toInt < 2 ^ 63) :
    SetsFor env n key value (cmdSET cfg env [key, value, lit "EX", seconds] ks) ↔
      ¬ EvictsItself cfg env ks key ∧
        (0 ≤ env.now.toInt ∨ 0 < n * 1000 ∧ 0 ≤ env.now.toInt + 1000 * n.toInt) := by
  have hvalue : ∃ obj, (setKey cfg env ks key value (ttlMs (some n))).dictStore.dictStore.lookup
      key = some obj ∧ obj.value = value := ⟨_, lookup_setKey _, rfl⟩
  have hpos : 0 ≤ env.now.toInt → 0 < n * 1000 := fun h0 => ttlMs_pos h1 (by omega)
  simp only [SetsFor, cmdSET_eq hn, hvalue, expiresAfter_setKey_iff, true_and]
  refine and_congr_right fun _ => ⟨fun h => .inr ⟨h.1, h.2.1⟩, fun h => ?_⟩
  rcases h with h0 | ⟨hms, hsum⟩
  · exact ⟨hpos h0, by omega, by omega⟩
  · exact ⟨hms, hsum, by omega⟩

/-- The clock reads one second. -/
def oneSecond : Env := { (default : Env) with now := 1000 }

/-- One key may be stored, and an eviction takes one. -/
def oneKey : Config := ⟨1, 1, .allkeysRandom, 16, 5⟩

theorem cmdSET_keeps_ttl_hundred : SetsFor oneSecond 100 (lit "k") (lit "v")
    (cmdSET oneKey oneSecond [lit "k", lit "v", lit "EX", lit "100"] .init) :=
  (cmdSET_keeps_ttl_iff _ _ _ _ _ _ 100 (by decide) (by decide) (by decide)).2
    ⟨fun h => absurd h.1 (by decide), .inl (by decide)⟩

/-- Writing the key once more evicts it, and `TTL` finds no expiry time. -/
theorem cmdSET_loses_ttl :
    let ks := (cmdSET oneKey oneSecond [lit "k", lit "v", lit "EX", lit "100"] .init).2
    let after := cmdSET oneKey oneSecond [lit "k", lit "v", lit "EX", lit "100"] ks
    ks.dictStore.orphans = ∅ ∧ after.1 = RespOk ∧ after.2.dictStore.getExpiry (lit "k") = none ∧
      (cmdTTL oneSecond [lit "k"] after.2).1 = TtlKeyExistNoExpire ∧
      ¬ SetsFor oneSecond 100 (lit "k") (lit "v") after := by
  intro ks after
  have hnone : after.2.dictStore.getExpiry (lit "k") = none := by decide
  refine ⟨setKey_orphans _ _ _ orphans_init, by decide, hnone, by decide, fun h => ?_⟩
  obtain ⟨-, -, exp, hexp, -⟩ := h
  rw [hnone] at hexp
  cases hexp

/-- Below the key limit the expiry time is exact unless the milliseconds
overflow `int64`. -/
theorem ttl_exact_iff (cfg : Config) (env : Env) (ks : Keyspace) (key value seconds : Bytes)
    (n : Int64) (hn : parseInt seconds = some n) (h1 : 1 ≤ n.toInt) (h0 : 0 ≤ env.now.toInt)
    (hnow : env.now.toInt < 2 ^ 62) (hlimit : (ks.dictStore.len : Int) < cfg.maxKeyNumber) :
    (((cmdSET cfg env [key, value, lit "EX", seconds] ks).1 = RespOk →
        ExpiresAfter env n (cmdSET cfg env [key, value, lit "EX", seconds] ks).2.dictStore key) ↔
      1000 * n.toInt < 2 ^ 63) ∧
    ∀ ex, ((Worker.cmdSET cfg env [key, value, ex, seconds] ks).1 = RespOk →
        ExpiresAfter env n (Worker.cmdSET cfg env [key, value, ex, seconds] ks).2.dictStore key) ↔
      1000 * n.toInt < 2 ^ 63 := by
  have hself : ¬ EvictsItself cfg env ks key := fun h => by have := h.1; omega
  have hexact : ExpiresAfter env n (setKey cfg env ks key value (ttlMs (some n))).dictStore key ↔
      1000 * n.toInt < 2 ^ 63 := by
    rw [expiresAfter_setKey_iff]
    constructor
    · rintro ⟨-, hpos, -, hsum⟩
      -- a positive product below 2⁶⁴ did not wrap around
      have hmod := toInt_ttlMs_emod n
      have hlt := (n * 1000).toInt_lt
      rw [Int64.lt_iff_toInt_lt, show (0 : Int64).toInt = 0 from rfl] at hpos
      rw [Int.emod_eq_of_lt (by omega) (by omega), Int.emod_eq_of_lt (by omega) (by omega)] at hmod
      omega
    · intro hms
      exact ⟨hself, ttlMs_pos h1 hms, by omega, by omega⟩
  simp only [cmdSET_eq hn, worker_cmdSET_eq hn, hexact, forall_const, and_self]

theorem ttl_exact_hundred :
    (cmdSET oneKey oneSecond [lit "k", lit "v", lit "EX", lit "100"] .init).1 = RespOk ∧
      ExpiresAfter oneSecond 100
        (cmdSET oneKey oneSecond [lit "k", lit "v", lit "EX", lit "100"] .init).2.dictStore
        (lit "k") :=
  ⟨by decide, (ttl_exact_iff _ _ _ _ _ _ 100 (by decide) (by decide) (by decide) (by decide)
    (by decide)).1.2 (by decide) (by decide)⟩

/-- 18446744073709552 seconds make an expiry time after 384 milliseconds,
and the most seconds there are make none. -/
theorem ttl_wraps :
    let set := fun seconds => cmdSET oneKey oneSecond [lit "k", lit "v", lit "EX", seconds] .init
    (set (lit "1")).2.dictStore.getExpiry (lit "k") = some 2000 ∧
      (set (lit "18446744073709552")).1 = RespOk ∧
      (set (lit "18446744073709552")).2.dictStore.getExpiry (lit "k") = some 1384 ∧
      (set (lit "9223372036854775807")).1 = RespOk ∧
      (set (lit "9223372036854775807")).2.dictStore.getExpiry (lit "k") = none ∧
      ¬ ExpiresAfter oneSecond 18446744073709552
        (set (lit "18446744073709552")).2.dictStore (lit "k") := by
  intro set
  have hearly : (set (lit "18446744073709552")).2.dictStore.getExpiry (lit "k") = some 1384 := by
    decide
  refine ⟨by decide, by decide, hearly, by decide, by decide, fun h => ?_⟩
  obtain ⟨exp, hexp, hsum⟩ := h
  rw [hearly] at hexp
  cases hexp
  exact absurd hsum (by decide)

end RediGo.Core
