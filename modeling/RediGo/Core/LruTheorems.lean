/-
RediGo.Core.LruTheorems — when the approximated eviction is exact.

The policy `allkeys-lru` samples some keys into a pool and evicts from the
pool, and the pool may name keys that are gone. `RediGo.Core.CacheTheorems`
therefore promises nothing about which keys are lost. Here the samples and
the pool are as large as the key limit, and no key has an expiry time: then
the pool never names a key that is gone (`Tracked`), an eviction renews
every entry of it, and the key space is a cache that gives up its least
recently used entries (`LruCache`), the uses being `SET`, `GET` and `TTL`.
Times are the seconds of the clock, as the code keeps them, and which of
several keys used in one second goes is open.

`working_set_hits` says what that is good for. A value is still there if
since the second of its last use fewer other keys were used than stay at an
eviction.
-/
import RediGo.Core.CacheTheorems
import RediGo.Core.KeyLimit
import RediGo.Lib.LruCache

namespace RediGo.Core

open RediGo.Go RediGo.HashTable RediGo.Lib

/-! ## The specification -/

namespace LruStore

def get (args : List Bytes) (m : LruCache Bytes Bytes) : Bytes :=
  match args with
  | [key] => (m key).elim RespNil fun entry => encode (.str entry.1) false
  | _ => errorReply "(error) ERR wrong number of arguments for 'GET' command"

def ttl (args : List Bytes) (m : LruCache Bytes Bytes) : Bytes :=
  match args with
  | [key] => (m key).elim TtlKeyNotExist fun _ => TtlKeyExistNoExpire
  | _ => errorReply "(error) ERR wrong number of arguments for 'TTL' command"

/-- A well-formed `GET` or `TTL` uses its key. -/
def used (t : Nat) (args : List Bytes) (m : LruCache Bytes Bytes) : LruCache Bytes Bytes :=
  match args with
  | [key] => m.use t key
  | _ => m

/-- One operation at second `t`: the reply and the cache after it. -/
inductive Step (cap evict t : Nat) (m : LruCache Bytes Bytes) :
    KeyOp → Option Bytes → LruCache Bytes Bytes → Prop
  | rejected {args : List Bytes} {reply : Bytes} (hparse : parseSET args = .error reply) :
    Step cap evict t m (.set args) (some reply) m
  | stored {args : List Bytes} {key value : Bytes} {m' : LruCache Bytes Bytes}
    (hparse : parseSET args = .ok (key, value, none))
    (hstore : m.Store cap evict t key value m') :
    Step cap evict t m (.set args) (some RespOk) m'
  | get (args : List Bytes) : Step cap evict t m (.get args) (some (LruStore.get args m)) (used t args m)
  | ttl (args : List Bytes) : Step cap evict t m (.ttl args) (some (LruStore.ttl args m)) (used t args m)
  | expire : Step cap evict t m .expire none m

/-- The replies that a run may give, and the cache after it. -/
inductive Runs (cap evict : Nat) : List (KeyOp × Env) → LruCache Bytes Bytes →
    List (Option Bytes) → LruCache Bytes Bytes → Prop
  | nil (m : LruCache Bytes Bytes) : Runs cap evict [] m [] m
  | cons {op : KeyOp} {env : Env} {ops : List (KeyOp × Env)} {m m' m'' : LruCache Bytes Bytes}
    {reply : Option Bytes} {replies : List (Option Bytes)}
    (hstep : Step cap evict (env.millis / 1000) m op reply m')
    (hruns : Runs cap evict ops m' replies m'') :
    Runs cap evict ((op, env) :: ops) m (reply :: replies) m''

end LruStore

/-! ## Configurations under which nothing is left out -/

/-- The samples and the pool are as large as the key limit. -/
structure Thorough (cfg : Config) : Prop where
  policy : cfg.evictionPolicy = .allkeysLru
  limit : 1 ≤ cfg.maxKeyNumber
  count : 1 ≤ cfg.evictCount
  sample : cfg.epoolLRUSampleSize ≤ 0 ∨ cfg.maxKeyNumber ≤ cfg.epoolLRUSampleSize
  pool : cfg.maxKeyNumber ≤ cfg.epoolMaxSize

/-- The pool has each key at most once and none that is gone, and there are
no expiry times. -/
structure Tracked (cfg : Config) (ks : Keyspace) : Prop where
  noTtl : ks.dictStore.expiredDictStore = ∅
  bounded : (ks.dictStore.len : Int) ≤ cfg.maxKeyNumber
  nodup : (ks.ePool.map LruEvictionCandidate.key).Nodup
  live : ∀ c ∈ ks.ePool, c.key ∈ ks.dictStore.dictStore

/-- The seconds that `now()` returns. -/
theorem toNat_nowSec {env : Env} (h0 : 0 ≤ env.now.toInt) (h1 : env.now.toInt < 2 ^ 32 * 1000) :
    (Dict.nowSec env).toNat = env.millis / 1000 := by
  have hsec : (env.now.toInt / 1000) % 2 ^ 32 = env.now.toInt / 1000 :=
    Int.emod_eq_of_lt (by omega) (by omega)
  rw [Dict.nowSec, hsec, UInt32.toNat_ofNat_of_lt' (by unfold UInt32.size; omega), Env.millis]
  omega

/-! ## The key space as a cache -/

/-- The values with the second of their last use. -/
def lruView (d : Dict) : LruCache Bytes Bytes := fun k =>
  (d.dictStore.lookup k).map fun obj => (obj.value, obj.lastAccessTime.toNat)

section View

variable {d : Dict} {env : Env} {cfg : Config} {k : Bytes}

theorem lruView_eq_some {x : Bytes × Nat} (h : lruView d k = some x) :
    ∃ obj, d.dictStore.lookup k = some obj ∧ obj.lastAccessTime.toNat = x.2 := by
  obtain ⟨obj, hobj, rfl⟩ := Option.map_eq_some_iff.1 h
  exact ⟨obj, hobj, rfl⟩

theorem lruView_put (k value : Bytes) (sec : UInt32) :
    lruView (d.put k ⟨value, sec⟩) = (lruView d).put sec.toNat k value := by
  funext k'
  by_cases hk : k' = k
  · subst hk
    simp [lruView, Dict.put]
  · rw [LruCache.put_of_ne hk]
    simp [lruView, Dict.put, AList.lookup_insert_ne hk]

theorem lruView_delAll (keys : List Bytes) :
    lruView (d.delAll keys) = (lruView d).without keys.toFinset := by
  funext k
  by_cases hk : k ∈ keys <;> simp [lruView, LruCache.without, Dict.lookup_delAll, hk]

theorem lruView_touch {obj : Obj} (hobj : d.dictStore.lookup k = some obj) :
    lruView (d.touch env k obj) = (lruView d).use (Dict.nowSec env).toNat k := by
  funext k'
  by_cases hk : k' = k
  · subst hk
    simp [lruView, Dict.touch, Dict.touched, hobj]
  · rw [LruCache.use_of_ne hk]
    simp [lruView, Dict.touch, AList.lookup_insert_ne hk]

theorem holds_keySet (d : Dict) : (lruView d).Holds d.keySet := by
  intro k
  rw [Dict.mem_keySet, lruView, Ne, Option.map_eq_none_iff, AList.lookup_eq_none, not_not]

/-! ## An eviction -/

/-- Every stored key is sampled. -/
theorem samples_eq (hcfg : Thorough cfg) (hlen : (d.len : Int) ≤ cfg.maxKeyNumber) :
    d.samples cfg env = ((env.order 0).order d.dictStore.keys).filterMap d.candidate := by
  rw [Dict.samples, Dict.sampled]
  split
  · refine List.take_of_length_le ?_
    rw [← List.length_map LruEvictionCandidate.key, Dict.map_key_order, Dict.length_order]
    rcases hcfg.sample with h | h <;> omega
  · rfl

theorem mem_samples_iff (hcfg : Thorough cfg) (hlen : (d.len : Int) ≤ cfg.maxKeyNumber)
    {c : LruEvictionCandidate} :
    c ∈ d.samples cfg env ↔
      ∃ obj, d.dictStore.lookup c.key = some obj ∧ obj.lastAccessTime = c.lastAccessTime := by
  refine ⟨Dict.lookup_of_mem_samples, ?_⟩
  rintro ⟨obj, hobj, htime⟩
  rw [samples_eq hcfg hlen, List.mem_filterMap]
  refine ⟨c.key, (Dict.mem_order 0).2 (mem_of_lookup hobj), ?_⟩
  rw [Dict.candidate, hobj, Option.map_some, htime]

variable {pool : LruEvictionPool}

/-- The pool as `populateEpool` leaves it. -/
abbrev filled (cfg : Config) (env : Env) (d : Dict) (pool : LruEvictionPool) : LruEvictionPool :=
  Dict.pushAll cfg env (d.samples cfg env) pool

/-- It lists the stored keys with their access times. -/
theorem mem_filled_iff (env : Env) (hcfg : Thorough cfg) (h : Tracked cfg ⟨d, pool⟩) {c : LruEvictionCandidate} :
    c ∈ filled cfg env d pool ↔
      ∃ obj, d.dictStore.lookup c.key = some obj ∧ obj.lastAccessTime = c.lastAccessTime := by
  have hbounded : (d.len : Int) ≤ cfg.maxKeyNumber := h.bounded
  have hcap : (d.keySet.card : Int) ≤ cfg.epoolMaxSize := by
    have := hcfg.pool
    rw [Dict.card_keySet]
    omega
  have hlive : ∀ c ∈ pool, c.key ∈ d.keySet := fun c hc => Dict.mem_keySet.2 (h.live c hc)
  have hmem : c ∈ filled cfg env d pool ↔ c ∈ d.samples cfg env ∨
      c ∈ pool ∧ ∀ x ∈ d.samples cfg env, c.key ≠ x.key :=
    Pool.mem_pushAll_iff (Dict.sorts env.sorter) hcap h.nodup hlive Dict.nodup_samples
      fun x hx => Dict.mem_keySet.2 (Dict.mem_of_mem_samples hx)
  rw [hmem, mem_samples_iff hcfg hbounded]
  refine or_iff_left ?_
  rintro ⟨hc, hnone⟩
  obtain ⟨obj, hobj⟩ := exists_lookup (h.live c hc)
  exact hnone ⟨c.key, obj.lastAccessTime⟩ ((mem_samples_iff hcfg hbounded).2 ⟨obj, hobj, rfl⟩) rfl

theorem nodup_filled (h : Tracked cfg ⟨d, pool⟩) :
    ((filled cfg env d pool).map LruEvictionCandidate.key).Nodup :=
  Pool.nodup_pushAll (Dict.sorts env.sorter) h.nodup

theorem length_filled (hcfg : Thorough cfg) (h : Tracked cfg ⟨d, pool⟩) :
    (filled cfg env d pool).length = d.len := by
  have hkeys : ((filled cfg env d pool).map LruEvictionCandidate.key).toFinset = d.keySet := by
    ext k
    simp only [List.mem_toFinset, List.mem_map, Dict.mem_keySet]
    constructor
    · rintro ⟨c, hc, rfl⟩
      obtain ⟨obj, hobj, -⟩ := (mem_filled_iff env hcfg h).1 hc
      exact mem_of_lookup hobj
    · intro hk
      obtain ⟨obj, hobj⟩ := exists_lookup hk
      exact ⟨⟨k, obj.lastAccessTime⟩, (mem_filled_iff env hcfg h).2 ⟨obj, hobj, rfl⟩, rfl⟩
  rw [← Dict.card_keySet, ← hkeys, List.toFinset_card_of_nodup (nodup_filled h), List.length_map]

/-- What an eviction pops, and what it leaves in the pool. -/
theorem popped_append (cfg : Config) (env : Env) (d : Dict) (pool : LruEvictionPool) :
    d.popped cfg env pool ++ (filled cfg env d pool).drop cfg.evictCount.toNat =
      filled cfg env d pool := List.take_append_drop ..

theorem nodup_popped_append (env : Env) (h : Tracked cfg ⟨d, pool⟩) :
    ((d.popped cfg env pool).map LruEvictionCandidate.key ++
      ((filled cfg env d pool).drop cfg.evictCount.toNat).map LruEvictionCandidate.key).Nodup := by
  rw [← List.map_append, popped_append]
  exact nodup_filled h

/-- What an eviction pops are the oldest entries. -/
theorem popped_oldest (env : Env) (hcfg : Thorough cfg) (h : Tracked cfg ⟨d, pool⟩) (hpos : 0 < d.len) :
    (lruView d).Oldest (min cfg.evictCount.toNat d.keySet.card)
      ((d.popped cfg env pool).map LruEvictionCandidate.key).toFinset := by
  have htake := (nodup_popped_append env h).of_append_left
  have hcut := popped_append cfg env d pool
  have hsorted : (filled cfg env d pool).Pairwise fun a b => a.lastAccessTime ≤ b.lastAccessTime :=
    Pool.pairwise_pushAll (Dict.sorts env.sorter) (Dict.samples_ne_nil cfg env hpos)
  refine ⟨?_, ?_, ?_⟩
  · rw [List.toFinset_card_of_nodup htake, List.length_map, Dict.popped, List.length_take,
      length_filled hcfg h, Dict.card_keySet]
  · intro k hk
    obtain ⟨c, hc, rfl⟩ := List.mem_map.1 (List.mem_toFinset.1 hk)
    obtain ⟨obj, hobj, -⟩ := (mem_filled_iff env hcfg h).1 (List.mem_of_mem_take hc)
    simp [lruView, hobj]
  · intro a ha b hb x y hx hy
    obtain ⟨c, hc, rfl⟩ := List.mem_map.1 (List.mem_toFinset.1 ha)
    obtain ⟨obj, hobj, htime⟩ := (mem_filled_iff env hcfg h).1 (List.mem_of_mem_take hc)
    obtain ⟨obj', hobj', hx⟩ := lruView_eq_some hx
    obtain ⟨other, hother, hy⟩ := lruView_eq_some hy
    rw [hobj] at hobj'
    cases hobj'
    -- the entry of the other key comes later in the pool
    have hlater : (⟨b, other.lastAccessTime⟩ : LruEvictionCandidate) ∈
        (filled cfg env d pool).drop cfg.evictCount.toNat := by
      have hmem : (⟨b, other.lastAccessTime⟩ : LruEvictionCandidate) ∈ filled cfg env d pool :=
        (mem_filled_iff env hcfg h).2 ⟨other, hother, rfl⟩
      rw [← hcut, List.mem_append] at hmem
      refine hmem.resolve_left fun hpopped => hb ?_
      exact List.mem_toFinset.2 (List.mem_map.2 ⟨_, hpopped, rfl⟩)
    rw [← hcut, List.pairwise_append] at hsorted
    have hle := UInt32.le_iff_toNat_le.1 (hsorted.2.2 c hc _ hlater)
    rw [← htime] at hle
    rw [← hx, ← hy]
    exact hle

end View

/-! ## Storing a key -/

section Store

variable {cfg : Config} {env : Env} {ks : Keyspace} {d : Dict} {key value : Bytes}

theorem erase_empty (k : Bytes) : (∅ : Map UInt64).erase k = ∅ := rfl

/-- A `SET` without `EX` has no expiry time to remove. -/
theorem newObj_noTtl (h : d.expiredDictStore = ∅) :
    (d.newObj env key value (ttlMs none)).2 = d := by
  have hneg : ¬ 0 < ttlMs none := by decide
  rw [Dict.newObj]
  dsimp only
  rw [if_neg hneg, Dict.persist, h, erase_empty, ← h]

theorem delAll_noTtl (h : d.expiredDictStore = ∅) (keys : List Bytes) :
    (d.delAll keys).expiredDictStore = ∅ := by
  induction keys generalizing d with
  | nil => exact h
  | cons k keys ih =>
    refine ih ?_
    dsimp only [Dict.del]
    split
    · rw [h, erase_empty]
    · exact h

theorem mem_put {k k' : Bytes} {obj : Obj} :
    k' ∈ (d.put k obj).dictStore ↔ k' = k ∨ k' ∈ d.dictStore := AList.mem_insert _

/-- A `SET` without `EX` stores into the cache, and the pool is as before. -/
theorem Tracked.setKey (env : Env) (hcfg : Thorough cfg) (h : Tracked cfg ks) (key value : Bytes) :
    Tracked cfg (setKey cfg env ks key value (ttlMs none)) ∧
      (lruView ks.dictStore).Store cfg.maxKeyNumber.toNat cfg.evictCount.toNat
        (Dict.nowSec env).toNat key value
        (lruView (Core.setKey cfg env ks key value (ttlMs none)).dictStore) := by
  obtain ⟨d, pool⟩ := ks
  have hlimit := hcfg.limit
  have hcount := hcfg.count
  have hbounded : (d.len : Int) ≤ cfg.maxKeyNumber := h.bounded
  have hnoTtl : d.expiredDictStore = ∅ := h.noTtl
  by_cases hroom : (d.len : Int) < cfg.maxKeyNumber
  · rw [setKey_of_lt hroom, newObj_noTtl hnoTtl]
    refine ⟨⟨hnoTtl, ?_, h.nodup, fun c hc => mem_put.2 (.inr (h.live c hc))⟩, ?_⟩
    · have := Dict.len_put_le (d := d) key ⟨value, Dict.nowSec env⟩
      dsimp only
      omega
    · rw [lruView_put]
      refine .room (holds_keySet d) ?_
      rw [Dict.card_keySet]
      omega
  · have hfull : cfg.maxKeyNumber ≤ d.len := by omega
    have hpos : 0 < d.len := by omega
    have hold := popped_oldest env hcfg h hpos
    have hsplit := List.nodup_append.1 (nodup_popped_append env h)
    rw [setKey_of_le hfull, newObj_noTtl hnoTtl, Dict.evict_of_lru hcfg.policy, Dict.evictLru_eq]
    dsimp only
    refine ⟨⟨delAll_noTtl hnoTtl _, ?_, ?_, ?_⟩, ?_⟩
    · have hdel := Dict.len_delAll_add hsplit.1 fun k hk =>
        Dict.mem_keySet.1 ((holds_keySet d k).2 (hold.stored k (List.mem_toFinset.2 hk)))
      have hcard := hold.card
      have hput := Dict.len_put_le (d := d.delAll ((d.popped cfg env pool).map
        LruEvictionCandidate.key)) key ⟨value, Dict.nowSec env⟩
      rw [List.toFinset_card_of_nodup hsplit.1, Dict.card_keySet] at hcard
      dsimp only
      omega
    · exact hsplit.2.1
    · intro c hc
      obtain ⟨obj, hobj, -⟩ := (mem_filled_iff env hcfg h).1 (List.mem_of_mem_drop hc)
      refine mem_put.2 (.inr (Dict.mem_keySet.1 ?_))
      rw [Dict.keySet_delAll, Finset.mem_sdiff, List.mem_toFinset]
      refine ⟨Dict.mem_keySet.2 (mem_of_lookup hobj), fun hpopped => ?_⟩
      exact hsplit.2.2 c.key hpopped c.key (List.mem_map_of_mem hc) rfl
    · rw [lruView_put, lruView_delAll]
      refine .full (holds_keySet d) ?_ hold
      rw [Dict.card_keySet]
      omega

end Store

/-! ## One operation -/

/-- A `SET` that stores a value with an expiry time. -/
def KeyOp.setsTtl : KeyOp → Bool
  | .set args => match parseSET args with
    | .ok (_, _, some _) => true
    | _ => false
  | _ => false

section Step

variable {cfg : Config} {env : Env} {ks : Keyspace} {d : Dict}

/-- Without expiry times `Get` touches what it finds. -/
theorem get_noTtl (h : d.expiredDictStore = ∅) {k : Bytes} {obj : Obj}
    (hobj : d.dictStore.lookup k = some obj) :
    d.get env k = (some (Dict.touched env obj), d.touch env k obj) := by
  have hnot : (d.touch env k obj).hasExpired env k = false := by
    simp [Dict.hasExpired, Dict.touch, h]
  rw [Dict.get, hobj]
  simp [hnot]

theorem Tracked.touch (h : Tracked cfg ks) {k : Bytes} {obj : Obj}
    (hobj : ks.dictStore.dictStore.lookup k = some obj) :
    Tracked cfg { ks with dictStore := ks.dictStore.touch env k obj } where
  noTtl := h.noTtl
  bounded := by
    rw [Dict.len_touch env hobj]
    exact h.bounded
  nodup := h.nodup
  live := fun c hc => mem_put.2 (.inr (h.live c hc))

theorem lruView_of_lookup {k : Bytes} {obj : Obj} (hobj : d.dictStore.lookup k = some obj) :
    lruView d k = some (obj.value, obj.lastAccessTime.toNat) := by
  rw [lruView, hobj]
  rfl

/-- `GET` reads and uses its key. -/
theorem Tracked.cmdGET (env : Env) (h : Tracked cfg ks) (args : List Bytes) :
    (cmdGET env args ks).1 = LruStore.get args (lruView ks.dictStore) ∧
      Tracked cfg (Core.cmdGET env args ks).2 ∧
      lruView (Core.cmdGET env args ks).2.dictStore =
        LruStore.used (Dict.nowSec env).toNat args (lruView ks.dictStore) := by
  rcases args with _ | ⟨key, _ | ⟨arg, args⟩⟩
  · exact ⟨rfl, h, rfl⟩
  · cases hobj : ks.dictStore.dictStore.lookup key with
    | none =>
      have hview : lruView ks.dictStore key = none := by rw [lruView, hobj]; rfl
      simp only [Core.cmdGET, Dict.get_of_none hobj, LruStore.get, LruStore.used, hview,
        LruCache.use_of_none hview, Option.elim_none, true_and, and_true]
      exact h
    | some obj =>
      have hnot : (ks.dictStore.touch env key obj).hasExpired env key = false := by
        simp [Dict.hasExpired, Dict.touch, h.noTtl]
      simp only [Core.cmdGET, get_noTtl h.noTtl hobj, hnot, LruStore.get, LruStore.used,
        lruView_of_lookup hobj, Option.elim_some]
      exact ⟨rfl, h.touch hobj, lruView_touch hobj⟩
  · exact ⟨rfl, h, rfl⟩

/-- `TTL` finds no expiry time, and uses its key. -/
theorem Tracked.cmdTTL (env : Env) (h : Tracked cfg ks) (args : List Bytes) :
    (cmdTTL env args ks).1 = LruStore.ttl args (lruView ks.dictStore) ∧
      Tracked cfg (Core.cmdTTL env args ks).2 ∧
      lruView (Core.cmdTTL env args ks).2.dictStore =
        LruStore.used (Dict.nowSec env).toNat args (lruView ks.dictStore) := by
  rcases args with _ | ⟨key, _ | ⟨arg, args⟩⟩
  · exact ⟨rfl, h, rfl⟩
  · cases hobj : ks.dictStore.dictStore.lookup key with
    | none =>
      have hview : lruView ks.dictStore key = none := by rw [lruView, hobj]; rfl
      simp only [Core.cmdTTL, Dict.get_of_none hobj, LruStore.ttl, LruStore.used, hview,
        LruCache.use_of_none hview, Option.elim_none, true_and, and_true]
      exact h
    | some obj =>
      have hexp : (ks.dictStore.touch env key obj).getExpiry key = none := by
        simp [Dict.getExpiry, Dict.touch, h.noTtl]
      simp only [Core.cmdTTL, get_noTtl h.noTtl hobj, hexp, LruStore.ttl, LruStore.used,
        lruView_of_lookup hobj, Option.elim_some, true_and]
      exact ⟨h.touch hobj, lruView_touch hobj⟩
  · exact ⟨rfl, h, rfl⟩

/-- A cycle has nothing to sample. -/
theorem activeDeleteExpiredKeys_noTtl (h : ks.dictStore.expiredDictStore = ∅) :
    activeDeleteExpiredKeys env ks = .ok ks := by
  have hkeys : ks.dictStore.expiredDictStore.keys = [] := by rw [h]; rfl
  have horder : (env.order 0).order [] = [] := ((env.order 0).perm []).eq_nil
  simp [activeDeleteExpiredKeys, expireLoop, expireRound, hkeys, horder, sampleLoop, bind,
    Except.bind]

theorem step_lru (hcfg : Thorough cfg) {op : KeyOp} (h0 : 0 ≤ env.now.toInt)
    (h1 : env.now.toInt < 2 ^ 32 * 1000) (h : Tracked cfg ks) (hop : op.setsTtl = false) :
    ∃ reply ks', ks.step cfg env op = .ok (reply, ks') ∧ Tracked cfg ks' ∧
      LruStore.Step cfg.maxKeyNumber.toNat cfg.evictCount.toNat (env.millis / 1000)
        (lruView ks.dictStore) op reply (lruView ks'.dictStore) := by
  rw [← toNat_nowSec h0 h1]
  cases op with
  | set args =>
    cases hparse : parseSET args with
    | error reply =>
      refine ⟨some reply, ks, ?_, h, .rejected hparse⟩
      simp only [Keyspace.step, cmdSET, hparse]
    | ok parsed =>
      obtain ⟨key, value, ttl⟩ := parsed
      obtain rfl : ttl = none := by
        cases ttl with
        | none => rfl
        | some n => simp [KeyOp.setsTtl, hparse] at hop
      obtain ⟨htracked, hstore⟩ := Tracked.setKey env hcfg h key value
      refine ⟨some RespOk, _, ?_, htracked, .stored hparse hstore⟩
      simp only [Keyspace.step, cmdSET, hparse]
  | get args =>
    obtain ⟨hreply, htracked, hview⟩ := Tracked.cmdGET env h args
    refine ⟨_, _, rfl, htracked, ?_⟩
    rw [hreply, hview]
    exact .get args
  | ttl args =>
    obtain ⟨hreply, htracked, hview⟩ := Tracked.cmdTTL env h args
    refine ⟨_, _, rfl, htracked, ?_⟩
    rw [hreply, hview]
    exact .ttl args
  | expire =>
    refine ⟨none, ks, ?_, h, .expire⟩
    rw [Keyspace.step, activeDeleteExpiredKeys_noTtl h.noTtl]
    rfl

end Step

/-! ## Runs -/

theorem tracked_init {cfg : Config} (hcfg : Thorough cfg) : Tracked cfg .init where
  noTtl := rfl
  bounded := by
    have hlimit := hcfg.limit
    show ((0 : Nat) : Int) ≤ _
    omega
  nodup := List.nodup_nil
  live := fun _ hc => nomatch hc

/-- The seconds of the clock fit in 32 bits, and nothing is stored with an
expiry time. -/
def KeyOp.Plain (p : KeyOp × Env) : Prop :=
  0 ≤ p.2.now.toInt ∧ p.2.now.toInt < 2 ^ 32 * 1000 ∧ p.1.setsTtl = false

instance (p : KeyOp × Env) : Decidable (KeyOp.Plain p) :=
  inferInstanceAs (Decidable (_ ∧ _ ∧ _))

theorem run_lru {cfg : Config} (hcfg : Thorough cfg) {ks : Keyspace} (ops : List (KeyOp × Env))
    (h : Tracked cfg ks) (hops : ∀ p ∈ ops, KeyOp.Plain p) :
    ∃ replies ks', ks.run cfg ops = .ok (replies, ks') ∧
      LruStore.Runs cfg.maxKeyNumber.toNat cfg.evictCount.toNat ops (lruView ks.dictStore) replies
        (lruView ks'.dictStore) := by
  induction ops generalizing ks with
  | nil => exact ⟨[], ks, rfl, .nil _⟩
  | cons p ops ih =>
    obtain ⟨op, env⟩ := p
    obtain ⟨h0, h1, hop⟩ := hops (op, env) List.mem_cons_self
    obtain ⟨reply, ks₁, hstep, h₁, hlru⟩ := step_lru hcfg h0 h1 h hop
    obtain ⟨replies, ks', hrun, hruns⟩ := ih h₁ fun q hq => hops q (List.mem_cons_of_mem _ hq)
    refine ⟨reply :: replies, ks', ?_, .cons hlru hruns⟩
    rw [Keyspace.run, hstep]
    show (ks₁.run cfg ops >>= _) = _
    rw [hrun]
    rfl

theorem lruView_init : lruView Keyspace.init.dictStore = .empty := rfl

/-- With samples and a pool as large as the key limit, every run without
expiry times, in any iteration orders and with any sort, comes to its end
with the replies of a cache that gives up its least recently used entries. -/
theorem run_exact_lru (cfg : Config) (hcfg : Thorough cfg) (ops : List (KeyOp × Env))
    (hops : ∀ p ∈ ops, KeyOp.Plain p) :
    ∃ replies ks, Keyspace.init.run cfg ops = .ok (replies, ks) ∧
      LruStore.Runs cfg.maxKeyNumber.toNat cfg.evictCount.toNat ops .empty replies
        (lruView ks.dictStore) := by
  rw [← lruView_init]
  exact run_lru hcfg ops (tracked_init hcfg) hops

/-- Room for two: the `GET` of the first key makes the second the older. -/
def threeKeys : List (KeyOp × Env) :=
  [(.set [lit "a", lit "x"], atSecond 1),
    (.set [lit "b", lit "y"], atSecond 2),
    (.get [lit "a"], atSecond 3),
    (.set [lit "c", lit "z"], atSecond 4),
    (.get [lit "a"], atSecond 5),
    (.get [lit "b"], atSecond 5)]

theorem run_exact_lru_three :
    ∃ replies ks, Keyspace.init.run ⟨2, 1, .allkeysLru, 2, 2⟩ threeKeys = .ok (replies, ks) ∧
      LruStore.Runs 2 1 threeKeys .empty replies (lruView ks.dictStore) ∧
      replies = [some (lit "+OK\r\n"), some (lit "+OK\r\n"), some (lit "$1\r\nx\r\n"),
        some (lit "+OK\r\n"), some (lit "$1\r\nx\r\n"), some (lit "$-1\r\n")] := by
  obtain ⟨replies, ks, hrun, hruns⟩ := run_exact_lru ⟨2, 1, .allkeysLru, 2, 2⟩
    ⟨rfl, by decide, by decide, by decide, by decide⟩ threeKeys (by decide)
  have hreplies : (Keyspace.init.run ⟨2, 1, .allkeysLru, 2, 2⟩ threeKeys).toOption.map Prod.fst =
      some [some (lit "+OK\r\n"), some (lit "+OK\r\n"), some (lit "$1\r\nx\r\n"),
        some (lit "+OK\r\n"), some (lit "$1\r\nx\r\n"), some (lit "$-1\r\n")] := by
    decide +kernel
  rw [hrun] at hreplies
  exact ⟨replies, ks, hrun, hruns, Option.some.inj hreplies⟩

/-! ## The working set -/

/-- The key that an operation uses. -/
def KeyOp.key? : KeyOp → Option Bytes
  | .set args => match parseSET args with
    | .ok (key, _, _) => some key
    | .error _ => none
  | .get [key] => some key
  | .ttl [key] => some key
  | _ => none

/-- The other keys used in the second `since` or later. -/
def othersSince (since : Nat) (key : Bytes) (ops : List (KeyOp × Env)) : Finset Bytes :=
  ((ops.filter fun p => decide (since ≤ p.2.millis / 1000)).filterMap fun p => p.1.key?).toFinset.erase
    key

namespace LruStore

variable {cap evict t : Nat} {m m' : LruCache Bytes Bytes} {op : KeyOp} {reply : Option Bytes}
  {key : Bytes} {others : Finset Bytes}

/-- What an operation makes fresher is the key it uses. -/
theorem Step.fresher {since : Nat} (h : Step cap evict t m op reply m')
    (hfresh : m.Fresher since key others)
    (hkey : ∀ k ∈ op.key?, k ≠ key → since ≤ t → k ∈ others) : m'.Fresher since key others := by
  cases h with
  | rejected hparse => exact hfresh
  | stored hparse hstore => exact hstore.fresher hfresh (hkey _ (by simp [KeyOp.key?, hparse]))
  | get args =>
    rcases args with _ | ⟨k, _ | ⟨arg, args⟩⟩
    · exact hfresh
    · exact hfresh.use (hkey k rfl)
    · exact hfresh
  | ttl args =>
    rcases args with _ | ⟨k, _ | ⟨arg, args⟩⟩
    · exact hfresh
    · exact hfresh.use (hkey k rfl)
    · exact hfresh
  | expire => exact hfresh

/-- The value of a key stays while few others are as fresh. -/
theorem Step.survives {since : Nat} (h : Step cap evict t m op reply m') (hsince : since ≤ t)
    {x : Bytes × Nat} (hx : m key = some x) (hxt : since ≤ x.2)
    (hfresh : m.Fresher since key others) (hfew : others.card + evict < cap)
    (hset : ∀ args, op = .set args → op.key? ≠ some key) :
    ∃ u, m' key = some (x.1, u) ∧ since ≤ u := by
  have hstays : ∀ args, ∃ u, used t args m key = some (x.1, u) ∧ since ≤ u := by
    intro args
    rcases args with _ | ⟨k, _ | ⟨arg, args⟩⟩
    · exact ⟨x.2, hx, hxt⟩
    · by_cases hk : key = k
      · subst hk
        exact ⟨t, by simp [used, hx], hsince⟩
      · exact ⟨x.2, (LruCache.use_of_ne hk).trans hx, hxt⟩
    · exact ⟨x.2, hx, hxt⟩
  cases h with
  | rejected hparse => exact ⟨x.2, hx, hxt⟩
  | stored hparse hstore =>
    have hne := hset _ rfl
    simp only [KeyOp.key?, hparse, ne_eq, Option.some.injEq] at hne
    exact ⟨x.2, hstore.survives (Ne.symm hne) hx (hfresh.mono hxt) hfew, hxt⟩
  | get args => exact hstays args
  | ttl args => exact hstays args
  | expire => exact ⟨x.2, hx, hxt⟩

/-- A run is cut where its operations are. -/
theorem Runs.cut {ops₁ ops₂ : List (KeyOp × Env)} {replies : List (Option Bytes)}
    (h : Runs cap evict (ops₁ ++ ops₂) m replies m') :
    ∃ m₁ replies₁ replies₂, replies = replies₁ ++ replies₂ ∧ replies₁.length = ops₁.length ∧
      Runs cap evict ops₁ m replies₁ m₁ ∧ Runs cap evict ops₂ m₁ replies₂ m' := by
  induction ops₁ generalizing m replies with
  | nil => exact ⟨m, [], replies, rfl, rfl, .nil m, h⟩
  | cons p ops ih =>
    cases h with
    | cons hstep hruns =>
      obtain ⟨m₁, replies₁, replies₂, rfl, hlen, h₁, h₂⟩ := ih hruns
      exact ⟨m₁, _ :: replies₁, replies₂, rfl, by simp [hlen], .cons hstep h₁, h₂⟩

theorem Runs.uncons {env : Env} {ops : List (KeyOp × Env)} {replies : List (Option Bytes)}
    (h : Runs cap evict ((op, env) :: ops) m replies m') :
    ∃ m₁ reply rest, replies = reply :: rest ∧ Step cap evict (env.millis / 1000) m op reply m₁ ∧
      Runs cap evict ops m₁ rest m' := by
  cases h with
  | cons hstep hruns => exact ⟨_, _, _, rfl, hstep, hruns⟩

theorem Runs.fresher {since : Nat} {ops : List (KeyOp × Env)} {replies : List (Option Bytes)}
    (h : Runs cap evict ops m replies m') (hfresh : m.Fresher since key others)
    (hkey : ∀ p ∈ ops, ∀ k ∈ p.1.key?, k ≠ key → since ≤ p.2.millis / 1000 → k ∈ others) :
    m'.Fresher since key others := by
  induction h with
  | nil m => exact hfresh
  | cons hstep hruns ih =>
    exact ih (hstep.fresher hfresh (hkey _ List.mem_cons_self))
      fun p hp => hkey p (List.mem_cons_of_mem _ hp)

theorem Runs.survives {since : Nat} {ops : List (KeyOp × Env)} {replies : List (Option Bytes)}
    (h : Runs cap evict ops m replies m') (hsince : ∀ p ∈ ops, since ≤ p.2.millis / 1000)
    {x : Bytes × Nat} (hx : m key = some x) (hxt : since ≤ x.2)
    (hfresh : m.Fresher since key others) (hfew : others.card + evict < cap)
    (hkey : ∀ p ∈ ops, ∀ k ∈ p.1.key?, k ≠ key → since ≤ p.2.millis / 1000 → k ∈ others)
    (hset : ∀ p ∈ ops, ∀ args, p.1 = .set args → p.1.key? ≠ some key) :
    ∃ u, m' key = some (x.1, u) := by
  induction h generalizing x with
  | nil m => exact ⟨x.2, hx⟩
  | cons hstep hruns ih =>
    obtain ⟨u, hu, hle⟩ := hstep.survives (hsince _ List.mem_cons_self) hx hxt hfresh hfew
      (hset _ List.mem_cons_self)
    exact ih (x := (x.1, u)) (fun p hp => hsince p (List.mem_cons_of_mem _ hp)) hu hle
      (hstep.fresher hfresh (hkey _ List.mem_cons_self))
      (fun p hp => hkey p (List.mem_cons_of_mem _ hp))
      fun p hp => hset p (List.mem_cons_of_mem _ hp)

end LruStore

theorem mem_othersSince {since : Nat} {key k : Bytes} {ops : List (KeyOp × Env)}
    {p : KeyOp × Env} (hp : p ∈ ops) (hk : k ∈ p.1.key?) (hne : k ≠ key)
    (hsince : since ≤ p.2.millis / 1000) : k ∈ othersSince since key ops := by
  rw [othersSince, Finset.mem_erase, List.mem_toFinset, List.mem_filterMap]
  exact ⟨hne, p, List.mem_filter.2 ⟨hp, by simpa using hsince⟩, hk⟩

/-- The working set is kept. Let `op` store or find the value of `key`. If
since the second of `op` fewer other keys are used than an eviction leaves,
and `key` is not stored again, a later `GET` replies with the same value. -/
theorem working_set_hits (cfg : Config) (hcfg : Thorough cfg) (before after : List (KeyOp × Env))
    (op : KeyOp) (env env' : Env) (key value : Bytes)
    (hplain : ∀ p ∈ before ++ (op, env) :: (after ++ [(.get [key], env')]), KeyOp.Plain p)
    (hclock : ∀ p ∈ after, env.now.toInt ≤ p.2.now.toInt)
    (hset : ∀ p ∈ after, ∀ args, p.1 = .set args → p.1.key? ≠ some key)
    (hfew : ((othersSince (env.millis / 1000) key (before ++ after)).card : Int) + cfg.evictCount <
      cfg.maxKeyNumber) :
    ∃ replies reply replies' last ks, replies.length = before.length ∧
      Keyspace.init.run cfg (before ++ (op, env) :: (after ++ [(.get [key], env')])) =
        .ok (replies ++ reply :: (replies' ++ [last]), ks) ∧
      (op = .set [key, value] → last = some (encode (.str value) false)) ∧
      (op = .get [key] → reply ≠ some RespNil → last = reply) := by
  obtain ⟨all, ks, hrun, hruns⟩ := run_lru hcfg _ (tracked_init hcfg) hplain
  generalize lruView ks.dictStore = final at hruns
  obtain ⟨m₁, replies, rest, rfl, hlen, hbefore, hruns⟩ := hruns.cut
  obtain ⟨m₂, reply, rest, rfl, hstep, hruns⟩ := hruns.uncons
  obtain ⟨m₃, replies', lasts, rfl, -, hafter, hlast⟩ := hruns.cut
  obtain ⟨m₄, last, nothing, rfl, hget, hnil⟩ := hlast.uncons
  cases hnil
  refine ⟨replies, reply, replies', last, ks, hlen, hrun, ?_⟩
  have hlast : last = some (LruStore.get [key] m₃) := by
    cases hget
    rfl
  -- what is fresher than the use of `key` at any time are keys used since
  have hcount := hcfg.count
  have hsince : ∀ p ∈ after, env.millis / 1000 ≤ p.2.millis / 1000 := by
    intro p hp
    have := hclock p hp
    exact Nat.div_le_div_right (by unfold Env.millis; omega)
  have hfresh : m₁.Fresher (env.millis / 1000) key
      (othersSince (env.millis / 1000) key (before ++ after)) :=
    hbefore.fresher (fun _ _ _ hy => nomatch hy) fun p hp k hk hne hle =>
      mem_othersSince (List.mem_append_left _ hp) hk hne hle
  have hhit : ∀ v, op.key? = some key → m₂ key = some (v, env.millis / 1000) →
      last = some (encode (.str v) false) := by
    intro v hkey hv
    have hfresh₂ := hstep.fresher hfresh fun k hk hne _ => by
      rw [hkey] at hk
      exact absurd (Option.some.inj hk).symm hne
    obtain ⟨u, hu⟩ := hafter.survives hsince hv (Nat.le_refl _) hfresh₂ (by omega)
      (fun p hp k hk hne hle => mem_othersSince (List.mem_append_right _ hp) hk hne hle) hset
    rw [hlast, LruStore.get, hu]
    rfl
  constructor
  · rintro rfl
    cases hstep with
    | rejected hparse => cases hparse
    | stored hparse hstore =>
      cases hparse
      exact hhit value rfl (by cases hstore <;> exact LruCache.put_self value)
  · rintro rfl hreply
    cases hstep with
    | get args =>
      cases hentry : m₁ key with
      | none =>
        rw [LruStore.get, hentry] at hreply
        exact absurd rfl hreply
      | some entry =>
        rw [LruStore.get, hentry]
        exact hhit entry.1 rfl (by simp [LruStore.used, hentry])

/-- Room for four: two further keys evict older ones. -/
theorem working_set_hits_four :
    ∃ replies reply replies' last ks, Keyspace.init.run ⟨4, 1, .allkeysLru, 4, 4⟩
        ([(.set [lit "p", lit "1"], atSecond 1), (.set [lit "q", lit "2"], atSecond 1),
          (.set [lit "r", lit "3"], atSecond 1)] ++ (.set [lit "a", lit "x"], atSecond 2) ::
          ([(.set [lit "s", lit "4"], atSecond 3), (.set [lit "t", lit "5"], atSecond 4)] ++
            [(.get [lit "a"], atSecond 5)])) =
        .ok (replies ++ reply :: (replies' ++ [last]), ks) ∧
      last = some (encode (.str (lit "x")) false) := by
  obtain ⟨replies, reply, replies', last, ks, -, hrun, hset, -⟩ :=
    working_set_hits ⟨4, 1, .allkeysLru, 4, 4⟩ ⟨rfl, by decide, by decide, by decide, by decide⟩
      [(.set [lit "p", lit "1"], atSecond 1), (.set [lit "q", lit "2"], atSecond 1),
        (.set [lit "r", lit "3"], atSecond 1)]
      [(.set [lit "s", lit "4"], atSecond 3), (.set [lit "t", lit "5"], atSecond 4)]
      (.set [lit "a", lit "x"]) (atSecond 2) (atSecond 5) (lit "a") (lit "x")
      (by decide) (by decide) (by simp [KeyOp.key?, parseSET]; decide) (by decide)
  exact ⟨replies, reply, replies', last, ks, hrun, hset rfl⟩

end RediGo.Core
