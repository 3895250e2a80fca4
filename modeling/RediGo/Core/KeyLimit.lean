/-
RediGo.Core.KeyLimit — when the number of keys stays within its limit.

`Set` evicts when the limit is reached and then stores its object, so the
limit holds if every eviction deletes a key. Under `allkeys-random` it does.
Under `allkeys-lru` it pops entries of the pool, and those may be stale: an
eviction samples more keys than it pops, the rest stay in the pool, expire,
and are popped by a later eviction in place of keys that are there.

`withinLimit_iff` says for which configurations that can happen. It cannot
when an eviction pops all that it sampled, and it cannot when the entries
left in the pool are fewer than an eviction pops. In every other
configuration the run of `Idle.round` collects stale entries, at least one
more each time, until there are enough of them for a whole eviction.
-/
import Mathlib.Data.List.Sort
import Mathlib.Logic.Relation
import RediGo.Core.KeyspaceTheorems

namespace RediGo.Core

open RediGo.Go RediGo.HashTable RediGo.Lib

variable {cfg : Config} {env : Env} {ks ks' : Keyspace} {d : Dict} {k : Bytes}

/-! ## The limit is kept -/

/-- After every run the number of keys is within the limit. -/
def WithinLimit (cfg : Config) : Prop :=
  ∀ ops, ∃ replies ks, Keyspace.init.run cfg ops = .ok (replies, ks) ∧
    (ks.dictStore.len : Int) ≤ cfg.maxKeyNumber

/-- What evictions leave in the pool is too little to fill an eviction. -/
def PoolLow (cfg : Config) (pool : LruEvictionPool) : Prop :=
  cfg.epoolMaxSize < 2 * cfg.evictCount ∧ Dict.Spare cfg pool ∨
    (cfg.maxKeyNumber ≤ cfg.evictCount ∨ cfg.epoolLRUSampleSize ≤ cfg.evictCount) ∧ pool = []

theorem PoolLow.spare {pool : LruEvictionPool} (h : PoolLow cfg pool) : Dict.Spare cfg pool := by
  rcases h with ⟨-, h⟩ | ⟨-, h⟩
  · exact h
  · exact .inl h

theorem PoolLow.length_lt {pool : LruEvictionPool} (hcount : 1 ≤ cfg.evictCount)
    (h : PoolLow cfg pool) : (pool.length : Int) < cfg.evictCount := by
  rcases h with ⟨hcap, rfl | h⟩ | ⟨-, rfl⟩
  · exact hcount
  · omega
  · exact hcount

theorem PoolLow.evictLru {pool : LruEvictionPool} (hcap : 1 ≤ cfg.epoolMaxSize)
    (hsample : 1 ≤ cfg.epoolLRUSampleSize) (hlen : (d.len : Int) ≤ cfg.maxKeyNumber)
    (h : PoolLow cfg pool) : PoolLow cfg (d.evictLru cfg env pool).2 := by
  rcases h with ⟨hsmall, h⟩ | ⟨hall, rfl⟩
  · exact .inl ⟨hsmall, h.evictLru hcap⟩
  · refine .inr ⟨hall, Dict.evictLru_drains (.inr ?_)⟩
    exact hall.imp (fun h => by omega) fun h => ⟨hsample, h⟩

structure Limited (cfg : Config) (ks : Keyspace) : Prop where
  orphans : ks.dictStore.orphans = ∅
  len_le : (ks.dictStore.len : Int) ≤ cfg.maxKeyNumber
  pool : cfg.evictionPolicy = .allkeysLru → 1 ≤ cfg.evictCount ∧ PoolLow cfg ks.ePool

theorem Limited.evict {pool : LruEvictionPool} (env : Env) (hcap : 1 ≤ cfg.epoolMaxSize)
    (hsample : 1 ≤ cfg.epoolLRUSampleSize) (hlen : (d.len : Int) ≤ cfg.maxKeyNumber)
    (hpos : 0 < d.len)
    (hpool : cfg.evictionPolicy = .allkeysLru → 1 ≤ cfg.evictCount ∧ PoolLow cfg pool) :
    (d.evict cfg env pool).1.len < d.len ∧
      (cfg.evictionPolicy = .allkeysLru → 1 ≤ cfg.evictCount ∧
        PoolLow cfg (d.evict cfg env pool).2) := by
  by_cases hlru : cfg.evictionPolicy = .allkeysLru
  · obtain ⟨hcount, hlow⟩ := hpool hlru
    have hstale : (pool.countP d.stale : Int) < cfg.evictCount := by
      have hlength := hlow.length_lt hcount
      have hle := pool.countP_le_length (p := d.stale)
      omega
    rw [Dict.evict_of_lru hlru]
    exact ⟨Dict.len_evictLru_lt hcap hlow.spare hstale hpos,
      fun _ => ⟨hcount, hlow.evictLru hcap hsample hlen⟩⟩
  · rw [Dict.evict_of_ne hlru]
    exact ⟨Dict.len_evictRandom_lt hpos, fun h => absurd h hlru⟩

theorem Limited.setKey (hmax : 1 ≤ cfg.maxKeyNumber) (hcap : 1 ≤ cfg.epoolMaxSize)
    (hsample : 1 ≤ cfg.epoolLRUSampleSize) (h : Limited cfg ks) (key value : Bytes)
    (ttl : Int64) : Limited cfg (setKey cfg env ks key value ttl) := by
  have horphans : (Core.setKey cfg env ks key value ttl).dictStore.orphans = ∅ :=
    setKey_orphans key value ttl h.orphans
  have hput := fun d : Dict => d.len_put_le key ⟨value, Dict.nowSec env⟩
  have hlen := newObj_len env ks.dictStore key value ttl
  have hle := h.len_le
  by_cases hfull : cfg.maxKeyNumber ≤ ks.dictStore.len
  · obtain ⟨hlt, hpool⟩ := Limited.evict env hcap hsample (hlen ▸ hle) (by omega) h.pool
    rw [setKey_of_le hfull] at horphans ⊢
    have hafter := hput ((ks.dictStore.newObj env key value ttl).2.evict cfg env ks.ePool).1
    refine ⟨horphans, ?_, hpool⟩
    dsimp only
    omega
  · have hafter := hput (ks.dictStore.newObj env key value ttl).2
    rw [setKey_of_lt (by omega)] at horphans ⊢
    refine ⟨horphans, ?_, h.pool⟩
    dsimp only
    omega

theorem kept_limited (hmax : 1 ≤ cfg.maxKeyNumber) (hcap : 1 ≤ cfg.epoolMaxSize)
    (hsample : 1 ≤ cfg.epoolLRUSampleSize) : Kept cfg (Limited cfg) where
  orphans := fun _ h => h.orphans
  touch := by
    intro ks env k obj h hobj
    refine ⟨(Dict.orphans_touch hobj).trans h.orphans, ?_, h.pool⟩
    dsimp only
    rw [Dict.len_touch env hobj]
    exact h.len_le
  del := by
    intro ks k h
    refine ⟨(Dict.orphans_del k).trans h.orphans, ?_, h.pool⟩
    have hle : (ks.dictStore.delAll [k]).len ≤ _ := Dict.len_delAll_le
    exact Int.le_trans (Int.ofNat_le.2 hle) h.len_le
  setKey := fun _ _ key value ttl h => h.setKey hmax hcap hsample key value ttl

theorem limited_init (hmax : 1 ≤ cfg.maxKeyNumber)
    (h : cfg.evictionPolicy = .allkeysLru → 1 ≤ cfg.evictCount ∧
      (cfg.epoolMaxSize < 2 * cfg.evictCount ∨ cfg.maxKeyNumber ≤ cfg.evictCount ∨
        cfg.epoolLRUSampleSize ≤ cfg.evictCount)) : Limited cfg .init where
  orphans := orphans_init
  len_le := Int.le_trans (by decide) hmax
  pool := fun hlru => (h hlru).imp_right fun h =>
    h.imp (fun h => ⟨h, .inl rfl⟩) fun h => ⟨h, rfl⟩

/-! ## Reachable states -/

def Reaches (cfg : Config) : Keyspace → Keyspace → Prop :=
  Relation.ReflTransGen fun ks ks' => ∃ env op reply, ks.step cfg env op = .ok (reply, ks')

theorem Reaches.exists_run (h : Reaches cfg ks ks') :
    ∃ ops replies, ks.run cfg ops = .ok (replies, ks') := by
  induction h using Relation.ReflTransGen.head_induction_on with
  | refl => exact ⟨[], [], rfl⟩
  | head hstep _ ih =>
    obtain ⟨env, op, reply, hstep⟩ := hstep
    obtain ⟨ops, replies, hrun⟩ := ih
    refine ⟨(op, env) :: ops, reply :: replies, ?_⟩
    rw [Keyspace.run, hstep]
    show (Keyspace.run cfg ops _ >>= _) = _
    rw [hrun]
    rfl

/-- The key space after `SET k "" EX 1`. -/
def write (cfg : Config) (env : Env) (ks : Keyspace) (k : Bytes) : Keyspace :=
  setKey cfg env ks k [] 1000

theorem reaches_write (env : Env) (k : Bytes) : Reaches cfg ks (write cfg env ks k) := by
  refine .single ⟨env, .set [k, [], lit "EX", lit "1"], some RespOk, ?_⟩
  have hparse : parseSET [k, [], lit "EX", lit "1"] = .ok (k, [], some 1) := rfl
  simp only [Keyspace.step, cmdSET, hparse]
  rfl

theorem reaches_get (env : Env) (k : Bytes) :
    Reaches cfg ks { ks with dictStore := (ks.dictStore.get env k).2 } :=
  .single ⟨env, .get [k], _, by rw [Keyspace.step, cmdGET_snd]⟩

/-! ## Filling the store -/

/-- All that is stored was written at one time, with a second to live. -/
def WrittenAt (env : Env) (d : Dict) : Prop :=
  ∀ k obj, d.dictStore.lookup k = some obj → obj.lastAccessTime = Dict.nowSec env ∧
    d.expiredDictStore.lookup k = some (env.now.toUInt64 + 1000)

theorem WrittenAt.delAll (h : WrittenAt env d) (keys : List Bytes) :
    WrittenAt env (d.delAll keys) := by
  intro k obj hobj
  rw [Dict.lookup_delAll] at hobj
  split at hobj
  · cases hobj
  · rename_i hk
    rw [Dict.lookup_expiry_delAll, if_neg fun h => hk h.1]
    exact h k obj hobj

/-- Storing a key that was not there, whatever was evicted for it. -/
theorem WrittenAt.put (h : WrittenAt env d) (hk : k ∉ d.dictStore) (keys : List Bytes) :
    WrittenAt env (((d.newObj env k [] 1000).2.delAll keys).put k ⟨[], Dict.nowSec env⟩) := by
  have hpos : (0 : Int64) < 1000 := by decide
  have hnew : (d.newObj env k [] 1000).2 = d.setExpiry env k 1000 := by
    rw [Dict.newObj, if_pos hpos]
  have hwritten : WrittenAt env (d.setExpiry env k 1000) := by
    intro k' obj hobj
    have hne : k' ≠ k := by
      rintro rfl
      exact hk (mem_of_lookup hobj)
    exact ⟨(h k' obj hobj).1, (AList.lookup_insert_ne hne).trans (h k' obj hobj).2⟩
  rw [hnew]
  intro k' obj hobj
  by_cases heq : k' = k
  · subst heq
    cases (AList.lookup_insert _).symm.trans hobj
    have hkept := Dict.lookup_expiry_delAll (d := d.setExpiry env k' 1000) keys k'
    rw [if_neg fun h => hk h.2] at hkept
    exact ⟨rfl, hkept.trans (AList.lookup_insert _)⟩
  · exact hwritten.delAll keys k' obj ((AList.lookup_insert_ne heq).symm.trans hobj)

/-- `n` keys of lengths from `i` on, written at one time. -/
structure Filled (env : Env) (i n : Nat) (d : Dict) : Prop where
  len_eq : d.len = n
  lengths : ∀ k, k ∈ d.dictStore → i ≤ k.length ∧ k.length < i + n
  written : WrittenAt env d

def name (i : Nat) : Bytes := List.replicate i 0

theorem length_name (i : Nat) : (name i).length = i := List.length_replicate ..

theorem Filled.name_notMem {i n : Nat} (h : Filled env i n d) : name (i + n) ∉ d.dictStore := by
  intro hmem
  have hlt := (h.lengths _ hmem).2
  rw [length_name] at hlt
  omega

theorem filled_of_len_eq_zero (env : Env) (i : Nat) (h : d.len = 0) : Filled env i 0 d := by
  have hnone : ∀ k, k ∉ d.dictStore := by
    intro k hk
    rw [AList.mem_keys, List.eq_nil_of_length_eq_zero h] at hk
    exact List.not_mem_nil hk
  refine ⟨h, fun k hk => absurd hk (hnone k), fun k obj hobj => ?_⟩
  exact absurd (mem_of_lookup hobj) (hnone k)

theorem mem_put_newObj {k' : Bytes} {obj : Obj} :
    k' ∈ ((d.newObj env k [] 1000).2.put k obj).dictStore ↔ k' = k ∨ k' ∈ d.dictStore := by
  refine (AList.mem_insert _).trans (or_congr_right ?_)
  rw [newObj_dictStore]

theorem Filled.write (cfg : Config) {i n : Nat} (h : Filled env i n ks.dictStore)
    (hlimit : (n : Int) < cfg.maxKeyNumber) :
    (write cfg env ks (name (i + n))).ePool = ks.ePool ∧
      Filled env i (n + 1) (write cfg env ks (name (i + n))).dictStore := by
  have hnew := h.name_notMem
  rw [Core.write, setKey_of_lt (by rw [h.len_eq]; exact hlimit)]
  refine ⟨rfl, ?_, ?_, h.written.put hnew []⟩
  · rw [Dict.len_put_of_notMem (by rw [newObj_dictStore]; exact hnew), newObj_len, h.len_eq]
  · intro k hk
    rcases mem_put_newObj.1 hk with rfl | hk
    · rw [length_name]
      omega
    · have hlengths := h.lengths k hk
      omega

/-- The key space after `n` writes of new keys. -/
def fill (cfg : Config) (env : Env) (i : Nat) : Nat → Keyspace → Keyspace
  | 0, ks => ks
  | n + 1, ks => write cfg env (fill cfg env i n ks) (name (i + n))

theorem filled_fill (cfg : Config) (env : Env) (i : Nat) {n : Nat} (ks : Keyspace) (hempty : ks.dictStore.len = 0)
    (hlimit : (n : Int) ≤ cfg.maxKeyNumber) :
    (fill cfg env i n ks).ePool = ks.ePool ∧ Filled env i n (fill cfg env i n ks).dictStore := by
  induction n with
  | zero => exact ⟨rfl, filled_of_len_eq_zero env i hempty⟩
  | succ n ih =>
    obtain ⟨hpool, hfilled⟩ := ih (by omega)
    obtain ⟨hpool', hfilled'⟩ := hfilled.write cfg (by omega)
    exact ⟨hpool'.trans hpool, hfilled'⟩

theorem reaches_fill (env : Env) (i n : Nat) : Reaches cfg ks (fill cfg env i n ks) := by
  induction n with
  | zero => exact .refl
  | succ n ih => exact ih.trans (reaches_write env _)

/-! ## One write too many -/

/-- The dictionary of a write after `NewObj`. -/
def renewed (env : Env) (ks : Keyspace) (k : Bytes) : Dict :=
  (ks.dictStore.newObj env k [] 1000).2

theorem renewed_dictStore (env : Env) (ks : Keyspace) (k : Bytes) :
    (renewed env ks k).dictStore = ks.dictStore.dictStore :=
  newObj_dictStore ..

theorem renewed_len (env : Env) (ks : Keyspace) (k : Bytes) :
    (renewed env ks k).len = ks.dictStore.len :=
  newObj_len ..

/-- The pool of a write at the limit before entries are popped. -/
def pushed (cfg : Config) (env : Env) (ks : Keyspace) (k : Bytes) : LruEvictionPool :=
  Dict.pushAll cfg env ((renewed env ks k).samples cfg env) ks.ePool

/-- The keys that a write at the limit deletes. -/
def poppedKeys (cfg : Config) (env : Env) (ks : Keyspace) (k : Bytes) : List Bytes :=
  ((pushed cfg env ks k).take cfg.evictCount.toNat).map LruEvictionCandidate.key

theorem write_of_full (env : Env) (k : Bytes) (hlru : cfg.evictionPolicy = .allkeysLru)
    (hfull : cfg.maxKeyNumber ≤ ks.dictStore.len) :
    write cfg env ks k =
      ⟨((renewed env ks k).delAll (poppedKeys cfg env ks k)).put k ⟨[], Dict.nowSec env⟩,
        (pushed cfg env ks k).drop cfg.evictCount.toNat⟩ := by
  rw [write, setKey_of_le hfull, Dict.evict_of_lru hlru, Dict.evictLru_eq]
  rfl

/-- Pool entries from before: of time zero, and with shorter keys than any
written later. -/
def Old (i : Nat) (c : LruEvictionCandidate) : Bool := c.lastAccessTime = 0 ∧ c.key.length < i

theorem old_iff {i : Nat} {c : LruEvictionCandidate} :
    Old i c = true ↔ c.lastAccessTime = 0 ∧ c.key.length < i := decide_eq_true_iff

namespace Filled

variable {i n : Nat} {c : LruEvictionCandidate} (h : Filled env i n ks.dictStore)

include h

theorem of_mem_samples (hc : c ∈ (renewed env ks k).samples cfg env) :
    c.lastAccessTime = Dict.nowSec env ∧ i ≤ c.key.length ∧ c.key.length < i + n := by
  have hmem := Dict.mem_of_mem_samples hc
  obtain ⟨obj, hobj, htime⟩ := Dict.lookup_of_mem_samples hc
  rw [renewed_dictStore] at hmem hobj
  exact ⟨htime ▸ (h.written c.key obj hobj).1, h.lengths c.key hmem⟩

/-- More keys are sampled than popped. -/
theorem lt_length_samples (k : Bytes) (hn : cfg.evictCount < n) (hpos : 0 < n)
    (hsample : 1 ≤ cfg.epoolLRUSampleSize → cfg.evictCount < cfg.epoolLRUSampleSize) :
    cfg.evictCount.toNat < ((renewed env ks k).samples cfg env).length := by
  rw [Dict.length_samples, renewed_len, h.len_eq]
  split
  · rename_i hpositive
    have hlt := hsample hpositive
    omega
  · omega

/-- A new key adds to what an eviction leaves. -/
theorem len_write (hlru : cfg.evictionPolicy = .allkeysLru) (hfull : cfg.maxKeyNumber ≤ n) :
    (Core.write cfg env ks (name (i + n))).dictStore.len =
      ((renewed env ks (name (i + n))).delAll (poppedKeys cfg env ks (name (i + n)))).len + 1 := by
  rw [write_of_full _ _ hlru (by rw [h.len_eq]; exact hfull)]
  refine Dict.len_put_of_notMem (fun hmem => ?_) _
  rw [← Dict.mem_keySet, Dict.keySet_delAll, Finset.mem_sdiff, Dict.mem_keySet,
    renewed_dictStore] at hmem
  exact h.name_notMem hmem.1

/-- From an empty pool, all that is popped is stored. -/
theorem len_write_of_nil (hlru : cfg.evictionPolicy = .allkeysLru)
    (hfull : cfg.maxKeyNumber ≤ n) (hpool : ks.ePool = [])
    (hcap : cfg.evictCount.toNat ≤ cfg.epoolMaxSize)
    (hsamples : cfg.evictCount.toNat ≤
      ((renewed env ks (name (i + n))).samples cfg env).length) :
    (Core.write cfg env ks (name (i + n))).dictStore.len + cfg.evictCount.toNat = n + 1 := by
  have hsort := Dict.sorts env.sorter
  have hlong : cfg.evictCount.toNat ≤ (pushed cfg env ks (name (i + n))).length := by
    refine Pool.le_length_pushAll hsort hcap (by omega) Dict.nodup_samples ?_
    simp [hpool]
  have hnodup : (poppedKeys cfg env ks (name (i + n))).Nodup := by
    refine ((List.take_sublist ..).map _).nodup (Pool.nodup_pushAll hsort ?_)
    simp [hpool]
  have hstored : ∀ k ∈ poppedKeys cfg env ks (name (i + n)),
      k ∈ (renewed env ks (name (i + n))).dictStore := by
    intro k hk
    obtain ⟨c, hc, rfl⟩ := List.mem_map.1 hk
    rcases Pool.mem_pushAll hsort (List.mem_of_mem_take hc) with hc | hc
    · exact Dict.mem_of_mem_samples hc
    · simp [hpool] at hc
  have hlength : (poppedKeys cfg env ks (name (i + n))).length = cfg.evictCount.toNat := by
    rw [poppedKeys, List.length_map, List.length_take, Nat.min_eq_left hlong]
  have hcount := Dict.len_delAll_add hnodup hstored
  rw [hlength, renewed_len, h.len_eq] at hcount
  rw [h.len_write hlru hfull]
  omega

variable (hold : ∀ c ∈ ks.ePool, Old i c = true)

include hold

theorem new_or_old (hc : c ∈ pushed cfg env ks k) :
    c.lastAccessTime = Dict.nowSec env ∧ c.key.length < i + n ∨ Old i c = true := by
  rcases Pool.mem_pushAll (Dict.sorts env.sorter) hc with hc | hc
  · obtain ⟨htime, -, hlt⟩ := h.of_mem_samples hc
    exact .inl ⟨htime, hlt⟩
  · exact .inr (hold c hc)

/-- A write at the limit adds an entry to the pool, as long as there is
room. -/
theorem le_length_ePool (hlru : cfg.evictionPolicy = .allkeysLru)
    (hfull : cfg.maxKeyNumber ≤ n)
    (hsamples : cfg.evictCount.toNat <
      ((renewed env ks k).samples cfg env).length) {m : Nat}
    (hm : m ≤ ks.ePool.length + 1) (hcap : (cfg.evictCount.toNat + m : Nat) ≤ cfg.epoolMaxSize) :
    m ≤ (Core.write cfg env ks k).ePool.length := by
  have hlong : cfg.evictCount.toNat + m ≤ (pushed cfg env ks k).length := by
    refine Pool.le_length_pushAll (Dict.sorts env.sorter) hcap (by omega) Dict.nodup_samples ?_
    intro c hc x hx heq
    have hshort := (old_iff.1 (hold c hc)).2
    have hlen := (h.of_mem_samples hx).2.1
    rw [heq] at hshort
    omega
  rw [write_of_full _ _ hlru (by rw [h.len_eq]; exact hfull), List.length_drop]
  omega

/-- All of the pool is old for the keys that come after a write at time zero. -/
theorem old_ePool_write (hlru : cfg.evictionPolicy = .allkeysLru)
    (hfull : cfg.maxKeyNumber ≤ n) (htime : Dict.nowSec env = 0) :
    ∀ c ∈ (Core.write cfg env ks k).ePool, Old (i + n + 1) c = true := by
  intro c hc
  rw [write_of_full _ _ hlru (by rw [h.len_eq]; exact hfull)] at hc
  rcases h.new_or_old hold (List.mem_of_mem_drop hc) with ⟨hnew, hlt⟩ | hc
  · exact old_iff.2 ⟨hnew.trans htime, by omega⟩
  · obtain ⟨hzero, hlt⟩ := old_iff.1 hc
    exact old_iff.2 ⟨hzero, by omega⟩

/-- Old entries come before those of a later time. -/
theorem old_of_mem_take (hn : n ≠ 0) (htime : 0 < Dict.nowSec env) {m : Nat}
    (hm : m ≤ ks.ePool.length) : ∀ c ∈ (pushed cfg env ks k).take m, Old i c = true := by
  have hsort := Dict.sorts env.sorter
  have hnot : ∀ {a b : UInt32}, a = Dict.nowSec env → b = 0 → ¬ a ≤ b := by
    rintro a b rfl rfl
    exact UInt32.not_le.2 htime
  have hpos : 0 < (renewed env ks k).len := by
    rw [renewed_len, h.len_eq]
    omega
  have hcount : (pushed cfg env ks k).countP (Old i) = ks.ePool.length := by
    rw [← List.countP_eq_length.2 hold]
    refine Pool.countP_pushAll_eq hsort (fun x hx c hc => ?_) fun x hx c hc => ?_
    · have hlt := (h.of_mem_samples hx).2.1
      simp [Old, hc, hlt]
    · exact hnot (h.of_mem_samples hx).1 (old_iff.1 hc).1
  have hsorted : (pushed cfg env ks k).Pairwise _ :=
    Pool.pairwise_pushAll hsort (Dict.samples_ne_nil cfg env hpos)
  refine Pool.forall_mem_take hsorted (fun a ha b hab hb => ?_) (by omega)
  exact (h.new_or_old hold ha).resolve_left fun hnew => hnot hnew.1 (old_iff.1 hb).1 hab

/-- The old entries are popped first and free nothing. -/
theorem le_len_write (hlru : cfg.evictionPolicy = .allkeysLru) (hfull : cfg.maxKeyNumber ≤ n)
    (hn : n ≠ 0) (htime : 0 < Dict.nowSec env) {m : Nat} (hm : m ≤ ks.ePool.length)
    (hcount : m ≤ cfg.evictCount.toNat) :
    n + 1 + m ≤ (Core.write cfg env ks (name (i + n))).dictStore.len + cfg.evictCount.toNat := by
  let live : Bytes → Bool := (· ∈ (renewed env ks (name (i + n))).keySet)
  have hfirst : (((pushed cfg env ks (name (i + n))).take m).map LruEvictionCandidate.key).filter
      live = [] := by
    rw [List.filter_eq_nil_iff]
    intro k hk
    obtain ⟨c, hc, rfl⟩ := List.mem_map.1 hk
    have hshort := (old_iff.1 (h.old_of_mem_take hold hn htime hm c hc)).2
    rw [decide_eq_true_iff, Dict.mem_keySet, renewed_dictStore]
    intro hmem
    have hlong := (h.lengths c.key hmem).1
    omega
  have hlive : ((poppedKeys cfg env ks (name (i + n))).filter live).length ≤
      cfg.evictCount.toNat - m := by
    rw [poppedKeys, show cfg.evictCount.toNat = m + (cfg.evictCount.toNat - m) by omega,
      List.take_add, List.map_append, List.filter_append, hfirst, List.nil_append]
    refine Nat.le_trans (List.length_filter_le ..) ?_
    rw [List.length_map, List.length_take]
    omega
  have hle : (renewed env ks (name (i + n))).len ≤ _ +
      ((poppedKeys cfg env ks (name (i + n))).filter live).length := Dict.len_le_len_delAll _ _
  rw [renewed_len, h.len_eq] at hle
  rw [h.len_write hlru hfull]
  omega

end Filled

/-! ## Collecting stale entries -/

def early : Env := default

/-- A second later. -/
def late : Env := { (default : Env) with now := 1000 }

theorem touch_del {obj : Obj} (hk : k ∈ d.dictStore) :
    ((d.touch env k obj).del k).2 = (d.del k).2 := by
  have hmem : k ∈ (d.touch env k obj).dictStore := (AList.mem_insert _).2 (.inl rfl)
  have herase : (d.touch env k obj).dictStore.erase k = d.dictStore.erase k := by
    apply AList.ext
    show List.kerase k (List.kinsert k _ d.dictStore.entries) = List.kerase k d.dictStore.entries
    rw [List.kinsert_def]
    exact List.kerase_cons_eq rfl
  rw [Dict.del, if_pos hmem, Dict.del, if_pos hk, herase]
  rfl

/-- Reading every key a second later deletes them all. -/
theorem WrittenAt.exists_cleared (h : WrittenAt early ks.dictStore) :
    ∃ ks', Reaches cfg ks ks' ∧ ks'.ePool = ks.ePool ∧ ks'.dictStore.len = 0 := by
  induction hn : ks.dictStore.len generalizing ks with
  | zero => exact ⟨ks, .refl, rfl, hn⟩
  | succ n ih =>
    obtain ⟨k, hk⟩ := Dict.exists_mem_of_len_pos (d := ks.dictStore) (by omega)
    obtain ⟨obj, hobj⟩ := exists_lookup hk
    have hexp : ks.dictStore.hasExpired late k = true := by
      rw [Dict.hasExpired, (h k obj hobj).2]
      decide
    have hget : (ks.dictStore.get late k).2 = (ks.dictStore.del k).2 := by
      rw [Dict.get_of_some hobj, if_pos hexp]
      exact touch_del hk
    have hlen : (ks.dictStore.delAll [k]).len + 1 = ks.dictStore.len :=
      Dict.len_delAll_add (List.nodup_singleton k) (by simpa using hk)
    have hread : Reaches cfg ks { ks with dictStore := (ks.dictStore.del k).2 } :=
      hget ▸ reaches_get late k
    obtain ⟨ks', hreach, hpool, hempty⟩ := @ih { ks with dictStore := (ks.dictStore.del k).2 }
      (h.delAll [k]) (Nat.succ_injective (hlen.trans hn))
    exact ⟨ks', hread.trans hreach, hpool, hempty⟩

/-- Nothing is stored, and the pool holds at least `x` entries, all old. -/
structure Idle (i x : Nat) (ks : Keyspace) : Prop where
  empty : ks.dictStore.len = 0
  pooled : x ≤ ks.ePool.length
  old : ∀ c ∈ ks.ePool, Old i c = true

/-- Filling the store, writing one more key and letting all of them expire
leaves one stale entry more. -/
theorem Idle.round {i x n : Nat} (h : Idle i x ks) (hlru : cfg.evictionPolicy = .allkeysLru)
    (hmax : cfg.maxKeyNumber = n) (hx : x < cfg.evictCount.toNat)
    (hcap : 2 * cfg.evictCount ≤ cfg.epoolMaxSize) (hcount : cfg.evictCount < n)
    (hsample : 1 ≤ cfg.epoolLRUSampleSize → cfg.evictCount < cfg.epoolLRUSampleSize) :
    ∃ ks', Reaches cfg ks ks' ∧ Idle (i + n + 1) (x + 1) ks' := by
  obtain ⟨hpool, hfilled⟩ := filled_fill cfg early i ks h.empty hmax.ge
  have hold : ∀ c ∈ (fill cfg early i n ks).ePool, Old i c = true := hpool ▸ h.old
  have hwrite := write_of_full early (name (i + n)) hlru (by rw [hfilled.len_eq]; exact hmax.le)
  have hwritten : WrittenAt early
      (write cfg early (fill cfg early i n ks) (name (i + n))).dictStore := by
    rw [hwrite]
    exact hfilled.written.put hfilled.name_notMem _
  have hlength : x + 1 ≤ (write cfg early (fill cfg early i n ks) (name (i + n))).ePool.length := by
    refine hfilled.le_length_ePool hold hlru hmax.le ?_ ?_ ?_
    · exact hfilled.lt_length_samples _ hcount (by omega) hsample
    · have hpooled := h.pooled
      rw [hpool]
      omega
    · omega
  have holder := hfilled.old_ePool_write hold (k := name (i + n)) hlru hmax.le rfl
  obtain ⟨ks', hreach, hpool', hempty⟩ := hwritten.exists_cleared
  exact ⟨ks', ((reaches_fill early i n).trans (reaches_write early _)).trans hreach, hempty,
    hpool' ▸ hlength, hpool' ▸ holder⟩

theorem exists_idle {n : Nat} (hlru : cfg.evictionPolicy = .allkeysLru)
    (hmax : cfg.maxKeyNumber = n)
    (hrounds : 1 ≤ cfg.evictCount → 2 * cfg.evictCount ≤ cfg.epoolMaxSize ∧ cfg.evictCount < n ∧
      (1 ≤ cfg.epoolLRUSampleSize → cfg.evictCount < cfg.epoolLRUSampleSize)) (x : Nat)
    (hx : x ≤ cfg.evictCount.toNat) : ∃ i ks, Reaches cfg .init ks ∧ Idle i x ks := by
  induction x with
  | zero => exact ⟨0, .init, .refl, rfl, Nat.zero_le _, by simp [Keyspace.init]⟩
  | succ x ih =>
    obtain ⟨i, ks, hreach, hidle⟩ := ih (by omega)
    obtain ⟨hcap, hcount, hsample⟩ := hrounds (by omega)
    obtain ⟨ks', hreach', hidle'⟩ := hidle.round hlru hmax (by omega) hcap hcount hsample
    exact ⟨_, ks', hreach.trans hreach', hidle'⟩

/-- With as many stale entries as an eviction pops, the next one frees
nothing. -/
theorem Idle.exists_overfull {i n : Nat} (h : Idle i cfg.evictCount.toNat ks)
    (hlru : cfg.evictionPolicy = .allkeysLru) (hmax : cfg.maxKeyNumber = n) (hpos : n ≠ 0) :
    ∃ ks', Reaches cfg ks ks' ∧ n < ks'.dictStore.len := by
  obtain ⟨hpool, hfilled⟩ := filled_fill cfg late i ks h.empty hmax.ge
  refine ⟨_, (reaches_fill late i n).trans (reaches_write late (name (i + n))), ?_⟩
  have hlen := hfilled.le_len_write (hpool ▸ h.old) hlru hmax.le hpos (by decide)
    (hpool ▸ h.pooled) (Nat.le_refl _)
  omega

/-- The number of keys stays within its limit in every run exactly if the
policy is not `allkeys-lru`, or an eviction pops at least one entry and
either all that it sampled or more than half of what the pool holds. -/
theorem withinLimit_iff (cfg : Config) (hmax : 1 ≤ cfg.maxKeyNumber)
    (hcap : 1 ≤ cfg.epoolMaxSize) (hsample : 1 ≤ cfg.epoolLRUSampleSize) :
    WithinLimit cfg ↔ (cfg.evictionPolicy = .allkeysLru → 1 ≤ cfg.evictCount ∧
      (cfg.epoolMaxSize < 2 * cfg.evictCount ∨ cfg.maxKeyNumber ≤ cfg.evictCount ∨
        cfg.epoolLRUSampleSize ≤ cfg.evictCount)) := by
  constructor
  · intro hlimit hlru
    by_contra hbad
    have hn : cfg.maxKeyNumber = cfg.maxKeyNumber.toNat := by omega
    obtain ⟨i, ks, hreach, hidle⟩ := exists_idle hlru hn (by omega) _ (Nat.le_refl _)
    obtain ⟨ks', hreach', hlen⟩ := hidle.exists_overfull hlru hn (by omega)
    obtain ⟨ops, replies, hrun⟩ := Reaches.exists_run (hreach.trans hreach')
    obtain ⟨replies', ks'', hrun', hle⟩ := hlimit ops
    cases hrun.symm.trans hrun'
    omega
  · intro hcfg ops
    obtain ⟨replies, ks, hrun, hks⟩ :=
      (kept_limited hmax hcap hsample).run ops (limited_init hmax hcfg)
    exact ⟨replies, ks, hrun, hks.len_le⟩

/-- The limits of the default configuration, and a smaller store under
`allkeys-lru`. -/
theorem withinLimit_iff_default : WithinLimit ⟨1000000, 100000, .allkeysRandom, 16, 5⟩ ∧
    WithinLimit ⟨1000000, 100000, .allkeysLru, 16, 5⟩ ∧
    ¬ WithinLimit ⟨20, 2, .allkeysLru, 16, 5⟩ := by
  refine ⟨?_, ?_, ?_⟩
  · exact (withinLimit_iff _ (by decide) (by decide) (by decide)).2 (by decide)
  · exact (withinLimit_iff _ (by decide) (by decide) (by decide)).2 (by decide)
  · exact fun h => absurd ((withinLimit_iff _ (by decide) (by decide) (by decide)).1 h) (by decide)

instance : Std.Total fun a b : LruEvictionCandidate => a.lastAccessTime ≤ b.lastAccessTime :=
  ⟨fun _ _ => UInt32.le_total _ _⟩

instance : IsTrans LruEvictionCandidate fun a b => a.lastAccessTime ≤ b.lastAccessTime :=
  ⟨fun _ _ _ => UInt32.le_trans⟩

/-- A clock reading in seconds, the order of the map entries, and a sort that
can be evaluated. -/
def atSecond (sec : Int64) : Env where
  now := 1000 * sec
  order := default
  sorter :=
    { sort := List.insertionSort fun a b => a.lastAccessTime ≤ b.lastAccessTime
      perm := List.perm_insertionSort _
      sorted := List.pairwise_insertionSort _ }

/-- Two keys are sampled and one is evicted; the other expires and is popped
at the next eviction, in place of a key that is there. -/
theorem lru_exceeds_limit :
    (Keyspace.init.run ⟨2, 1, .allkeysLru, 16, 5⟩
      [(.set [lit "a", lit "v", lit "EX", lit "1"], atSecond 0),
        (.set [lit "b", lit "v", lit "EX", lit "1"], atSecond 0),
        (.set [lit "c", lit "v"], atSecond 0),
        (.get [lit "a"], atSecond 2),
        (.set [lit "d", lit "v"], atSecond 2),
        (.set [lit "e", lit "v"], atSecond 3)]).map (fun result => result.2.dictStore.len) =
      .ok 3 := by
  decide +kernel

end RediGo.Core
