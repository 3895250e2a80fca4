/-
RediGo.HashTable.Dict — the key space
(`internal/data_structure/hash_table/dict.go` and `eviction_lru.go`).

A `Dict` is a pair of Go maps: values by key and expiry times by key. A Go
map is Mathlib's `AList`, an association list whose keys are distinct. Its
order means nothing: a `range` loop visits the keys in an order of the
runtime's choice, which a `MapOrder` stands for, and an entry that was
removed before the loop reached it is not visited.

What a command reads from outside (the clock, the iteration orders, what
`sort.Sort` does with ties) is its `Env`. One command makes one clock
reading. The pool of eviction candidates is a package variable, so it is
not part of a `Dict`.
-/
import Mathlib.Data.List.AList
import RediGo.Go.Float

namespace RediGo.HashTable

open RediGo.Go

/-- A Go map with string keys. -/
abbrev Map (β : Type) := AList fun _ : Bytes => β

/-- An entry of the eviction pool. -/
structure LruEvictionCandidate where
  key : Bytes
  lastAccessTime : UInt32
  deriving DecidableEq, Repr

/-! ## What a command reads from outside -/

/-- The order in which a `range` loop visits the keys of a map. -/
structure MapOrder where
  order : List Bytes → List Bytes
  perm : ∀ keys, (order keys).Perm keys

instance : Inhabited MapOrder := ⟨id, fun _ => .refl _⟩

/-- `sort.Sort(ByLastAccessTime(pool))`, which is not stable. -/
structure Sorter where
  sort : List LruEvictionCandidate → List LruEvictionCandidate
  perm : ∀ pool, (sort pool).Perm pool
  sorted : ∀ pool, (sort pool).Pairwise fun a b => a.lastAccessTime ≤ b.lastAccessTime

def notNewer (a b : LruEvictionCandidate) : Bool := a.lastAccessTime ≤ b.lastAccessTime

theorem pairwise_mergeSort_notNewer (pool : List LruEvictionCandidate) :
    (pool.mergeSort notNewer).Pairwise fun a b => a.lastAccessTime ≤ b.lastAccessTime := by
  have htrans : ∀ a b c, notNewer a b = true → notNewer b c = true → notNewer a c = true := by
    intro a b c hab hbc
    simp only [notNewer, decide_eq_true_eq] at hab hbc ⊢
    exact UInt32.le_trans hab hbc
  have htotal : ∀ a b, (notNewer a b || notNewer b a) = true := by
    intro a b
    simp only [notNewer, Bool.or_eq_true, decide_eq_true_eq]
    exact UInt32.le_total _ _
  exact (List.pairwise_mergeSort htrans htotal pool).imp fun h => by
    simpa only [notNewer, decide_eq_true_eq] using h

instance : Inhabited Sorter :=
  ⟨fun pool => pool.mergeSort notNewer, fun pool => List.mergeSort_perm pool _,
    pairwise_mergeSort_notNewer⟩

structure Env where
  /-- `time.Now().UnixMilli()` -/
  now : Int64
  /-- the order of the command's range loops, by their number -/
  order : Nat → MapOrder
  sorter : Sorter

instance : Inhabited Env := ⟨0, default, default⟩

/-- `config.EvictionPolicy`; `other` is every unknown name. -/
inductive EvictionPolicy where
  | allkeysRandom
  | allkeysLru
  | other
  deriving DecidableEq, Repr

/-- `int64(EvictionRatio * float64(MaxKeyNumber))` -/
def evictCountOf (impl : FloatImpl) (evictionRatio : Float64) (maxKeyNumber : Int64) : Int64 :=
  (evictionRatio.mul (.ofInt64 maxKeyNumber)).toInt64 impl

structure Config where
  maxKeyNumber : Int
  /-- the value of `evictCountOf` -/
  evictCount : Int
  evictionPolicy : EvictionPolicy
  epoolMaxSize : Int
  epoolLRUSampleSize : Int

/-- The defaults of `internal/config` with a limit of one's own; the default
of `MaxKeyNumber` is 1000000. -/
def Config.ofMaxKeyNumber (impl : FloatImpl) (maxKeyNumber : Int64) : Config where
  maxKeyNumber := maxKeyNumber.toInt
  evictCount := (evictCountOf impl (.ofRat false 1 10) maxKeyNumber).toInt
  evictionPolicy := .allkeysRandom
  epoolMaxSize := 16
  epoolLRUSampleSize := 5

/-! ## The dictionary -/

structure Obj where
  value : Bytes
  lastAccessTime : UInt32
  deriving DecidableEq, Repr

structure Dict where
  dictStore : Map Obj
  expiredDictStore : Map UInt64

namespace Dict

/-- `CreateDict` -/
def create : Dict := ⟨∅, ∅⟩

/-- `now()`: the seconds of the clock as `uint32` -/
def nowSec (env : Env) : UInt32 := UInt32.ofNat ((env.now.toInt / 1000) % 2 ^ 32).toNat

/-- `len(d.dictStore)` -/
def len (d : Dict) : Nat := d.dictStore.keys.length

def persist (d : Dict) (key : Bytes) : Dict :=
  { d with expiredDictStore := d.expiredDictStore.erase key }

def setExpiry (env : Env) (d : Dict) (key : Bytes) (ttlMs : Int64) : Dict :=
  { d with expiredDictStore := d.expiredDictStore.insert key (env.now.toUInt64 + ttlMs.toUInt64) }

/-- `NewObj`: the object, and the dictionary with the key's expiry set or
removed. -/
def newObj (env : Env) (d : Dict) (key value : Bytes) (ttlMs : Int64) : Obj × Dict :=
  (⟨value, nowSec env⟩, if 0 < ttlMs then d.setExpiry env key ttlMs else d.persist key)

def getExpiry (d : Dict) (key : Bytes) : Option UInt64 := d.expiredDictStore.lookup key

def hasExpired (env : Env) (d : Dict) (key : Bytes) : Bool :=
  match d.expiredDictStore.lookup key with
  | none => false
  | some exp => exp ≤ env.now.toUInt64

/-- `Del` -/
def del (d : Dict) (k : Bytes) : Bool × Dict :=
  if k ∈ d.dictStore then (true, ⟨d.dictStore.erase k, d.expiredDictStore.erase k⟩)
  else (false, d)

/-- `v.LastAccessTime = now()` -/
def touched (env : Env) (v : Obj) : Obj := { v with lastAccessTime := nowSec env }

/-- The dictionary after the object `v` stored under `k` was touched. -/
def touch (env : Env) (d : Dict) (k : Bytes) (v : Obj) : Dict :=
  { d with dictStore := d.dictStore.insert k (touched env v) }

/-- `Get`: the object, if there is one that has not expired -/
def get (env : Env) (d : Dict) (k : Bytes) : Option Obj × Dict :=
  match d.dictStore.lookup k with
  | none => (none, d)
  | some v =>
    if (d.touch env k v).hasExpired env k then (none, ((d.touch env k v).del k).2)
    else (some (touched env v), d.touch env k v)

end Dict

/-! ## Eviction -/

/-- The package variable `ePool`. -/
abbrev LruEvictionPool := List LruEvictionCandidate

namespace LruEvictionPool

/-- `Push`: replace or append, sort, and drop the newest entry if there is
one too many. -/
def push (cfg : Config) (sorter : Sorter) (pool : LruEvictionPool) (key : Bytes)
    (lastAccessTime : UInt32) : LruEvictionPool :=
  let newItem : LruEvictionCandidate := ⟨key, lastAccessTime⟩
  let pool :=
    if pool.any (·.key == key) then pool.map fun c => if c.key = key then newItem else c
    else pool ++ [newItem]
  let pool := sorter.sort pool
  if cfg.epoolMaxSize < pool.length then pool.dropLast else pool

/-- `Pop` -/
def pop : LruEvictionPool → Option LruEvictionCandidate × LruEvictionPool
  | [] => (none, [])
  | oldestItem :: pool => (some oldestItem, pool)

end LruEvictionPool

namespace Dict

/-- The loop of `evictRandom` over the keys still to be visited. The count
is tested after the decrement, so a count that is not positive stops
nothing. -/
def evictRandomLoop : List Bytes → Int → Dict → Dict
  | [], _, d => d
  | k :: keys, evictCount, d =>
    if k ∈ d.dictStore then
      let d := (d.del k).2
      if evictCount - 1 = 0 then d else evictRandomLoop keys (evictCount - 1) d
    else evictRandomLoop keys evictCount d

def evictRandom (cfg : Config) (env : Env) (d : Dict) : Dict :=
  evictRandomLoop ((env.order 0).order d.dictStore.keys) cfg.evictCount d

/-- The loop of `populateEpool` over the keys still to be visited. -/
def populateLoop (cfg : Config) (env : Env) (d : Dict) :
    List Bytes → Int → LruEvictionPool → LruEvictionPool
  | [], _, pool => pool
  | k :: keys, remain, pool =>
    match d.dictStore.lookup k with
    | none => populateLoop cfg env d keys remain pool
    | some obj =>
      let pool := pool.push cfg env.sorter k obj.lastAccessTime
      if remain - 1 = 0 then pool else populateLoop cfg env d keys (remain - 1) pool

def populateEpool (cfg : Config) (env : Env) (d : Dict) (pool : LruEvictionPool) :
    LruEvictionPool :=
  populateLoop cfg env d ((env.order 0).order d.dictStore.keys) cfg.epoolLRUSampleSize pool

/-- The loop of `evictLru`: `n` candidates are still to be evicted. -/
def evictLruLoop : Nat → Dict → LruEvictionPool → Dict × LruEvictionPool
  | 0, d, pool => (d, pool)
  | _ + 1, d, [] => (d, [])
  | n + 1, d, item :: pool => evictLruLoop n (d.del item.key).2 pool

def evictLru (cfg : Config) (env : Env) (d : Dict) (pool : LruEvictionPool) :
    Dict × LruEvictionPool :=
  evictLruLoop cfg.evictCount.toNat d (d.populateEpool cfg env pool)

def evict (cfg : Config) (env : Env) (d : Dict) (pool : LruEvictionPool) :
    Dict × LruEvictionPool :=
  match cfg.evictionPolicy with
  | .allkeysRandom => (d.evictRandom cfg env, pool)
  | .allkeysLru => d.evictLru cfg env pool
  | .other => (d.evictRandom cfg env, pool)

/-- `Set` -/
def set (cfg : Config) (env : Env) (d : Dict) (pool : LruEvictionPool) (k : Bytes) (obj : Obj) :
    Dict × LruEvictionPool :=
  let (d, pool) := if cfg.maxKeyNumber ≤ d.len then d.evict cfg env pool else (d, pool)
  ({ d with dictStore := d.dictStore.insert k obj }, pool)

end Dict

end RediGo.HashTable
