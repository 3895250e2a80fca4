/-
RediGo.HashTable.EvictionPool — the pool of eviction candidates over whole
sequences of `Push` and `Pop` (`eviction_lru.go`).

Of `sort.Sort` only this is used: it permutes the pool into the order of the
access times, in whatever way for every call. The pool then stays `Ordered`,
and its first entry, which `Pop` takes, is one of the oldest. After pushes of
distinct keys its access times are the smallest of those pushed; that is an
induction over the pushes with the insertion of one rank among the smallest
as its step (`Pool.map_push_of_fresh`).
-/
import RediGo.HashTable.EvictionTheorems

namespace RediGo.HashTable.LruEvictionPool

open RediGo.Go RediGo.Lib

inductive PoolOp where
  | push (sorter : Sorter) (c : LruEvictionCandidate)
  | pop

def step (cfg : Config) (pool : LruEvictionPool) : PoolOp → LruEvictionPool
  | .push sorter c => pool.push cfg sorter c.key c.lastAccessTime
  | .pop => pool.pop.2

/-- The pool after one operation after the other. -/
def run (cfg : Config) (ops : List PoolOp) (pool : LruEvictionPool) : LruEvictionPool :=
  ops.foldl (step cfg) pool

variable {cfg : Config} {pool : LruEvictionPool}

/-! ## The invariant -/

structure Ordered (cfg : Config) (pool : LruEvictionPool) : Prop where
  nodup : (pool.map LruEvictionCandidate.key).Nodup
  sorted : pool.Pairwise fun a b => a.lastAccessTime ≤ b.lastAccessTime
  bounded : (pool.length : Int) ≤ cfg.epoolMaxSize

theorem ordered_nil (hcap : 0 ≤ cfg.epoolMaxSize) : Ordered cfg [] :=
  ⟨List.nodup_nil, List.Pairwise.nil, hcap⟩

theorem Ordered.push (h : Ordered cfg pool) (hcap : 0 ≤ cfg.epoolMaxSize) (sorter : Sorter)
    (c : LruEvictionCandidate) : Ordered cfg (pool.push cfg sorter c.key c.lastAccessTime) := by
  have hsort := Dict.sorts sorter
  have hbounded := h.bounded
  rw [Dict.push_eq]
  refine ⟨Pool.nodup_push hsort h.nodup, Pool.pairwise_push hsort, ?_⟩
  have hlen : ((Pool.push LruEvictionCandidate.key cfg.epoolMaxSize sorter.sort c pool).length :
      Int) ≤ max cfg.epoolMaxSize 0 := Pool.length_push_le hsort (by omega)
  omega

theorem Ordered.pop (h : Ordered cfg pool) : Ordered cfg pool.pop.2 := by
  cases pool with
  | nil => exact h
  | cons c pool =>
    have hbounded := h.bounded
    rw [List.length_cons] at hbounded
    exact ⟨(List.nodup_cons.1 h.nodup).2, (List.pairwise_cons.1 h.sorted).2,
      by show (pool.length : Int) ≤ _; omega⟩

theorem Ordered.run (h : Ordered cfg pool) (hcap : 0 ≤ cfg.epoolMaxSize) (ops : List PoolOp) :
    Ordered cfg (run cfg ops pool) := by
  induction ops generalizing pool with
  | nil => exact h
  | cons op ops ih =>
    cases op with
    | push sorter c => exact ih (h.push hcap sorter c)
    | pop => exact ih h.pop

/-- `Pop` takes an entry with the smallest access time, and finds none only
in an empty pool. -/
def PopsOldest (pool : LruEvictionPool) : Prop :=
  match pool.pop with
  | (none, rest) => pool = [] ∧ rest = []
  | (some oldestItem, rest) => pool = oldestItem :: rest ∧
      ∀ c ∈ pool, oldestItem.lastAccessTime ≤ c.lastAccessTime

theorem Ordered.popsOldest (h : Ordered cfg pool) : PopsOldest pool := by
  cases pool with
  | nil => exact ⟨rfl, rfl⟩
  | cons c pool =>
    refine ⟨rfl, fun c' hc' => ?_⟩
    rcases List.mem_cons.1 hc' with rfl | hc'
    · exact UInt32.le_refl _
    · exact (List.pairwise_cons.1 h.sorted).1 c' hc'

/-! ## The smallest access times -/

/-- The access times as numbers. -/
def times (pool : List LruEvictionCandidate) : List Nat :=
  pool.map fun c => c.lastAccessTime.toNat

def pushes (cs : List (Sorter × LruEvictionCandidate)) : List PoolOp :=
  cs.map fun p => .push p.1 p.2

/-- From a pool of the smallest of the times `before`, pushes of fresh keys
lead to the smallest of all. -/
theorem times_run_pushes (hcap : 0 ≤ cfg.epoolMaxSize) (before : List Nat)
    (cs : List (Sorter × LruEvictionCandidate))
    (hpool : times pool = (before.insertionSort (· ≤ ·)).take cfg.epoolMaxSize.toNat)
    (hkeys : (cs.map (·.2.key)).Nodup) (hfresh : ∀ c ∈ pool, ∀ p ∈ cs, c.key ≠ p.2.key) :
    times (run cfg (pushes cs) pool) =
      (((times (cs.map Prod.snd)).reverse ++ before).insertionSort (· ≤ ·)).take
        cfg.epoolMaxSize.toNat := by
  induction cs generalizing pool before with
  | nil => exact hpool
  | cons p cs ih =>
    obtain ⟨sorter, c⟩ := p
    have hsort := Dict.sorts sorter
    rw [List.map_cons, List.nodup_cons] at hkeys
    have hpush : times (pool.push cfg sorter c.key c.lastAccessTime) =
        ((c.lastAccessTime.toNat :: before).insertionSort (· ≤ ·)).take cfg.epoolMaxSize.toNat := by
      rw [Dict.push_eq, List.insertionSort_cons, ← Int.toNat_of_nonneg hcap]
      exact Pool.map_push_of_fresh hsort (fun _ _ h => UInt32.le_iff_toNat_le.1 h)
        (List.pairwise_insertionSort _ _) hpool
        fun c' hc' => hfresh c' hc' _ List.mem_cons_self
    have hfresh' : ∀ c' ∈ pool.push cfg sorter c.key c.lastAccessTime, ∀ p ∈ cs,
        c'.key ≠ p.2.key := by
      intro c' hc' p hp
      rw [Dict.push_eq] at hc'
      rcases Pool.mem_push hsort hc' with rfl | hc'
      · exact fun heq => hkeys.1 (heq ▸ List.mem_map_of_mem hp)
      · exact hfresh c' hc' p (List.mem_cons_of_mem _ hp)
    have hrest := ih (c.lastAccessTime.toNat :: before) hpush hkeys.2 hfresh'
    have hreverse : (times (((sorter, c) :: cs).map Prod.snd)).reverse ++ before =
        (times (cs.map Prod.snd)).reverse ++ c.lastAccessTime.toNat :: before := by simp [times]
    rw [hreverse]
    exact hrest

theorem insertionSort_reverse (ts : List Nat) :
    ts.reverse.insertionSort (· ≤ ·) = ts.insertionSort (· ≤ ·) := by
  have hperm : (ts.reverse.insertionSort (· ≤ ·)).Perm (ts.insertionSort (· ≤ ·)) :=
    (List.perm_insertionSort _ _).trans
      ((List.reverse_perm ts).trans (List.perm_insertionSort _ _).symm)
  exact hperm.eq_of_pairwise' (List.pairwise_insertionSort _ _) (List.pairwise_insertionSort _ _)

/-- Along every sequence of operations on a pool that was empty, its keys are
distinct, its access times in order and their number within the limit, and
`Pop` takes an oldest entry. After pushes of distinct keys, the access times
are the smallest of those pushed, as many as fit. -/
theorem pool_keeps_oldest (cfg : Config) (hcap : 0 ≤ cfg.epoolMaxSize) :
    (∀ ops, Ordered cfg (run cfg ops []) ∧ PopsOldest (run cfg ops [])) ∧
      ∀ cs : List (Sorter × LruEvictionCandidate), (cs.map (·.2.key)).Nodup →
        times (run cfg (pushes cs) []) =
          ((times (cs.map Prod.snd)).insertionSort (· ≤ ·)).take
            (min cs.length cfg.epoolMaxSize.toNat) := by
  refine ⟨fun ops => ?_, fun cs hkeys => ?_⟩
  · have hordered := (ordered_nil hcap).run hcap ops
    exact ⟨hordered, hordered.popsOldest⟩
  · have hnil : times [] = (([] : List Nat).insertionSort (· ≤ ·)).take cfg.epoolMaxSize.toNat := by
      simp [times]
    have htimes := times_run_pushes hcap [] cs hnil hkeys (by simp)
    rw [List.append_nil, insertionSort_reverse] at htimes
    rw [htimes, List.take_eq_take_iff, List.length_insertionSort]
    simp [times, Nat.min_comm]

/-- Of three entries the two oldest stay. -/
theorem pool_keeps_oldest_two :
    times (run ⟨1, 1, .allkeysLru, 2, 5⟩
      (pushes [(default, ⟨[97], 3⟩), (default, ⟨[98], 1⟩), (default, ⟨[99], 2⟩)]) []) = [1, 2] :=
  ((pool_keeps_oldest _ (by decide)).2 _ (by decide)).trans (by decide)

end RediGo.HashTable.LruEvictionPool
