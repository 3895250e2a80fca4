/-
RediGo.HashTable.EvictionTheorems — what an eviction takes away.

Both policies delete keys and do nothing else to the dictionary, so an
eviction is `delAll` of some list of keys. Under `allkeys-random` these are
the first keys of the iteration order. Under `allkeys-lru` they are the keys
at the front of the pool, after samples of the dictionary were pushed into
it; the pool is that of `RediGo.Lib.Pool`.

Pool entries outlive the keys they name. An entry whose key is gone is
stale: it is popped in turn, and its deletion frees nothing. What decides
whether an eviction makes room is therefore the number of stale entries
against the eviction count (`len_evictLru_lt`).
-/
import Mathlib.Data.Finset.Card
import RediGo.HashTable.DictTheorems
import RediGo.Lib.Pool

namespace RediGo.HashTable

open RediGo.Go RediGo.Lib

namespace Dict

variable {d : Dict} {k k' : Bytes} {keys : List Bytes}

/-! ## Deleting a list of keys -/

/-- The stored keys. -/
def keySet (d : Dict) : Finset Bytes := d.dictStore.keys.toFinset

theorem mem_keySet : k ∈ d.keySet ↔ k ∈ d.dictStore := by
  rw [keySet, List.mem_toFinset, AList.mem_keys]

theorem card_keySet : d.keySet.card = d.len :=
  List.toFinset_card_of_nodup d.dictStore.keys_nodup

theorem mem_del : k' ∈ (d.del k).2.dictStore ↔ k' ≠ k ∧ k' ∈ d.dictStore := by
  unfold del
  split
  · exact AList.mem_erase
  · rename_i hk
    exact ⟨fun h => ⟨fun heq => hk (heq ▸ h), h⟩, fun h => h.2⟩

def delAll (keys : List Bytes) (d : Dict) : Dict := keys.foldl (fun d k => (d.del k).2) d

theorem keySet_delAll : (d.delAll keys).keySet = d.keySet \ keys.toFinset := by
  induction keys generalizing d with
  | nil => simp [delAll]
  | cons k keys ih =>
    rw [show d.delAll (k :: keys) = (d.del k).2.delAll keys from rfl, ih]
    ext k'
    simp only [Finset.mem_sdiff, mem_keySet, mem_del, List.mem_toFinset, List.mem_cons]
    tauto

theorem len_delAll_le : (d.delAll keys).len ≤ d.len := by
  rw [← card_keySet, ← card_keySet, keySet_delAll]
  exact Finset.card_le_card Finset.sdiff_subset

theorem len_delAll_lt (hk : k ∈ keys) (hd : k ∈ d.dictStore) : (d.delAll keys).len < d.len := by
  rw [← card_keySet, ← card_keySet, keySet_delAll]
  refine Finset.card_lt_card (Finset.ssubset_iff_of_subset Finset.sdiff_subset |>.2 ⟨k, ?_, ?_⟩)
  · exact mem_keySet.2 hd
  · simp [hk]

theorem len_delAll_add (hkeys : keys.Nodup) (hd : ∀ k ∈ keys, k ∈ d.dictStore) :
    (d.delAll keys).len + keys.length = d.len := by
  have hsub : keys.toFinset ⊆ d.keySet := fun k hk =>
    mem_keySet.2 (hd k (List.mem_toFinset.1 hk))
  rw [← card_keySet, ← card_keySet, keySet_delAll, ← List.toFinset_card_of_nodup hkeys]
  exact Finset.card_sdiff_add_card_eq_card hsub

/-- Only stored keys are deleted. -/
theorem len_le_len_delAll (d : Dict) (keys : List Bytes) :
    d.len ≤ (d.delAll keys).len + (keys.filter (· ∈ d.keySet)).length := by
  have hsame : d.keySet \ keys.toFinset = d.keySet \ (keys.filter (· ∈ d.keySet)).toFinset := by
    ext k
    simp only [Finset.mem_sdiff, List.mem_toFinset, List.mem_filter, decide_eq_true_eq]
    tauto
  have hcard := Finset.le_card_sdiff (keys.filter (· ∈ d.keySet)).toFinset d.keySet
  have hle := (keys.filter (· ∈ d.keySet)).toFinset_card_le
  rw [← card_keySet, ← card_keySet, keySet_delAll, hsame]
  omega

/-- What is left of the values: those of the keys that are not listed. -/
theorem lookup_delAll (keys : List Bytes) (k : Bytes) :
    (d.delAll keys).dictStore.lookup k = if k ∈ keys then none else d.dictStore.lookup k := by
  induction keys generalizing d with
  | nil => simp [delAll]
  | cons k' keys ih =>
    have hdel : (d.del k').2.dictStore.lookup k =
        if k = k' then none else d.dictStore.lookup k := by
      by_cases hk : k = k'
      · subst hk
        rw [if_pos rfl, AList.lookup_eq_none]
        exact fun h => (mem_del.1 h).1 rfl
      · unfold del
        split <;> simp [hk, AList.lookup_erase_ne]
    rw [show d.delAll (k' :: keys) = (d.del k').2.delAll keys from rfl, ih, hdel]
    by_cases hk : k = k' <;> simp [hk]

/-- What is left of the expiry times. A listed key that has no value keeps
its expiry time. -/
theorem lookup_expiry_delAll (keys : List Bytes) (k : Bytes) :
    (d.delAll keys).expiredDictStore.lookup k =
      if k ∈ keys ∧ k ∈ d.dictStore then none else d.expiredDictStore.lookup k := by
  induction keys generalizing d with
  | nil => simp [delAll]
  | cons k' keys ih =>
    have hdel : (d.del k').2.expiredDictStore.lookup k =
        if k = k' ∧ k ∈ d.dictStore then none else d.expiredDictStore.lookup k := by
      unfold del
      by_cases hk : k = k'
      · subst hk
        split <;> simp_all [AList.lookup_erase]
      · split <;> simp [hk, AList.lookup_erase_ne]
    rw [show d.delAll (k' :: keys) = (d.del k').2.delAll keys from rfl, ih, hdel]
    by_cases hk : k = k' <;> by_cases hd : k ∈ d.dictStore <;> simp_all [mem_del]

theorem lookup_expiry_delAll_of_stored (h : ∀ k ∈ keys, k ∈ d.dictStore) (k : Bytes) :
    (d.delAll keys).expiredDictStore.lookup k =
      if k ∈ keys then none else d.expiredDictStore.lookup k := by
  have hboth : k ∈ keys ∧ k ∈ d.dictStore ↔ k ∈ keys := and_iff_left_of_imp (h k)
  simp only [lookup_expiry_delAll, hboth]

/-! ## Loops that count down -/

/-- The first `remain` elements, or all when the count is not positive: it is
tested after the decrement. -/
def sampled {α : Type} (remain : Int) (l : List α) : List α :=
  if 1 ≤ remain then l.take remain.toNat else l

theorem sampled_sublist {α : Type} (remain : Int) (l : List α) : (sampled remain l).Sublist l := by
  unfold sampled
  split
  · exact List.take_sublist ..
  · exact List.Sublist.refl l

theorem sampled_one {α : Type} (a : α) (l : List α) : sampled 1 (a :: l) = [a] := rfl

/-- The counter is positive after the decrement exactly if it was before. -/
theorem sampled_cons {α : Type} {remain : Int} (h : remain - 1 ≠ 0) (a : α) (l : List α) :
    sampled remain (a :: l) = a :: sampled (remain - 1) l := by
  unfold sampled
  by_cases hpos : 1 ≤ remain
  · rw [if_pos hpos, if_pos (by omega), show remain.toNat = (remain - 1).toNat + 1 by omega,
      List.take_succ_cons]
  · rw [if_neg hpos, if_neg (by omega)]

theorem sampled_ne_nil {α : Type} (remain : Int) {l : List α} (h : l ≠ []) :
    sampled remain l ≠ [] := by
  obtain ⟨a, l, rfl⟩ := List.exists_cons_of_ne_nil h
  by_cases hone : remain - 1 = 0
  · rw [show remain = 1 by omega, sampled_one]
    exact List.cons_ne_nil _ _
  · rw [sampled_cons hone]
    exact List.cons_ne_nil _ _

theorem length_sampled {α : Type} (remain : Int) (l : List α) : (sampled remain l).length =
    if 1 ≤ remain then min remain.toNat l.length else l.length := by
  unfold sampled
  split <;> simp

/-! ## Random eviction -/

theorem evictRandomLoop_eq (keys : List Bytes) (n : Int) (d : Dict) (hkeys : keys.Nodup)
    (hstored : ∀ k ∈ keys, k ∈ d.dictStore) :
    evictRandomLoop keys n d = d.delAll (sampled n keys) := by
  induction keys generalizing n d with
  | nil => simp [evictRandomLoop, sampled, delAll]
  | cons k keys ih =>
    rw [List.nodup_cons] at hkeys
    unfold evictRandomLoop
    rw [if_pos (hstored k List.mem_cons_self)]
    dsimp only
    split
    · rw [show n = 1 by omega, sampled_one]
      rfl
    · rename_i hone
      have hrest : ∀ k' ∈ keys, k' ∈ (d.del k).2.dictStore := by
        intro k' hk'
        exact mem_del.2 ⟨fun heq => hkeys.1 (heq ▸ hk'), hstored k' (List.mem_cons_of_mem k hk')⟩
      rw [sampled_cons hone, ih (n - 1) (d.del k).2 hkeys.2 hrest]
      rfl

variable {cfg : Config} {env : Env} {pool : LruEvictionPool}

theorem mem_order (n : Nat) : k ∈ (env.order n).order d.dictStore.keys ↔ k ∈ d.dictStore := by
  rw [((env.order n).perm _).mem_iff, AList.mem_keys]

theorem exists_mem_of_len_pos (h : 0 < d.len) : ∃ k, k ∈ d.dictStore := by
  obtain ⟨k, hk⟩ := List.exists_mem_of_length_pos h
  exact ⟨k, AList.mem_keys.2 hk⟩

theorem nodup_order (d : Dict) (n : Nat) : ((env.order n).order d.dictStore.keys).Nodup :=
  ((env.order n).perm _).nodup_iff.2 d.dictStore.keys_nodup

theorem length_order (d : Dict) (n : Nat) :
    ((env.order n).order d.dictStore.keys).length = d.len := ((env.order n).perm _).length_eq

/-- The keys that a random eviction deletes. -/
def drawn (cfg : Config) (env : Env) (d : Dict) : List Bytes :=
  sampled cfg.evictCount ((env.order 0).order d.dictStore.keys)

theorem evictRandom_eq : d.evictRandom cfg env = d.delAll (d.drawn cfg env) :=
  evictRandomLoop_eq _ _ _ (nodup_order d 0) fun _ hk => (mem_order 0).1 hk

theorem nodup_drawn : (d.drawn cfg env).Nodup := (sampled_sublist _ _).nodup (nodup_order d 0)

theorem mem_of_mem_drawn (hk : k ∈ d.drawn cfg env) : k ∈ d.dictStore :=
  (mem_order 0).1 ((sampled_sublist _ _).mem hk)

theorem len_evictRandom_lt (h : 0 < d.len) : (d.evictRandom cfg env).len < d.len := by
  have hne : d.drawn cfg env ≠ [] := by
    refine sampled_ne_nil _ (List.ne_nil_of_length_pos ?_)
    rwa [length_order]
  obtain ⟨k, hk⟩ := List.exists_mem_of_ne_nil _ hne
  rw [evictRandom_eq]
  exact len_delAll_lt hk (mem_of_mem_drawn hk)

/-- `d'` is `d` without `n` keys: their values and expiry times are gone, and
all other entries of both maps are as they were. -/
def Removes (n : Nat) (d d' : Dict) : Prop :=
  ∃ keys : Finset Bytes, keys ⊆ d.keySet ∧ keys.card = n ∧ ∀ k,
    d'.dictStore.lookup k = (if k ∈ keys then none else d.dictStore.lookup k) ∧
    d'.expiredDictStore.lookup k = if k ∈ keys then none else d.expiredDictStore.lookup k

theorem removes_delAll (hkeys : keys.Nodup) (hstored : ∀ k ∈ keys, k ∈ d.dictStore) :
    Removes keys.length d (d.delAll keys) := by
  refine ⟨keys.toFinset, fun k hk => mem_keySet.2 (hstored k (List.mem_toFinset.1 hk)),
    List.toFinset_card_of_nodup hkeys, fun k => ?_⟩
  simp only [lookup_delAll, lookup_expiry_delAll_of_stored hstored, List.mem_toFinset, and_self]

theorem Removes.len_add {n : Nat} {d' : Dict} (h : Removes n d d') : d'.len + n = d.len := by
  obtain ⟨keys, hsub, rfl, hlookup⟩ := h
  have hkeys : d'.keySet = d.keySet \ keys := by
    ext k
    rw [mem_keySet, ← AList.lookup_isSome, (hlookup k).1, Finset.mem_sdiff, mem_keySet,
      ← AList.lookup_isSome]
    by_cases hk : k ∈ keys <;> simp [hk]
  rw [← card_keySet, ← card_keySet, hkeys, Finset.card_sdiff_add_card_eq_card hsub]

theorem evictRandom_removes : Removes (d.drawn cfg env).length d (d.evictRandom cfg env) := by
  rw [evictRandom_eq]
  exact removes_delAll nodup_drawn fun _ hk => mem_of_mem_drawn hk

/-- A random eviction removes as many keys as the eviction count says, or all
if there are fewer, exactly if the count is positive or there is nothing to
remove. A count of 0 is decremented before it is tested, and stops nothing. -/
theorem evictRandom_removes_iff (cfg : Config) (env : Env) (d : Dict)
    (hcount : 0 ≤ cfg.evictCount) :
    Removes (min cfg.evictCount.toNat d.len) d (d.evictRandom cfg env) ↔
      1 ≤ cfg.evictCount ∨ d.len = 0 := by
  have hremoves : Removes _ d (d.evictRandom cfg env) := evictRandom_removes
  have hlen := hremoves.len_add
  rw [drawn, length_sampled, length_order] at hremoves hlen
  constructor
  · intro h
    have hlen' := h.len_add
    split at hlen <;> omega
  · intro h
    split at hremoves
    · exact hremoves
    · rw [show d.len = 0 by omega] at hremoves ⊢
      rwa [Nat.min_zero]

/-- Two keys. -/
def pair : Dict := (create.put [97] ⟨[1], 0⟩).put [98] ⟨[2], 0⟩

/-- With a limit of 10 the default ratio makes a count of 1. -/
theorem evictRandom_removes_ten :
    (Config.ofMaxKeyNumber default 10).evictCount = 1 ∧
      Removes (min 1 pair.len) pair (pair.evictRandom (.ofMaxKeyNumber default 10) default) := by
  have hcount : (Config.ofMaxKeyNumber default 10).evictCount = 1 := by decide +kernel
  refine ⟨hcount, ?_⟩
  have h := (evictRandom_removes_iff (.ofMaxKeyNumber default 10) default pair (by omega)).2
    (.inl (by omega))
  rwa [hcount] at h

/-- With a limit of 9 it makes a count of 0, and both keys go. -/
theorem evictRandom_nine_removes_all :
    (Config.ofMaxKeyNumber default 9).evictCount = 0 ∧ pair.len = 2 ∧
      (pair.evictRandom (.ofMaxKeyNumber default 9) default).len = 0 ∧
      ¬ Removes (min 0 pair.len) pair (pair.evictRandom (.ofMaxKeyNumber default 9) default) := by
  refine ⟨by decide +kernel, by decide, by decide +kernel, fun h => ?_⟩
  exact absurd h.len_add (by decide +kernel)

/-! ## Filling the pool -/

theorem sorts (sorter : Sorter) :
    Pool.Sorts (fun a b => a.lastAccessTime ≤ b.lastAccessTime) sorter.sort :=
  ⟨sorter.perm, sorter.sorted⟩

/-- `pushAll` at the types of the eviction pool. -/
def pushAll (cfg : Config) (env : Env) (xs pool : LruEvictionPool) : LruEvictionPool :=
  Pool.pushAll LruEvictionCandidate.key cfg.epoolMaxSize env.sorter.sort xs pool

theorem push_eq (sorter : Sorter) (c : LruEvictionCandidate) :
    pool.push cfg sorter c.key c.lastAccessTime =
      Pool.push LruEvictionCandidate.key cfg.epoolMaxSize sorter.sort c pool := by
  have hany : (pool.any (·.key == c.key) = true) = ∃ c' ∈ pool, c'.key = c.key := by simp
  unfold LruEvictionPool.push Pool.push Pool.upsert Pool.trim
  simp only [hany]

/-- The pool entry that `populateEpool` makes for a key. -/
def candidate (d : Dict) (k : Bytes) : Option LruEvictionCandidate :=
  (d.dictStore.lookup k).map fun obj => ⟨k, obj.lastAccessTime⟩

/-- The samples of one eviction. -/
def samples (cfg : Config) (env : Env) (d : Dict) : List LruEvictionCandidate :=
  sampled cfg.epoolLRUSampleSize (((env.order 0).order d.dictStore.keys).filterMap d.candidate)

theorem populateLoop_eq (keys : List Bytes) (remain : Int) (pool : LruEvictionPool) :
    populateLoop cfg env d keys remain pool =
      pushAll cfg env (sampled remain (keys.filterMap d.candidate)) pool := by
  induction keys generalizing remain pool with
  | nil => simp [populateLoop, sampled, pushAll, Pool.pushAll]
  | cons k keys ih =>
    unfold populateLoop
    cases hobj : d.dictStore.lookup k with
    | none => simp [ih, candidate, hobj]
    | some obj =>
      have hcand : (k :: keys).filterMap d.candidate =
          ⟨k, obj.lastAccessTime⟩ :: keys.filterMap d.candidate := by
        simp [candidate, hobj]
      dsimp only
      rw [hcand, push_eq env.sorter ⟨k, obj.lastAccessTime⟩]
      split
      · rw [show remain = 1 by omega, sampled_one]
        rfl
      · rename_i hone
        rw [ih, sampled_cons hone]
        rfl

theorem populateEpool_eq :
    d.populateEpool cfg env pool = pushAll cfg env (d.samples cfg env) pool :=
  populateLoop_eq ..

theorem lookup_of_mem_samples {c : LruEvictionCandidate} (h : c ∈ d.samples cfg env) :
    ∃ obj, d.dictStore.lookup c.key = some obj ∧ obj.lastAccessTime = c.lastAccessTime := by
  obtain ⟨k, -, hk⟩ := List.mem_filterMap.1 ((sampled_sublist _ _).mem h)
  obtain ⟨obj, hobj, rfl⟩ := Option.map_eq_some_iff.1 hk
  exact ⟨obj, hobj, rfl⟩

theorem mem_of_mem_samples {c : LruEvictionCandidate} (h : c ∈ d.samples cfg env) :
    c.key ∈ d.dictStore := by
  obtain ⟨obj, hobj, -⟩ := lookup_of_mem_samples h
  exact mem_of_lookup hobj

theorem map_key_candidates (h : ∀ k ∈ keys, k ∈ d.dictStore) :
    (keys.filterMap d.candidate).map LruEvictionCandidate.key = keys := by
  induction keys with
  | nil => rfl
  | cons k keys ih =>
    obtain ⟨obj, hobj⟩ := exists_lookup (h k List.mem_cons_self)
    have hcand : d.candidate k = some ⟨k, obj.lastAccessTime⟩ := by rw [candidate, hobj]; rfl
    rw [List.filterMap_cons_some hcand, List.map_cons,
      ih fun k' hk' => h k' (List.mem_cons_of_mem k hk')]

theorem map_key_order : (((env.order 0).order d.dictStore.keys).filterMap d.candidate).map
    LruEvictionCandidate.key = (env.order 0).order d.dictStore.keys :=
  map_key_candidates fun _ hk => (mem_order 0).1 hk

theorem nodup_samples : ((d.samples cfg env).map LruEvictionCandidate.key).Nodup := by
  refine ((sampled_sublist _ _).map _).nodup ?_
  rw [map_key_order]
  exact nodup_order d 0

theorem length_samples : (d.samples cfg env).length =
    if 1 ≤ cfg.epoolLRUSampleSize then min cfg.epoolLRUSampleSize.toNat d.len else d.len := by
  have hall : (((env.order 0).order d.dictStore.keys).filterMap d.candidate).length = d.len := by
    rw [← List.length_map LruEvictionCandidate.key, map_key_order, length_order]
  rw [samples, length_sampled, hall]

theorem samples_ne_nil (cfg : Config) (env : Env) (h : 0 < d.len) : d.samples cfg env ≠ [] := by
  rw [← List.length_pos_iff, length_samples]
  split <;> omega

/-! ## Eviction through the pool -/

theorem evictLruLoop_eq (n : Nat) : evictLruLoop n d pool =
    (d.delAll ((pool.take n).map LruEvictionCandidate.key), pool.drop n) := by
  induction n generalizing d pool with
  | zero => simp [evictLruLoop, delAll]
  | succ n ih =>
    cases pool with
    | nil => rfl
    | cons c pool => exact ih

/-- The keys that an eviction pops. -/
def popped (cfg : Config) (env : Env) (d : Dict) (pool : LruEvictionPool) : LruEvictionPool :=
  (pushAll cfg env (d.samples cfg env) pool).take cfg.evictCount.toNat

theorem evictLru_eq : d.evictLru cfg env pool =
    (d.delAll ((d.popped cfg env pool).map LruEvictionCandidate.key),
      (pushAll cfg env (d.samples cfg env) pool).drop cfg.evictCount.toNat) := by
  rw [evictLru, evictLruLoop_eq, populateEpool_eq]
  rfl

/-- The pool entry names a key that is gone. -/
def stale (d : Dict) (c : LruEvictionCandidate) : Bool := c.key ∉ d.dictStore

theorem stale_of_key {c x : LruEvictionCandidate} (hx : x ∈ d.samples cfg env)
    (h : c.key = x.key) : d.stale c = false := by
  simp [stale, h, mem_of_mem_samples hx]

/-- What every eviction leaves behind: nothing, or a pool with room for as
many entries as an eviction pops. -/
def Spare (cfg : Config) (pool : LruEvictionPool) : Prop :=
  pool = [] ∨ (pool.length : Int) + cfg.evictCount.toNat ≤ cfg.epoolMaxSize

theorem Spare.evictLru (hcap : 1 ≤ cfg.epoolMaxSize) (h : Spare cfg pool) :
    Spare cfg (d.evictLru cfg env pool).2 := by
  have hle : (pool.length : Int) ≤ max cfg.epoolMaxSize 0 := by
    rcases h with rfl | h
    · simp
    · omega
  have hlen : ((pushAll cfg env (d.samples cfg env) pool).length : Int) ≤ _ :=
    Pool.length_pushAll_le (sorts env.sorter) hle
  rw [evictLru_eq]
  by_cases hall : (pushAll cfg env (d.samples cfg env) pool).length ≤ cfg.evictCount.toNat
  · exact .inl (List.drop_eq_nil_of_le hall)
  · refine .inr ?_
    rw [List.length_drop]
    omega

/-- With fewer stale entries than it pops, an eviction deletes a key. -/
theorem len_evictLru_lt (hcap : 1 ≤ cfg.epoolMaxSize) (hspare : Spare cfg pool)
    (hstale : (pool.countP d.stale : Int) < cfg.evictCount) (h : 0 < d.len) :
    (d.evictLru cfg env pool).1.len < d.len := by
  have hcount : (pushAll cfg env (d.samples cfg env) pool).countP d.stale ≤ _ :=
    Pool.countP_pushAll_le (sorts env.sorter) fun x hx c hc => stale_of_key hx hc
  have hlive : ∃ c ∈ d.popped cfg env pool, c.key ∈ d.dictStore := by
    by_contra hnone
    have hall : ∀ c ∈ d.popped cfg env pool, d.stale c = true := by
      intro c hc
      simpa [stale] using fun hd => hnone ⟨c, hc, hd⟩
    -- all that was popped is stale, so the pool ran empty
    have hshort : (d.popped cfg env pool).length ≤ pool.countP d.stale := by
      rw [← List.countP_eq_length.2 hall]
      exact Nat.le_trans ((List.take_sublist ..).countP_le) hcount
    have hpopped : d.popped cfg env pool = pushAll cfg env (d.samples cfg env) pool := by
      rw [popped, List.length_take] at hshort
      exact List.take_of_length_le (by omega)
    have hpushed : ∀ n : Nat, (n : Int) ≤ cfg.epoolMaxSize →
        n ≤ (pushAll cfg env (d.samples cfg env) pool).length := by
      intro n hn
      have hne := samples_ne_nil cfg env h
      refine (Pool.exists_mem_pushAll_or (sorts env.sorter) hn hne).resolve_left ?_
      rintro ⟨x, hx, hmem⟩
      exact hnone ⟨x, hpopped ▸ hmem, mem_of_mem_samples hx⟩
    rw [hpopped] at hshort
    rcases hspare with rfl | hspare
    · have hone := hpushed 1 hcap
      rw [List.countP_nil] at hshort
      omega
    · have hmany := hpushed cfg.evictCount.toNat (by omega)
      omega
  obtain ⟨c, hc, hd⟩ := hlive
  rw [evictLru_eq]
  exact len_delAll_lt (List.mem_map_of_mem hc) hd

/-- An eviction that can pop all it samples leaves an empty pool empty. -/
theorem evictLru_drains (h : cfg.epoolMaxSize ≤ cfg.evictCount ∨ (d.len : Int) ≤ cfg.evictCount ∨
    1 ≤ cfg.epoolLRUSampleSize ∧ cfg.epoolLRUSampleSize ≤ cfg.evictCount) :
    (d.evictLru cfg env []).2 = [] := by
  have hsort := sorts env.sorter
  have hcap : ((pushAll cfg env (d.samples cfg env) []).length : Int) ≤ max cfg.epoolMaxSize 0 :=
    Pool.length_pushAll_le hsort (by simp)
  have hadd : (pushAll cfg env (d.samples cfg env) []).length ≤ 0 + (d.samples cfg env).length :=
    Pool.length_pushAll_le_add hsort
  rw [length_samples] at hadd
  rw [evictLru_eq]
  refine List.drop_eq_nil_of_le ?_
  rcases h with h | h | ⟨hpos, h⟩
  · omega
  · split at hadd <;> omega
  · rw [if_pos hpos] at hadd
    omega

/-! ## Eviction and insertion -/

theorem evict_of_ne (h : cfg.evictionPolicy ≠ .allkeysLru) :
    d.evict cfg env pool = (d.evictRandom cfg env, pool) := by
  unfold evict
  cases hpolicy : cfg.evictionPolicy with
  | allkeysRandom => rfl
  | allkeysLru => exact absurd hpolicy h
  | other => rfl

theorem evict_of_lru (h : cfg.evictionPolicy = .allkeysLru) :
    d.evict cfg env pool = d.evictLru cfg env pool := by
  rw [evict, h]

/-- The keys that an eviction deletes, or tries to. -/
def victims (cfg : Config) (env : Env) (d : Dict) (pool : LruEvictionPool) : List Bytes :=
  if cfg.evictionPolicy = .allkeysLru then (d.popped cfg env pool).map LruEvictionCandidate.key
  else d.drawn cfg env

/-- Expiry times do not matter to the choice. -/
theorem victims_congr {d' : Dict} (h : d'.dictStore = d.dictStore) :
    d'.victims cfg env pool = d.victims cfg env pool := by
  obtain ⟨store, exp⟩ := d
  obtain ⟨store', exp'⟩ := d'
  subst h
  rfl

theorem evict_fst : (d.evict cfg env pool).1 = d.delAll (d.victims cfg env pool) := by
  unfold victims
  split
  · rw [evict_of_lru (by assumption), evictLru_eq]
  · rw [evict_of_ne (by assumption), evictRandom_eq]

theorem set_of_le (h : cfg.maxKeyNumber ≤ d.len) (k : Bytes) (obj : Obj) :
    d.set cfg env pool k obj =
      ((d.evict cfg env pool).1.put k obj, (d.evict cfg env pool).2) := by
  unfold set
  rw [if_pos h]
  rfl

theorem keySet_put (k : Bytes) (obj : Obj) : (d.put k obj).keySet = insert k d.keySet := by
  ext k'
  rw [mem_keySet, Finset.mem_insert, mem_keySet]
  exact AList.mem_insert _

theorem len_put_le (k : Bytes) (obj : Obj) : (d.put k obj).len ≤ d.len + 1 := by
  rw [← card_keySet, ← card_keySet, keySet_put]
  exact Finset.card_insert_le ..

theorem len_put_of_notMem (hk : k ∉ d.dictStore) (obj : Obj) : (d.put k obj).len = d.len + 1 := by
  rw [← card_keySet, ← card_keySet, keySet_put]
  exact Finset.card_insert_of_notMem (mt mem_keySet.1 hk)

theorem len_touch (env : Env) {obj : Obj} (hobj : d.dictStore.lookup k = some obj) :
    (d.touch env k obj).len = d.len := by
  have hk : k ∈ d.keySet := mem_keySet.2 (mem_of_lookup hobj)
  have hkeys : (d.touch env k obj).keySet = d.keySet :=
    (keySet_put k (touched env obj)).trans (Finset.insert_eq_of_mem hk)
  rw [← card_keySet, hkeys, card_keySet]

theorem len_get_le (env : Env) (k : Bytes) : (d.get env k).2.len ≤ d.len := by
  cases hobj : d.dictStore.lookup k with
  | none => rw [get_of_none hobj]
  | some obj =>
    have hdel : ((d.touch env k obj).delAll [k]).len ≤ _ := len_delAll_le
    rw [len_touch env hobj] at hdel
    rw [get_of_some hobj]
    split
    · exact hdel
    · exact (len_touch env hobj).le

/-! ## Orphans -/

/-- The keys that have an expiry time but no value. -/
def orphans (d : Dict) : Set Bytes := {k | k ∈ d.expiredDictStore ∧ k ∉ d.dictStore}

theorem mem_orphans : k ∈ d.orphans ↔ k ∈ d.expiredDictStore ∧ k ∉ d.dictStore := Iff.rfl

theorem stored_of_orphans (h : d.orphans = ∅) (hk : k ∈ d.expiredDictStore) :
    k ∈ d.dictStore := by
  by_contra hnone
  exact Set.eq_empty_iff_forall_notMem.1 h k ⟨hk, hnone⟩

theorem orphans_del (k : Bytes) : (d.del k).2.orphans = d.orphans := by
  unfold del
  split
  · rename_i hk
    ext k'
    simp only [mem_orphans, AList.mem_erase]
    have hne : k' ∉ d.dictStore → k' ≠ k := fun h heq => h (heq ▸ hk)
    tauto
  · rfl

theorem orphans_delAll (keys : List Bytes) : (d.delAll keys).orphans = d.orphans := by
  induction keys generalizing d with
  | nil => rfl
  | cons k keys ih => exact ih.trans (orphans_del k)

theorem orphans_touch {env : Env} {obj : Obj} (hobj : d.dictStore.lookup k = some obj) :
    (d.touch env k obj).orphans = d.orphans := by
  have hk : k ∈ d.dictStore := mem_of_lookup hobj
  ext k'
  have hmem : k' ∈ (d.touch env k obj).dictStore ↔ k' ∈ d.dictStore :=
    (AList.mem_insert _).trans ⟨fun h => h.elim (fun heq => heq ▸ hk) id, .inr⟩
  exact and_congr Iff.rfl (not_congr hmem)

/-- `NewObj` makes an orphan of the key at most, and storing the object ends
that, whatever was evicted in between. -/
theorem orphans_newObj_subset (env : Env) (k value : Bytes) (ttlMs : Int64) :
    (d.newObj env k value ttlMs).2.orphans ⊆ insert k d.orphans := by
  unfold newObj
  rintro k' ⟨hexp, hnone⟩
  dsimp only at hexp hnone
  split at hexp
  · rw [if_pos (by assumption)] at hnone
    exact ((AList.mem_insert _).1 hexp).imp_right fun h => ⟨h, hnone⟩
  · rw [if_neg (by assumption)] at hnone
    exact .inr ⟨(AList.mem_erase.1 hexp).2, hnone⟩

theorem orphans_put (k : Bytes) (obj : Obj) : (d.put k obj).orphans = d.orphans \ {k} := by
  ext k'
  have hmem : k' ∈ (d.put k obj).dictStore ↔ k' = k ∨ k' ∈ d.dictStore := AList.mem_insert _
  have hexp : k' ∈ (d.put k obj).expiredDictStore ↔ k' ∈ d.expiredDictStore := Iff.rfl
  simp only [mem_orphans, Set.mem_sdiff, Set.mem_singleton_iff, hmem, hexp]
  tauto

theorem orphans_set (cfg : Config) (env : Env) (pool : LruEvictionPool) (k : Bytes) (obj : Obj) :
    (d.set cfg env pool k obj).1.orphans = d.orphans \ {k} := by
  by_cases h : cfg.maxKeyNumber ≤ d.len
  · rw [set_of_le h, orphans_put, evict_fst, orphans_delAll]
  · rw [set_of_lt (by omega), orphans_put]

end Dict

end RediGo.HashTable
