/-
RediGo.HashTable.DictTheorems — a dictionary as a timed map.

`view` forgets access times and joins the two Go maps: the entry of a key
is its value with its expiry time. Each operation of the dictionary is an
operation on the view, except that it may drop an entry which cannot be
read any more (`get_cases`, `view_del`).

`Sound` is what the operations maintain and rely on: a key with an expiry
time is stored, and the time fits `int64`, which is the type the expiry
cycle compares it in.

Clock readings are at or after the epoch throughout.
-/
import RediGo.HashTable.Dict
import RediGo.Lib.TimedMap

namespace RediGo.HashTable

open RediGo.Go RediGo.Lib

/-- The clock reading as a number. -/
def Env.millis (env : Env) : Nat := env.now.toInt.toNat

theorem Env.toNat_now {env : Env} (h : 0 ≤ env.now.toInt) : env.now.toUInt64.toNat = env.millis := by
  have h' : 0 ≤ env.now := by
    rw [Int64.le_iff_toInt_le]
    exact h
  exact Int64.toNat_toUInt64_of_le h'

theorem toNat_toUInt64 (x : Int64) : (x.toUInt64.toNat : Int) = x.toInt % 2 ^ 64 := by
  have hbits : x.toInt = (x.toUInt64.toNat : Int).bmod (2 ^ 64) := x.toBitVec.toInt_eq_toNat_bmod
  have hlt := x.toUInt64.toNat_lt
  rw [hbits]
  exact (Int.emod_eq_of_lt (by omega) (by omega)).symm.trans Int.bmod_emod.symm

theorem toInt_toInt64 {x : UInt64} (h : x.toNat < 2 ^ 63) : x.toInt64.toInt = x.toNat := by
  show x.toBitVec.toInt = _
  rw [BitVec.toInt_eq_toNat_of_lt]
  · rfl
  · show 2 * x.toNat < _
    omega

theorem toInt64_neg {x : UInt64} (h : 2 ^ 63 ≤ x.toNat) : x.toInt64.toInt < 0 := by
  have hlt := x.toNat_lt
  show x.toBitVec.toInt < 0
  rw [BitVec.toInt_neg_iff]
  show _ ≤ 2 * x.toNat
  omega

theorem mem_of_lookup {β : Type} {s : Map β} {k : Bytes} {v : β} (h : s.lookup k = some v) :
    k ∈ s := by
  rw [← AList.lookup_isSome, h]
  rfl

theorem exists_lookup {β : Type} {s : Map β} {k : Bytes} (h : k ∈ s) :
    ∃ v, s.lookup k = some v := Option.isSome_iff_exists.1 (AList.lookup_isSome.2 h)

theorem length_keys_erase {β : Type} {s : Map β} {k : Bytes} (h : k ∈ s) :
    (s.erase k).keys.length + 1 = s.keys.length := by
  rw [AList.keys_erase]
  exact @List.length_erase_add_one _ instBEqOfDecidableEq _ _ _ (AList.mem_keys.1 h)

namespace Dict

/-- What the dictionary says about each key. -/
def view (d : Dict) : TimedMap Bytes Bytes := fun k =>
  (d.dictStore.lookup k).map fun obj =>
    (obj.value, (d.expiredDictStore.lookup k).map UInt64.toNat)

structure Sound (d : Dict) : Prop where
  stored : ∀ k, k ∈ d.expiredDictStore → k ∈ d.dictStore
  bounded : ∀ k exp, d.expiredDictStore.lookup k = some exp → exp.toNat < 2 ^ 63

theorem sound_create : Sound create where
  stored := fun k h => absurd h (AList.notMem_empty k)
  bounded := fun k exp h => by
    rw [show create.expiredDictStore = ∅ from rfl, AList.lookup_empty] at h
    cases h

theorem view_create : create.view = TimedMap.empty := by
  funext k
  rw [view, show create.dictStore = ∅ from rfl, AList.lookup_empty]
  rfl

variable {d : Dict} {env : Env} {k : Bytes}

/-! ## Deletion -/

theorem view_del (hk : k ∈ d.dictStore) : (d.del k).2.view = d.view.drop k := by
  funext k'
  rw [del, if_pos hk]
  unfold view TimedMap.drop
  by_cases h : k' = k
  · subst h
    simp only [if_true, AList.lookup_erase, Option.map_none]
  · simp only [h, if_false, AList.lookup_erase_ne h]

theorem Sound.del (hs : Sound d) (k : Bytes) : Sound (d.del k).2 := by
  unfold Dict.del
  split
  · constructor
    · intro k' h
      rw [AList.mem_erase] at h ⊢
      exact ⟨h.1, hs.stored k' h.2⟩
    · intro k' exp h
      by_cases hk : k' = k
      · rw [hk, AList.lookup_erase] at h
        cases h
      · rw [AList.lookup_erase_ne hk] at h
        exact hs.bounded k' exp h
  · exact hs

/-! ## Reading -/

theorem hasExpired_iff (h0 : 0 ≤ env.now.toInt) : d.hasExpired env k = true ↔
    ∃ exp, d.expiredDictStore.lookup k = some exp ∧ exp.toNat ≤ env.millis := by
  unfold hasExpired
  cases hexp : d.expiredDictStore.lookup k with
  | none => simp
  | some exp =>
    simp only [decide_eq_true_eq, Option.some.injEq, exists_eq_left', UInt64.le_iff_toNat_le,
      Env.toNat_now h0]

/-- A stored key can be read exactly while `HasExpired` is false. -/
theorem view_get (h0 : 0 ≤ env.now.toInt) {obj : Obj} (hobj : d.dictStore.lookup k = some obj) :
    d.view.get k env.millis = if d.hasExpired env k then none else some obj.value := by
  have hview : d.view k = some (obj.value, (d.expiredDictStore.lookup k).map UInt64.toNat) := by
    rw [view, hobj]
    rfl
  rw [TimedMap.get, hview]
  by_cases hexp : d.hasExpired env k = true
  · obtain ⟨exp, hlookup, hle⟩ := (hasExpired_iff h0).1 hexp
    rw [if_pos hexp, hlookup]
    exact if_neg (TimedMap.not_alive_some.2 hle)
  · rw [if_neg hexp]
    refine if_pos fun x hx => ?_
    obtain ⟨exp, hlookup, rfl⟩ := Option.map_eq_some_iff.1 hx
    exact Nat.lt_of_not_le fun hle => hexp ((hasExpired_iff h0).2 ⟨exp, hlookup, hle⟩)

theorem view_touch {obj : Obj} (hobj : d.dictStore.lookup k = some obj) :
    (d.touch env k obj).view = d.view := by
  funext k'
  unfold view touch
  by_cases h : k' = k
  · rw [h, AList.lookup_insert, hobj]
    rfl
  · rw [AList.lookup_insert_ne h]

theorem Sound.touch (hs : Sound d) (obj : Obj) : Sound (d.touch env k obj) where
  stored := fun k' h => (AList.mem_insert _).2 (.inr (hs.stored k' h))
  bounded := hs.bounded

theorem get_of_none (hobj : d.dictStore.lookup k = none) : d.get env k = (none, d) := by
  unfold get
  rw [hobj]

theorem get_of_some {obj : Obj} (hobj : d.dictStore.lookup k = some obj) :
    d.get env k = if d.hasExpired env k then (none, ((d.touch env k obj).del k).2)
      else (some (touched env obj), d.touch env k obj) := by
  unfold get
  rw [hobj]
  rfl

/-- What `Get` does: a new access time for a key that can be read, and at
most the deletion of one that cannot. -/
theorem get_cases (h0 : 0 ≤ env.now.toInt) (hs : Sound d) (k : Bytes) :
    (∃ obj, (d.get env k).1 = some obj ∧ d.view.get k env.millis = some obj.value ∧
      (d.get env k).2.view = d.view ∧ (d.get env k).2.expiredDictStore = d.expiredDictStore ∧
      Sound (d.get env k).2) ∨
    ((d.get env k).1 = none ∧ d.view.get k env.millis = none ∧
      ((d.get env k).2.view = d.view ∨ (d.get env k).2.view = d.view.drop k) ∧
      Sound (d.get env k).2) := by
  cases hobj : d.dictStore.lookup k with
  | none =>
    rw [get_of_none hobj]
    refine .inr ⟨rfl, ?_, .inl rfl, hs⟩
    rw [TimedMap.get, view, hobj]
    rfl
  | some obj =>
    have hget := view_get h0 hobj
    have hview : (d.touch env k obj).view = d.view := view_touch hobj
    have hsound : Sound (d.touch env k obj) := hs.touch obj
    have hmem : k ∈ (d.touch env k obj).dictStore := (AList.mem_insert _).2 (.inl rfl)
    rw [get_of_some hobj]
    by_cases h : d.hasExpired env k = true
    · rw [if_pos h] at hget ⊢
      exact .inr ⟨rfl, hget, .inr (by rw [view_del hmem, hview]), hsound.del k⟩
    · rw [if_neg h] at hget ⊢
      exact .inl ⟨touched env obj, rfl, hget, hview, rfl, hsound⟩

/-! ## Storing -/

/-- The dictionary with `obj` under `k`. -/
def put (d : Dict) (k : Bytes) (obj : Obj) : Dict :=
  { d with dictStore := d.dictStore.insert k obj }

theorem set_of_lt {cfg : Config} {pool : LruEvictionPool} (h : (d.len : Int) < cfg.maxKeyNumber)
    (k : Bytes) (obj : Obj) : d.set cfg env pool k obj = (d.put k obj, pool) := by
  unfold set
  rw [if_neg (by omega)]
  rfl

theorem view_put (k : Bytes) (obj : Obj) : (d.put k obj).view =
    d.view.set k obj.value ((d.expiredDictStore.lookup k).map UInt64.toNat) := by
  funext k'
  unfold view put TimedMap.set
  by_cases h : k' = k
  · subst h
    simp only [if_true, AList.lookup_insert, Option.map_some]
  · simp only [h, if_false, AList.lookup_insert_ne h]

theorem Sound.put_persist (hs : Sound d) (k : Bytes) (obj : Obj) :
    Sound ((d.persist k).put k obj) := by
  constructor
  · intro k' h
    exact (AList.mem_insert _).2 (.inr (hs.stored k' (AList.mem_erase.1 h).2))
  · intro k' exp h
    by_cases hk : k' = k
    · rw [hk] at h
      cases (AList.lookup_erase k d.expiredDictStore).symm.trans h
    · exact hs.bounded k' exp ((AList.lookup_erase_ne hk).symm.trans h)

theorem Sound.put_setExpiry (hs : Sound d) (k : Bytes) (obj : Obj) {ttlMs : Int64}
    (hexp : (env.now.toUInt64 + ttlMs.toUInt64).toNat < 2 ^ 63) :
    Sound ((d.setExpiry env k ttlMs).put k obj) := by
  constructor
  · intro k' h
    rcases (AList.mem_insert _).1 h with rfl | h
    · exact (AList.mem_insert _).2 (.inl rfl)
    · exact (AList.mem_insert _).2 (.inr (hs.stored k' h))
  · intro k' exp h
    by_cases hk : k' = k
    · rw [hk] at h
      cases (AList.lookup_insert d.expiredDictStore).symm.trans h
      exact hexp
    · exact hs.bounded k' exp ((AList.lookup_insert_ne hk).symm.trans h)

end Dict

end RediGo.HashTable
