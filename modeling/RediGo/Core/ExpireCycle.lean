/-
RediGo.Core.ExpireCycle — the expiry cycle with a running clock
(`internal/core/expire.go`).

`Executor` gives a whole cycle one clock reading. The source reads the clock
for every sample, and so does the cycle here, which also writes down the keys
it deletes. Nothing is assumed of the readings. The outer loop stops at the
`float64` test of the source, `belowThreshold`.

The rules are proved here once. `sampleLoop_invariant` is about one round and
`loop_invariant` about the cycle, which ends because a round that goes on has
deleted a key, and deleted it for good if it had a value
(`size_round`). The executor's cycle is the one with a clock that stands
still (`activeDeleteExpiredKeys_eq`), and gets its rule from this one.
-/
import RediGo.Core.Executor
import RediGo.HashTable.EvictionTheorems

namespace RediGo.Core

open RediGo.Go RediGo.HashTable

/-- `float64(expiredCount)/float64(ActiveExpireSampleSize) <= ActiveExpireThreshold` -/
def belowThreshold (expiredCount : Nat) : Bool :=
  ((Float64.ofInt64 (.ofNat expiredCount)).div (.ofInt64 (.ofNat ActiveExpireSampleSize))).le
    (.ofRat false 1 10)

/-- The test in whole numbers. -/
theorem belowThreshold_iff {expiredCount : Nat} (h : expiredCount ≤ ActiveExpireSampleSize) :
    belowThreshold expiredCount = true ↔ expiredCount * 10 ≤ ActiveExpireSampleSize := by
  have hall : ∀ n < 21, belowThreshold n = true ↔ n * 10 ≤ ActiveExpireSampleSize := by
    decide +kernel
  exact hall expiredCount (Nat.lt_succ_of_le h)

/-- The cycle so far. -/
structure Cycle where
  dict : Dict
  /-- the number of clock readings -/
  reads : Nat
  /-- the keys that were handed to `Del` -/
  deleted : List Bytes

namespace Cycle

def start (d : Dict) : Cycle := ⟨d, 0, []⟩

/-- After one more clock reading. -/
def tick (c : Cycle) : Cycle := { c with reads := c.reads + 1 }

def delete (c : Cycle) (key : Bytes) : Cycle :=
  { c with dict := (c.dict.del key).2, deleted := c.deleted ++ [key] }

/-- One round over the keys still to be visited, as `Core.sampleLoop`. -/
def sampleLoop (clock : Nat → Int64) : List Bytes → Int → Nat → Cycle → Nat × Cycle
  | [], _, expired, c => (expired, c)
  | key :: keys, remain, expired, c =>
    match c.dict.expiredDictStore.lookup key with
    | none => sampleLoop clock keys remain expired c
    | some expiredTime =>
      if remain - 1 < 0 then (expired, c)
      else if expiredTime.toInt64 < clock c.reads then
        sampleLoop clock keys (remain - 1) (expired + 1) (c.tick.delete key)
      else sampleLoop clock keys (remain - 1) expired c.tick

/-- One round: the number of deleted keys and the state after it. -/
def round (clock : Nat → Int64) (order : Nat → MapOrder) (n : Nat) (c : Cycle) : Nat × Cycle :=
  sampleLoop clock ((order n).order c.dict.expiredDictStore.keys) ActiveExpireSampleSize 0 c

/-- The outer loop. -/
def loop (clock : Nat → Int64) (order : Nat → MapOrder) : Nat → Nat → Cycle → Except Fault Cycle
  | 0, _, _ => .error .fuel
  | fuel + 1, n, c =>
    let (expired, c) := round clock order n c
    if belowThreshold expired then .ok c else loop clock order fuel (n + 1) c

/-- The number of entries with an expiry time. -/
def size (c : Cycle) : Nat := c.dict.expiredDictStore.keys.length

/-- `ActiveDeleteExpiredKeys` -/
def activeDeleteExpiredKeys (clock : Nat → Int64) (order : Nat → MapOrder) (d : Dict) :
    Except Fault Cycle := loop clock order ((start d).size + 1) 0 (start d)

variable {clock : Nat → Int64} {order : Nat → MapOrder} {c : Cycle}

/-! ## One round -/

section Round

variable {I : Cycle → Prop} (htick : ∀ c, I c → I c.tick)
  (hdel : ∀ c key exp, I c → c.dict.expiredDictStore.lookup key = some exp →
    exp.toInt64 < clock c.reads → I (c.tick.delete key))

include htick hdel

theorem sampleLoop_invariant (keys : List Bytes) (remain : Int) (expired : Nat) (h : I c) :
    I (sampleLoop clock keys remain expired c).2 := by
  induction keys generalizing remain expired c with
  | nil => exact h
  | cons key keys ih =>
    unfold sampleLoop
    cases hexp : c.dict.expiredDictStore.lookup key with
    | none => exact ih remain expired h
    | some exp =>
      dsimp only
      split
      · exact h
      split
      · rename_i hlt
        exact ih (remain - 1) (expired + 1) (hdel c key exp h hexp hlt)
      · exact ih (remain - 1) expired (htick c h)

theorem round_invariant (n : Nat) (h : I c) : I (round clock order n c).2 :=
  sampleLoop_invariant htick hdel _ _ _ h

end Round

theorem orphans_round (n : Nat) : (round clock order n c).2.dict.orphans = c.dict.orphans := by
  have hdel : ∀ (c' : Cycle) key exp, c'.dict.orphans = c.dict.orphans →
      c'.dict.expiredDictStore.lookup key = some exp → exp.toInt64 < clock c'.reads →
      (c'.tick.delete key).dict.orphans = c.dict.orphans :=
    fun _ key _ h _ _ => (Dict.orphans_del key).trans h
  exact round_invariant (I := fun c' => c'.dict.orphans = c.dict.orphans) (fun _ h => h) hdel n
    rfl

/-- A round counts at most as many keys as it has samples left. -/
theorem sampleLoop_fst_le (keys : List Bytes) (remain : Int) (expired : Nat) :
    (sampleLoop clock keys remain expired c).1 ≤ expired + remain.toNat := by
  induction keys generalizing remain expired c with
  | nil => exact Nat.le_add_right ..
  | cons key keys ih =>
    unfold sampleLoop
    split
    · exact ih remain expired
    split
    · exact Nat.le_add_right ..
    split
    · have hcount := @ih (c.tick.delete key) (remain - 1) (expired + 1)
      omega
    · have hcount := @ih c.tick (remain - 1) expired
      omega

/-- Every key that a round counts is an entry of the expiry map less. -/
theorem sampleLoop_count (keys : List Bytes) (remain : Int) (expired : Nat)
    (h : c.dict.orphans = ∅) :
    (sampleLoop clock keys remain expired c).1 + (sampleLoop clock keys remain expired c).2.size =
      expired + c.size := by
  induction keys generalizing remain expired c with
  | nil => rfl
  | cons key keys ih =>
    unfold sampleLoop
    cases hexp : c.dict.expiredDictStore.lookup key with
    | none => exact ih remain expired h
    | some exp =>
      dsimp only
      split
      · rfl
      split
      · have hmem := mem_of_lookup hexp
        have hsize : (c.tick.delete key).size + 1 = c.size := by
          show (c.dict.del key).2.expiredDictStore.keys.length + 1 = _
          rw [Dict.del, if_pos (Dict.stored_of_orphans h hmem)]
          exact length_keys_erase hmem
        have hcount := @ih (c.tick.delete key) (remain - 1) (expired + 1)
          ((Dict.orphans_del key).trans h)
        omega
      · exact @ih c.tick (remain - 1) expired h

theorem size_round (n : Nat) (h : c.dict.orphans = ∅) :
    (round clock order n c).1 + (round clock order n c).2.size = c.size := by
  have hcount : (round clock order n c).1 + (round clock order n c).2.size = 0 + c.size :=
    sampleLoop_count _ _ _ h
  rwa [Nat.zero_add] at hcount

/-- A round after which the loop goes on deleted a key. -/
theorem size_round_lt (n : Nat) (h : c.dict.orphans = ∅)
    (hgoes : belowThreshold (round clock order n c).1 = false) :
    (round clock order n c).2.size < c.size := by
  have hsize : (round clock order n c).1 + _ = _ := size_round n h
  have hpos : (round clock order n c).1 ≠ 0 := by
    intro hzero
    rw [hzero, (belowThreshold_iff (Nat.zero_le _)).2 (by decide)] at hgoes
    cases hgoes
  omega

/-! ## The loop -/

/-- The loop ends when it has a round for every entry and one more. What
holds after its first round and survives the others holds at the end. -/
theorem loop_invariant {I : Cycle → Prop} (hround : ∀ n c, I c → I (round clock order n c).2)
    (fuel n : Nat) (horphans : c.dict.orphans = ∅) (hfuel : c.size < fuel)
    (h : I (round clock order n c).2) : ∃ c', loop clock order fuel n c = .ok c' ∧ I c' := by
  induction fuel generalizing n c with
  | zero => omega
  | succ fuel ih =>
    unfold loop
    dsimp only
    split
    · exact ⟨_, rfl, h⟩
    · rename_i hgoes
      have hlt := size_round_lt n horphans (Bool.not_eq_true _ ▸ hgoes)
      exact ih (n + 1) ((orphans_round n).trans horphans) (by omega) (hround _ _ h)

/-! ## A clock that stands still -/

theorem sampleLoop_const (now : Int64) (keys : List Bytes) (remain : Int) (expired : Nat)
    (c : Cycle) :
    (sampleLoop (fun _ => now) keys remain expired c).1 =
        (Core.sampleLoop now keys remain expired c.dict).1 ∧
      (sampleLoop (fun _ => now) keys remain expired c).2.dict =
        (Core.sampleLoop now keys remain expired c.dict).2 := by
  induction keys generalizing remain expired c with
  | nil => exact ⟨rfl, rfl⟩
  | cons key keys ih =>
    unfold sampleLoop Core.sampleLoop
    cases c.dict.expiredDictStore.lookup key with
    | none => exact ih remain expired c
    | some exp =>
      dsimp only
      split
      · exact ⟨rfl, rfl⟩
      split
      · exact ih (remain - 1) (expired + 1) (c.tick.delete key)
      · exact ih (remain - 1) expired c.tick

theorem loop_const (env : Env) (fuel n : Nat) (c : Cycle) :
    (loop (fun _ => env.now) env.order fuel n c).map dict = expireLoop env fuel n c.dict := by
  induction fuel generalizing n c with
  | zero => rfl
  | succ fuel ih =>
    have hround : (round (fun _ => env.now) env.order n c).1 = (expireRound env n c.dict).1 ∧
        (round (fun _ => env.now) env.order n c).2.dict = (expireRound env n c.dict).2 :=
      sampleLoop_const env.now _ _ _ c
    have hle : (round (fun _ => env.now) env.order n c).1 ≤ ActiveExpireSampleSize :=
      (sampleLoop_fst_le ..).trans (by decide)
    unfold loop expireLoop
    dsimp only
    rw [← hround.1, ← hround.2, ← ih]
    by_cases hstops : (round (fun _ => env.now) env.order n c).1 * 10 ≤ ActiveExpireSampleSize
    · rw [if_pos ((belowThreshold_iff hle).2 hstops), if_pos hstops]
      rfl
    · rw [if_neg (mt (belowThreshold_iff hle).1 hstops), if_neg hstops]

end Cycle

/-- The executor's cycle does to the dictionary what the cycle with a clock
that stands still does. -/
theorem activeDeleteExpiredKeys_eq (env : Env) (ks : Keyspace) :
    activeDeleteExpiredKeys env ks =
      (Cycle.activeDeleteExpiredKeys (fun _ => env.now) env.order ks.dictStore).map
        fun c => { ks with dictStore := c.dict } := by
  have hloop := Cycle.loop_const env ((Cycle.start ks.dictStore).size + 1) 0 (.start ks.dictStore)
  unfold activeDeleteExpiredKeys Cycle.activeDeleteExpiredKeys
  show (expireLoop env ((Cycle.start ks.dictStore).size + 1) 0 (Cycle.start ks.dictStore).dict >>=
    _) = _
  rw [← hloop]
  cases Cycle.loop (fun _ => env.now) env.order _ 0 _ <;> rfl

theorem activeDeleteExpiredKeys_invariant {env : Env} {I : Dict → Prop}
    (hdel : ∀ d key exp, I d → d.expiredDictStore.lookup key = some exp →
      exp.toInt64 < env.now → I (d.del key).2)
    (ks : Keyspace) (hI : ∀ d, I d → d.orphans = ∅) (h : I ks.dictStore) :
    ∃ d', activeDeleteExpiredKeys env ks = .ok { ks with dictStore := d' } ∧ I d' := by
  have hround : ∀ n (c : Cycle), I c.dict →
      I (Cycle.round (fun _ => env.now) env.order n c).2.dict := fun n c hc =>
    Cycle.round_invariant (I := fun c => I c.dict) (fun _ h => h)
      (fun c key exp hc hexp hlt => hdel c.dict key exp hc hexp hlt) n hc
  obtain ⟨c, hloop, hc⟩ := Cycle.loop_invariant (I := fun c => I c.dict) hround
    ((Cycle.start ks.dictStore).size + 1) 0 (hI _ h) (Nat.lt_succ_self _) (hround 0 _ h)
  refine ⟨c.dict, ?_, hc⟩
  rw [activeDeleteExpiredKeys_eq, Cycle.activeDeleteExpiredKeys, hloop]
  rfl

end RediGo.Core
