/-
RediGo.Core.KeyspaceTheorems — rules for invariants of the key space.

All that a run does to the key space is made of four things: touching a
stored key, deleting a key, storing an object under a key (with whatever
eviction that causes), and nothing. `Kept` collects what an invariant has to
survive, and `Kept.run` carries it over every run.

The rules also say that a run always comes to its end. The only loop without
a bound of its own is that of the expiry cycle, which goes on for as long as
a round deletes more than two keys. A round counts a key whether or not it
could delete it, so a key with an expiry time and no value would be counted
in every round; the cycle ends because there are no such keys.
-/
import RediGo.Core.ExpireCycle

namespace RediGo.Core

open RediGo.Go RediGo.HashTable

variable {cfg : Config} {env : Env} {ks : Keyspace}

/-! ## Reading -/

theorem cmdGET_snd (env : Env) (k : Bytes) (ks : Keyspace) :
    (cmdGET env [k] ks).2 = { ks with dictStore := (ks.dictStore.get env k).2 } := by
  unfold cmdGET
  dsimp only
  split
  · rfl
  · split <;> rfl

/-! ## Storing -/

theorem newObj_dictStore (env : Env) (d : Dict) (key value : Bytes) (ttl : Int64) :
    (d.newObj env key value ttl).2.dictStore = d.dictStore := by
  unfold Dict.newObj
  dsimp only
  split <;> rfl

theorem newObj_len (env : Env) (d : Dict) (key value : Bytes) (ttl : Int64) :
    (d.newObj env key value ttl).2.len = d.len := by
  rw [Dict.len, newObj_dictStore, Dict.len]

theorem setKey_of_lt (hlimit : (ks.dictStore.len : Int) < cfg.maxKeyNumber)
    (key value : Bytes) (ttl : Int64) :
    setKey cfg env ks key value ttl =
      ⟨(ks.dictStore.newObj env key value ttl).2.put key ⟨value, Dict.nowSec env⟩, ks.ePool⟩ := by
  unfold setKey
  dsimp only
  rw [Dict.set_of_lt (by rw [newObj_len]; exact hlimit)]
  rfl

theorem setKey_of_le (hlimit : cfg.maxKeyNumber ≤ ks.dictStore.len) (key value : Bytes)
    (ttl : Int64) :
    setKey cfg env ks key value ttl =
      ⟨((ks.dictStore.newObj env key value ttl).2.evict cfg env ks.ePool).1.put key
          ⟨value, Dict.nowSec env⟩,
        ((ks.dictStore.newObj env key value ttl).2.evict cfg env ks.ePool).2⟩ := by
  unfold setKey
  dsimp only
  rw [Dict.set_of_le (by rw [newObj_len]; exact hlimit)]
  rfl

theorem setKey_orphans (key value : Bytes) (ttl : Int64) (h : ks.dictStore.orphans = ∅) :
    (setKey cfg env ks key value ttl).dictStore.orphans = ∅ := by
  have hnew := Dict.orphans_newObj_subset (d := ks.dictStore) env key value ttl
  rw [h, insert_empty_eq] at hnew
  exact (Dict.orphans_set cfg env ks.ePool key _).trans (Set.sdiff_eq_empty.2 hnew)

/-! ## Runs -/

/-- What a run may do to a key space keeps `I`. -/
structure Kept (cfg : Config) (I : Keyspace → Prop) : Prop where
  /-- the cycle needs this to come to an end -/
  orphans : ∀ ks, I ks → ks.dictStore.orphans = ∅
  touch : ∀ ks env k obj, I ks → ks.dictStore.dictStore.lookup k = some obj →
    I { ks with dictStore := ks.dictStore.touch env k obj }
  del : ∀ ks k, I ks → I { ks with dictStore := (ks.dictStore.del k).2 }
  setKey : ∀ ks env key value ttl, I ks → I (setKey cfg env ks key value ttl)

namespace Kept

variable {I : Keyspace → Prop} (hI : Kept cfg I)

include hI

theorem get (env : Env) (k : Bytes) (h : I ks) :
    I { ks with dictStore := (ks.dictStore.get env k).2 } := by
  cases hobj : ks.dictStore.dictStore.lookup k with
  | none =>
    rw [Dict.get_of_none hobj]
    exact h
  | some obj =>
    have htouch := hI.touch ks env k obj h hobj
    rw [Dict.get_of_some hobj]
    split
    · exact hI.del _ k htouch
    · exact htouch

theorem cmdSET (env : Env) (args : List Bytes) (h : I ks) : I (cmdSET cfg env args ks).2 := by
  unfold Core.cmdSET
  split
  · exact h
  · exact hI.setKey ks env _ _ _ h

theorem cmdGET (env : Env) (args : List Bytes) (h : I ks) : I (cmdGET env args ks).2 := by
  match args with
  | [] => exact h
  | _ :: _ :: _ => exact h
  | [key] =>
    rw [cmdGET_snd]
    exact hI.get env key h

theorem cmdTTL (env : Env) (args : List Bytes) (h : I ks) : I (cmdTTL env args ks).2 := by
  unfold Core.cmdTTL
  split
  · rename_i key
    have hget := hI.get env key h
    dsimp only
    split
    · exact hget
    · split
      · exact hget
      · split <;> exact hget
  · exact h

theorem step (env : Env) (op : KeyOp) (h : I ks) :
    ∃ reply ks', ks.step cfg env op = .ok (reply, ks') ∧ I ks' := by
  cases op with
  | set args => exact ⟨_, _, rfl, hI.cmdSET env args h⟩
  | get args => exact ⟨_, _, rfl, hI.cmdGET env args h⟩
  | ttl args => exact ⟨_, _, rfl, hI.cmdTTL env args h⟩
  | expire =>
    have hdel : ∀ (d : Dict) key exp, I { ks with dictStore := d } →
        d.expiredDictStore.lookup key = some exp → exp.toInt64 < env.now →
        I { ks with dictStore := (d.del key).2 } := fun d key _ hd _ _ => hI.del _ key hd
    obtain ⟨d', hrun, hd'⟩ :=
      activeDeleteExpiredKeys_invariant hdel ks (fun d hd => hI.orphans _ hd) h
    refine ⟨none, _, ?_, hd'⟩
    unfold Keyspace.step
    rw [hrun]
    rfl

/-- Every run comes to its end and keeps the invariant. -/
theorem run (ops : List (KeyOp × Env)) (h : I ks) :
    ∃ replies ks', ks.run cfg ops = .ok (replies, ks') ∧ I ks' := by
  induction ops generalizing ks with
  | nil => exact ⟨[], ks, rfl, h⟩
  | cons p ops ih =>
    obtain ⟨op, env⟩ := p
    obtain ⟨reply, ks', hstep, hks'⟩ := hI.step env op h
    obtain ⟨replies, ks'', hrun, hks''⟩ := ih hks'
    refine ⟨reply :: replies, ks'', ?_, hks''⟩
    rw [Keyspace.run, hstep]
    show (ks'.run cfg ops >>= _) = _
    rw [hrun]
    rfl

end Kept

/-! ## Orphans -/

theorem kept_orphans (cfg : Config) : Kept cfg fun ks => ks.dictStore.orphans = ∅ where
  orphans := fun _ h => h
  touch := fun _ _ _ _ h hobj => (Dict.orphans_touch hobj).trans h
  del := fun _ k h => (Dict.orphans_del k).trans h
  setKey := fun _ _ key value ttl h => setKey_orphans key value ttl h

theorem orphans_init : Keyspace.init.dictStore.orphans = ∅ := by
  refine Set.eq_empty_iff_forall_notMem.2 fun k hk => ?_
  exact AList.notMem_empty k hk.1

/-- After every run of commands and expiry cycles, with whatever evictions,
a key that has an expiry time has a value. -/
theorem run_no_orphans (cfg : Config) (ops : List (KeyOp × Env)) :
    ∃ replies ks, Keyspace.init.run cfg ops = .ok (replies, ks) ∧
      ∀ k, k ∈ ks.dictStore.expiredDictStore → k ∈ ks.dictStore.dictStore := by
  obtain ⟨replies, ks, hrun, hks⟩ := (kept_orphans cfg).run ops orphans_init
  exact ⟨replies, ks, hrun, fun k hexp => Dict.stored_of_orphans hks hexp⟩

end RediGo.Core
