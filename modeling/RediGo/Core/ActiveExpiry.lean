/-
RediGo.Core.ActiveExpiry — what the expiry cycle deletes.

From a state that commands can reach, and with whatever clock readings and
iteration orders, the cycle comes to its end and both maps have lost exactly
the keys it deleted (`cycle_terminates`). `Deletes` carries this through the
rounds: the dictionary is the one before without the keys deleted so far, no
key was deleted twice, and each had an expiry time below a clock reading.

That comparison is one of `int64`, while `HasExpired` compares as `uint64`.
An expiry time from 2⁶³ on is negative to the cycle and lies in the future to
`HasExpired`, and `SET` can store such a time (`deletes_only_expired_iff`).
-/
import RediGo.Core.KeyspaceTheorems

namespace RediGo.Core

open RediGo.Go RediGo.HashTable

namespace Cycle

variable {clock : Nat → Int64} {order : Nat → MapOrder} {d : Dict} {c : Cycle} {key : Bytes}

/-! ## The keys deleted so far -/

structure Deletes (clock : Nat → Int64) (d : Dict) (c : Cycle) : Prop where
  dict_eq : c.dict = d.delAll c.deleted
  nodup : c.deleted.Nodup
  expired : ∀ k ∈ c.deleted, ∃ exp t,
    d.expiredDictStore.lookup k = some exp ∧ exp.toInt64 < clock t

theorem deletes_start : Deletes clock d (start d) where
  dict_eq := rfl
  nodup := List.nodup_nil
  expired := fun _ hk => absurd hk List.not_mem_nil

/-- A key that still has an expiry time was not deleted, and its expiry time
is the one it had. -/
theorem Deletes.lookup (h : Deletes clock d c) (horphans : d.orphans = ∅) {exp : UInt64}
    (hexp : c.dict.expiredDictStore.lookup key = some exp) :
    key ∉ c.deleted ∧ d.expiredDictStore.lookup key = some exp := by
  rw [h.dict_eq, Dict.lookup_expiry_delAll] at hexp
  split at hexp
  · cases hexp
  · rename_i hnot
    have hstored := Dict.stored_of_orphans horphans (mem_of_lookup hexp)
    exact ⟨fun hk => hnot ⟨hk, hstored⟩, hexp⟩

theorem Deletes.delete (h : Deletes clock d c) (horphans : d.orphans = ∅) {exp : UInt64}
    (hexp : c.dict.expiredDictStore.lookup key = some exp) (hlt : exp.toInt64 < clock c.reads) :
    Deletes clock d (c.tick.delete key) := by
  obtain ⟨hnew, hbefore⟩ := h.lookup horphans hexp
  constructor
  · show (c.dict.del key).2 = d.delAll (c.deleted ++ [key])
    rw [h.dict_eq]
    simp [Dict.delAll]
  · exact List.nodup_append_comm.2 (List.nodup_cons.2 ⟨hnew, h.nodup⟩)
  · intro k hk
    rcases List.mem_append.1 hk with hk | hk
    · exact h.expired k hk
    · rw [List.mem_singleton.1 hk]
      exact ⟨exp, c.reads, hbefore, hlt⟩

theorem Deletes.round (h : Deletes clock d c) (horphans : d.orphans = ∅) (n : Nat) :
    Deletes clock d (round clock order n c).2 :=
  round_invariant (fun _ hc => ⟨hc.dict_eq, hc.nodup, hc.expired⟩)
    (fun _ _ _ hc hexp hlt => hc.delete horphans hexp hlt) n h

/-- A round adds no expiry time and changes none. -/
theorem lookup_round (n : Nat) {exp : UInt64}
    (h : (round clock order n c).2.dict.expiredDictStore.lookup key = some exp) :
    c.dict.expiredDictStore.lookup key = some exp := by
  have hdel : ∀ (c' : Cycle) key' exp', (∀ exp, c'.dict.expiredDictStore.lookup key = some exp →
      c.dict.expiredDictStore.lookup key = some exp) →
      c'.dict.expiredDictStore.lookup key' = some exp' → exp'.toInt64 < clock c'.reads →
      ∀ exp, (c'.tick.delete key').dict.expiredDictStore.lookup key = some exp →
        c.dict.expiredDictStore.lookup key = some exp := by
    intro c' key' _ hc _ _ exp hexp
    rw [show (c'.tick.delete key').dict = c'.dict.delAll [key'] from rfl,
      Dict.lookup_expiry_delAll] at hexp
    split at hexp
    · cases hexp
    · exact hc exp hexp
  exact round_invariant (I := fun c' => ∀ exp, c'.dict.expiredDictStore.lookup key = some exp →
    c.dict.expiredDictStore.lookup key = some exp) (fun _ hc => hc) hdel n (fun _ hc => hc) exp h

/-! ## The whole cycle -/

/-- The cycle on `d` begins its round `n` in the state `c`. -/
inductive BeginsRound (clock : Nat → Int64) (order : Nat → MapOrder) (d : Dict) :
    Nat → Cycle → Prop
  | first : BeginsRound clock order d 0 (start d)
  | next {n : Nat} {c : Cycle} : BeginsRound clock order d n c →
      belowThreshold (Cycle.round clock order n c).1 = false →
      BeginsRound clock order d (n + 1) (Cycle.round clock order n c).2

theorem BeginsRound.orphans {n : Nat} (h : BeginsRound clock order d n c) :
    c.dict.orphans = d.orphans := by
  induction h with
  | first => rfl
  | next _ _ ih => exact (orphans_round _).trans ih

/-- The expiry times of `d'` are some of those of `d`. -/
def Shrinks (d d' : Dict) : Prop :=
  (∀ k exp, d'.expiredDictStore.lookup k = some exp → d.expiredDictStore.lookup k = some exp) ∧
    d'.expiredDictStore.keys.length < d.expiredDictStore.keys.length

/-- `d'` is `d` without the keys, all of which had a value and an expiry
time. -/
structure LosesExactly (keys : List Bytes) (d d' : Dict) : Prop where
  nodup : keys.Nodup
  present : ∀ k ∈ keys, k ∈ d.dictStore ∧ k ∈ d.expiredDictStore
  values : ∀ k, d'.dictStore.lookup k = if k ∈ keys then none else d.dictStore.lookup k
  expiries : ∀ k, d'.expiredDictStore.lookup k =
    if k ∈ keys then none else d.expiredDictStore.lookup k

theorem Deletes.losesExactly (h : Deletes clock d c) (horphans : d.orphans = ∅) :
    LosesExactly c.deleted d c.dict := by
  have hpresent : ∀ k ∈ c.deleted, k ∈ d.dictStore ∧ k ∈ d.expiredDictStore := by
    intro k hk
    obtain ⟨exp, -, hexp, -⟩ := h.expired k hk
    have hmem := mem_of_lookup hexp
    exact ⟨Dict.stored_of_orphans horphans hmem, hmem⟩
  refine ⟨h.nodup, hpresent, fun k => ?_, fun k => ?_⟩
  · rw [h.dict_eq, Dict.lookup_delAll]
  · rw [h.dict_eq, Dict.lookup_expiry_delAll_of_stored fun k hk => (hpresent k hk).1]

theorem exists_deletes (clock : Nat → Int64) (order : Nat → MapOrder) (horphans : d.orphans = ∅) :
    ∃ c, activeDeleteExpiredKeys clock order d = .ok c ∧ Deletes clock d c :=
  loop_invariant (fun n _ hc => hc.round horphans n) _ 0 horphans (Nat.lt_succ_self _)
    (deletes_start.round horphans 0)

end Cycle

/-- After every run of commands, the cycle comes to its end, with whatever
clock readings and iteration orders. Every round that does not end it takes
expiry times away, and in the end both maps have lost exactly the keys that
were deleted. -/
theorem cycle_terminates (cfg : Config) (ops : List (KeyOp × Env)) :
    ∃ replies ks, Keyspace.init.run cfg ops = .ok (replies, ks) ∧ ∀ clock order,
      (∀ n c, Cycle.BeginsRound clock order ks.dictStore n c →
        belowThreshold (Cycle.round clock order n c).1 = false →
        Cycle.Shrinks c.dict (Cycle.round clock order n c).2.dict) ∧
      ∃ c, Cycle.activeDeleteExpiredKeys clock order ks.dictStore = .ok c ∧
        Cycle.LosesExactly c.deleted ks.dictStore c.dict := by
  obtain ⟨replies, ks, hrun, hks⟩ := (kept_orphans cfg).run ops orphans_init
  refine ⟨replies, ks, hrun, fun clock order => ⟨fun n c hc hgoes => ?_, ?_⟩⟩
  · exact ⟨fun _ _ => Cycle.lookup_round n, Cycle.size_round_lt n (hc.orphans.trans hks) hgoes⟩
  · obtain ⟨c, hcycle, hc⟩ := Cycle.exists_deletes clock order hks
    exact ⟨c, hcycle, hc.losesExactly hks⟩

/-! ## Deleted and expired -/

/-- The iteration order that begins with the key. -/
def keyFirst (key : Bytes) : MapOrder where
  order := fun keys => if key ∈ keys then key :: keys.erase key else keys
  perm := fun keys => by
    split
    · exact (List.perm_cons_erase (by assumption)).symm
    · exact .refl _

/-- The cycle deletes the first key it samples if its expiry time is below
the first clock reading. -/
theorem exists_deletes_first (clock : Nat → Int64) {d : Dict} {key : Bytes} {exp : UInt64}
    (horphans : d.orphans = ∅) (hexp : d.expiredDictStore.lookup key = some exp)
    (hlt : exp.toInt64 < clock 0) :
    ∃ c, Cycle.activeDeleteExpiredKeys clock (fun _ => keyFirst key) d = .ok c ∧
      key ∈ c.deleted := by
  have htick : ∀ c : Cycle, key ∈ c.deleted → key ∈ c.tick.deleted := fun _ hc => hc
  have hdel : ∀ (c : Cycle) key' exp, key ∈ c.deleted →
      c.dict.expiredDictStore.lookup key' = some exp → exp.toInt64 < clock c.reads →
      key ∈ (c.tick.delete key').deleted := fun _ _ _ hc _ _ => List.mem_append_left _ hc
  have hmem : key ∈ d.expiredDictStore.keys := AList.mem_keys.1 (mem_of_lookup hexp)
  have hfirst : key ∈ (Cycle.round clock (fun _ => keyFirst key) 0 (.start d)).2.deleted := by
    have horder : (keyFirst key).order d.expiredDictStore.keys =
        key :: d.expiredDictStore.keys.erase key := if_pos hmem
    rw [Cycle.round, show (Cycle.start d).dict = d from rfl, horder, Cycle.sampleLoop,
      show (Cycle.start d).dict = d from rfl, hexp]
    dsimp only
    rw [if_neg (by decide), show (Cycle.start d).reads = 0 from rfl, if_pos hlt]
    exact Cycle.sampleLoop_invariant htick hdel _ _ _ (List.mem_append_right _ (by simp))
  exact Cycle.loop_invariant (fun n _ hc => Cycle.round_invariant htick hdel n hc) _ 0 horphans
    (Nat.lt_succ_self _) hfirst

/-- Whatever the iteration order, a cycle at this time deletes only keys that
have expired. -/
def DeletesOnlyExpired (now : Int64) (ks : Keyspace) : Prop :=
  ∀ env : Env, env.now = now → ∀ ks', activeDeleteExpiredKeys env ks = .ok ks' →
    ∀ k, k ∈ ks.dictStore.dictStore → k ∉ ks'.dictStore.dictStore →
      ks.dictStore.hasExpired env k = true

variable {ks : Keyspace} {now : Int64}

/-- Both comparisons agree on expiry times below `2⁶³`. -/
theorem deletesOnlyExpired_of_lt (horphans : ks.dictStore.orphans = ∅) (h0 : 0 ≤ now.toInt)
    (h : ∀ k exp, ks.dictStore.expiredDictStore.lookup k = some exp → exp.toNat < 2 ^ 63) :
    DeletesOnlyExpired now ks := by
  rintro env rfl ks' hcycle k hk hgone
  obtain ⟨c, hc, hdeletes⟩ := Cycle.exists_deletes (fun _ => env.now) env.order horphans
  rw [activeDeleteExpiredKeys_eq, hc] at hcycle
  cases hcycle
  have hkey : k ∈ c.deleted := by
    by_contra hnot
    rw [← AList.lookup_eq_none, (hdeletes.losesExactly horphans).values, if_neg hnot,
      AList.lookup_eq_none] at hgone
    exact hgone hk
  obtain ⟨exp, -, hexp, hlt⟩ := hdeletes.expired k hkey
  rw [Int64.lt_iff_toInt_lt, toInt_toInt64 (h k exp hexp)] at hlt
  refine (Dict.hasExpired_iff h0).2 ⟨exp, hexp, ?_⟩
  unfold Env.millis
  omega

/-- An expiry time from `2⁶³` on is below every clock reading, so the order
that begins with its key makes the cycle delete it. -/
theorem DeletesOnlyExpired.lt (h : DeletesOnlyExpired now ks) (horphans : ks.dictStore.orphans = ∅)
    (h0 : 0 ≤ now.toInt) {key : Bytes} {exp : UInt64}
    (hexp : ks.dictStore.expiredDictStore.lookup key = some exp) : exp.toNat < 2 ^ 63 := by
  by_contra hbig
  have hlt : exp.toInt64 < now := by
    have hneg := toInt64_neg (Nat.le_of_not_lt hbig)
    rw [Int64.lt_iff_toInt_lt]
    omega
  obtain ⟨c, hcycle, hkey⟩ := exists_deletes_first (fun _ => now) horphans hexp hlt
  obtain ⟨c', hcycle', hdeletes⟩ :=
    Cycle.exists_deletes (fun _ => now) (fun _ => keyFirst key) horphans
  cases hcycle.symm.trans hcycle'
  have hloses := hdeletes.losesExactly horphans
  have hgone : key ∉ c.dict.dictStore := by
    rw [← AList.lookup_eq_none, hloses.values, if_pos hkey]
  let env : Env := ⟨now, fun _ => keyFirst key, default⟩
  have hclock : 0 ≤ env.now.toInt := h0
  have hruns : activeDeleteExpiredKeys env ks = .ok { ks with dictStore := c.dict } := by
    rw [activeDeleteExpiredKeys_eq, hcycle]
    rfl
  have hexpired := h env rfl _ hruns key (hloses.present key hkey).1 hgone
  obtain ⟨exp', hexp', hle⟩ := (Dict.hasExpired_iff hclock).1 hexpired
  cases hexp.symm.trans hexp'
  have hnow := now.toInt_lt
  have hmillis : env.millis = now.toInt.toNat := rfl
  omega

/-- After every run of commands, the cycle deletes only expired keys exactly
if no stored expiry time reaches `2⁶³`. -/
theorem deletes_only_expired_iff (cfg : Config) (ops : List (KeyOp × Env))
    (replies : List (Option Bytes)) (ks : Keyspace)
    (hrun : Keyspace.init.run cfg ops = .ok (replies, ks)) (now : Int64) (h0 : 0 ≤ now.toInt) :
    DeletesOnlyExpired now ks ↔
      ∀ k exp, ks.dictStore.expiredDictStore.lookup k = some exp → exp.toNat < 2 ^ 63 := by
  obtain ⟨_, _, hsame, horphans⟩ := (kept_orphans cfg).run ops orphans_init
  cases hrun.symm.trans hsame
  exact ⟨fun h _ _ hexp => h.lt horphans h0 hexp, fun h => deletesOnlyExpired_of_lt horphans h0 h⟩

/-- `SET k v EX seconds` when the clock reads one second. -/
def setAtSecond (seconds : Bytes) : Keyspace :=
  (cmdSET ⟨10, 1, .allkeysRandom, 16, 5⟩ { (default : Env) with now := 1000 }
    [lit "k", lit "v", lit "EX", seconds] .init).2

theorem deletes_only_expired_hundred : DeletesOnlyExpired 1000 (setAtSecond (lit "100")) := by
  refine (deletes_only_expired_iff ⟨10, 1, .allkeysRandom, 16, 5⟩
    [(.set [lit "k", lit "v", lit "EX", lit "100"], { (default : Env) with now := 1000 })]
    [some RespOk] (setAtSecond (lit "100")) rfl 1000 (by decide)).2 fun k exp hexp => ?_
  rw [show (setAtSecond (lit "100")).dictStore.expiredDictStore =
    AList.insert (lit "k") 101000 ∅ from rfl] at hexp
  by_cases hk : k = lit "k"
  · rw [hk, AList.lookup_insert] at hexp
    cases hexp
    decide
  · rw [AList.lookup_insert_ne hk, AList.lookup_empty] at hexp
    cases hexp

/-- 9223372036854775 seconds make an expiry time above `2⁶³`. The cycle
deletes the key at once, though it has not expired. -/
theorem deletes_unexpired :
    let env : Env := { (default : Env) with now := 1000 }
    let ks := setAtSecond (lit "9223372036854775")
    ks.dictStore.getExpiry (lit "k") = some 9223372036854776000 ∧
      ks.dictStore.hasExpired env (lit "k") = false ∧ ks.dictStore.len = 1 ∧
      (activeDeleteExpiredKeys env ks).map (fun ks' => ks'.dictStore.len) = .ok 0 ∧
      ¬ DeletesOnlyExpired 1000 ks := by
  intro env ks
  have hexp : ks.dictStore.getExpiry (lit "k") = some 9223372036854776000 := by decide
  refine ⟨hexp, by decide, by decide, rfl, fun h => ?_⟩
  exact absurd (h.lt (setKey_orphans _ _ _ orphans_init) (by decide) hexp) (by decide)

end RediGo.Core
