/-
RediGo.Core.ExpiryTheorems — the expiring key space is a timed map.

`TimedStore.run` answers commands from a `TimedMap`, which never deletes
anything. `Agrees` relates it to a dictionary: the dictionary's view is a
thinning of the ideal map, so lazy deletion in `Get` and the sampling of the
expiry cycle only remove what no later command can read. One lemma for each
command carries the relation over a step; `run_replies_ideal` is the
induction over a run.

That the expiry cycle comes to its end, and keeps what its deletions keep,
is `activeDeleteExpiredKeys_invariant`.
-/
import RediGo.Core.KeyspaceTheorems

namespace RediGo.Core

open RediGo.Go RediGo.HashTable RediGo.Lib

/-! ## The ideal store -/

namespace TimedStore

/-! Arguments that the server rejects are rejected with the same text. -/

def set (t : Nat) (args : List Bytes) (m : TimedMap Bytes Bytes) : Bytes × TimedMap Bytes Bytes :=
  match parseSET args with
  | .error reply => (reply, m)
  | .ok (key, value, ttlSec) =>
    (RespOk, m.set key value (ttlSec.map fun n => t + 1000 * n.toInt.toNat))

def get (t : Nat) (args : List Bytes) (m : TimedMap Bytes Bytes) : Bytes :=
  match args with
  | [key] =>
    match m.get key t with
    | none => RespNil
    | some value => encode (.str value) false
  | _ => errorReply "(error) ERR wrong number of arguments for 'GET' command"

def ttl (t : Nat) (args : List Bytes) (m : TimedMap Bytes Bytes) : Bytes :=
  match args with
  | [key] =>
    match m.ttl key t with
    | none => TtlKeyNotExist
    | some none => TtlKeyExistNoExpire
    | some (some left) => encode (.int (Int64.ofNat (left / 1000))) false
  | _ => errorReply "(error) ERR wrong number of arguments for 'TTL' command"

/-- The reply at time `t` and the map after it. -/
def step (op : KeyOp) (t : Nat) (m : TimedMap Bytes Bytes) :
    Option Bytes × TimedMap Bytes Bytes :=
  match op with
  | .set args => (some (set t args m).1, (set t args m).2)
  | .get args => (some (get t args m), m)
  | .ttl args => (some (ttl t args m), m)
  | .expire => (none, m)

/-- The replies to a run. -/
def run : List (KeyOp × Env) → TimedMap Bytes Bytes → List (Option Bytes)
  | [], _ => []
  | (op, env) :: ops, m => (step op env.millis m).1 :: run ops (step op env.millis m).2

end TimedStore

/-- The dictionary stands for the timed map at time `t`. -/
structure Agrees (t : Nat) (m : TimedMap Bytes Bytes) (d : Dict) : Prop where
  thinning : m.Thinning t d.view
  sound : d.Sound

variable {t : Nat} {m : TimedMap Bytes Bytes} {d : Dict} {env : Env} {ks : Keyspace}

theorem agrees_init : Agrees 0 .empty Keyspace.init.dictStore where
  thinning := by
    rw [show Keyspace.init.dictStore = Dict.create from rfl, Dict.view_create]
    exact TimedMap.Thinning.refl 0 _
  sound := Dict.sound_create

theorem Agrees.mono (h : Agrees t m d) {t' : Nat} (hle : t ≤ t') : Agrees t' m d :=
  ⟨h.thinning.mono hle, h.sound⟩

/-! ## Commands -/

/-- Replacing value and expiry of one key. -/
theorem view_put_of_off (d d' : Dict) {k : Bytes} (obj : Obj) (hstore : d'.dictStore = d.dictStore)
    (hoff : ∀ k', k' ≠ k → d'.expiredDictStore.lookup k' = d.expiredDictStore.lookup k') :
    (d'.put k obj).view =
      d.view.set k obj.value ((d'.expiredDictStore.lookup k).map UInt64.toNat) := by
  rw [Dict.view_put]
  funext k'
  unfold TimedMap.set
  by_cases h : k' = k
  · rw [if_pos h, if_pos h]
  · rw [if_neg h, if_neg h, Dict.view, Dict.view, hstore, hoff k' h]

/-- The product wraps around. -/
theorem toInt_ttlMs_emod (n : Int64) : (n * 1000).toInt % 2 ^ 64 = 1000 * n.toInt % 2 ^ 64 := by
  rw [Int64.toInt_mul, Int.mul_comm 1000]
  exact Int.bmod_emod

/-- Positive seconds whose milliseconds fit `int64` make a positive time. -/
theorem ttlMs_pos {n : Int64} (h1 : 1 ≤ n.toInt) (h : 1000 * n.toInt < 2 ^ 63) :
    0 < n * 1000 := by
  rw [Int64.lt_iff_toInt_lt, Int64.toInt_mul, show (1000 : Int64).toInt = 1000 from rfl,
    Int.bmod_eq_of_le (by omega) (by omega), show (0 : Int64).toInt = 0 from rfl]
  omega

/-- Whatever wrapped around, the stored expiry time is right modulo `2⁶⁴`. -/
theorem toNat_expiry_emod (env : Env) (n : Int64) :
    ((env.now.toUInt64 + (n * 1000).toUInt64).toNat : Int) =
      (env.now.toInt + 1000 * n.toInt) % 2 ^ 64 := by
  have hmul := toInt_ttlMs_emod n
  rw [UInt64.toNat_add, Int.natCast_emod, Int.natCast_add, toNat_toUInt64, toNat_toUInt64, hmul]
  omega

theorem toNat_expiry {n : Int64} (h0 : 0 ≤ env.now.toInt) (h1 : 1 ≤ n.toInt)
    (h : env.now.toInt + 1000 * n.toInt < 2 ^ 63) :
    (env.now.toUInt64 + (n * 1000).toUInt64).toNat = env.millis + 1000 * n.toInt.toNat := by
  have hmod := toNat_expiry_emod env n
  unfold Env.millis
  omega

/-- The seconds of a `SET` with `EX` are positive and its expiry time fits
`int64`. -/
def TtlFits (op : KeyOp) (env : Env) : Prop :=
  match op with
  | .set args =>
    match parseSET args with
    | .ok (_, _, some n) => 1 ≤ n.toInt ∧ env.now.toInt + 1000 * n.toInt < 2 ^ 63
    | _ => True
  | _ => True

instance (op : KeyOp) (env : Env) : Decidable (TtlFits op env) := by
  unfold TtlFits
  split
  · split <;> infer_instance
  · infer_instance

theorem cmdSET_agrees {cfg : Config} {args : List Bytes} (h0 : 0 ≤ env.now.toInt)
    (h : Agrees env.millis m ks.dictStore) (httl : TtlFits (.set args) env)
    (hlimit : (ks.dictStore.len : Int) < cfg.maxKeyNumber) :
    (cmdSET cfg env args ks).1 = (TimedStore.set env.millis args m).1 ∧
      Agrees env.millis (TimedStore.set env.millis args m).2
        (cmdSET cfg env args ks).2.dictStore := by
  unfold cmdSET TimedStore.set
  rcases hparse : parseSET args with reply | ⟨key, value, ttlSec⟩
  · exact ⟨rfl, h⟩
  · refine ⟨rfl, ?_⟩
    dsimp only
    rw [setKey_of_lt hlimit]
    cases ttlSec with
    | none =>
      have hnew : (ks.dictStore.newObj env key value (ttlMs none)).2 = ks.dictStore.persist key := rfl
      rw [hnew]
      refine ⟨?_, h.sound.put_persist key _⟩
      rw [view_put_of_off ks.dictStore (ks.dictStore.persist key) _ rfl
          fun k' hk' => AList.lookup_erase_ne hk',
        show (ks.dictStore.persist key).expiredDictStore.lookup key = none from
          AList.lookup_erase key _]
      exact h.thinning.set key value none
    | some n =>
      rw [TtlFits, hparse] at httl
      obtain ⟨h1, hfit⟩ := httl
      have hexp := toNat_expiry h0 h1 hfit
      have hpos : 0 < ttlMs (some n) := ttlMs_pos h1 (by omega)
      have hnew : (ks.dictStore.newObj env key value (ttlMs (some n))).2 =
          ks.dictStore.setExpiry env key (ttlMs (some n)) := if_pos hpos
      rw [hnew]
      refine ⟨?_, h.sound.put_setExpiry key _ (by rw [ttlMs, hexp]; unfold Env.millis; omega)⟩
      rw [view_put_of_off ks.dictStore (ks.dictStore.setExpiry env key (ttlMs (some n))) _ rfl
          fun k' hk' => AList.lookup_insert_ne hk',
        show (ks.dictStore.setExpiry env key (ttlMs (some n))).expiredDictStore.lookup key =
          some (env.now.toUInt64 + (n * 1000).toUInt64) from AList.lookup_insert _]
      rw [Option.map_some, Option.map_some, hexp]
      exact h.thinning.set key value _

theorem Agrees.drop {k : Bytes} {d' : Dict} (h : Agrees t m d) (hdead : d.view.get k t = none)
    (hview : d'.view = d.view ∨ d'.view = d.view.drop k) (hsound : d'.Sound) : Agrees t m d' := by
  refine ⟨?_, hsound⟩
  rcases hview with hview | hview
  · rw [hview]
    exact h.thinning
  · rw [hview]
    exact h.thinning.drop hdead

/-- A key that `Get` returned has not expired, whatever `Get` did to it. -/
theorem hasExpired_of_view {k : Bytes} {v : Bytes} (h0 : 0 ≤ env.now.toInt)
    (hget : d.view.get k env.millis = some v) : d.hasExpired env k = false := by
  cases hobj : d.dictStore.lookup k with
  | none =>
    rw [TimedMap.get, Dict.view, hobj] at hget
    cases hget
  | some obj =>
    rw [Dict.view_get h0 hobj] at hget
    cases hexp : d.hasExpired env k with
    | false => rfl
    | true =>
      rw [hexp] at hget
      cases hget

theorem cmdGET_agrees (args : List Bytes) (h0 : 0 ≤ env.now.toInt)
    (h : Agrees env.millis m ks.dictStore) :
    (cmdGET env args ks).1 = TimedStore.get env.millis args m ∧
      Agrees env.millis m (cmdGET env args ks).2.dictStore := by
  match args with
  | [] => exact ⟨rfl, h⟩
  | _ :: _ :: _ => exact ⟨rfl, h⟩
  | [key] =>
    have hideal := h.thinning.get_eq key
    unfold cmdGET TimedStore.get
    dsimp only
    rcases Dict.get_cases h0 h.sound key with
      ⟨obj, hobj, hget, hview, -, hsound⟩ | ⟨hobj, hget, hview, hsound⟩
    · have hagrees : Agrees env.millis m (ks.dictStore.get env key).2 :=
        ⟨hview ▸ h.thinning, hsound⟩
      have hlive := hasExpired_of_view h0 (hview.symm ▸ hget)
      rw [hobj, ← hideal, hget, hlive]
      exact ⟨rfl, hagrees⟩
    · have hagrees := h.drop hget hview hsound
      rw [hobj, ← hideal, hget]
      exact ⟨rfl, hagrees⟩

/-- The seconds left, as `cmdTTL` computes them. -/
theorem remaining_eq {exp : UInt64} (h0 : 0 ≤ env.now.toInt) (hexp : exp.toNat < 2 ^ 63)
    (hlt : env.millis < exp.toNat) :
    ((exp - env.now.toUInt64) / 1000).toInt64 = Int64.ofNat ((exp.toNat - env.millis) / 1000) := by
  have hle : env.now.toUInt64 ≤ exp := by
    rw [UInt64.le_iff_toNat_le, Env.toNat_now h0]
    omega
  have hnat : ((exp - env.now.toUInt64) / 1000).toNat = (exp.toNat - env.millis) / 1000 := by
    rw [UInt64.toNat_div, UInt64.toNat_sub_of_le _ _ hle, Env.toNat_now h0]
    rfl
  rw [← Int64.toInt_inj, toInt_toInt64 (by omega), hnat, Int64.toInt_ofNat_of_lt (by omega)]

theorem cmdTTL_agrees (args : List Bytes) (h0 : 0 ≤ env.now.toInt)
    (h : Agrees env.millis m ks.dictStore) :
    (cmdTTL env args ks).1 = TimedStore.ttl env.millis args m ∧
      Agrees env.millis m (cmdTTL env args ks).2.dictStore := by
  match args with
  | [] => exact ⟨rfl, h⟩
  | _ :: _ :: _ => exact ⟨rfl, h⟩
  | [key] =>
    have hideal := h.thinning.ttl_eq key
    unfold cmdTTL TimedStore.ttl
    dsimp only
    rcases Dict.get_cases h0 h.sound key with
      ⟨obj, hobj, hget, hview, hexp, hsound⟩ | ⟨hobj, hget, hview, hsound⟩
    · have hagrees : Agrees env.millis m (ks.dictStore.get env key).2 :=
        ⟨hview ▸ h.thinning, hsound⟩
      obtain ⟨expiry, hentry, halive, hleft⟩ := TimedMap.ttl_of_get_some hget
      have hexpiry : (ks.dictStore.expiredDictStore.lookup key).map UInt64.toNat = expiry := by
        obtain ⟨o, -, ho⟩ := Option.map_eq_some_iff.1 hentry
        exact congrArg Prod.snd ho
      rw [hobj, ← hideal, hleft, Dict.getExpiry, hexp, ← hexpiry]
      cases hlookup : ks.dictStore.expiredDictStore.lookup key with
      | none => exact ⟨rfl, hagrees⟩
      | some exp =>
        rw [hlookup] at hexpiry
        have hlt : env.millis < exp.toNat := halive _ hexpiry.symm
        have hnot : ¬ exp ≤ env.now.toUInt64 := by
          rw [UInt64.le_iff_toNat_le, Env.toNat_now h0]
          omega
        dsimp only
        rw [if_neg hnot, remaining_eq h0 (h.sound.bounded key exp hlookup) hlt]
        exact ⟨rfl, hagrees⟩
    · have hagrees := h.drop hget hview hsound
      rw [hobj, ← hideal, TimedMap.ttl_of_get_none hget]
      exact ⟨rfl, hagrees⟩

/-! ## The expiry cycle -/

/-- The cycle's own comparison is the strict one of `int64`; what it finds
expired cannot be read. -/
theorem view_get_of_expired {k : Bytes} {exp : UInt64} (h0 : 0 ≤ env.now.toInt) (hs : d.Sound)
    (hexp : d.expiredDictStore.lookup k = some exp) (hlt : exp.toInt64 < env.now) :
    d.view.get k env.millis = none := by
  obtain ⟨obj, hobj⟩ := exists_lookup (hs.stored k (mem_of_lookup hexp))
  have hle : exp.toNat ≤ env.millis := by
    rw [Int64.lt_iff_toInt_lt, toInt_toInt64 (hs.bounded k exp hexp)] at hlt
    unfold Env.millis
    omega
  rw [Dict.view_get h0 hobj, (Dict.hasExpired_iff h0).2 ⟨exp, hexp, hle⟩]
  rfl

/-- What the cycle deletes cannot be read, so the relation survives it. -/
theorem Agrees.del_expired {k : Bytes} {exp : UInt64} (h0 : 0 ≤ env.now.toInt)
    (h : Agrees env.millis m d) (hexp : d.expiredDictStore.lookup k = some exp)
    (hlt : exp.toInt64 < env.now) : Agrees env.millis m (d.del k).2 := by
  have hview := Dict.view_del (h.sound.stored k (mem_of_lookup hexp))
  exact h.drop (view_get_of_expired h0 h.sound hexp hlt) (.inr hview) (h.sound.del k)

theorem Agrees.orphans_eq_empty (h : Agrees t m d) : d.orphans = ∅ :=
  Set.eq_empty_iff_forall_notMem.2 fun k hk => hk.2 (h.sound.stored k hk.1)

theorem activeDeleteExpiredKeys_agrees (h0 : 0 ≤ env.now.toInt)
    (h : Agrees env.millis m ks.dictStore) :
    ∃ d', activeDeleteExpiredKeys env ks = .ok { ks with dictStore := d' } ∧
      Agrees env.millis m d' :=
  activeDeleteExpiredKeys_invariant (fun _ _ _ hd hexp hlt => hd.del_expired h0 hexp hlt) ks
    (fun _ hd => hd.orphans_eq_empty) h

/-! ## Runs -/

/-- In every state of the run the store is below the key limit. -/
def BelowLimit (cfg : Config) : List (KeyOp × Env) → Keyspace → Prop
  | [], ks => (ks.dictStore.len : Int) < cfg.maxKeyNumber
  | (op, env) :: ops, ks => (ks.dictStore.len : Int) < cfg.maxKeyNumber ∧
    match ks.step cfg env op with
    | .ok (_, ks') => BelowLimit cfg ops ks'
    | .error _ => True

instance decidableBelowLimit (cfg : Config) :
    (ops : List (KeyOp × Env)) → (ks : Keyspace) → Decidable (BelowLimit cfg ops ks)
  | [], ks => inferInstanceAs (Decidable ((ks.dictStore.len : Int) < cfg.maxKeyNumber))
  | (op, env) :: ops, ks => by
    unfold BelowLimit
    have (ks' : Keyspace) : Decidable (BelowLimit cfg ops ks') := decidableBelowLimit cfg ops ks'
    split <;> infer_instance

theorem step_agrees {cfg : Config} {op : KeyOp} (h0 : 0 ≤ env.now.toInt)
    (h : Agrees env.millis m ks.dictStore) (httl : TtlFits op env)
    (hlimit : (ks.dictStore.len : Int) < cfg.maxKeyNumber) :
    ∃ ks', ks.step cfg env op = .ok ((TimedStore.step op env.millis m).1, ks') ∧
      Agrees env.millis (TimedStore.step op env.millis m).2 ks'.dictStore := by
  cases op with
  | set args =>
    obtain ⟨hreply, hagrees⟩ := cmdSET_agrees h0 h httl hlimit
    exact ⟨_, by rw [TimedStore.step, ← hreply]; rfl, hagrees⟩
  | get args =>
    obtain ⟨hreply, hagrees⟩ := cmdGET_agrees args h0 h
    exact ⟨_, by rw [TimedStore.step, ← hreply]; rfl, hagrees⟩
  | ttl args =>
    obtain ⟨hreply, hagrees⟩ := cmdTTL_agrees args h0 h
    exact ⟨_, by rw [TimedStore.step, ← hreply]; rfl, hagrees⟩
  | expire =>
    obtain ⟨d', hrun, hagrees⟩ := activeDeleteExpiredKeys_agrees h0 h
    refine ⟨{ ks with dictStore := d' }, ?_, hagrees⟩
    unfold Keyspace.step
    rw [hrun]
    rfl

theorem run_agrees {cfg : Config} (ops : List (KeyOp × Env)) (h : Agrees t m ks.dictStore)
    (hclock : ((t : Int) :: ops.map fun p => p.2.now.toInt).Pairwise (· ≤ ·))
    (httl : ∀ p ∈ ops, TtlFits p.1 p.2) (hlimit : BelowLimit cfg ops ks) :
    ∃ ks', ks.run cfg ops = .ok (TimedStore.run ops m, ks') := by
  induction ops generalizing t m ks with
  | nil => exact ⟨ks, rfl⟩
  | cons p ops ih =>
    obtain ⟨op, env⟩ := p
    rw [List.map_cons, List.pairwise_cons] at hclock
    have hle : (t : Int) ≤ env.now.toInt := hclock.1 _ (List.mem_cons_self ..)
    have hmillis : (env.millis : Int) = env.now.toInt := by
      unfold Env.millis
      omega
    have hfits : TtlFits op env := httl (op, env) (List.mem_cons_self ..)
    obtain ⟨hbelow, hlimit⟩ := hlimit
    obtain ⟨ks', hstep, hagrees⟩ := step_agrees (by omega) (h.mono (by omega)) hfits hbelow
    rw [hstep] at hlimit
    obtain ⟨ks'', hrun⟩ := ih hagrees (by rw [hmillis]; exact hclock.2)
      (fun q hq => httl q (List.mem_cons_of_mem _ hq)) hlimit
    refine ⟨ks'', ?_⟩
    rw [Keyspace.run, hstep]
    show (ks'.run cfg ops >>= _) = _
    rw [hrun]
    rfl

/-- The replies of every run that stays below the key limit, whatever the
iteration orders, are those of the timed map. -/
theorem run_replies_ideal (cfg : Config) (ops : List (KeyOp × Env))
    (hclock : ((0 : Int) :: ops.map fun p => p.2.now.toInt).Pairwise (· ≤ ·))
    (httl : ∀ p ∈ ops, TtlFits p.1 p.2) (hlimit : BelowLimit cfg ops .init) :
    ∃ ks, Keyspace.init.run cfg ops = .ok (TimedStore.run ops .empty, ks) :=
  run_agrees ops agrees_init hclock httl hlimit

/-- A key read before and at its expiry, a cycle, and an overwrite that
discards the expiry. -/
theorem run_replies_ideal_seven :
    ∃ ks, Keyspace.init.run ⟨10, 1, .allkeysRandom, 16, 5⟩
        [(.set [lit "k", lit "v", lit "EX", lit "2"], { (default : Env) with now := 1000 }),
          (.ttl [lit "k"], { (default : Env) with now := 1001 }),
          (.get [lit "k"], { (default : Env) with now := 2999 }),
          (.get [lit "k"], { (default : Env) with now := 3000 }),
          (.expire, { (default : Env) with now := 3001 }),
          (.set [lit "k", lit "w"], { (default : Env) with now := 3001 }),
          (.ttl [lit "k"], { (default : Env) with now := 9000 })] =
      .ok ([some (lit "+OK\r\n"), some (lit ":1\r\n"), some (lit "$1\r\nv\r\n"),
        some (lit "$-1\r\n"), none, some (lit "+OK\r\n"), some (lit ":-1\r\n")], ks) :=
  run_replies_ideal ⟨10, 1, .allkeysRandom, 16, 5⟩ _ (by decide) (by decide) (by decide)

end RediGo.Core
