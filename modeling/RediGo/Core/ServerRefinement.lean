/-
RediGo.Core.ServerRefinement — the single-threaded server refines the ideal
one.

`Represents` relates the stores to an ideal server, store by store. For each
command one lemma says that it returns, that the ideal server can give the
same reply, and that the stores represent what the ideal server is then
(`Refines`). A command that does not concern a store leaves it as it was, so
the lemma is about one store only, and the rest of `Represents` is carried
along.

Nothing is assumed of the stores, since a run begins with empty ones. Of the
run three things are assumed: the clock is not negative and does not go back,
the seconds of an accepted `EX` are positive and its expiry time does not
overflow, and a sketch that is asked for has a width and a depth and is small
enough to be allocated. Then no command panics, `run_refines_ideal`. The rank
of a member and the reply to `INFO` are left open, see `IdealServer`.
-/
import RediGo.Core.Replies
import RediGo.Core.ZaddPairs
import RediGo.SimpleSet.SimpleSetTheorems

namespace RediGo.Core

open RediGo.Go RediGo.HashTable RediGo.Lib RediGo.Probabilistic RediGo.SortedSet

/-! ## Maps -/

section Mirrors

variable {β γ : Type} {R : β → γ → Prop} {s : Map β} {f : Bytes → Option γ} {k : Bytes}

/-- The same keys, with related values. -/
def Mirrors (R : β → γ → Prop) (s : Map β) (f : Bytes → Option γ) : Prop :=
  ∀ k, Option.Rel R (s.lookup k) (f k)

theorem mirrors_empty : Mirrors R (∅ : Map β) fun _ => none := fun _ => .none

theorem Mirrors.insert (h : Mirrors R s f) {b : β} {c : γ} (hr : R b c) (k : Bytes) :
    Mirrors R (s.insert k b) (Function.update f k (some c)) := by
  intro k'
  by_cases hk : k' = k
  · subst hk
    rw [AList.lookup_insert, Function.update_self]
    exact .some hr
  · rw [AList.lookup_insert_ne hk, Function.update_of_ne hk]
    exact h k'

theorem Mirrors.none (h : Mirrors R s f) (hk : s.lookup k = .none) : f k = .none := by
  have hrel := h k
  rw [hk] at hrel
  cases hfk : f k with
  | none => rfl
  | some c =>
    rw [hfk] at hrel
    cases hrel

theorem Mirrors.some (h : Mirrors R s f) {b : β} (hk : s.lookup k = .some b) :
    ∃ c, f k = .some c ∧ R b c := by
  have hrel := h k
  rw [hk] at hrel
  cases hfk : f k with
  | none =>
    rw [hfk] at hrel
    cases hrel
  | some c =>
    rw [hfk] at hrel
    cases hrel with
    | some hr => exact ⟨c, rfl, hr⟩

end Mirrors

/-! ## The relation -/

/-- The set a command finds under a key. -/
def setOf {Z : Type} (st : Stores Z) (key : Bytes) : SimpleSet :=
  (st.setStore.lookup key).getD (.newSimpleSet key)

/-- The table counts the increments of the sketch. -/
structure Tables (hash : ItemHash) (c : CMS) (s : Sketch) : Prop where
  fits : CMS.Fits s.width s.depth
  counts : CMS.Counts hash s.width s.depth s.incrs c

structure Represents (deps : Deps) (t : Nat) (m : Ideal) (st : Stores ZSet) : Prop where
  keys : Agrees t m.keys st.keyspace.dictStore
  zsets : Mirrors (fun zset scores => Matched 4 zset ∧ zset.memberScore = scores) st.zsetStore
    m.zsets
  sets : ∀ key, m.sets key = (setOf st key).elems
  sketches : Mirrors (Tables deps.hash) st.cmsStore m.sketches

theorem represents_init (deps : Deps) : Represents deps 0 .init .init where
  keys := agrees_init
  zsets := mirrors_empty
  sets _ := rfl
  sketches := mirrors_empty

/-- The call returns, with a reply and stores that the ideal server allows. -/
def Refines (deps : Deps) (t : Nat) (m : Ideal) (call : Call) (r : Except Fault (Answer ZSet)) :
    Prop :=
  ∃ reply st' m', r = .ok (reply, st') ∧ Ideal.CallStep deps t m call reply m' ∧
    Represents deps t m' st'

section Steps

variable {deps : Deps} {t : Nat} {m : Ideal} {st : Stores ZSet} {args : List Bytes}

/-! ## Sets -/

theorem refines_sets {call : Call} {reply : Bytes} (h : Represents deps t m st)
    (hstep : SetStep m.sets call reply m.sets) : Refines deps t m call (.ok (reply, st)) :=
  ⟨reply, st, m, rfl, .sets hstep, h⟩

/-- A command that puts another set in the place of the one it found. -/
theorem refines_setStore {call : Call} {reply key : Bytes} {set : SimpleSet}
    (h : Represents deps t m st)
    (hstep : SetStep m.sets call reply (Function.update m.sets key set.elems)) :
    Refines deps t m call
      (.ok (reply, { st with setStore := st.setStore.insert key set })) := by
  refine ⟨reply, _, _, rfl, .sets hstep, h.keys, h.zsets, fun key' => ?_, h.sketches⟩
  show Function.update m.sets key set.elems key' = _
  unfold setOf
  by_cases hkey : key' = key
  · subst hkey
    rw [Function.update_self, AList.lookup_insert, Option.getD_some]
  · rw [Function.update_of_ne hkey, AList.lookup_insert_ne hkey]
    exact h.sets key'

theorem cmdSADD_refines (h : Represents deps t m st) (args : List Bytes) :
    Refines deps t m (.sadd args) (cmdSADD args st) := by
  rcases args with _ | ⟨key, _ | ⟨x, xs⟩⟩
  · exact refines_sets h (.sadd_args (by simp))
  · exact refines_sets h (.sadd_args (by simp))
  · obtain ⟨hcount, helems⟩ := (setOf st key).add_eq (x :: xs)
    have hstep := SetStep.sadd (m := m.sets) key x xs
    rw [h.sets key, ← hcount, ← helems] at hstep
    exact refines_setStore h hstep

theorem cmdSREM_refines (h : Represents deps t m st) (args : List Bytes) :
    Refines deps t m (.srem args) (cmdSREM args st) := by
  rcases args with _ | ⟨key, _ | ⟨x, xs⟩⟩
  · exact refines_sets h (.srem_args (by simp))
  · exact refines_sets h (.srem_args (by simp))
  · obtain ⟨hcount, helems⟩ := (setOf st key).rem_eq (x :: xs)
    have hstep := SetStep.srem (m := m.sets) key x xs
    rw [h.sets key, ← hcount, ← helems] at hstep
    exact refines_setStore h hstep

theorem cmdSMEMBERS_refines (h : Represents deps t m st) (env : Env) (args : List Bytes) :
    Refines deps t m (.smembers args) (cmdSMEMBERS env args st) := by
  rcases args with _ | ⟨key, _ | ⟨x, xs⟩⟩
  · exact refines_sets h (.smembers_args (by simp))
  · have hset := h.sets key
    unfold setOf at hset
    cases hkey : st.setStore.lookup key with
    | none =>
      rw [hkey] at hset
      simp only [cmdSMEMBERS, hkey]
      exact refines_sets h (.smembers key List.nodup_nil hset.symm)
    | some set =>
      obtain ⟨hnodup, helems⟩ := set.members_eq (env.order 0)
      rw [hkey] at hset
      simp only [cmdSMEMBERS, hkey]
      exact refines_sets h (.smembers key hnodup (helems.trans hset.symm))
  · exact refines_sets h (.smembers_args (by simp))

theorem cmdSISMEMBER_refines (h : Represents deps t m st) (args : List Bytes) :
    Refines deps t m (.sismember args) (cmdSISMEMBER args st) := by
  rcases args with _ | ⟨key, _ | ⟨x, _ | ⟨y, ys⟩⟩⟩
  · exact refines_sets h (.sismember_args (by simp))
  · exact refines_sets h (.sismember_args (by simp))
  · have hset := h.sets key
    have hstep := SetStep.sismember (m := m.sets) key x
    unfold setOf at hset
    cases hkey : st.setStore.lookup key with
    | none =>
      rw [hkey] at hset
      have habsent : x ∉ m.sets key := by
        rw [hset]
        exact Finset.notMem_empty x
      rw [if_neg habsent] at hstep
      simp only [cmdSISMEMBER, hkey]
      exact refines_sets h hstep
    | some set =>
      have hcount : Int64.ofNat (set.isMember x) = if x ∈ m.sets key then 1 else 0 := by
        rw [hkey] at hset
        rw [SimpleSet.isMember_eq, hset, Option.getD_some]
        split <;> rfl
      simp only [cmdSISMEMBER, hkey, hcount]
      exact refines_sets h hstep
  · exact refines_sets h (.sismember_args (by simp))

/-! ## Sorted sets -/

theorem refines_zsets {call : Call} {reply : Bytes} (h : Represents deps t m st)
    (hstep : ZSetStep m.zsets call reply m.zsets) : Refines deps t m call (.ok (reply, st)) :=
  ⟨reply, st, m, rfl, .zsets hstep, h⟩

theorem cmdZADD_refines (h : Represents deps t m st) (args : List Bytes) :
    Refines deps t m (.zadd args) (cmdZADD args st) := by
  rcases args with _ | ⟨key, rest⟩
  · exact refines_zsets h (.zadd_args (by simp))
  · by_cases hshort : (key :: rest).length < 3
    · unfold cmdZADD
      simp only [if_pos hshort]
      exact refines_zsets h (.zadd_args hshort)
    have hlen : 2 ≤ rest.length := by
      simp only [List.length_cons] at hshort
      omega
    by_cases hodd : rest.length % 2 = 1
    · unfold cmdZADD
      simp only [if_neg hshort, if_pos (Or.inl hodd : rest.length % 2 = 1 ∨ rest.length = 0)]
      exact refines_zsets h (.zadd_odd hlen hodd)
    -- a new key starts with the empty set
    obtain ⟨hz, hscores⟩ : Matched 4 (zsetOf st key) ∧
        (zsetOf st key).memberScore = (m.zsets key).getD fun _ => none := by
      unfold zsetOf
      cases hkey : st.zsetStore.lookup key with
      | none =>
        rw [h.zsets.none hkey]
        exact ⟨matched_new (by decide), rfl⟩
      | some zset =>
        obtain ⟨scores, hscores, hz, heq⟩ := h.zsets.some hkey
        rw [hscores]
        exact ⟨hz, heq⟩
    have heven : rest.length % 2 = 0 := by omega
    obtain ⟨reply, zset', hloop, hz', hscored⟩ := zaddLoop_refines hz rest 0 heven
    rw [hscores] at hscored
    rw [cmdZADD_eq st key hlen heven, hloop]
    exact ⟨reply, { st with zsetStore := st.zsetStore.insert key zset' }, _, rfl,
      .zsets (.zadd hlen heven hscored), h.keys, h.zsets.insert ⟨hz', rfl⟩ key, h.sets, h.sketches⟩

theorem cmdZSCORE_refines (h : Represents deps t m st) (args : List Bytes) :
    Refines deps t m (.zscore args) (cmdZSCORE args st) := by
  rcases args with _ | ⟨key, _ | ⟨member, _ | ⟨y, ys⟩⟩⟩
  · exact refines_zsets h (.zscore_args (by simp))
  · exact refines_zsets h (.zscore_args (by simp))
  · cases hkey : st.zsetStore.lookup key with
    | none =>
      have hnone : (m.zsets key).bind (· member) = none := by
        rw [h.zsets.none hkey]
        rfl
      simp only [cmdZSCORE, hkey]
      exact refines_zsets h (.zscore_none hnone)
    | some zset =>
      obtain ⟨scores, hscores, -, rfl⟩ := h.zsets.some hkey
      have hbind : (m.zsets key).bind (· member) = ScoredSet.getScore zset member := by
        rw [hscores]
        rfl
      cases hscore : ScoredSet.getScore zset member with
      | none =>
        simp only [cmdZSCORE, hkey, hscore]
        exact refines_zsets h (.zscore_none (hbind.trans hscore))
      | some score =>
        simp only [cmdZSCORE, hkey, hscore]
        exact refines_zsets h (.zscore (hbind.trans hscore))
  · exact refines_zsets h (.zscore_args (by simp))

theorem cmdZRANK_refines (h : Represents deps t m st) (args : List Bytes) :
    Refines deps t m (.zrank args) (cmdZRANK args st) := by
  rcases args with _ | ⟨key, _ | ⟨member, _ | ⟨y, ys⟩⟩⟩
  · exact refines_zsets h (.zrank_args (by simp))
  · exact refines_zsets h (.zrank_args (by simp))
  · cases hkey : st.zsetStore.lookup key with
    | none =>
      simp only [cmdZRANK, hkey]
      exact refines_zsets h (.zrank_none (h.zsets.none hkey) member)
    | some zset =>
      obtain ⟨scores, hscores, hz, rfl⟩ := h.zsets.some hkey
      obtain ⟨rank, hget, hrank, habsent⟩ := hz.getRank_eq member
      have hget' : ScoredSet.getRank zset member = .ok rank := hget
      simp only [cmdZRANK, hkey, hget', bind, Except.bind]
      exact refines_zsets h (.zrank hscores hrank habsent)
  · exact refines_zsets h (.zrank_args (by simp))

/-! ## Sketches -/

theorem refines_sketches {call : Call} {reply : Bytes} (h : Represents deps t m st)
    (hstep : SketchStep deps m.sketches call reply m.sketches) :
    Refines deps t m call (.ok (reply, st)) :=
  ⟨reply, st, m, rfl, .sketches hstep, h⟩

/-- The dimensions of a sketch that can be allocated and used. -/
def DimsFit (dims : Except Bytes (Bytes × UInt64 × UInt64)) : Prop :=
  ∀ key w d, dims = .ok (key, w, d) →
    1 ≤ w.toNat ∧ 1 ≤ d.toNat ∧ w.toNat * d.toNat ≤ maxWords

instance : (dims : Except Bytes (Bytes × UInt64 × UInt64)) → Decidable (DimsFit dims)
  | .error _ => isTrue fun _ _ _ h => by cases h
  | .ok (_, w, d) =>
    decidable_of_iff (1 ≤ w.toNat ∧ 1 ≤ d.toNat ∧ w.toNat * d.toNat ≤ maxWords)
      ⟨fun h _ _ _ heq => by cases heq; exact h, fun h => h _ _ _ rfl⟩

theorem newCMS_eq {w d : UInt64} (h : w.toNat * d.toNat ≤ maxWords) :
    CMS.newCMS w d = .ok (CMS.fresh w d) := by
  have hle : (w * d).toNat ≤ maxWords := by
    rw [UInt64.toNat_mul]
    exact (Nat.mod_le _ _).trans h
  simp only [CMS.newCMS, makeWords, if_pos hle, bind, Except.bind]
  rfl

/-- Both `CMS.INITBY` commands, after their checks. -/
def initChecked (st : Stores ZSet) :
    Except Bytes (Bytes × UInt64 × UInt64) → Except Fault (Answer ZSet)
  | .error reply => .ok (reply, st)
  | .ok (key, w, d) => initCMS key w d st

theorem initChecked_refines (h : Represents deps t m st) (call : Call)
    {dims : Except Bytes (Bytes × UInt64 × UInt64)} (hdims : call.dims deps.impl = some dims)
    (hfit : DimsFit dims) : Refines deps t m call (initChecked st dims) := by
  rcases dims with reply | ⟨key, w, d⟩
  · exact refines_sketches h (.init_refused hdims)
  · obtain ⟨hw, hd, hsize⟩ := hfit key w d rfl
    have hfits : CMS.Fits w d := ⟨hw, hd, by unfold maxWords at hsize; omega⟩
    show Refines deps t m call (initCMS key w d st)
    unfold initCMS
    by_cases hkey : key ∈ st.cmsStore
    · obtain ⟨c, hc⟩ := exists_lookup hkey
      obtain ⟨s, hs, -⟩ := h.sketches.some hc
      rw [if_pos hkey]
      exact refines_sketches h (.init_exists hdims (by rw [hs]; exact Option.some_ne_none s))
    · have hnone := h.sketches.none (AList.lookup_eq_none.2 hkey)
      rw [if_neg hkey, newCMS_eq hsize]
      exact ⟨RespOk, _, _, rfl, .sketches (.init hdims hnone), h.keys, h.zsets, h.sets,
        h.sketches.insert ⟨hfits, hfits.counts_fresh deps.hash⟩ key⟩

theorem cmdCMSINITBYDIM_eq (args : List Bytes) (st : Stores ZSet) :
    cmdCMSINITBYDIM args st = initChecked st (parseDims args) := by
  rcases args with _ | ⟨key, _ | ⟨widthArg, _ | ⟨heightArg, _ | ⟨arg, args⟩⟩⟩⟩
  · rfl
  · rfl
  · rfl
  · cases hwidth : parseInt widthArg with
    | none => simp only [cmdCMSINITBYDIM, initChecked, parseDims, hwidth]
    | some width =>
      cases hheight : parseInt heightArg <;>
        simp only [cmdCMSINITBYDIM, initChecked, parseDims, hwidth, hheight]
  · rfl

theorem cmdCMSINITBYPROB_eq (deps : Deps) (args : List Bytes) (st : Stores ZSet) :
    cmdCMSINITBYPROB deps args st = initChecked st (parseRates deps.impl args) := by
  rcases args with _ | ⟨key, _ | ⟨errRateArg, _ | ⟨probabilityArg, _ | ⟨arg, args⟩⟩⟩⟩
  · rfl
  · rfl
  · rfl
  · cases herr : parseFloat errRateArg with
    | none => simp only [cmdCMSINITBYPROB, initChecked, parseRates, herr]
    | some errRate =>
      by_cases hout : outsideUnit errRate = true
      · simp only [cmdCMSINITBYPROB, initChecked, parseRates, herr, if_pos hout]
      · cases hprob : parseFloat probabilityArg with
        | none => simp only [cmdCMSINITBYPROB, initChecked, parseRates, herr, if_neg hout, hprob]
        | some probability =>
          by_cases hout' : outsideUnit probability = true
          · simp only [cmdCMSINITBYPROB, initChecked, parseRates, herr, if_neg hout, hprob, if_pos hout']
          · simp only [cmdCMSINITBYPROB, initChecked, parseRates, herr, if_neg hout, hprob, if_neg hout']
  · rfl

theorem cmdCMSINITBYDIM_refines (h : Represents deps t m st) (hfit : DimsFit (parseDims args)) :
    Refines deps t m (.initByDim args) (cmdCMSINITBYDIM args st) := by
  rw [cmdCMSINITBYDIM_eq]
  exact initChecked_refines h (.initByDim args) rfl hfit

theorem cmdCMSINITBYPROB_refines (h : Represents deps t m st)
    (hfit : DimsFit (parseRates deps.impl args)) :
    Refines deps t m (.initByProb args) (cmdCMSINITBYPROB deps args st) := by
  rw [cmdCMSINITBYPROB_eq]
  exact initChecked_refines h (.initByProb args) rfl hfit

theorem entry_toNat (count : UInt64) :
    (if count = MaxUint64 then lit "CMS: INCRBY overflow" else decimal count.toNat) =
      Sketch.entry count.toNat := by
  have hiff : count = MaxUint64 ↔ count.toNat = 2 ^ 64 - 1 := by
    rw [← UInt64.toNat_inj, CMS.toNat_MaxUint64]
  simp only [Sketch.entry, hiff]

/-- The loop counts the pairs before the first increment that is no number. -/
theorem incrLoop_refines {c : CMS} {s : Sketch} (hc : Tables deps.hash c s) (firstItem : Bytes)
    (args res : List Bytes) (heven : args.length % 2 = 0) :
    ∃ entries c' s', Tables deps.hash c' s' ∧
      s.Counted deps.hash (parsePairs args).1 entries s' ∧
      incrLoop deps.hash firstItem args c res =
        .ok (if (parsePairs args).2 then encode (.strs (res ++ entries)) false
          else errorWith "increment must be a non negative integer number " firstItem, c') := by
  induction args using List.twoStepInduction generalizing c s res with
  | nil => exact ⟨[], c, s, hc, .nil s, by simp [incrLoop, parsePairs]⟩
  | singleton => simp at heven
  | cons_cons item valueArg args ih _ =>
    unfold incrLoop parsePairs
    cases hparse : parseUint valueArg with
    | none => exact ⟨[], c, s, hc, .nil s, rfl⟩
    | some value =>
      obtain ⟨count, c₁, hincr, hc₁, hest⟩ := hc.fits.incrBy_eq hc.counts item value
      obtain ⟨entries, c', s', hc', hcounted, hloop⟩ :=
        ih (s := s.incr item value) ⟨hc.fits, hc₁⟩ (res ++ [Sketch.entry count.toNat])
          (by simp only [List.length_cons] at heven; omega)
      refine ⟨Sketch.entry count.toNat :: entries, c', s', hc', .cons hest hcounted, ?_⟩
      simp only [hincr, bind, Except.bind, entry_toNat, hloop, List.append_assoc,
        List.singleton_append]

theorem cmdCMSINCRBY_refines (h : Represents deps t m st) (args : List Bytes) :
    Refines deps t m (.incrBy args) (cmdCMSINCRBY deps args st) := by
  rcases args with _ | ⟨key, _ | ⟨item, rest⟩⟩
  · exact refines_sketches h (.incr_args (by simp))
  · exact refines_sketches h (.incr_args (by simp))
  · unfold cmdCMSINCRBY
    by_cases harity : (key :: item :: rest).length < 3 ∨ (key :: item :: rest).length % 2 = 0
    · simp only [if_pos harity]
      exact refines_sketches h (.incr_args harity)
    have hodd : rest.length % 2 = 1 := by
      simp only [List.length_cons] at harity
      omega
    simp only [if_neg harity]
    cases hkey : st.cmsStore.lookup key with
    | none => exact refines_sketches h (.incr_missing hodd (h.sketches.none hkey))
    | some c =>
      obtain ⟨s, hs, hc⟩ := h.sketches.some hkey
      obtain ⟨entries, c', s', hc', hcounted, hloop⟩ :=
        incrLoop_refines hc item (item :: rest) [] (by simp only [List.length_cons]; omega)
      simp only [hloop, bind, Except.bind, List.nil_append]
      exact ⟨_, _, _, rfl, .sketches (.incr hodd hs hcounted), h.keys, h.zsets, h.sets,
        h.sketches.insert hc' key⟩

theorem queryLoop_refines {c : CMS} {s : Sketch} (hc : Tables deps.hash c s) (items : List Bytes) :
    ∃ counts, List.Forall₂ (s.Estimates deps.hash) items counts ∧
      queryLoop deps.hash c items = .ok (counts.map decimal) := by
  induction items with
  | nil => exact ⟨[], .nil, rfl⟩
  | cons item items ih =>
    obtain ⟨count, hcount, hest⟩ := hc.fits.count_eq hc.counts item
    obtain ⟨counts, hcounts, hloop⟩ := ih
    refine ⟨count.toNat :: counts, .cons hest hcounts, ?_⟩
    simp only [queryLoop, hcount, hloop, bind, Except.bind, List.map_cons]

theorem cmdCMSQUERY_refines (h : Represents deps t m st) (args : List Bytes) :
    Refines deps t m (.query args) (cmdCMSQUERY deps args st) := by
  rcases args with _ | ⟨key, _ | ⟨item, items⟩⟩
  · exact refines_sketches h (.query_args (by simp))
  · exact refines_sketches h (.query_args (by simp))
  · cases hkey : st.cmsStore.lookup key with
    | none =>
      simp only [cmdCMSQUERY, hkey]
      exact refines_sketches h (.query_missing (List.cons_ne_nil _ _) (h.sketches.none hkey))
    | some c =>
      obtain ⟨s, hs, hc⟩ := h.sketches.some hkey
      obtain ⟨counts, hcounts, hloop⟩ := queryLoop_refines hc (item :: items)
      simp only [cmdCMSQUERY, hkey, hloop, bind, Except.bind]
      exact refines_sketches h (.query (List.cons_ne_nil _ _) hs hcounts)

/-! ## Dispatch -/

/-- What `ExecuteAndResponse` calls. -/
def Call.execute (deps : Deps) (env : Env) (st : Stores ZSet) : Call → Except Fault (Answer ZSet)
  | .ping args => .ok (cmdPING args, st)
  | .set args => onKeyspace (cmdSET deps.cfg env args) st
  | .get args => onKeyspace (cmdGET env args) st
  | .ttl args => onKeyspace (cmdTTL env args) st
  | .zadd args => cmdZADD args st
  | .zscore args => cmdZSCORE args st
  | .zrank args => cmdZRANK args st
  | .sadd args => cmdSADD args st
  | .srem args => cmdSREM args st
  | .smembers args => cmdSMEMBERS env args st
  | .sismember args => cmdSISMEMBER args st
  | .initByDim args => cmdCMSINITBYDIM args st
  | .initByProb args => cmdCMSINITBYPROB deps args st
  | .incrBy args => cmdCMSINCRBY deps args st
  | .query args => cmdCMSQUERY deps args st
  | .info args => cmdINFO env args st
  | .help => .ok (cmdHELP, st)
  | .unknown => .ok (lit "-CMD NOT FOUND\r\n", st)

theorem executeAndResponse_eq (deps : Deps) (env : Env) (cmd : Command) (st : Stores ZSet) :
    executeAndResponse deps env cmd st = cmd.call.execute deps env st := by
  unfold executeAndResponse Command.call
  simp only [apply_ite (Call.execute deps env st)]
  rfl

/-- What a call must satisfy to be sure to return. -/
def Call.Sane (deps : Deps) (env : Env) : Call → Prop
  | .set args => TtlFits (.set args) env
  | .initByDim args => DimsFit (parseDims args)
  | .initByProb args => DimsFit (parseRates deps.impl args)
  | _ => True

instance (deps : Deps) (env : Env) : (call : Call) → Decidable (call.Sane deps env)
  | .set args => inferInstanceAs (Decidable (TtlFits (.set args) env))
  | .initByDim args => inferInstanceAs (Decidable (DimsFit (parseDims args)))
  | .initByProb args => inferInstanceAs (Decidable (DimsFit (parseRates deps.impl args)))
  | .ping _ | .get _ | .ttl _ | .zadd _ | .zscore _ | .zrank _ | .sadd _ | .srem _ | .smembers _
  | .sismember _ | .incrBy _ | .query _ | .info _ | .help | .unknown => isTrue trivial

theorem cmdINFO_refines (h : Represents deps t m st) (env : Env) (args : List Bytes) :
    Refines deps t m (.info args) (cmdINFO env args st) := by
  unfold cmdINFO
  split
  · exact ⟨_, st, m, rfl, .info _ _, h⟩
  · split
    · exact ⟨_, st, m, rfl, .info _ _, h⟩
    · exact ⟨_, st, m, rfl, .info _ _, h⟩
  · exact ⟨_, st, m, rfl, .info _ _, h⟩

theorem call_refines {env : Env} {call : Call} (h0 : 0 ≤ env.now.toInt)
    (h : Represents deps env.millis m st) (hsane : call.Sane deps env) :
    Refines deps env.millis m call (call.execute deps env st) := by
  cases call with
  | ping args => exact ⟨_, st, m, rfl, .ping args, h⟩
  | set args =>
    obtain ⟨keys, hstep, hagrees⟩ := cmdSET_lossy h0 h.keys hsane
    exact ⟨_, _, _, rfl, .set hstep, hagrees, h.zsets, h.sets, h.sketches⟩
  | get args =>
    obtain ⟨hreply, hagrees⟩ := cmdGET_agrees args h0 h.keys
    exact ⟨_, _, _, rfl, .get (hreply ▸ .get args), hagrees, h.zsets, h.sets, h.sketches⟩
  | ttl args =>
    obtain ⟨hreply, hagrees⟩ := cmdTTL_agrees args h0 h.keys
    exact ⟨_, _, _, rfl, .ttl (hreply ▸ .ttl args), hagrees, h.zsets, h.sets, h.sketches⟩
  | zadd args => exact cmdZADD_refines h args
  | zscore args => exact cmdZSCORE_refines h args
  | zrank args => exact cmdZRANK_refines h args
  | sadd args => exact cmdSADD_refines h args
  | srem args => exact cmdSREM_refines h args
  | smembers args => exact cmdSMEMBERS_refines h env args
  | sismember args => exact cmdSISMEMBER_refines h args
  | initByDim args => exact cmdCMSINITBYDIM_refines h hsane
  | initByProb args => exact cmdCMSINITBYPROB_refines h hsane
  | incrBy args => exact cmdCMSINCRBY_refines h args
  | query args => exact cmdCMSQUERY_refines h args
  | info args => exact cmdINFO_refines h env args
  | help => exact ⟨_, st, m, rfl, .help, h⟩
  | unknown => exact ⟨_, st, m, rfl, .unknown, h⟩

end Steps

/-! ## Runs -/

def ServerOp.Sane (deps : Deps) (env : Env) : ServerOp → Prop
  | .command cmd => cmd.call.Sane deps env
  | .expire => True

instance (deps : Deps) (env : Env) : (op : ServerOp) → Decidable (op.Sane deps env)
  | .command cmd => inferInstanceAs (Decidable (cmd.call.Sane deps env))
  | .expire => isTrue trivial

variable {deps : Deps} {t : Nat} {m : Ideal} {st : Stores ZSet}

theorem Represents.mono {t' : Nat} (h : Represents deps t m st) (hle : t ≤ t') :
    Represents deps t' m st := ⟨h.keys.mono hle, h.zsets, h.sets, h.sketches⟩

theorem step_refines {env : Env} {op : ServerOp} (h0 : 0 ≤ env.now.toInt)
    (h : Represents deps env.millis m st) (hsane : op.Sane deps env) :
    ∃ reply st' m', st.step deps env op = .ok (reply, st') ∧
      Ideal.Step deps env.millis m op reply m' ∧ Represents deps env.millis m' st' := by
  cases op with
  | command cmd =>
    obtain ⟨reply, st', m', hrun, hstep, hrep⟩ := call_refines h0 h hsane
    refine ⟨some reply, st', m', ?_, .command hstep, hrep⟩
    rw [Stores.step, executeAndResponse_eq, hrun]
    rfl
  | expire =>
    obtain ⟨d', hrun, hagrees⟩ := activeDeleteExpiredKeys_agrees h0 h.keys
    refine ⟨none, { st with keyspace := { st.keyspace with dictStore := d' } }, m, ?_, .expire,
      hagrees, h.zsets, h.sets, h.sketches⟩
    rw [Stores.step, hrun]
    rfl

theorem run_represents (ops : List (ServerOp × Env)) (h : Represents deps t m st)
    (hclock : ((t : Int) :: ops.map fun p => p.2.now.toInt).Pairwise (· ≤ ·))
    (hsane : ∀ p ∈ ops, p.1.Sane deps p.2) :
    ∃ replies st' m', st.run deps ops = .ok (replies, st') ∧
      Ideal.Runs deps ops m replies m' := by
  induction ops generalizing t m st with
  | nil => exact ⟨[], st, m, rfl, .nil m⟩
  | cons p ops ih =>
    obtain ⟨op, env⟩ := p
    rw [List.map_cons, List.pairwise_cons] at hclock
    have hle : (t : Int) ≤ env.now.toInt := hclock.1 _ (List.mem_cons_self ..)
    have hmillis : (env.millis : Int) = env.now.toInt := by
      unfold Env.millis
      omega
    obtain ⟨reply, st₁, m₁, hstep, hideal, hrep⟩ :=
      step_refines (by omega) (h.mono (show t ≤ env.millis by omega))
        (hsane (op, env) (List.mem_cons_self ..))
    obtain ⟨replies, st₂, m₂, hrun, hruns⟩ := ih hrep (by rw [hmillis]; exact hclock.2)
      fun q hq => hsane q (List.mem_cons_of_mem _ hq)
    refine ⟨reply :: replies, st₂, m₂, ?_, .cons hideal hruns⟩
    rw [Stores.run, hstep]
    show (st₁.run deps ops >>= _) = _
    rw [hrun]
    rfl

/-- Every run of commands and expiry cycles comes to its end, with replies
that the ideal server gives. -/
theorem run_refines_ideal (deps : Deps) (ops : List (ServerOp × Env))
    (hclock : ((0 : Int) :: ops.map fun p => p.2.now.toInt).Pairwise (· ≤ ·))
    (hsane : ∀ p ∈ ops, p.1.Sane deps p.2) :
    ∃ replies st m, (Stores.init : Stores ZSet).run deps ops = .ok (replies, st) ∧
      Ideal.Runs deps ops .init replies m :=
  run_represents ops (represents_init deps) hclock hsane

/-- Commands on all stores at one time, with an expiry cycle between them. -/
def mixedRun : List (ServerOp × Env) :=
  [.command ⟨lit "SET", [lit "k", lit "v", lit "EX", lit "2"]⟩,
    .command ⟨lit "SADD", [lit "k", lit "a", lit "b", lit "a"]⟩,
    .command ⟨lit "ZADD", [lit "k", lit "1", lit "a", lit "2", lit "a"]⟩,
    .command ⟨lit "CMS.INITBYDIM", [lit "k", lit "2", lit "1"]⟩,
    .command ⟨lit "CMS.INCRBY", [lit "k", lit "a", lit "3", lit "b", lit "-1"]⟩,
    .expire,
    .command ⟨lit "CMS.QUERY", [lit "k", lit "b"]⟩,
    .command ⟨lit "ZRANK", [lit "k", lit "b"]⟩,
    .command ⟨lit "SREM", [lit "k", lit "c", lit "b"]⟩,
    .command ⟨lit "SMEMBERS", [lit "k"]⟩,
    .command ⟨lit "GET", [lit "k"]⟩].map fun op => (op, { (default : Env) with now := 1000 })

theorem run_refines_ideal_mixed :
    ∃ replies st m, (Stores.init : Stores ZSet).run smallDeps mixedRun = .ok (replies, st) ∧
      Ideal.Runs smallDeps mixedRun .init replies m ∧
      replies = [some (lit "+OK\r\n"), some (lit ":2\r\n"),
        some (lit "-error when adding element\r\n"), some (lit "+OK\r\n"),
        some (lit "-increment must be a non negative integer number a\r\n"), none,
        some (lit "*1\r\n$1\r\n3\r\n"), some (lit ":-1\r\n"), some (lit ":1\r\n"),
        some (lit "*1\r\n$1\r\na\r\n"), some (lit "$1\r\nv\r\n")] := by
  obtain ⟨replies, st, m, hrun, hruns⟩ := run_refines_ideal smallDeps mixedRun (by decide)
    (by decide +kernel)
  have hreplies : ((Stores.init : Stores ZSet).run smallDeps mixedRun).toOption.map Prod.fst =
      some [some (lit "+OK\r\n"), some (lit ":2\r\n"),
        some (lit "-error when adding element\r\n"), some (lit "+OK\r\n"),
        some (lit "-increment must be a non negative integer number a\r\n"), none,
        some (lit "*1\r\n$1\r\n3\r\n"), some (lit ":-1\r\n"), some (lit ":1\r\n"),
        some (lit "*1\r\n$1\r\na\r\n"), some (lit "$1\r\nv\r\n")] := by
    decide +kernel
  rw [hrun] at hreplies
  exact ⟨replies, st, m, hrun, hruns, Option.some.inj hreplies⟩

end RediGo.Core
