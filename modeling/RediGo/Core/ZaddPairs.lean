/-
RediGo.Core.ZaddPairs — when `ZADD` applies every pair it is given.

The loop takes every result of `Add` but 1 for a failure, and `Add` returns 0
for a member that has a score. So the pairs are all applied, and counted, only
if their members are new to the set and differ from one another
(`zadd_applies_iff`). In every other call the reply is an error and the pairs
behind the first known member are not looked at.

On the sets the server can get to (`SetsMatched`) the loop always returns, and
what it does to the scores is the relation `Scored` of the ideal server
(`zaddLoop_refines`). The rest is about that relation.
-/
import RediGo.Core.CommandFrames
import RediGo.Core.IdealServer
import RediGo.Core.Replies

namespace RediGo.Core

open RediGo.Go RediGo.HashTable

/-! ## The loop -/

/-- The loop returns, since the index of a matched set accepts every pair. -/
theorem zaddLoop_refines {zset : ZSet} (hz : SortedSet.Matched 4 zset) (args : List Bytes)
    (count : Int64) (heven : args.length % 2 = 0) :
    ∃ reply zset', zaddLoop args zset count = .ok (reply, zset') ∧ SortedSet.Matched 4 zset' ∧
      Scored args zset.memberScore count reply zset'.memberScore := by
  induction args using List.twoStepInduction generalizing zset count with
  | nil => exact ⟨_, zset, rfl, hz, .done _ _⟩
  | singleton => simp at heven
  | cons_cons scoreArg member args ih _ =>
    unfold zaddLoop
    cases hparse : parseFloat scoreArg with
    | none => exact ⟨_, zset, rfl, hz, .noScore hparse member args _ count⟩
    | some score =>
      obtain ⟨zset₁, hadd, hz₁, hscores⟩ := hz.add_eq (by decide) score member
      have hadd' : ScoredSet.add zset score member =
          .ok ((zset.memberScore.put score member).1, zset₁) := hadd
      simp only [hadd', bind, Except.bind]
      by_cases hret : (zset.memberScore.put score member).1 = 1
      · obtain ⟨reply, zset', hloop, hz', hscored⟩ :=
          ih hz₁ (count + 1) (by simp only [List.length_cons] at heven; omega)
        rw [hscores] at hscored
        exact ⟨reply, zset', by simp [hret, hloop], hz', .added hparse hret hscored⟩
      · refine ⟨_, zset₁, if_pos hret, hz₁, ?_⟩
        rw [hscores]
        exact .refused hparse hret args count

/-! ## The sets of the server -/

/-- All sets are of the default degree and matched. -/
def SetsMatched (st : Stores ZSet) : Prop :=
  ∀ key zset, st.zsetStore.lookup key = some zset → SortedSet.Matched 4 zset

/-- The set the pairs are added to. -/
def zsetOf {Z : Type} [ScoredSet Z] (st : Stores Z) (key : Bytes) : Z :=
  (st.zsetStore.lookup key).getD ScoredSet.new

theorem matched_zsetOf {st : Stores ZSet} (h : SetsMatched st) (key : Bytes) :
    SortedSet.Matched 4 (zsetOf st key) := by
  unfold zsetOf
  cases hkey : st.zsetStore.lookup key with
  | none => exact SortedSet.matched_new (by decide)
  | some zset => exact h key zset hkey

/-- The command runs the loop if it is given pairs, and does nothing else. -/
theorem cmdZADD_eq {Z : Type} [ScoredSet Z] (st : Stores Z) (key : Bytes) {args : List Bytes}
    (hlen : 2 ≤ args.length) (heven : args.length % 2 = 0) :
    cmdZADD (key :: args) st = (zaddLoop args (zsetOf st key) 0 >>= fun r =>
      .ok (r.1, { st with zsetStore := st.zsetStore.insert key r.2 })) := by
  unfold cmdZADD
  dsimp only
  rw [if_neg (by rw [List.length_cons]; omega), if_neg (by omega)]
  rfl

/-- Otherwise it is turned away. -/
theorem cmdZADD_refused {Z : Type} [ScoredSet Z] (st : Stores Z) {args : List Bytes}
    (h : args.length < 3 ∨ args.length % 2 = 0) :
    ∃ reply, cmdZADD args st = .ok (reply, st) ∧ IsError reply := by
  unfold cmdZADD
  split
  · rename_i key rest
    rw [List.length_cons] at h
    split
    · exact ⟨_, rfl, isError_error _⟩
    · rename_i hlen
      rw [List.length_cons] at hlen
      rw [if_pos (by omega)]
      exact ⟨_, rfl, isError_error _⟩
  · exact ⟨_, rfl, isError_error _⟩

theorem setsMatched_zadd {st : Stores ZSet} (h : SetsMatched st) (args : List Bytes) :
    Meets SetsMatched (cmdZADD args st) := by
  by_cases hargs : args.length < 3 ∨ args.length % 2 = 0
  · obtain ⟨reply, hzadd, -⟩ := cmdZADD_refused st hargs
    rw [hzadd]
    exact meets_ok h
  rcases args with _ | ⟨key, args⟩
  · simp at hargs
  rw [List.length_cons] at hargs
  obtain ⟨reply, zset, hloop, hz, -⟩ := zaddLoop_refines (matched_zsetOf h key) args 0 (by omega)
  rw [cmdZADD_eq st key (by omega) (by omega), hloop]
  refine meets_ok fun key' zset' hkey' => ?_
  by_cases heq : key' = key
  · rw [heq, AList.lookup_insert] at hkey'
    cases hkey'
    exact hz
  · rw [AList.lookup_insert_ne heq] at hkey'
    exact h key' zset' hkey'

theorem setsMatched_of_serves {deps : Deps} {st : Stores ZSet}
    (h : Relation.ReflTransGen (Serves deps) .init st) : SetsMatched st := by
  refine serves_invariant (fun env cmd st hst => ?_) h (fun _ _ hkey => by cases hkey)
  have hlift : ∀ {r}, Meets (·.zsetStore = st.zsetStore) r → Meets SetsMatched r := by
    intro r hr reply st' heq key zset hkey
    rw [hr reply st' heq] at hkey
    exact hst key zset hkey
  exact executeAndResponse_meets deps st env cmd
    (fun st' hsame key zset hkey => hst key zset (hsame.1 ▸ hkey))
    (setsMatched_zadd hst cmd.Args) (hlift (cmdCMSINITBYDIM_zsetStore cmd.Args st))
    (hlift (cmdCMSINITBYPROB_zsetStore deps cmd.Args st))
    (hlift (cmdCMSINCRBY_zsetStore deps cmd.Args st))

/-! ## Pairs -/

/-- A score and a member `ZADD` can be given. -/
structure ScorePair where
  scoreArg : Bytes
  score : Float64
  member : Bytes
  parses : parseFloat scoreArg = some score
  nonempty : member ≠ []

def pairArgs (pairs : List ScorePair) : List Bytes :=
  pairs.flatMap fun p => [p.scoreArg, p.member]

theorem pairArgs_cons (p : ScorePair) (pairs : List ScorePair) :
    pairArgs (p :: pairs) = p.scoreArg :: p.member :: pairArgs pairs := rfl

theorem length_pairArgs (pairs : List ScorePair) :
    (pairArgs pairs).length = 2 * pairs.length := by
  simp [pairArgs, List.length_flatMap, Nat.mul_comm]

/-- The last score listed for a member. -/
def lastScore : List ScorePair → Bytes → Option Float64
  | [], _ => none
  | p :: pairs, m => (lastScore pairs m).or (if p.member = m then some p.score else none)

/-- The members are new to the set, and no two are the same. -/
def Fresh {Z : Type} [ScoredSet Z] (zset : Z) (pairs : List ScorePair) : Prop :=
  (pairs.map (·.member)).Nodup ∧ ∀ p ∈ pairs, ScoredSet.getScore zset p.member = none

/-- The members listed that are new, counted once each. -/
theorem ncard_fresh {Z : Type} [ScoredSet Z] {zset : Z} {pairs : List ScorePair}
    (h : Fresh zset pairs) :
    {m | (∃ p ∈ pairs, p.member = m) ∧ ScoredSet.getScore zset m = none}.ncard = pairs.length := by
  have hset : {m | (∃ p ∈ pairs, p.member = m) ∧ ScoredSet.getScore zset m = none} =
      ((pairs.map (·.member)).toFinset : Set Bytes) := by
    ext m
    simp only [Set.mem_ofPred_eq, List.coe_toFinset, List.mem_map]
    constructor
    · exact And.left
    · rintro ⟨p, hp, rfl⟩
      exact ⟨⟨p, hp, rfl⟩, h.2 p hp⟩
  rw [hset, Set.ncard_coe_finset, List.toFinset_card_of_nodup h.1, List.length_map]

theorem lastScore_of_not_mem {pairs : List ScorePair} {m : Bytes}
    (h : m ∉ pairs.map (·.member)) : lastScore pairs m = none := by
  induction pairs with
  | nil => rfl
  | cons p pairs ih =>
    simp only [List.map_cons, List.mem_cons, not_or] at h
    simp [lastScore, ih h.2, Ne.symm h.1]

/-! ## The loop on the scores -/

namespace Scored

open SortedSet

variable {args : List Bytes} {m m' : ScoreMap Float64} {count : Int64} {reply : Bytes}

/-- No member loses its score. -/
theorem isSome (h : Scored args m count reply m') {a : Bytes} (ha : (m a).isSome) :
    (m' a).isSome := by
  induction h with
  | done => exact ha
  | noScore => exact ha
  | added _ _ _ ih => exact ih (ScoreMap.isSome_put ha)
  | refused => exact ScoreMap.isSome_put ha

/-- Without an error, all arguments were pairs. -/
theorem exists_pairs (h : Scored args m count reply m') (hok : ¬ IsError reply) :
    ∃ pairs, args = pairArgs pairs := by
  induction h with
  | done => exact ⟨[], rfl⟩
  | noScore => exact absurd (isError_error _) hok
  | @added scoreArg member args m m' count score reply hscore hadd _ ih =>
    obtain ⟨pairs, rfl⟩ := ih hok
    exact ⟨⟨scoreArg, score, member, hscore, (ScoreMap.put_eq_one_iff.1 hadd).1⟩ :: pairs, rfl⟩
  | refused => exact absurd (isError_error _) hok

/-- Without an error, the members were new. -/
theorem fresh {pairs : List ScorePair} (h : Scored (pairArgs pairs) m count reply m')
    (hok : ¬ IsError reply) :
    (pairs.map (·.member)).Nodup ∧ ∀ p ∈ pairs, m p.member = none := by
  induction pairs generalizing m count with
  | nil => simp
  | cons p pairs ih =>
    rw [pairArgs_cons] at h
    cases h with
    | noScore => exact absurd (isError_error _) hok
    | refused => exact absurd (isError_error _) hok
    | @added _ _ _ _ _ _ score _ _ hadd hrest =>
      obtain ⟨hnodup, habsent⟩ := ih hrest
      obtain ⟨hmember, hnone⟩ := ScoreMap.put_eq_one_iff.1 hadd
      simp only [ScoreMap.put_of_none hmember hnone] at habsent
      have hne : ∀ q ∈ pairs, q.member ≠ p.member := by
        intro q hq heq
        have hq' := habsent q hq
        simp [heq] at hq'
      refine ⟨List.nodup_cons.2 ⟨fun hmem => ?_, hnodup⟩, List.forall_mem_cons.2 ⟨hnone, ?_⟩⟩
      · obtain ⟨q, hq, heq⟩ := List.mem_map.1 hmem
        exact hne q hq heq
      · intro q hq
        have hq' := habsent q hq
        rwa [Function.update_of_ne (hne q hq)] at hq'

/-- Pairs with new members are all added. -/
theorem of_fresh {pairs : List ScorePair} (h : Scored (pairArgs pairs) m count reply m')
    (hnodup : (pairs.map (·.member)).Nodup) (habsent : ∀ p ∈ pairs, m p.member = none) :
    reply = encode (.int (count + Int64.ofNat pairs.length)) false ∧
      ∀ a, m' a = (lastScore pairs a).or (m a) := by
  induction pairs generalizing m count with
  | nil =>
    cases h
    exact ⟨by simp, fun _ => rfl⟩
  | cons p pairs ih =>
    obtain ⟨hp, hnodup⟩ := List.nodup_cons.1 hnodup
    obtain ⟨hnone, habsent⟩ := List.forall_mem_cons.1 habsent
    have hput : m.put p.score p.member = (1, Function.update m p.member (some p.score)) :=
      ScoreMap.put_of_none p.nonempty hnone
    rw [pairArgs_cons] at h
    cases h with
    | noScore hscore =>
      rw [p.parses] at hscore
      cases hscore
    | refused hscore hadd =>
      cases p.parses.symm.trans hscore
      rw [hput] at hadd
      exact absurd rfl hadd
    | added hscore hadd hrest =>
      cases p.parses.symm.trans hscore
      rw [hput] at hrest
      have habsent' : ∀ q ∈ pairs, Function.update m p.member (some p.score) q.member = none := by
        intro q hq
        rw [Function.update_of_ne fun heq => hp (List.mem_map.2 ⟨q, hq, heq⟩)]
        exact habsent q hq
      obtain ⟨hreply, hscores⟩ := ih hrest hnodup habsent'
      refine ⟨?_, fun a => ?_⟩
      · rw [hreply, List.length_cons, Int64.ofNat_add, Int64.add_assoc, Int64.add_comm 1]
        rfl
      · rw [hscores a, lastScore]
        by_cases heq : p.member = a
        · subst heq
          simp [lastScore_of_not_mem hp]
        · simp [heq, Function.update_of_ne (Ne.symm heq)]

end Scored

/-! ## The command -/

/-- `ZADD` replies with the number of distinct members that were absent. Then
the listed members have the last score listed, and all others the score they
had. -/
def AppliesAll {Z : Type} [ScoredSet Z] (st : Stores Z) (key : Bytes) (pairs : List ScorePair) :
    Prop :=
  ∃ st', cmdZADD (key :: pairArgs pairs) st = .ok (encode (.int (Int64.ofNat
      {m | (∃ p ∈ pairs, p.member = m) ∧
        ScoredSet.getScore (zsetOf st key) m = none}.ncard)) false, st') ∧
    ∀ m, ScoredSet.getScore (zsetOf st' key) m =
      (lastScore pairs m).or (ScoredSet.getScore (zsetOf st key) m)

theorem not_appliesAll_of_error {Z : Type} [ScoredSet Z] {st : Stores Z} {key : Bytes}
    {pairs : List ScorePair} {reply : Bytes} (herror : IsError reply)
    (h : (cmdZADD (key :: pairArgs pairs) st).map (·.1) = .ok reply) :
    ¬ AppliesAll st key pairs := by
  rintro ⟨st', hzadd, -⟩
  rw [hzadd] at h
  rw [← Except.ok.inj h] at herror
  exact not_isError_int _ herror

/-- In every state of the server, `ZADD` applies all its pairs exactly if their
members are new and distinct. -/
theorem zadd_applies_iff (deps : Deps) (st : Stores ZSet)
    (hst : Relation.ReflTransGen (Serves deps) .init st) (key : Bytes) (pairs : List ScorePair)
    (hpairs : pairs ≠ []) : AppliesAll st key pairs ↔ Fresh (zsetOf st key) pairs := by
  have hlen := length_pairArgs pairs
  have hpos := List.length_pos_iff.2 hpairs
  obtain ⟨reply, zset', hloop, -, hscored⟩ := zaddLoop_refines
    (matched_zsetOf (setsMatched_of_serves hst) key) (pairArgs pairs) 0 (by omega)
  unfold AppliesAll
  rw [cmdZADD_eq st key (by omega) (by omega), hloop]
  constructor
  · rintro ⟨st', hzadd, -⟩
    cases hzadd
    exact hscored.fresh (not_isError_int _)
  · intro hfresh
    obtain ⟨hreply, hscores⟩ := hscored.of_fresh hfresh.1 hfresh.2
    rw [ncard_fresh hfresh, hreply, Int64.zero_add]
    refine ⟨_, rfl, fun m => ?_⟩
    rw [zsetOf, AList.lookup_insert]
    exact hscores m

def oneA : ScorePair := ⟨lit "1", .ofRat false 1 1, lit "a", by decide +kernel, by decide⟩

def twoA : ScorePair := ⟨lit "2", .ofRat false 2 1, lit "a", by decide +kernel, by decide⟩

def threeB : ScorePair := ⟨lit "3", .ofRat false 3 1, lit "b", by decide +kernel, by decide⟩

/-- `ZADD z 1 a 3 b` on an empty server. -/
theorem zadd_applies_two : AppliesAll (Stores.init : Stores ZSet) (lit "z") [oneA, threeB] :=
  (zadd_applies_iff smallDeps .init .refl (lit "z") [oneA, threeB] (by simp)).2
    ⟨by decide, fun _ _ => rfl⟩

/-- After `ZADD z 1 a` the server does not apply `ZADD z 2 a 3 b`, and an empty
one does not apply `ZADD z 1 a 2 a 3 b`: it replies with an error, `a` has the
score 2 and `b` has none. -/
theorem zadd_stops_at_known :
    (∃ st, cmdZADD (lit "z" :: pairArgs [oneA]) (Stores.init : Stores ZSet) =
        .ok (encode (.int 1) false, st) ∧ ¬ AppliesAll st (lit "z") [twoA, threeB]) ∧
      ¬ AppliesAll (Stores.init : Stores ZSet) (lit "z") [oneA, twoA, threeB] ∧
      (cmdZADD (lit "z" :: pairArgs [oneA, twoA, threeB]) (Stores.init : Stores ZSet)).map
          (fun p => (p.1, (p.2.zsetStore.lookup (lit "z")).map fun zset =>
            (ScoredSet.getScore zset (lit "a"), ScoredSet.getScore zset (lit "b")))) =
        .ok (errorReply "error when adding element", some (some (.ofRat false 2 1), none)) := by
  refine ⟨?_, not_appliesAll_of_error (isError_error (lit "error when adding element")) ?_, ?_⟩
  · have hzadd : (cmdZADD (lit "z" :: pairArgs [oneA]) (Stores.init : Stores ZSet) >>= fun p =>
        (cmdZADD (lit "z" :: pairArgs [twoA, threeB]) p.2).map fun q => (p.1, q.1)) =
        .ok (encode (.int 1) false, errorReply "error when adding element") := by
      decide +kernel
    obtain ⟨⟨reply, st⟩, hfirst, hsecond⟩ := bind_eq_ok hzadd
    cases hcmd : cmdZADD (lit "z" :: pairArgs [twoA, threeB]) st with
    | error fault => simp [hcmd, Except.map] at hsecond
    | ok q =>
      simp only [hcmd, Except.map, Except.ok.injEq, Prod.mk.injEq] at hsecond
      have herror : IsError q.1 := hsecond.2 ▸ isError_error _
      exact ⟨st, by rw [hfirst, hsecond.1], not_appliesAll_of_error herror (by rw [hcmd]; rfl)⟩
  · decide +kernel
  · decide +kernel

end RediGo.Core
