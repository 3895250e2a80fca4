/-
RediGo.Core.ZaddAtomic — when a `ZADD` that replies with an error leaves the
sorted sets as they were.

The command stores a set under a new key first and then parses and adds pair
by pair, so an error undoes nothing. Three kinds of call are harmless: one
that is turned away for the number of its arguments, one whose pairs are all
new, and one on a stored key that stops at its first pair without effect
(`zadd_atomic_iff`). In every other call the key is new, or the first pair was
added, or it changed the set.

Sets are compared as a whole, with their indexes. NaN is the reason. It differs
from itself, so a member that has the score NaN and gets it once more goes
through `RemoveByScore`, which finds nothing, and `Add`. The scores are the
same afterwards, but the index has a second item of the member, unless `Add`
comes to the leaf with the first one and overwrites it (`Overwrites`).
-/
import RediGo.Core.ZaddPairs

namespace RediGo.Core

open RediGo.Go RediGo.HashTable RediGo.SortedSet

/-! ## The first pair -/

/-- The score does not parse, or the member is empty or has this score: then
the first pair ends the loop and has no effect. -/
def StopsAtFirst (zset : ZSet) : List Bytes → Prop
  | scoreArg :: member :: _ => ∀ score, parseFloat scoreArg = some score → member = [] ∨
      ∃ old, ScoredSet.getScore zset member = some old ∧
        ((old == score) = true ∨ old = score ∧ zset.index.Overwrites score member)
  | _ => False

/-- What the loop does with its first pair. -/
theorem zaddLoop_cons {scoreArg member reply : Bytes} {args : List Bytes} {zset zset' : ZSet}
    {count : Int64}
    (h : zaddLoop (scoreArg :: member :: args) zset count = .ok (reply, zset')) :
    (parseFloat scoreArg = none ∧ zset' = zset) ∨
      ∃ score ret zset₁, parseFloat scoreArg = some score ∧
        zset.add score member = .ok (ret, zset₁) ∧
        (ret ≠ 1 ∧ zset' = zset₁ ∨
          ret = 1 ∧ zaddLoop args zset₁ (count + 1) = .ok (reply, zset')) := by
  unfold zaddLoop at h
  cases hparse : parseFloat scoreArg with
  | none =>
    rw [hparse] at h
    cases h
    exact .inl ⟨rfl, rfl⟩
  | some score =>
    rw [hparse] at h
    obtain ⟨⟨ret, zset₁⟩, hadd, h⟩ := bind_eq_ok h
    refine .inr ⟨score, ret, zset₁, rfl, hadd, ?_⟩
    dsimp only at h
    split at h
    · cases h
      exact .inl ⟨by assumption, rfl⟩
    · exact .inr ⟨not_not.1 (by assumption), h⟩

/-- A score that is not equal to itself is equal to no other. -/
theorem not_beq_of_not_beq_self {score : Float64} (h : ¬ (score == score) = true) (s : Float64) :
    ¬ (s == score) = true := by
  intro hs
  simp only [BEq.beq, Float64.eq, Bool.and_eq_true, Bool.not_eq_true', decide_eq_true_eq] at h hs
  exact h ⟨⟨hs.1.2, hs.1.2⟩, trivial⟩

variable {zset zset₁ : ZSet} {score : Float64} {member : Bytes} {ret : Int}

/-- `Add` of a score that the member has. -/
theorem add_eq_self (hz : Matched 4 zset) {old : Float64} (hm : member ≠ [])
    (hold : zset.memberScore member = some old)
    (h : (old == score) = true ∨ old = score ∧ zset.index.Overwrites score member) :
    zset.add score member = .ok (0, zset) := by
  by_cases hbeq : (old == score) = true
  · simp only [SortedSet.add, if_neg hm, hold, if_pos hbeq]
    rfl
  · obtain ⟨rfl, hover⟩ := h.resolve_left hbeq
    obtain ⟨zset', hadd, hsame, -⟩ :=
      hz.add_again (by decide) (not_beq_of_not_beq_self hbeq) hm hold
    rw [hadd, hsame hover]

/-- `Add` that is refused and leaves what the set holds as it was. -/
theorem of_content_eq (hz : Matched 4 zset) (hadd : zset.add score member = .ok (ret, zset₁))
    (hret : ret ≠ 1) (hcontent : zset₁.content = zset.content) :
    member = [] ∨ ∃ old, zset.memberScore member = some old ∧
      ((old == score) = true ∨ old = score ∧ zset.index.Overwrites score member) := by
  obtain ⟨zset', hadd', -, hscores⟩ := hz.add_eq (by decide) score member
  cases hadd.symm.trans hadd'
  rw [Ne, ScoreMap.put_eq_one_iff, not_and] at hret
  by_cases hm : member = []
  · exact .inl hm
  obtain ⟨old, hold⟩ := Option.ne_none_iff_exists'.1 (hret hm)
  refine .inr ⟨old, hold, ?_⟩
  by_cases hbeq : (old == score) = true
  · exact .inl hbeq
  -- the score is entered, so it was there before
  have hsame : old = score := by
    have hsame : zset₁.memberScore = zset.memberScore := congrArg Prod.fst hcontent
    rw [ScoreMap.put_of_some hm hold, if_neg hbeq, hsame] at hscores
    have hmember := congrFun hscores member
    simpa [hold] using hmember
  subst hsame
  obtain ⟨zset₂, hadd₂, -, hover⟩ :=
    hz.add_again (by decide) (not_beq_of_not_beq_self hbeq) hm hold
  obtain rfl : zset₂ = zset₁ := congrArg Prod.snd (Except.ok.inj (hadd₂.symm.trans hadd))
  exact .inr ⟨rfl, hover hcontent⟩

section Loop

variable {args : List Bytes} {zset' : ZSet} {count : Int64} {reply : Bytes}

theorem eq_of_stopsAtFirst (hz : Matched 4 zset)
    (h : zaddLoop args zset count = .ok (reply, zset')) (hstop : StopsAtFirst zset args) :
    zset' = zset := by
  rcases args with _ | ⟨scoreArg, _ | ⟨member, args⟩⟩
  · exact hstop.elim
  · exact hstop.elim
  rcases zaddLoop_cons h with ⟨-, hsame⟩ | ⟨score, ret, zset₁, hparse, hadd, hnext⟩
  · exact hsame
  have hself : zset.add score member = .ok (0, zset) := by
    rcases hstop score hparse with rfl | ⟨old, hold, hscore⟩
    · rfl
    · by_cases hm : member = []
      · rw [hm]
        rfl
      · exact add_eq_self hz hm hold hscore
  cases hadd.symm.trans hself
  rcases hnext with ⟨-, hsame⟩ | ⟨hone, -⟩
  · exact hsame
  · cases hone

theorem stopsAtFirst_of_content_eq (hz : Matched 4 zset)
    (h : zaddLoop args zset count = .ok (reply, zset')) (hlen : 2 ≤ args.length)
    (heven : args.length % 2 = 0) (hcontent : zset'.content = zset.content) :
    StopsAtFirst zset args := by
  rcases args with _ | ⟨scoreArg, _ | ⟨member, args⟩⟩
  · simp at hlen
  · simp at hlen
  rcases zaddLoop_cons h with ⟨hnone, -⟩ |
    ⟨score, ret, zset₁, hparse, hadd, ⟨hret, rfl⟩ | ⟨rfl, hloop⟩⟩
  · intro score hparse
    cases hnone.symm.trans hparse
  · intro score' hparse'
    cases hparse.symm.trans hparse'
    exact of_content_eq hz hadd hret hcontent
  · -- the member was added, and is there at the end
    obtain ⟨zset₂, hadd₂, hz₁, hscores⟩ := hz.add_eq (by decide) score member
    obtain ⟨hone, rfl⟩ := Prod.mk.inj (Except.ok.inj (hadd₂.symm.trans hadd))
    obtain ⟨hm, hnone⟩ := ScoreMap.put_eq_one_iff.1 hone
    rw [ScoreMap.put_of_none hm hnone] at hscores
    simp only [List.length_cons] at heven
    obtain ⟨reply', zset'', hloop', -, hscored⟩ :=
      zaddLoop_refines hz₁ args (count + 1) (by omega)
    cases hloop.symm.trans hloop'
    have hsome : (zset'.memberScore member).isSome := hscored.isSome (by simp [hscores])
    have hsame : zset'.memberScore = zset.memberScore := congrArg Prod.fst hcontent
    rw [hsame, hnone] at hsome
    cases hsome

end Loop

/-! ## The command -/

/-- The same keys with the same sets, indexes included. -/
def SameZSets (st st' : Stores ZSet) : Prop :=
  ∀ key, st'.zsetStore.lookup key = st.zsetStore.lookup key

/-- The same keys, whose sets have the same scores and the same items. -/
def SameContent (st st' : Stores ZSet) : Prop :=
  ∀ key, (st'.zsetStore.lookup key).map content = (st.zsetStore.lookup key).map content

/-- The arguments are too few or no pairs, or the members are new, or the key
is there and the first pair has no effect. -/
def Harmless (st : Stores ZSet) : List Bytes → Prop
  | [] => True
  | key :: args => args.length < 2 ∨ args.length % 2 = 1 ∨
      (∃ pairs, args = pairArgs pairs ∧ Fresh (zsetOf st key) pairs) ∨
      (st.zsetStore.lookup key).isSome ∧ StopsAtFirst (zsetOf st key) args

theorem sameZSets_insert_iff (st : Stores ZSet) (key : Bytes) (zset : ZSet) :
    SameZSets st { st with zsetStore := st.zsetStore.insert key zset } ↔
      (st.zsetStore.lookup key).isSome ∧ zset = zsetOf st key := by
  have hkey : SameZSets st { st with zsetStore := st.zsetStore.insert key zset } ↔
      some zset = st.zsetStore.lookup key := by
    constructor
    · intro h
      rw [← h key, AList.lookup_insert]
    · intro h key'
      by_cases heq : key' = key
      · rw [heq, AList.lookup_insert, h]
      · rw [AList.lookup_insert_ne heq]
  rw [hkey, zsetOf]
  cases st.zsetStore.lookup key <;> simp

theorem content_of_sameContent {st : Stores ZSet} {key : Bytes} {zset : ZSet}
    (h : SameContent st { st with zsetStore := st.zsetStore.insert key zset }) :
    (st.zsetStore.lookup key).isSome ∧ zset.content = (zsetOf st key).content := by
  have hkey := h key
  rw [AList.lookup_insert] at hkey
  rw [zsetOf]
  cases hlookup : st.zsetStore.lookup key with
  | none => simp [hlookup] at hkey
  | some old => simpa [hlookup] using hkey

/-- In every state of the server, a `ZADD` that fails has changed nothing,
exactly if it is harmless. Whatever else it changed, a score or an item shows
it. -/
theorem zadd_atomic_iff (deps : Deps) (st : Stores ZSet)
    (hst : Relation.ReflTransGen (Serves deps) .init st) (args : List Bytes) :
    ∃ reply st', cmdZADD args st = .ok (reply, st') ∧
      ((IsError reply → SameZSets st st') ↔ Harmless st args) ∧
      (SameContent st st' → SameZSets st st') := by
  by_cases hrefused : args.length < 3 ∨ args.length % 2 = 0
  · obtain ⟨reply, hzadd, -⟩ := cmdZADD_refused st hrefused
    refine ⟨reply, st, hzadd, iff_of_true (fun _ _ => rfl) ?_, fun _ _ => rfl⟩
    cases args with
    | nil => trivial
    | cons key args =>
      rw [List.length_cons] at hrefused
      exact (by omega : args.length < 2 ∨ args.length % 2 = 1).imp_right .inl
  rcases args with _ | ⟨key, args⟩
  · simp at hrefused
  rw [List.length_cons] at hrefused
  have hlen : 2 ≤ args.length := by omega
  have heven : args.length % 2 = 0 := by omega
  have hz := matched_zsetOf (setsMatched_of_serves hst) key
  obtain ⟨reply, zset, hloop, -, hscored⟩ := zaddLoop_refines hz args 0 heven
  have herror : ¬ IsError reply ↔ ∃ pairs, args = pairArgs pairs ∧ Fresh (zsetOf st key) pairs := by
    constructor
    · intro hok
      obtain ⟨pairs, rfl⟩ := hscored.exists_pairs hok
      exact ⟨pairs, rfl, hscored.fresh hok⟩
    · rintro ⟨pairs, rfl, hfresh⟩
      rw [(hscored.of_fresh hfresh.1 hfresh.2).1]
      exact not_isError_int _
  have hstop : zset = zsetOf st key ↔ StopsAtFirst (zsetOf st key) args :=
    ⟨fun heq => stopsAtFirst_of_content_eq hz hloop hlen heven (by rw [heq]),
      eq_of_stopsAtFirst hz hloop⟩
  refine ⟨reply, { st with zsetStore := st.zsetStore.insert key zset }, ?_, ?_, fun hcontents => ?_⟩
  · rw [cmdZADD_eq st key hlen heven, hloop]
    rfl
  · rw [sameZSets_insert_iff, hstop, imp_iff_not_or, herror]
    have hnot : ¬ args.length < 2 ∧ ¬ args.length % 2 = 1 := by omega
    simp [Harmless, hnot]
  · obtain ⟨hkey, hcontent⟩ := content_of_sameContent hcontents
    rw [sameZSets_insert_iff, hstop]
    exact ⟨hkey, stopsAtFirst_of_content_eq hz hloop hlen heven hcontent⟩

/-- An empty set under the key `z`. -/
def oneZSet : Stores ZSet :=
  { (Stores.init : Stores ZSet) with zsetStore := AList.insert (lit "z") ScoredSet.new ∅ }

/-- `ZADD z x a`, where `x` is no number, after another one, which has left
the key. -/
theorem zadd_atomic_refused :
    ∃ reply st', cmdZADD [lit "z", lit "x", lit "a"] oneZSet = .ok (reply, st') ∧ IsError reply ∧
      SameZSets oneZSet st' := by
  have hserves : Serves smallDeps .init oneZSet :=
    ⟨default, ⟨lit "ZADD", [lit "z", lit "x", lit "a"]⟩, _, rfl⟩
  obtain ⟨reply, st', hzadd, hiff, -⟩ := zadd_atomic_iff smallDeps oneZSet (.single hserves)
    [lit "z", lit "x", lit "a"]
  have hharmless : Harmless oneZSet [lit "z", lit "x", lit "a"] := by
    refine .inr (.inr (.inr ⟨rfl, fun score hscore => ?_⟩))
    rw [show parseFloat (lit "x") = none by decide] at hscore
    cases hscore
  have herror : IsError reply := by
    cases hzadd
    exact isError_error _
  exact ⟨reply, st', hzadd, herror, hiff.2 hharmless herror⟩

/-- The members of the items in the index at `z`, in order. -/
def membersAtZ (st : Stores ZSet) : Option (List Bytes) :=
  (st.zsetStore.lookup (lit "z")).bind fun zset =>
    zset.index.entries.toOption.map (·.map (·.member))

/-- `ZADD z x a` makes the key `z` and then fails. `ZADD z 2 a` gives `a` the
score 2 instead of 1 and then fails. `ZADD z nan d`, where `d` has the score
NaN, fails and has entered `d` once more. -/
theorem zadd_fails_late :
    (∃ reply st', cmdZADD [lit "z", lit "x", lit "a"] (Stores.init : Stores ZSet) =
        .ok (reply, st') ∧ IsError reply ∧ ¬ SameZSets .init st') ∧
      (cmdZADD [lit "z", lit "1", lit "a"] (Stores.init : Stores ZSet) >>= fun p =>
          cmdZADD [lit "z", lit "2", lit "a"] p.2).map (fun p =>
            (p.1, (p.2.zsetStore.lookup (lit "z")).bind (ScoredSet.getScore · (lit "a")))) =
        .ok (errorReply "error when adding element", some (.ofRat false 2 1)) ∧
      (cmdZADD [lit "z", lit "nan", lit "a", lit "nan", lit "b", lit "nan", lit "c", lit "nan",
          lit "d"] (Stores.init : Stores ZSet) >>= fun p =>
          (cmdZADD [lit "z", lit "nan", lit "d"] p.2).map fun q =>
            (q.1, membersAtZ p.2, membersAtZ q.2)) =
        .ok (errorReply "error when adding element",
          some [lit "a", lit "b", lit "c", lit "d"],
          some [lit "a", lit "b", lit "d", lit "c", lit "d"]) := by
  refine ⟨⟨_, _, rfl, isError_error _, fun h => ?_⟩, ?_, ?_⟩
  · have hkey := h (lit "z")
    rw [AList.lookup_insert] at hkey
    cases hkey
  · decide +kernel
  · decide +kernel

end RediGo.Core
