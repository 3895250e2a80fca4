/-
RediGo.SortedSet.SortedSetScores — the scores of a set that only grows.

`put` is `Add` on the scores alone. A set whose index holds items of exactly
the members with a score (`Matched`) computes it: the result of `Add` and the
scores after it depend on the scores before it and on nothing else, whatever
the order of the scores does (`Matched.add_eq`). A member whose score changes
may keep its old item in the index, and then has two. `Remove` does not keep
`Matched`, since it may leave such an item behind.

`GetRank` finds an item for every member that has a score and for no other
(`Matched.getRank_eq`).
-/
import RediGo.SortedSet.BTreeContents
import RediGo.SortedSet.SortedSet

namespace RediGo.SortedSet

open RediGo.Go RediGo.Lib BTreeIndex

variable {S : Type}

/-- `Add` on the scores: the result, and the scores after it. -/
def ScoreMap.put [BEq S] (m : ScoreMap S) (score : S) (member : Bytes) : Int × ScoreMap S :=
  if member = [] then (0, m)
  else
    match m member with
    | none => (1, Function.update m member (some score))
    | some old => (0, if old == score then m else Function.update m member (some score))

section Put

variable [BEq S] {m : ScoreMap S} {score old : S} {member : Bytes}

theorem ScoreMap.put_nil : m.put score [] = (0, m) := if_pos rfl

theorem ScoreMap.put_of_none (hm : member ≠ []) (h : m member = none) :
    m.put score member = (1, Function.update m member (some score)) := by
  simp [put, hm, h]

theorem ScoreMap.put_of_some (hm : member ≠ []) (h : m member = some old) :
    m.put score member =
      (0, if old == score then m else Function.update m member (some score)) := by
  simp [put, hm, h]

/-- Only a new member is reported as added. -/
theorem ScoreMap.put_eq_one_iff :
    (m.put score member).1 = 1 ↔ member ≠ [] ∧ m member = none := by
  by_cases hm : member = []
  · simp [hm, put_nil]
  · cases h : m member with
    | none => simp [put_of_none hm h, hm]
    | some old => simp [put_of_some hm h]

/-- No member loses its score. -/
theorem ScoreMap.isSome_put {a : Bytes} (h : (m a).isSome) : ((m.put score member).2 a).isSome := by
  have hupdate : (Function.update m member (some score) a).isSome := by
    by_cases ha : a = member
    · simp [ha]
    · rwa [Function.update_of_ne ha]
  by_cases hm : member = []
  · simpa [hm, put_nil] using h
  · cases hold : m member with
    | none => simpa [put_of_none hm hold] using hupdate
    | some old =>
      rw [put_of_some hm hold]
      split
      · exact h
      · exact hupdate

end Put

/-- The items are of the members that have a score. -/
def Lists (items : List (Item S)) (m : ScoreMap S) : Prop :=
  ∀ a, (m a).isSome ↔ ∃ i ∈ items, i.member = a

def Matched (d : Nat) (ss : SortedSet (BTreeIndex S) S) : Prop :=
  ∃ T, Stored d ss.index T ∧ Lists (ss.index.view T) ss.memberScore

theorem matched_new [Inhabited S] {d : Nat} (hd : 0 < d) :
    Matched d (newSortedSetWithBTree (S := S) d) := by
  have hindex : (newSortedSetWithBTree (S := S) d).index = BTreeIndex.new d := by
    show BTreeIndex.new (if (d : Int) ≤ 0 then 4 else d) = _
    rw [if_neg (by omega)]
  refine ⟨⟨0, .leaf 0 []⟩, hindex ▸ stored_new, fun a => ?_⟩
  simp [view, newSortedSetWithBTree]

theorem lists_update {items items' : List (Item S)} {m : ScoreMap S} {member : Bytes}
    (h : Lists items m) (score : S) (hnew : ∃ i ∈ items', i.member = member)
    (hrest : ∀ a, a ≠ member → ((∃ i ∈ items', i.member = a) ↔ ∃ i ∈ items, i.member = a)) :
    Lists items' (Function.update m member (some score)) := by
  intro a
  by_cases ha : a = member
  · simpa [ha] using hnew
  · rw [Function.update_of_ne ha, h a, hrest a ha]

variable [LT S] [LE S] [BEq S] [DecidableLT S] [DecidableLE S] {d : Nat}

omit [BEq S] in
/-- One `Add` of the index, with the score entered in the map. Before it the
index may have lost an item of the member, if the member had a score. -/
theorem add_lists (hd : 2 ≤ d) {t : BTreeIndex S} {T : AnyTree Ref} (h : Stored d t T)
    {items : List (Item S)} {m : ScoreMap S} (hlists : Lists items m) {member : Bytes}
    (hsub : ∀ a, a ≠ member → ((∃ i ∈ t.view T, i.member = a) ↔ ∃ i ∈ items, i.member = a))
    (score : S) (hmember : member ≠ []) :
    ∃ ret t' T', t.add score member = .ok (ret, t') ∧ Stored d t' T' ∧
      Lists (t'.view T') (Function.update m member (some score)) ∧
      ((∀ i ∈ t.view T, i.member ≠ member) → ret = 1) := by
  obtain ⟨t', T', X, Y, h', hview', hcase⟩ := h.add hd score hmember
  have hrest : ∀ a, a ≠ member →
      ((∃ i ∈ t'.view T', i.member = a) ↔ ∃ i ∈ t.view T, i.member = a) := by
    intro a ha
    rcases hcase with ⟨-, hview⟩ | ⟨old, -, hview⟩ <;> simp [hview, hview', ha.symm, or_and_right,
      exists_or]
  have hlists' := lists_update hlists score ⟨⟨score, member⟩, by simp [hview'], rfl⟩
    fun a ha => (hrest a ha).trans (hsub a ha)
  rcases hcase with ⟨hadd, -⟩ | ⟨old, hadd, hview⟩
  · exact ⟨1, t', T', hadd, h', hlists', fun _ => rfl⟩
  · exact ⟨0, t', T', hadd, h', hlists', fun hnone =>
      absurd rfl (hnone ⟨old, member⟩ (by simp [hview]))⟩

omit [LT S] [DecidableLT S] in
/-- `RemoveByScore` takes no item but one of the member. -/
theorem removeByScore_rest (hd : 2 ≤ d) {t : BTreeIndex S} {T : AnyTree Ref} (h : Stored d t T)
    (score : S) (member : Bytes) :
    ∃ ret t' T', t.removeByScore score member = .ok (ret, t') ∧ Stored d t' T' ∧
      ∀ a, a ≠ member → ((∃ i ∈ t'.view T', i.member = a) ↔ ∃ i ∈ t.view T, i.member = a) := by
  rcases h.removeByScore hd score member with hrem |
    ⟨i, t', T', X, Y, hmatch, hrem, h', hview, hview'⟩
  · exact ⟨0, t, T, hrem, h, fun _ _ => Iff.rfl⟩
  · refine ⟨1, t', T', hrem, h', fun a ha => ?_⟩
    have hi : i.member ≠ a := by
      rw [hmatch.1]
      exact ha.symm
    simp [hview, hview', hi, or_and_right, exists_or]

/-- `Add` returns and computes `put`. -/
theorem Matched.add_eq (hd : 2 ≤ d) {ss : SortedSet (BTreeIndex S) S} (h : Matched d ss) (score : S)
    (member : Bytes) :
    ∃ ss', ss.add score member = .ok ((ss.memberScore.put score member).1, ss') ∧ Matched d ss' ∧
      ss'.memberScore = (ss.memberScore.put score member).2 := by
  by_cases hmember : member = []
  · rw [hmember, ScoreMap.put_nil]
    exact ⟨ss, rfl, h, rfl⟩
  obtain ⟨T, hstored, hlists⟩ := h
  rw [SortedSet.add, if_neg hmember]
  cases hscore : ss.memberScore member with
  | none =>
    obtain ⟨ret, t', T', hadd, h', hlists', hret⟩ :=
      add_lists hd hstored hlists (fun _ _ => Iff.rfl) score hmember
    have habsent : ∀ i ∈ ss.index.view T, i.member ≠ member := by
      intro i hi heq
      have hsome := (hlists member).2 ⟨i, hi, heq⟩
      rw [hscore] at hsome
      cases hsome
    obtain rfl := hret habsent
    have hadd' : OrderedIndex.add ss.index score member = .ok (1, t') := hadd
    rw [ScoreMap.put_of_none hmember hscore]
    refine ⟨⟨t', Function.update ss.memberScore member (some score)⟩, ?_, ⟨T', h', hlists'⟩, rfl⟩
    simp only [hadd', bind, Except.bind]
    rfl
  | some old =>
    rw [ScoreMap.put_of_some hmember hscore]
    by_cases hsame : (old == score) = true
    · exact ⟨ss, by simp only [hsame, if_true]; rfl, ⟨T, hstored, hlists⟩, by simp [hsame]⟩
    · obtain ⟨ret₁, t₁, T₁, hrem, h₁, hrest⟩ := removeByScore_rest hd hstored old member
      obtain ⟨ret, t', T', hadd, h', hlists', -⟩ := add_lists hd h₁ hlists hrest score hmember
      have hrem' : OrderedIndex.removeByScore ss.index old member = .ok (ret₁, t₁) := hrem
      have hadd' : OrderedIndex.add t₁ score member = .ok (ret, t') := hadd
      refine ⟨⟨t', Function.update ss.memberScore member (some score)⟩, ?_, ⟨T', h', hlists'⟩,
        by simp [hsame]⟩
      simp only [hsame, hrem', hadd', bind, Except.bind]
      rfl

/-! ## What a set holds -/

/-- The scores, and the items of the index. -/
def content (ss : SortedSet (BTreeIndex S) S) : ScoreMap S × Except Fault (List (Item S)) :=
  (ss.memberScore, ss.index.entries)

/-- `Add` of a score that is equal to no score, not even to itself, where it
stands already: it changes the index, unless it overwrites the item. -/
theorem Matched.add_again (hd : 2 ≤ d) {ss : SortedSet (BTreeIndex S) S} (h : Matched d ss)
    {score : S} (hnan : ∀ s : S, ¬ (s == score) = true) {member : Bytes} (hmember : member ≠ [])
    (hscore : ss.memberScore member = some score) :
    ∃ ss', ss.add score member = .ok (0, ss') ∧ (ss.index.Overwrites score member → ss' = ss) ∧
      (ss'.content = ss.content → ss.index.Overwrites score member) := by
  obtain ⟨T, hstored, -⟩ := h
  -- the item is not found by a comparison of scores, so none is removed
  have hrem : ss.index.removeByScore score member = .ok (0, ss.index) := by
    rcases hstored.removeByScore hd score member with hrem | ⟨i, -, -, -, -, hmatch, -⟩
    · exact hrem
    · exact absurd hmatch.2 (hnan i.score)
  obtain ⟨ret, t', hadd, hsame, hentries⟩ := hstored.add_entries hd score hmember
  have hrem' : OrderedIndex.removeByScore ss.index score member = .ok (0, ss.index) := hrem
  have hadd' : OrderedIndex.add ss.index score member = .ok (ret, t') := hadd
  have hupdate : Function.update ss.memberScore member (some score) = ss.memberScore := by
    rw [← hscore, Function.update_eq_self]
  refine ⟨⟨t', ss.memberScore⟩, ?_, fun hover => ?_, fun hcontent => ?_⟩
  · simp only [SortedSet.add, if_neg hmember, hscore, hnan, hrem', hadd', hupdate, bind,
      Except.bind]
    rfl
  · rw [hsame hover]
  · exact hentries (congrArg Prod.snd hcontent)

/-- `GetRank` returns -1 for a member without a score, and no other member
gets it. -/
theorem Matched.getRank_eq {ss : SortedSet (BTreeIndex S) S} (h : Matched d ss) (member : Bytes) :
    ∃ rank, ss.getRank member = .ok rank ∧ -1 ≤ rank ∧
      (rank = -1 ↔ ss.memberScore member = none) := by
  obtain ⟨T, hstored, hlists⟩ := h
  refine ⟨_, hstored.toWellFormed.getRank_eq member, ?_, ?_⟩
  · split <;> omega
  · cases hfind : T.2.leafItems.findIdx? fun r => (ss.index.item r).member = member with
    | none =>
      have hnone : ¬ (ss.memberScore member).isSome := by
        rw [hlists member]
        rintro ⟨i, hi, hmember⟩
        obtain ⟨r, hr, rfl⟩ := List.mem_map.1 hi
        have hall := List.findIdx?_eq_none_iff.1 hfind r hr
        simp [hmember] at hall
      simpa using hnone
    | some n =>
      have hsome : (ss.memberScore member).isSome := by
        rw [hlists member]
        obtain ⟨hn, hmember, -⟩ := List.findIdx?_eq_some_iff_getElem.1 hfind
        exact ⟨ss.index.item T.2.leafItems[n], List.mem_map_of_mem (List.getElem_mem hn),
          by simpa using hmember⟩
      rw [Option.isSome_iff_ne_none] at hsome
      simp only [hsome, iff_false]
      omega

end RediGo.SortedSet
