/-
RediGo.SortedSet.Interchange — the two implementations of `OrderedIndex`
behind one sorted set.

`SortedSet` uses its index only through the interface, and `NewOrderedIndex`
builds either one. The B+ tree orders ties by the path an item took, the
skip list by name, so the two can be told apart as soon as two members
share a score. Up to then they cannot: `Lockstep` relates a set over one
to a set over the other, one call keeps it (`Lockstep.step`), and under it
every query answers the same.

Neither the degree of the tree nor the heights of the towers matter.
-/
import RediGo.SortedSet.SkipListSet

namespace RediGo.SortedSet

open RediGo.Lib RediGo.Go

variable {S : Type} [LinearOrder S]

/-! ## Ranks without ties -/

/-- Without ties the names play no part in the order. -/
theorem ScoreMap.Distinct.lexRank_eq {map : ScoreMap S} (h : map.Distinct) (m : Bytes) :
    map.lexRank m = map.rank m := by
  rw [ScoreMap.lexRank, ScoreMap.rank]
  cases hscore : map m with
  | none => rfl
  | some s =>
    have hsame : {a | ∃ s', map a = some s' ∧ toLex (s', a) < toLex (s, m)} =
        {a | ∃ s', map a = some s' ∧ s' < s} := by
      ext a
      simp only [Set.mem_ofPred_eq, Prod.Lex.toLex_lt_toLex]
      constructor
      · rintro ⟨s', ha, hlt | ⟨rfl, hname⟩⟩
        · exact ⟨s', ha, hlt⟩
        · exact absurd hname (h a m s' ha hscore ▸ lt_irrefl _)
      · rintro ⟨s', ha, hlt⟩
        exact ⟨s', ha, .inl hlt⟩
    simp only [hsame]

/-! ## Lockstep -/

variable [Zero S]

/-- The two sets hold the same scores, each index in its own form. -/
structure Lockstep (bt : SortedSet (BTreeIndex S) S) (sl : SortedSet (SkipListIndex S) S) :
    Prop where
  same : bt.memberScore = sl.memberScore
  tree : ∃ d T, 2 ≤ d ∧ Agrees d (· < ·) bt T
  list : ∃ xs, SkipAgrees sl xs

namespace Lockstep

variable {bt : SortedSet (BTreeIndex S) S} {sl : SortedSet (SkipListIndex S) S}

omit [Zero S] in
/-- A call without a name does nothing to a set over any index. -/
theorem step_nameless {I : Type} [OrderedIndex I S] (ss : SortedSet I S) {op : Op S}
    (hm : op.member = []) : ss.step op = .ok (0, ss) := by
  cases op with
  | add s m => exact if_pos hm
  | remove m => exact if_pos hm

omit [LinearOrder S] [Zero S] in
theorem stepNamed_eq {map : ScoreMap S} {op : Op S} (hm : op.member ≠ []) :
    map.stepNamed op = map.step op := by
  cases op with
  | add s m => exact if_neg hm
  | remove m => rfl

/-- One call on both: one reply, and the scores are the same again. -/
theorem step (h : Lockstep bt sl) (op : Op S)
    (hdist : (sl.memberScore.stepNamed op).2.Distinct) :
    ∃ reply bt' sl', bt.step op = .ok (reply, bt') ∧ sl.step op = .ok (reply, sl') ∧
      sl'.memberScore = (sl.memberScore.stepNamed op).2 ∧ Lockstep bt' sl' := by
  obtain ⟨d, T, hd, htree⟩ := h.tree
  obtain ⟨xs, hlist⟩ := h.list
  obtain ⟨sl', xs', hsl, hmap, hlist'⟩ := hlist.step op
  by_cases hm : op.member = []
  · refine ⟨0, bt, sl, step_nameless bt hm, step_nameless sl hm, ?_, h⟩
    rw [step_nameless sl hm, Except.ok.injEq, Prod.mk.injEq] at hsl
    rw [← hmap, hsl.2]
  · rw [stepNamed_eq hm] at hsl hmap hdist
    rw [← h.same] at hsl hmap hdist
    obtain ⟨bt', T', hbt, hmap', htree'⟩ := htree.step (fun _ _ => le_of_lt) (fun _ _ => id) hd hm
      (htree.safe op) (.inr hdist)
    refine ⟨_, bt', sl', hbt, hsl, ?_, ⟨hmap'.trans hmap.symm, ⟨d, T', hd, htree'⟩, xs', hlist'⟩⟩
    rw [hmap, h.same, stepNamed_eq hm]

/-- A whole sequence of calls. -/
theorem run (ops : List (Op S)) (h : Lockstep bt sl)
    (hdist : ∀ p, p <+: ops → (sl.memberScore.runNamed p).2.Distinct) :
    ∃ replies bt' sl', bt.run ops = .ok (replies, bt') ∧ sl.run ops = .ok (replies, sl') ∧
      sl'.memberScore = (sl.memberScore.runNamed ops).2 ∧ Lockstep bt' sl' := by
  induction ops generalizing bt sl with
  | nil => exact ⟨[], bt, sl, rfl, rfl, rfl, h⟩
  | cons op ops ih =>
    have hone : (sl.memberScore.stepNamed op).2.Distinct := hdist [op] (by simp)
    obtain ⟨reply, bt₁, sl₁, hbt, hsl, hmap, h₁⟩ := h.step op hone
    obtain ⟨replies, bt', sl', hbt', hsl', hmap', h'⟩ := ih h₁ (by
      intro p hp
      rw [hmap]
      exact hdist (op :: p) (List.cons_prefix_cons.mpr ⟨rfl, hp⟩))
    refine ⟨reply :: replies, bt', sl', ?_, ?_, by rw [hmap', hmap]; rfl, h'⟩
    · simp only [SortedSet.run, hbt, hbt', bind, Except.bind]
      rfl
    · simp only [SortedSet.run, hsl, hsl', bind, Except.bind]
      rfl

theorem getRank_eq (h : Lockstep bt sl) (hdist : sl.memberScore.Distinct)
    (hsize : ({a | sl.memberScore a ≠ none} : Set Bytes).ncard < 2 ^ 32) (m : Bytes) :
    bt.getRank m = sl.getRank m := by
  obtain ⟨d, T, -, htree⟩ := h.tree
  obtain ⟨xs, hlist⟩ := h.list
  rw [hlist.ncard_members] at hsize
  rw [htree.getRank_eq_rank, hlist.getRank_eq_lexRank hsize, hdist.lexRank_eq, h.same]

end Lockstep

theorem lockstep_new [Inhabited S] {degree : Int} (hdeg : degree ≠ 1) (rnd : Nat → Nat) :
    Lockstep (newSortedSetWithBTree (S := S) degree) (newSortedSetWithSkipList rnd) where
  same := rfl
  tree := by
    obtain ⟨d, T, hd, h⟩ := agrees_new (S := S) (· < ·) degree hdeg
    exact ⟨d, T, hd, h⟩
  list := ⟨[], skipAgrees_new rnd⟩

/-- As long as no two members share a score, a sorted set over a B+ tree of
any usable degree and one over a skip list with any tower heights give the
same replies, scores and ranks, empty names included. -/
theorem indexes_interchangeable [Inhabited S] (degree : Int) (hdeg : degree ≠ 1) (rnd : Nat → Nat)
    (ops : List (Op S))
    (hdist : ∀ p, p <+: ops → (ScoreMap.runNamed (fun _ => none) p).2.Distinct) :
    ∃ replies bt sl, (newSortedSetWithBTree (S := S) degree).run ops = .ok (replies, bt) ∧
      (newSortedSetWithSkipList rnd).run ops = .ok (replies, sl) ∧
      (∀ m, bt.getScore m = sl.getScore m) ∧
      (({a | sl.getScore a ≠ none} : Set Bytes).ncard < 2 ^ 32 →
        ∀ m, bt.getRank m = sl.getRank m) := by
  obtain ⟨replies, bt, sl, hbt, hsl, hmap, h⟩ := (lockstep_new hdeg rnd).run ops hdist
  refine ⟨replies, bt, sl, hbt, hsl, fun m => congrFun h.same m, fun hsize => ?_⟩
  have hfinal : sl.memberScore.Distinct := by
    rw [hmap]
    exact hdist ops List.prefix_rfl
  exact h.getRank_eq hfinal hsize

/-- A member that changes its score, one that leaves, and a call without a
name. -/
theorem indexes_interchangeable_four : ∃ replies bt sl,
    (newSortedSetWithBTree (S := Int) 4).run
      [.add 1 [97], .add 2 [98], .add 3 [97], .remove [98], .add 9 []] = .ok (replies, bt) ∧
    (newSortedSetWithSkipList (S := Int) (fun k => k)).run
      [.add 1 [97], .add 2 [98], .add 3 [97], .remove [98], .add 9 []] = .ok (replies, sl) ∧
    ∀ m, bt.getScore m = sl.getScore m := by
  obtain ⟨replies, bt, sl, hbt, hsl, hscore, -⟩ := indexes_interchangeable (S := Int) 4
    (by decide) (fun k => k) [.add 1 [97], .add 2 [98], .add 3 [97], .remove [98], .add 9 []] (by
      intro p hp a b s
      simp only [List.prefix_cons_iff, List.prefix_nil] at hp
      rcases hp with rfl | ⟨_, rfl, rfl | ⟨_, rfl, rfl | ⟨_, rfl, rfl | ⟨_, rfl, rfl |
        ⟨_, rfl, rfl⟩⟩⟩⟩⟩ <;>
        simp only [ScoreMap.runNamed, ScoreMap.stepNamed, ScoreMap.step,
          Function.update_apply] <;> grind)
  exact ⟨replies, bt, sl, hbt, hsl, hscore⟩

end RediGo.SortedSet
