/-
RediGo.SortedSet.BTreeRanks — the queries by rank (`GetRank`, `GetByRank`,
`GetRangeByRank`, `Count`) answer from the tree.

All of them walk the leaf chain from the leftmost leaf. A loop over the
leaves whose body is a loop over their items is one loop over the
concatenated items (`WellFormed.itemLoop_eq`), and what the loop computes
is then a fact about one list. The scores play no part, NaN included: the
chain is the traversal of `Children` in every index a run can reach.
-/
import RediGo.SortedSet.BTreeOrder

namespace RediGo.SortedSet

open RediGo.Lib RediGo.Go

variable {S : Type}

namespace BTreeIndex

/-- The items of the leaves, by the traversal of `Children`. -/
def treeItems (t : BTreeIndex S) : Except Fault (List Ref) := do
  let l ← t.leaves t.fuel t.root
  pure (l.flatMap fun r => (t.node r).items)

/-! ## Loops over the leaves -/

section Loop

variable {σ ρ : Type} {d : Nat} {t : BTreeIndex S} {T : AnyTree Ref}

theorem chainLoop_eq (body : σ → List Ref → Except ρ σ) (L : List (Ref × List Ref)) (fuel : Nat)
    (s : σ) (hfuel : L.length ≤ fuel) (hch : Chained t.node [] L) :
    t.chainLoop body fuel s (L.map Prod.fst).head? = .ok ((L.map Prod.snd).foldlM body s) := by
  induction L generalizing fuel s with
  | nil => cases fuel <;> rfl
  | cons l L ih =>
    obtain ⟨f, rfl⟩ : ∃ f, fuel = f + 1 := ⟨fuel - 1, by simp at hfuel; omega⟩
    obtain ⟨hitems, hnext, hrest⟩ := hch
    rw [List.append_nil] at hnext
    simp only [List.map_cons, List.head?_cons, chainLoop, hitems, List.foldlM_cons]
    cases body s l.2 with
    | error r => rfl
    | ok s' =>
      simp only [hnext]
      exact ih f s' (by simpa using hfuel) hrest

theorem WellFormed.leafLoop_eq (h : WellFormed d t T) (body : σ → List Ref → Except ρ σ) (s : σ) :
    t.leafLoop body s = .ok (((leafRow T.2).map Prod.snd).foldlM body s) := by
  obtain ⟨r, hrun, hhead⟩ := h.firstLeaf
  have hloop := chainLoop_eq body (leafRow T.2) t.fuel s h.leafRow_le_fuel
    (chained_leafRow h.reps.holds)
  rw [hhead] at hloop
  simp only [leafLoop, hrun, bind, Except.bind, hloop]

theorem foldlM_foldlM (step : σ → Ref → Except ρ σ) (L : List (List Ref)) (s : σ) :
    L.foldlM (fun s items => items.foldlM step s) s = L.flatten.foldlM step s := by
  induction L generalizing s with
  | nil => rfl
  | cons l L ih => simp [List.foldlM_append, ih]

/-- A loop over the items of every leaf goes through the items of the
tree. -/
theorem WellFormed.itemLoop_eq (h : WellFormed d t T) (step : σ → Ref → Except ρ σ) (s : σ) :
    t.leafLoop (fun s items => items.foldlM step s) s = .ok (T.2.leafItems.foldlM step s) := by
  rw [h.leafLoop_eq, foldlM_foldlM, ← List.flatMap_def, flatMap_snd_leafRow]

theorem WellFormed.treeItems_eq (h : WellFormed d t T) : t.treeItems = .ok T.2.leafItems := by
  have hflat := (chained_leafRow h.reps.holds).flatMap_items
  rw [map_fst_leafRow, flatMap_snd_leafRow] at hflat
  simp only [treeItems, h.leaves_eq, bind, Except.bind, hflat]
  rfl

end Loop

/-! ## What the loops compute -/

/-- `GetByRank` stops at the item whose place it has counted to. -/
theorem foldlM_passRank (L : List Ref) {rank currentRank : Int} (hle : currentRank ≤ rank) :
    L.foldlM (passRank rank) currentRank =
      match L[(rank - currentRank).toNat]? with
      | some item => .error item
      | none => .ok (currentRank + L.length) := by
  induction L generalizing currentRank with
  | nil => simp [pure, Except.pure]
  | cons r L ih =>
    simp only [List.foldlM_cons, passRank]
    by_cases heq : currentRank = rank
    · simp [heq, bind, Except.bind]
    · have hsucc : (rank - currentRank).toNat = (rank - (currentRank + 1)).toNat + 1 := by omega
      simp only [if_neg heq, bind, Except.bind, hsucc, List.getElem?_cons_succ]
      rw [ih (by omega)]
      cases L[(rank - (currentRank + 1)).toNat]? with
      | some item => rfl
      | none => simp; omega

/-- The list a loop of `takeRank` ends with, by a `return` or not. -/
def collected : Except (List Ref) (List Ref × Int) → List Ref
  | .error result => result
  | .ok (result, _) => result

/-- `GetRangeByRank` skips to its first rank and stops after its last. -/
theorem collected_foldlM_takeRank (L : List Ref) {start stop : Int} (result : List Ref)
    (currentRank : Int) (hle : start ≤ stop) (hcur : currentRank ≤ stop + 1) :
    collected (L.foldlM (takeRank start stop) (result, currentRank)) =
      result ++ (L.drop (start - currentRank).toNat).take
        (stop + 1 - max start currentRank).toNat := by
  induction L generalizing result currentRank with
  | nil => simp [collected, pure, Except.pure]
  | cons r L ih =>
    simp only [List.foldlM_cons, takeRank]
    by_cases hstop : currentRank > stop
    · have hnone : (stop + 1 - max start currentRank).toNat = 0 := by omega
      have hout : ¬ (currentRank ≥ start ∧ currentRank ≤ stop) := by omega
      simp [hstop, hout, hnone, bind, Except.bind, collected]
    · simp only [if_neg hstop, bind, Except.bind]
      rw [ih _ _ (by omega)]
      by_cases hstart : currentRank ≥ start
      · have hin : currentRank ≥ start ∧ currentRank ≤ stop := by omega
        have hdrop : (start - currentRank).toNat = 0 := by omega
        have hdrop' : (start - (currentRank + 1)).toNat = 0 := by omega
        have htake : (stop + 1 - max start currentRank).toNat =
            (stop + 1 - max start (currentRank + 1)).toNat + 1 := by omega
        rw [hdrop, hdrop', htake]
        simp [hin]
      · have hout : ¬ (currentRank ≥ start ∧ currentRank ≤ stop) := by omega
        have hdrop : (start - currentRank).toNat = (start - (currentRank + 1)).toNat + 1 := by
          omega
        have htake : max start (currentRank + 1) = max start currentRank := by omega
        simp [hout, hdrop, htake]

theorem foldlM_countItems (L : List (List Ref)) (n : Int) :
    L.foldlM countItems n = .ok (n + L.flatten.length) := by
  induction L generalizing n with
  | nil => simp [pure, Except.pure]
  | cons l L ih =>
    simp only [List.foldlM_cons, countItems, bind, Except.bind, ih, List.flatten_cons,
      List.length_append]
    simp [Int.add_assoc]

/-! ## The queries -/

section Queries

variable {d : Nat} {t : BTreeIndex S} {T : AnyTree Ref}

theorem WellFormed.getByRank_eq (h : WellFormed d t T) (rank : Int) :
    t.getByRank rank = .ok (if 0 ≤ rank then T.2.leafItems[rank.toNat]? else none) := by
  unfold getByRank
  by_cases hneg : rank < 0
  · simp [hneg]
  · have hpos : 0 ≤ rank := by omega
    simp only [if_neg hneg, if_pos hpos, h.itemLoop_eq, foldlM_passRank _ hpos, bind, Except.bind,
      Int.sub_zero]
    cases T.2.leafItems[rank.toNat]? <;> rfl

theorem WellFormed.getRangeByRank_eq (h : WellFormed d t T) (start stop : Int) :
    t.getRangeByRank start stop =
      .ok (if 0 ≤ start ∧ start ≤ stop
        then (T.2.leafItems.drop start.toNat).take (stop - start + 1).toNat else []) := by
  unfold getRangeByRank
  by_cases hout : start < 0 ∨ stop < start
  · have hnot : ¬ (0 ≤ start ∧ start ≤ stop) := by omega
    simp [hout, hnot]
  · have hin : 0 ≤ start ∧ start ≤ stop := by omega
    have hlist := collected_foldlM_takeRank T.2.leafItems [] 0 hin.2 (by omega)
    have htake : (stop + 1 - max start 0).toNat = (stop - start + 1).toNat := by omega
    rw [Int.sub_zero, htake, List.nil_append] at hlist
    simp only [if_neg hout, if_pos hin, h.itemLoop_eq, bind, Except.bind, ← hlist]
    cases T.2.leafItems.foldlM (takeRank start stop) ([], 0) <;> rfl

theorem WellFormed.count_eq (h : WellFormed d t T) : t.count = .ok T.2.leafItems.length := by
  simp only [count, h.leafLoop_eq, foldlM_countItems, bind, Except.bind, Int.zero_add]
  rw [← List.flatMap_def, flatMap_snd_leafRow]

/-- After every sequence of calls, whatever the scores, the queries by rank
answer from the items in the order of the traversal. -/
theorem run_ranks [LT S] [LE S] [BEq S] [DecidableLT S] [DecidableLE S] [Inhabited S]
    (degree : Int) (hd : 2 ≤ degree) (ops : List (Op S)) :
    ∃ t L, (BTreeIndex.new (S := S) degree).run ops = .ok t ∧ t.treeItems = .ok L ∧
      t.count = .ok L.length ∧
      (∀ rank : Int, t.getByRank rank = .ok (if 0 ≤ rank then L[rank.toNat]? else none)) ∧
      (∀ start stop : Int, t.getRangeByRank start stop =
        .ok (if 0 ≤ start ∧ start ≤ stop
          then (L.drop start.toNat).take (stop - start + 1).toNat else [])) ∧
      ∀ member, t.getRank member =
        .ok ((L.findIdx? fun r => (t.item r).member = member).elim (-1) fun i => i) := by
  obtain ⟨d, rfl⟩ := Int.eq_ofNat_of_zero_le (by omega : 0 ≤ degree)
  have hd' : 2 ≤ d := by omega
  obtain ⟨t, T, hrun, h⟩ := run_wellFormed hd' ops (wellFormed_new (S := S) (d := d))
  refine ⟨t, T.2.leafItems, hrun, h.treeItems_eq, h.count_eq, h.getByRank_eq,
    h.getRangeByRank_eq, fun member => ?_⟩
  rw [h.getRank_eq]
  cases T.2.leafItems.findIdx? fun r => (t.item r).member = member <;> rfl

/-- Four members over several leaves, one of them moved. -/
theorem run_ranks_three :
    ∃ t L, (BTreeIndex.new (S := Int) 3).run [.add 1 [97], .add 2 [98], .add 1 [99], .add 3 [100],
        .removeByScore 2 [98], .add 0 [98]] = .ok t ∧ t.treeItems = .ok L ∧
      t.count = .ok L.length ∧ t.getByRank 1 = .ok L[1]? ∧
      t.getRangeByRank 1 2 = .ok ((L.drop 1).take 2) := by
  obtain ⟨t, L, hrun, hL, hcount, hbyRank, hrange, -⟩ := run_ranks (S := Int) 3 (by decide)
    [.add 1 [97], .add 2 [98], .add 1 [99], .add 3 [100], .removeByScore 2 [98], .add 0 [98]]
  exact ⟨t, L, hrun, hL, hcount, hbyRank 1, hrange 1 2⟩

end Queries

end BTreeIndex

end RediGo.SortedSet
