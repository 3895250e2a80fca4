/-
RediGo.SortedSet.SortedSetTheorems — the sorted set over a B+ tree index
against the map it stands for.

`Agrees` ties the two data structures of a set together: the stored
items have pairwise different members, and the score map holds exactly
their scores. One step of the set keeps this and answers as the map
does (`Agrees.step`), on two conditions:

* a call that takes an item out of the index must not meet a stranded
  one (`Safe`). `RemoveByScore` would not find it: the entry stays
  behind, and a score change adds a second one;
* where the order is strict, the score that enters must be new.

With distinct scores the first condition holds by itself, and the set
refines the map (`run_refines`). With ties it is the condition under
which index and score map agree (`run_safe`).
-/
import RediGo.SortedSet.BTreeOrder
import RediGo.SortedSet.SortedSet

namespace RediGo.SortedSet

open RediGo.Lib RediGo.Go

variable {S : Type}

/-! ## A map and the list of its items -/

/-- The items are those of the map, each once. -/
structure ScoreMap.Listed (map : ScoreMap S) (items : List (Item S)) : Prop where
  nodup : (items.map Item.member).Nodup
  agree : ∀ m s, map m = some s ↔ (⟨s, m⟩ : Item S) ∈ items

theorem ScoreMap.Listed.insert {map : ScoreMap S} {X Y : List (Item S)} {i : Item S}
    (h : map.Listed (X ++ Y)) (hnone : map i.member = none) :
    ScoreMap.Listed (Function.update map i.member (some i.score)) (X ++ i :: Y) := by
  have hne : ∀ j ∈ X ++ Y, j.member ≠ i.member := by
    intro j hj heq
    have hsome := (h.agree j.member j.score).mpr hj
    rw [heq, hnone] at hsome
    cases hsome
  refine ⟨?_, ?_⟩
  · have hnd := h.nodup
    rw [List.map_append, List.map_cons, List.perm_middle.nodup_iff, List.nodup_cons,
      ← List.map_append]
    refine ⟨?_, hnd⟩
    intro hmem
    obtain ⟨j, hj, heq⟩ := List.mem_map.mp hmem
    exact hne j hj heq
  · intro m s
    by_cases hm : m = i.member
    · rw [hm, Function.update_self]
      constructor
      · intro heq
        cases heq
        simp
      · intro hmem
        simp only [List.mem_append, List.mem_cons] at hmem
        rcases hmem with hmem | heq | hmem
        · exact (hne _ (List.mem_append_left _ hmem) rfl).elim
        · rw [← heq]
        · exact (hne _ (List.mem_append_right _ hmem) rfl).elim
    · rw [Function.update_of_ne hm, h.agree]
      have hi : (⟨s, m⟩ : Item S) ≠ i := fun heq => hm (congrArg Item.member heq)
      simp only [List.mem_append, List.mem_cons, hi, false_or]

theorem ScoreMap.Listed.erase {map : ScoreMap S} {X Y : List (Item S)} {i : Item S}
    (h : map.Listed (X ++ i :: Y)) :
    ScoreMap.Listed (Function.update map i.member none) (X ++ Y) := by
  have hnd := h.nodup
  rw [List.map_append, List.map_cons, List.nodup_append, List.nodup_cons] at hnd
  obtain ⟨hX, ⟨hiY, hY⟩, hXY⟩ := hnd
  have hne : ∀ j ∈ X ++ Y, j.member ≠ i.member := by
    intro j hj heq
    rcases List.mem_append.mp hj with hj | hj
    · exact hXY _ (List.mem_map_of_mem hj) _ List.mem_cons_self heq
    · exact hiY (heq ▸ List.mem_map_of_mem hj)
  refine ⟨?_, ?_⟩
  · rw [List.map_append, List.nodup_append]
    exact ⟨hX, hY, fun a ha b hb => hXY a ha b (List.mem_cons_of_mem _ hb)⟩
  · intro m s
    by_cases hm : m = i.member
    · rw [hm, Function.update_self]
      constructor
      · intro h0
        cases h0
      · intro hmem
        exact (hne _ hmem rfl).elim
    · rw [Function.update_of_ne hm, h.agree]
      have hi : (⟨s, m⟩ : Item S) ≠ i := fun heq => hm (congrArg Item.member heq)
      simp only [List.mem_append, List.mem_cons, hi, false_or]

/-- How many members of the map satisfy `P`, if those are the first ones of
the list. -/
theorem ScoreMap.Listed.ncard_eq {map : ScoreMap S} {X Y : List (Item S)}
    (h : map.Listed (X ++ Y)) {P : Item S → Prop} (hX : ∀ i ∈ X, P i) (hY : ∀ i ∈ Y, ¬ P i) :
    ({a | ∃ s, map a = some s ∧ P ⟨s, a⟩} : Set Bytes).ncard = X.length := by
  have hset : {a | ∃ s, map a = some s ∧ P ⟨s, a⟩} = {a | a ∈ X.map Item.member} := by
    ext a
    simp only [Set.mem_ofPred_eq]
    constructor
    · rintro ⟨s, hs, hP⟩
      rcases List.mem_append.mp ((h.agree a s).mp hs) with hmem | hmem
      · exact List.mem_map.mpr ⟨_, hmem, rfl⟩
      · exact absurd hP (hY _ hmem)
    · intro ha
      obtain ⟨j, hj, rfl⟩ := List.mem_map.mp ha
      exact ⟨j.score, (h.agree _ _).mpr (List.mem_append_left _ hj), hX j hj⟩
  have hnd := h.nodup
  rw [List.map_append, List.nodup_append] at hnd
  rw [hset, ← List.coe_toFinset, Set.ncard_coe_finset, List.toFinset_card_of_nodup hnd.1,
    List.length_map]

variable [LinearOrder S]

/-! ## One step -/

structure Agrees (d : Nat) (ri : S → S → Prop) (ss : SortedSet (BTreeIndex S) S)
    (T : AnyTree Ref) : Prop extends BTreeIndex.Indexed d ri ss.index T where
  nodup : ((ss.index.view T).map Item.member).Nodup
  agree : ∀ m s, ss.memberScore m = some s ↔ ⟨s, m⟩ ∈ ss.index.view T

/-- A call that takes an item out of the index does not meet a stranded
one. -/
def Safe (ss : SortedSet (BTreeIndex S) S) : Op S → Prop
  | .add score member =>
      ∀ old, ss.memberScore member = some old → old ≠ score → ¬ ss.index.Stranded ⟨old, member⟩
  | .remove member =>
      ∀ old, ss.memberScore member = some old → ¬ ss.index.Stranded ⟨old, member⟩

section Step

variable {d : Nat} {ri : S → S → Prop} {ss : SortedSet (BTreeIndex S) S} {T : AnyTree Ref}

theorem Agrees.listed (h : Agrees d ri ss T) : ss.memberScore.Listed (ss.index.view T) :=
  ⟨h.nodup, h.agree⟩

theorem Agrees.erase (h : Agrees d ri ss T) {t' : BTreeIndex S} {T' : AnyTree Ref} {i : Item S}
    {X Y : List (Item S)} (hix : BTreeIndex.Indexed d ri t' T')
    (hv : ss.index.view T = X ++ i :: Y) (hv' : t'.view T' = X ++ Y) :
    Agrees d ri ⟨t', Function.update ss.memberScore i.member none⟩ T' := by
  have hlisted := h.listed
  rw [hv] at hlisted
  obtain ⟨hnodup, hagree⟩ := hlisted.erase
  rw [← hv'] at hnodup hagree
  exact { toIndexed := hix, nodup := hnodup, agree := hagree }

theorem Agrees.insert (h : Agrees d ri ss T) {t' : BTreeIndex S} {T' : AnyTree Ref} {i : Item S}
    {X Y : List (Item S)} (hnone : ss.memberScore i.member = none)
    (hix : BTreeIndex.Indexed d ri t' T') (hv : ss.index.view T = X ++ Y)
    (hv' : t'.view T' = X ++ i :: Y) :
    Agrees d ri ⟨t', Function.update ss.memberScore i.member (some i.score)⟩ T' := by
  have hlisted := h.listed
  rw [hv] at hlisted
  obtain ⟨hnodup, hagree⟩ := hlisted.insert hnone
  rw [← hv'] at hnodup hagree
  exact { toIndexed := hix, nodup := hnodup, agree := hagree }

/-- The index part of an `Add`: a member the map does not hold enters. -/
theorem Agrees.indexAdd (hri : ∀ a b, ri a b → a ≤ b) (hlt : ∀ a b, a < b → ri a b) (hd : 2 ≤ d)
    (h : Agrees d ri ss T) {i : Item S} (hm : i.member ≠ [])
    (hnone : ss.memberScore i.member = none)
    (hties : (∀ a, ri a a) ∨ ∀ m, ss.memberScore m ≠ some i.score) :
    ∃ t' T' X Y, ss.index.add i.score i.member = .ok (1, t') ∧
      Agrees d ri ⟨t', Function.update ss.memberScore i.member (some i.score)⟩ T' ∧
      ss.index.view T = X ++ Y ∧ t'.view T' = X ++ i :: Y ∧
      (∀ j ∈ X, j.Precedes i ∨ (j.score = i.score ∧ ss.index.Stranded j)) ∧
      ((ss.index.view T).Pairwise Item.Precedes → ∀ j ∈ Y, i.Precedes j) ∧
      (∀ j, ss.index.Stranded j → j.score = i.score → j ∈ X) := by
  have hnew : ∀ j ∈ ss.index.view T, j.member ≠ i.member := by
    intro j hj heq
    have hsome := (h.agree j.member j.score).mpr hj
    rw [heq, hnone] at hsome
    cases hsome
  have hscores : (∀ a, ri a a) ∨ ∀ j ∈ ss.index.view T, j.score ≠ i.score := by
    refine hties.imp_right ?_
    intro hfree j hj heq
    exact hfree j.member (heq ▸ (h.agree j.member j.score).mpr hj)
  obtain ⟨t', T', X, Y, hrun, hix, hv, hv', hX, hY, hstr⟩ :=
    BTreeIndex.add_indexed hri hlt hd h.toIndexed hm hnew hscores
  exact ⟨t', T', X, Y, hrun, h.insert hnone hix hv hv', hv, hv', hX, hY, hstr⟩

/-- The index part of a removal. -/
theorem Agrees.indexRemove (hri : ∀ a b, ri a b → a ≤ b) (hd : 2 ≤ d) (h : Agrees d ri ss T)
    {m : Bytes} {old : S} (hsome : ss.memberScore m = some old)
    (hns : ¬ ss.index.Stranded ⟨old, m⟩) :
    ∃ t' T', ss.index.removeByScore old m = .ok (1, t') ∧
      Agrees d ri ⟨t', Function.update ss.memberScore m none⟩ T' := by
  have hmem := (h.agree m old).mp hsome
  obtain ⟨t', T', X, Y, hrun, hix, hv, hv'⟩ :=
    (BTreeIndex.removeByScore_indexed hri hd h.toIndexed h.nodup hmem).2 hns
  exact ⟨t', T', hrun, h.erase hix hv hv'⟩

theorem add_absent {I : Type} [OrderedIndex I S] {ss : SortedSet I S} {m : Bytes} {s : S}
    {index : I} (hm : m ≠ []) (hnone : ss.memberScore m = none)
    (hadd : OrderedIndex.add ss.index s m = .ok (1, index)) :
    ss.add s m = .ok (1, ⟨index, Function.update ss.memberScore m (some s)⟩) := by
  simp only [add, if_neg hm, hnone, hadd, bind, Except.bind]
  rfl

theorem add_change {I : Type} [OrderedIndex I S] {ss : SortedSet I S} {m : Bytes} {old s : S}
    {index index' : I} {r r' : Int} (hm : m ≠ []) (hsome : ss.memberScore m = some old)
    (hne : old ≠ s) (hrem : OrderedIndex.removeByScore ss.index old m = .ok (r, index))
    (hadd : OrderedIndex.add index s m = .ok (r', index')) :
    ss.add s m = .ok (0, ⟨index', Function.update ss.memberScore m (some s)⟩) := by
  simp only [add, if_neg hm, hsome, beq_iff_eq, if_neg hne, hrem, hadd, bind, Except.bind]
  rfl

omit [LinearOrder S] in
theorem remove_present {I : Type} [OrderedIndex I S] {ss : SortedSet I S} {m : Bytes} {old : S}
    {index : I} (hm : m ≠ []) (hsome : ss.memberScore m = some old)
    (hrem : OrderedIndex.removeByScore ss.index old m = .ok (1, index)) :
    ss.remove m = .ok (1, ⟨index, Function.update ss.memberScore m none⟩) := by
  simp only [remove, if_neg hm, hsome, hrem, bind, Except.bind]
  rfl

omit [LinearOrder S] in
/-- A score that enters a map with distinct scores is held by no other
member. -/
theorem ScoreMap.Distinct.free {map : ScoreMap S} {m m' : Bytes} {s : S}
    (h : ScoreMap.Distinct (Function.update map m (some s))) (hne : m' ≠ m) :
    map m' ≠ some s := by
  intro hsome
  refine hne (h m' m s ?_ ?_)
  · rw [Function.update_of_ne hne, hsome]
  · rw [Function.update_self]

/-- One call on a set whose two structures agree: it answers as the map
does, and they agree again. -/
theorem Agrees.step (hri : ∀ a b, ri a b → a ≤ b) (hlt : ∀ a b, a < b → ri a b) (hd : 2 ≤ d)
    (h : Agrees d ri ss T) {op : Op S} (hm : op.member ≠ []) (hsafe : Safe ss op)
    (hties : (∀ a, ri a a) ∨ (ss.memberScore.step op).2.Distinct) :
    ∃ ss' T', ss.step op = .ok ((ss.memberScore.step op).1, ss') ∧
      ss'.memberScore = (ss.memberScore.step op).2 ∧ Agrees d ri ss' T' := by
  cases op with
  | add s m =>
    have hm' : m ≠ [] := hm
    cases hscore : ss.memberScore m with
    | none =>
      have hfree : (∀ a, ri a a) ∨ ∀ m', ss.memberScore m' ≠ some s := by
        refine hties.imp_right ?_
        intro hdist m'
        by_cases heq : m' = m
        · simp [heq, hscore]
        · exact ScoreMap.Distinct.free hdist heq
      obtain ⟨t', T', -, -, hrun, hag, -⟩ :=
        h.indexAdd hri hlt hd (i := ⟨s, m⟩) hm' hscore hfree
      refine ⟨_, T', ?_, rfl, hag⟩
      rw [SortedSet.step, add_absent hm' hscore hrun]
      simp [ScoreMap.step, hscore]
    | some old =>
      by_cases heq : old = s
      · -- the same score again: nothing is done
        refine ⟨ss, T, ?_, ?_, h⟩
        · simp only [SortedSet.step, add, if_neg hm', hscore, beq_iff_eq, if_pos heq, ScoreMap.step]
          rfl
        · rw [ScoreMap.step, ← heq, ← hscore, Function.update_eq_self]
      · obtain ⟨t₁, T₁, hrem, hag₁⟩ := h.indexRemove hri hd hscore (hsafe old hscore heq)
        have hfree : (∀ a, ri a a) ∨ ∀ m', Function.update ss.memberScore m none m' ≠ some s := by
          refine hties.imp_right ?_
          intro hdist m'
          by_cases heq' : m' = m
          · simp [heq']
          · rw [Function.update_of_ne heq']
            exact ScoreMap.Distinct.free hdist heq'
        obtain ⟨t', T', -, -, hrun, hag, -⟩ :=
          hag₁.indexAdd hri hlt hd (i := ⟨s, m⟩) hm' (Function.update_self ..) hfree
        simp only [Function.update_idem] at hag
        refine ⟨_, T', ?_, rfl, hag⟩
        rw [SortedSet.step, add_change hm' hscore heq hrem hrun]
        simp [ScoreMap.step, hscore]
  | remove m =>
    have hm' : m ≠ [] := hm
    cases hscore : ss.memberScore m with
    | none =>
      refine ⟨ss, T, ?_, ?_, h⟩
      · simp only [SortedSet.step, remove, if_neg hm', hscore, ScoreMap.step]
        rfl
      · rw [ScoreMap.step, ← hscore, Function.update_eq_self]
    | some old =>
      obtain ⟨t', T', hrem, hag⟩ := h.indexRemove hri hd hscore (hsafe old hscore)
      refine ⟨_, T', ?_, rfl, hag⟩
      rw [SortedSet.step, remove_present hm' hscore hrem]
      simp [ScoreMap.step, hscore]

end Step

/-! ## Ranks -/

section Rank

variable {d : Nat} {ri : S → S → Prop} {ss : SortedSet (BTreeIndex S) S} {T : AnyTree Ref}

/-- `GetRank` is the position among the stored items. -/
theorem Agrees.getRank_split (h : Agrees d ri ss T) {i : Item S} {X Y : List (Item S)}
    (hv : ss.index.view T = X ++ i :: Y) : ss.getRank i.member = .ok X.length := by
  have hnd := h.nodup
  rw [hv, List.map_append, List.nodup_append] at hnd
  have hX : ∀ j ∈ X, j.member ≠ i.member := by
    intro j hj
    exact hnd.2.2 _ (List.mem_map_of_mem hj) _ (by simp)
  have hfind : (ss.index.view T).findIdx? (fun j => j.member = i.member) = some X.length := by
    rw [hv, List.findIdx?_append, List.findIdx?_eq_none_iff.mpr (by simpa using hX)]
    simp [List.findIdx?_cons]
  rw [BTreeIndex.view, List.findIdx?_map] at hfind
  show ss.index.getRank i.member = _
  rw [h.toWellFormed.getRank_eq]
  have hfind' : T.2.leafItems.findIdx? (fun r => (ss.index.item r).member = i.member)
      = some X.length := hfind
  rw [hfind']

theorem Agrees.getRank_absent (h : Agrees d ri ss T) {m : Bytes}
    (hnone : ss.memberScore m = none) : ss.getRank m = .ok (-1) := by
  have hfind : T.2.leafItems.findIdx? (fun r => (ss.index.item r).member = m) = none := by
    rw [List.findIdx?_eq_none_iff]
    intro r hr
    have hmem : ss.index.item r ∈ ss.index.view T := List.mem_map_of_mem hr
    have hsome := (h.agree (ss.index.item r).member (ss.index.item r).score).mpr hmem
    by_contra hm
    simp only [decide_eq_false_iff_not, not_not] at hm
    rw [hm, hnone] at hsome
    cases hsome
  show ss.index.getRank m = _
  rw [h.toWellFormed.getRank_eq, hfind]

/-- Where scores are distinct, the position is the number of smaller
scores. -/
theorem Agrees.getRank_eq_rank (h : Agrees d (· < ·) ss T) (m : Bytes) :
    ss.getRank m = .ok (ss.memberScore.rank m) := by
  cases hscore : ss.memberScore m with
  | none =>
    rw [h.getRank_absent hscore, ScoreMap.rank, hscore]
  | some s =>
    obtain ⟨X, Y, hv⟩ := List.append_of_mem ((h.agree m s).mp hscore)
    have hlt : (ss.index.view T).Pairwise (fun i j => i.score < j.score) := by
      have hs := h.sorted
      have hsub := hs.filterMap Mark.item? (S := fun x y => ss.index.scoreOf x < ss.index.scoreOf y)
        ?_
      · rw [← LevelTree.leafItems_eq_inorder] at hsub
        exact List.pairwise_map.mpr hsub
      · intro a a' haa b hb b' hb'
        cases a with
        | sep x => cases hb
        | item x =>
          cases a' with
          | sep y => cases hb'
          | item y =>
            cases hb
            cases hb'
            exact haa
    rw [hv, List.pairwise_append, List.pairwise_cons] at hlt
    obtain ⟨-, ⟨hY, -⟩, hX⟩ := hlt
    have hlisted := h.listed
    rw [hv] at hlisted
    -- the smaller members are those of `X`
    have hcard := hlisted.ncard_eq (P := fun j => j.score < s) (fun j hj => hX j hj ⟨s, m⟩ (by simp))
      (by
        intro j hj
        rcases List.mem_cons.mp hj with rfl | hj
        · exact lt_irrefl _
        · exact lt_asymm (hY j hj))
    rw [h.getRank_split hv, ScoreMap.rank, hscore]
    simp only [hcard]

end Rank

/-! ## Runs with distinct scores -/

theorem agrees_new [Inhabited S] (ri : S → S → Prop) (degree : Int) (hdeg : degree ≠ 1) :
    ∃ d T, 2 ≤ d ∧ Agrees d ri (newSortedSetWithBTree (S := S) degree) T := by
  obtain ⟨d, hd, hindex⟩ : ∃ d : Nat, 2 ≤ d ∧
      (newSortedSetWithBTree (S := S) degree).index = BTreeIndex.new d :=
    BTreeIndex.exists_newOrderedIndex_eq hdeg
  refine ⟨d, ⟨0, .leaf 0 []⟩, hd, ?_⟩
  refine { toIndexed := ?_, nodup := ?_, agree := ?_ }
  · rw [hindex]
    exact BTreeIndex.indexed_new
  · simp [BTreeIndex.view]
  · simp [BTreeIndex.view, newSortedSetWithBTree]

/-- Under the strict order every call is safe. -/
theorem Agrees.safe {d : Nat} {ss : SortedSet (BTreeIndex S) S} {T : AnyTree Ref}
    (h : Agrees d (· < ·) ss T) (op : Op S) : Safe ss op := by
  have hns : ∀ i, ¬ ss.index.Stranded i := by
    intro i hi
    obtain ⟨r, -, hr⟩ := (h.toWellFormed.stranded_iff i).mp hi
    exact not_stranded_of_sorted h.sorted r hr
  cases op with
  | add s m => exact fun old _ _ => hns _
  | remove m => exact fun old _ => hns _

/-- A run each call of which is safe. What makes the calls safe, `I`, is a
property of a set and of the calls still to come. -/
theorem Agrees.run {d : Nat} {ri : S → S → Prop} (hri : ∀ a b, ri a b → a ≤ b)
    (hlt : ∀ a b, a < b → ri a b) (hd : 2 ≤ d) {I : SortedSet (BTreeIndex S) S → List (Op S) → Prop}
    (hI : ∀ {ss T op ops}, Agrees d ri ss T → I ss (op :: ops) → Safe ss op ∧
      ((∀ a, ri a a) ∨ (ss.memberScore.step op).2.Distinct) ∧
      ∀ r ss', ss.step op = .ok (r, ss') → ss'.memberScore = (ss.memberScore.step op).2 → I ss' ops)
    (ops : List (Op S)) :
    ∀ {ss : SortedSet (BTreeIndex S) S} {T : AnyTree Ref}, Agrees d ri ss T →
      (∀ op ∈ ops, op.member ≠ []) → I ss ops →
      ∃ ss' T', ss.run ops = .ok ((ss.memberScore.run ops).1, ss') ∧
        ss'.memberScore = (ss.memberScore.run ops).2 ∧ Agrees d ri ss' T' := by
  induction ops with
  | nil => exact fun {ss T} h _ _ => ⟨ss, T, rfl, rfl, h⟩
  | cons op ops ih =>
    intro ss T h hne hops
    obtain ⟨hsafe, hties, hnext⟩ := hI h hops
    obtain ⟨ss₁, T₁, hstep, hmap, h₁⟩ :=
      h.step hri hlt hd (hne op List.mem_cons_self) hsafe hties
    obtain ⟨ss', T', hrun, hmap', h'⟩ :=
      ih h₁ (fun o ho => hne o (List.mem_cons_of_mem _ ho)) (hnext _ _ hstep hmap)
    rw [hmap] at hrun hmap'
    refine ⟨ss', T', ?_, hmap', h'⟩
    simp only [SortedSet.run, hstep, hrun, bind, Except.bind]
    rfl

theorem Agrees.run_distinct {d : Nat} (hd : 2 ≤ d) (ops : List (Op S))
    {ss : SortedSet (BTreeIndex S) S} {T : AnyTree Ref} (h : Agrees d (· < ·) ss T)
    (hne : ∀ op ∈ ops, op.member ≠ [])
    (hdist : ∀ p, p <+: ops → (ss.memberScore.run p).2.Distinct) :
    ∃ ss' T', ss.run ops = .ok ((ss.memberScore.run ops).1, ss') ∧
      ss'.memberScore = (ss.memberScore.run ops).2 ∧ Agrees d (· < ·) ss' T' := by
  refine Agrees.run (fun _ _ => le_of_lt) (fun _ _ => id) hd
    (I := fun ss ops => ∀ p, p <+: ops → (ss.memberScore.run p).2.Distinct) ?_ ops h hne hdist
  intro ss T op ops h hdist
  refine ⟨h.safe op, .inr (hdist [op] (by simp)), fun r ss' _ hmap p hp => ?_⟩
  rw [hmap]
  exact hdist (op :: p) (List.cons_prefix_cons.mpr ⟨rfl, hp⟩)

/-- A sorted set over a B+ tree index, used with distinct scores, is the
map of its scores: the replies are those of the map, `GetScore` reads it
and `GetRank` counts the smaller scores. -/
theorem run_refines [Inhabited S] (degree : Int) (hdeg : 2 ≤ degree) (ops : List (Op S))
    (hne : ∀ op ∈ ops, op.member ≠ [])
    (hdist : ∀ p, p <+: ops → (ScoreMap.run (fun _ => none) p).2.Distinct) :
    ∃ ss, (newSortedSetWithBTree (S := S) degree).run ops
        = .ok ((ScoreMap.run (fun _ => none) ops).1, ss) ∧
      ∀ m, ss.getScore m = (ScoreMap.run (fun _ => none) ops).2 m ∧
        ss.getRank m = .ok ((ScoreMap.run (fun _ => none) ops).2.rank m) ∧
        (ss.getRank m = .ok (-1) ↔ (ScoreMap.run (fun _ => none) ops).2 m = none) := by
  obtain ⟨d, T, hd, hnew⟩ := agrees_new (S := S) (· < ·) degree (by omega)
  obtain ⟨ss, T', hrun, hmap, h⟩ := hnew.run_distinct hd ops hne hdist
  have hmap' : ss.memberScore = (ScoreMap.run (fun _ => none) ops).2 := hmap
  refine ⟨ss, hrun, ?_⟩
  intro m
  rw [← hmap']
  refine ⟨rfl, h.getRank_eq_rank m, ?_⟩
  rw [h.getRank_eq_rank m, ScoreMap.rank]
  cases ss.memberScore m with
  | none => simp
  | some s => simp

theorem run_refines_three : ∃ ss, (newSortedSetWithBTree (S := Int) 3).run
      [.add 1 [97], .add 2 [98], .remove [97]]
        = .ok ((ScoreMap.run (fun _ => none) [.add (1 : Int) [97], .add 2 [98], .remove [97]]).1, ss) ∧
      ∀ m, ss.getScore m
          = (ScoreMap.run (fun _ => none) [.add (1 : Int) [97], .add 2 [98], .remove [97]]).2 m ∧
        ss.getRank m = .ok
          ((ScoreMap.run (fun _ => none) [.add (1 : Int) [97], .add 2 [98], .remove [97]]).2.rank m) ∧
        (ss.getRank m = .ok (-1) ↔ (ScoreMap.run (fun _ => none)
          [.add (1 : Int) [97], .add 2 [98], .remove [97]]).2 m = none) := by
  refine run_refines 3 (by decide) _ (by simp [Op.member]) ?_
  intro p hp a b s
  simp only [List.prefix_cons_iff, List.prefix_nil] at hp
  rcases hp with rfl | ⟨_, rfl, rfl | ⟨_, rfl, rfl | ⟨_, rfl, rfl⟩⟩⟩ <;>
    simp only [ScoreMap.run, ScoreMap.step, Function.update_apply] <;> grind

end RediGo.SortedSet
