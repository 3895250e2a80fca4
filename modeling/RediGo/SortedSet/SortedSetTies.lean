/-
RediGo.SortedSet.SortedSetTies — the sorted set over a B+ tree index when
scores may be equal.

The descent compares scores only, so equal scores that a split put on
both sides of a separator are told apart by nothing: what stands to the
left of the separator is stranded. Two things go wrong, and both exactly
there.

* A removal or a score change of a stranded member does not find its
  entry (`strands_three`). Runs without such a call keep index and score
  map in agreement (`run_safe`).
* A member that enters behind a stranded one of the same score and a
  greater name is ranked the wrong way round (`misranks_four`). Runs of
  additions without such a call, and only those, rank equal scores by
  name (`ties_ranked_iff`).
-/
import RediGo.SortedSet.SortedSetTheorems

namespace RediGo.SortedSet

open RediGo.Lib RediGo.Go

variable {S : Type} [LinearOrder S]

/-! ## Removals and score changes -/

/-- The score map holds `s` for a member exactly if the leaves hold one
item of it and this item has the score `s`. -/
def IndexAgrees (ss : SortedSet (BTreeIndex S) S) : Prop :=
  ∃ es, ss.index.entries = .ok es ∧
    ∀ m s, ss.memberScore m = some s ↔ es.filter (fun i => i.member = m) = [⟨s, m⟩]

/-- Every call of the run is safe in the state it is made in. -/
def SafeRun (ss : SortedSet (BTreeIndex S) S) : List (Op S) → Prop
  | [] => True
  | op :: ops => Safe ss op ∧ ∀ r ss', ss.step op = .ok (r, ss') → SafeRun ss' ops

/-- Degree 3 and three equal scores: the split leaves the first member to
the left of a separator of its score. It is not removed, and a score
change stores it twice. -/
theorem strands_three :
    ((newSortedSetWithBTree (S := Int) 3).run
        [.add 1 [97], .add 1 [98], .add 1 [99], .remove [97]]).map Prod.fst
      = .ok [1, 1, 1, 0] ∧
    ((newSortedSetWithBTree (S := Int) 3).run
        [.add 1 [97], .add 1 [98], .add 1 [99], .add 2 [97]]).bind (fun r => r.2.index.entries)
      = .ok [⟨1, [97]⟩, ⟨1, [98]⟩, ⟨1, [99]⟩, ⟨2, [97]⟩] :=
  ⟨rfl, rfl⟩

theorem Agrees.indexAgrees {d : Nat} {ri : S → S → Prop} {ss : SortedSet (BTreeIndex S) S}
    {T : AnyTree Ref} (h : Agrees d ri ss T) : IndexAgrees ss := by
  refine ⟨ss.index.view T, h.toWellFormed.entries_eq, ?_⟩
  intro m s
  rw [h.agree]
  constructor
  · intro hmem
    obtain ⟨X, Y, hv⟩ := List.append_of_mem hmem
    have hnd := h.nodup
    rw [hv, List.map_append, List.map_cons, List.nodup_append, List.nodup_cons] at hnd
    have hX : X.filter (fun i => i.member = m) = [] := by
      rw [List.filter_eq_nil_iff]
      intro j hj
      have := hnd.2.2 _ (List.mem_map_of_mem hj) _ List.mem_cons_self
      simpa using this
    have hY : Y.filter (fun i => i.member = m) = [] := by
      rw [List.filter_eq_nil_iff]
      intro j hj hjm
      exact hnd.2.1.1 (List.mem_map.mpr ⟨j, hj, by simpa using hjm⟩)
    rw [hv, List.filter_append, List.filter_cons, hX, hY]
    simp
  · intro hfilter
    have hmem : (⟨s, m⟩ : Item S) ∈ (ss.index.view T).filter (fun i => i.member = m) := by
      rw [hfilter]
      exact List.mem_singleton_self _
    exact (List.mem_filter.mp hmem).1

theorem Agrees.run_kept {d : Nat} (hd : 2 ≤ d) (ops : List (Op S))
    {ss : SortedSet (BTreeIndex S) S} {T : AnyTree Ref} (h : Agrees d (· ≤ ·) ss T)
    (hne : ∀ op ∈ ops, op.member ≠ []) (hsafe : SafeRun ss ops) :
    ∃ ss' T', ss.run ops = .ok ((ss.memberScore.run ops).1, ss') ∧
      ss'.memberScore = (ss.memberScore.run ops).2 ∧ Agrees d (· ≤ ·) ss' T' := by
  refine Agrees.run (fun _ _ => id) (fun _ _ => le_of_lt) hd (I := SafeRun) ?_ ops h hne hsafe
  intro ss T op ops _ hsafe
  exact ⟨hsafe.1, .inl le_refl, fun r ss' hstep _ => hsafe.2 r ss' hstep⟩

/-- What `Remove` of a member in the map replies. -/
theorem Agrees.remove_iff {d : Nat} {ri : S → S → Prop} (hri : ∀ a b, ri a b → a ≤ b)
    (hd : 2 ≤ d) {ss : SortedSet (BTreeIndex S) S} {T : AnyTree Ref} (h : Agrees d ri ss T)
    {m : Bytes} {s : S} (hm : m ≠ []) (hsome : ss.memberScore m = some s) :
    (∃ ss', ss.remove m = .ok (1, ss')) ↔ ¬ ss.index.Stranded ⟨s, m⟩ := by
  constructor
  · rintro ⟨ss', hrun⟩ hst
    have hrem := (BTreeIndex.removeByScore_indexed hri hd h.toIndexed h.nodup
      ((h.agree m s).mp hsome)).1 hst
    have hzero : ss.remove m = .ok (0, ⟨ss.index, ss.memberScore⟩) := by
      have hrem' : OrderedIndex.removeByScore ss.index s m = .ok (0, ss.index) := hrem
      simp only [remove, if_neg hm, hsome, hrem', bind, Except.bind]
      rfl
    rw [hzero] at hrun
    cases hrun
  · intro hns
    obtain ⟨t', T', hrem, -⟩ := h.indexRemove hri hd hsome hns
    exact ⟨_, remove_present hm hsome hrem⟩

/-- With degree 1 no addition comes back: a leaf of one item is over
capacity, and so is every root above it. Only removals do, and they
find nothing. -/
theorem run_degree_one [Inhabited S] (ops : List (Op S)) :
    (∀ op ∈ ops, op.member ≠ []) → ∀ results ss,
      (newSortedSetWithBTree (S := S) 1).run ops = .ok (results, ss) →
      ss = newSortedSetWithBTree 1 ∧
        ScoreMap.run (fun _ => none) ops = (results, fun _ => (none : Option S)) := by
  induction ops with
  | nil =>
    intro _ results ss hrun
    cases hrun
    exact ⟨rfl, rfl⟩
  | cons op ops ih =>
    intro hne results ss hrun
    cases op with
    | add s m =>
      have hm : m ≠ [] := hne (.add s m) List.mem_cons_self
      have hadd : OrderedIndex.add (newSortedSetWithBTree (S := S) 1).index s m
          = .error .fuel := BTreeIndex.addWith_degree_one _ s hm
      have hscore : (newSortedSetWithBTree (S := S) 1).memberScore m = none := rfl
      simp only [SortedSet.run, SortedSet.step, add, if_neg hm, hscore, hadd, bind,
        Except.bind] at hrun
      cases hrun
    | remove m =>
      have hm : m ≠ [] := hne (.remove m) List.mem_cons_self
      have hstep : (newSortedSetWithBTree (S := S) 1).step (.remove m)
          = .ok (0, newSortedSetWithBTree 1) := by
        simp only [SortedSet.step, remove, if_neg hm]
        rfl
      have hmap : ScoreMap.step (fun _ => none) (.remove m) = (0, fun _ => (none : Option S)) := by
        simp [ScoreMap.step, Function.update_eq_self]
      obtain ⟨_, hfirst, hrun⟩ := bind_eq_ok hrun
      cases hstep.symm.trans hfirst
      obtain ⟨out, hrest, hrun⟩ := bind_eq_ok hrun
      cases hrun
      obtain ⟨hss, hmaps⟩ := ih (fun o ho => hne o (List.mem_cons_of_mem _ ho)) out.1 out.2 hrest
      refine ⟨hss, ?_⟩
      rw [ScoreMap.run, hmap, hmaps]

/-- In a run in which no removal and no score change meets a stranded
member, the replies are those of the score map, and index and score map
agree in the state reached; there `Remove` of a member succeeds exactly
if the member is not stranded. -/
theorem run_safe [Inhabited S] (degree : Int) (ops : List (Op S))
    (hne : ∀ op ∈ ops, op.member ≠ [])
    (hsafe : SafeRun (newSortedSetWithBTree degree) ops) :
    (degree ≠ 1 → ∃ out, (newSortedSetWithBTree (S := S) degree).run ops = .ok out) ∧
    ∀ results ss, (newSortedSetWithBTree (S := S) degree).run ops = .ok (results, ss) →
      (results, ss.memberScore) = ScoreMap.run (fun _ => none) ops ∧ IndexAgrees ss ∧
      ∀ m s, m ≠ [] → ss.memberScore m = some s →
        ((∃ ss', ss.remove m = .ok (1, ss')) ↔ ¬ ss.index.Stranded ⟨s, m⟩) := by
  by_cases hone : degree = 1
  · refine ⟨fun h => absurd hone h, ?_⟩
    intro results ss hrun
    rw [hone] at hrun
    obtain ⟨rfl, hmap⟩ := run_degree_one ops hne results ss hrun
    refine ⟨hmap.symm, ⟨[], rfl, ?_⟩, ?_⟩
    · simp [newSortedSetWithBTree]
    · intro m s _ hsome
      cases hsome
  · obtain ⟨d, T, hd, hnew⟩ := agrees_new (S := S) (· ≤ ·) degree hone
    obtain ⟨ss', T', hrun', hmap, h⟩ := hnew.run_kept hd ops hne hsafe
    refine ⟨fun _ => ⟨_, hrun'⟩, ?_⟩
    intro results ss hrun
    rw [hrun'] at hrun
    cases hrun
    refine ⟨?_, h.indexAgrees, fun m s hm hsome => h.remove_iff (fun a b => id) hd hm hsome⟩
    rw [hmap]
    rfl

theorem safeRun_cons {ss ss₁ : SortedSet (BTreeIndex S) S} {op : Op S} {ops : List (Op S)}
    {r : Int} (hstep : ss.step op = .ok (r, ss₁)) (hsafe : Safe ss op) (h : SafeRun ss₁ ops) :
    SafeRun ss (op :: ops) := by
  refine ⟨hsafe, ?_⟩
  intro r' ss' hrun
  rw [hstep] at hrun
  cases hrun
  exact h

/-- The last of three equal scores can be removed. -/
theorem run_safe_three :
    (∃ out, (newSortedSetWithBTree (S := Int) 3).run
        [.add 1 [97], .add 1 [98], .add 1 [99], .remove [99]] = .ok out) ∧
    ∀ results ss, (newSortedSetWithBTree (S := Int) 3).run
        [.add 1 [97], .add 1 [98], .add 1 [99], .remove [99]] = .ok (results, ss) →
      (results, ss.memberScore) = ScoreMap.run (fun _ => none)
        [.add 1 [97], .add 1 [98], .add 1 [99], .remove [99]] ∧ IndexAgrees ss ∧
      ∀ m s, m ≠ [] → ss.memberScore m = some s →
        ((∃ ss', ss.remove m = .ok (1, ss')) ↔ ¬ ss.index.Stranded ⟨s, m⟩) := by
  have hsafe : SafeRun (newSortedSetWithBTree (S := Int) 3)
      [.add 1 [97], .add 1 [98], .add 1 [99], .remove [99]] := by
    refine safeRun_cons (r := 1) rfl (fun old hold => by cases hold) ?_
    refine safeRun_cons (r := 1) rfl (fun old hold => by cases hold) ?_
    refine safeRun_cons (r := 1) rfl (fun old hold => by cases hold) ?_
    refine safeRun_cons (r := 1) rfl ?_ trivial
    intro old hold
    cases hold
    decide
  have h := run_safe 3 [.add 1 [97], .add 1 [98], .add 1 [99], .remove [99]]
    (by simp [Op.member]) hsafe
  exact ⟨h.1 (by decide), h.2⟩

/-! ## Ranks of equal scores -/

/-- The calls that add the given items. -/
def addAll (adds : List (Item S)) : List (Op S) := adds.map (fun i => .add i.score i.member)

/-- No addition of the run enters behind a stranded item of its score
whose member is greater. -/
def Orderly (ss : SortedSet (BTreeIndex S) S) : List (Item S) → Prop
  | [] => True
  | i :: is => (∀ m, ss.index.Stranded ⟨i.score, m⟩ → ¬ i.member < m) ∧
      ∀ r ss', ss.add i.score i.member = .ok (r, ss') → Orderly ss' is

/-- Of two members with equal scores the smaller name has the smaller rank. -/
def TiesRanked (ss : SortedSet (BTreeIndex S) S) (adds : List (Item S)) : Prop :=
  ∀ i ∈ adds, ∀ j ∈ adds, i.score = j.score → i.member < j.member →
    ∃ a b, ss.getRank i.member = .ok a ∧ ss.getRank j.member = .ok b ∧ a < b

/-- Degree 3 and four equal scores: the first member in byte order comes
last and enters behind a stranded one. -/
theorem misranks_four :
    ((newSortedSetWithBTree (S := Int) 3).run
        (addAll [⟨1, [98]⟩, ⟨1, [99]⟩, ⟨1, [100]⟩, ⟨1, [97]⟩])).bind
          (fun r => (r.2.getRank [97]).bind (fun a => (r.2.getRank [98]).map (fun b => (a, b))))
      = .ok (1, 0) := rfl

/-- What a run of additions leaves in the index. The last two parts are
the two directions of the rank theorem: an orderly run keeps the items
in order, and an addition that is not orderly leaves a pair the wrong
way round for good. -/
structure Added (d : Nat) (ss : SortedSet (BTreeIndex S) S) (T : AnyTree Ref)
    (adds : List (Item S)) (ss' : SortedSet (BTreeIndex S) S) (T' : AnyTree Ref) : Prop where
  agrees : Agrees d (· ≤ ·) ss' T'
  kept : (ss.index.view T).Sublist (ss'.index.view T')
  mem : ∀ i, i ∈ ss'.index.view T' ↔ i ∈ ss.index.view T ∨ i ∈ adds
  ordered : (ss.index.view T).Pairwise Item.Precedes → Orderly ss adds →
    (ss'.index.view T').Pairwise Item.Precedes
  swapped : ¬ Orderly ss adds → ∃ i j : Item S, List.Sublist [j, i] (ss'.index.view T') ∧
    i.score = j.score ∧ i.member < j.member

theorem Agrees.run_adds {d : Nat} (hd : 2 ≤ d) (adds : List (Item S)) :
    ∀ {ss : SortedSet (BTreeIndex S) S} {T : AnyTree Ref}, Agrees d (· ≤ ·) ss T →
      (∀ i ∈ adds, i.member ≠ []) → (adds.map Item.member).Nodup →
      (∀ i ∈ adds, ss.memberScore i.member = none) →
      ∃ rs ss' T', ss.run (addAll adds) = .ok (rs, ss') ∧ Added d ss T adds ss' T' := by
  induction adds with
  | nil =>
    intro ss T h _ _ _
    refine ⟨[], ss, T, rfl, h, List.Sublist.refl _, by simp, fun hs _ => hs, ?_⟩
    intro hnot
    exact absurd trivial hnot
  | cons i adds ih =>
    intro ss T h hne hnd hnone
    rw [List.map_cons, List.nodup_cons] at hnd
    have hni : ss.memberScore i.member = none := hnone i List.mem_cons_self
    have hmi : i.member ≠ [] := hne i List.mem_cons_self
    obtain ⟨t₁, T₁, X, Y, hrun, hag, hv, hv₁, hX, hY, hstr⟩ :=
      h.indexAdd (fun a b => id) (fun a b => le_of_lt) hd hmi hni (Or.inl le_refl)
    have hstep := add_absent hmi hni hrun
    obtain ⟨rs, ss', T', hrun', had⟩ := ih hag
      (fun j hj => hne j (List.mem_cons_of_mem _ hj)) hnd.2 (by
        intro j hj
        have hji : j.member ≠ i.member :=
          fun heq => hnd.1 (heq ▸ List.mem_map_of_mem hj)
        show Function.update ss.memberScore i.member (some i.score) j.member = none
        rw [Function.update_of_ne hji]
        exact hnone j (List.mem_cons_of_mem _ hj))
    have hkept : (ss.index.view T).Sublist (t₁.view T₁) := by
      rw [hv, hv₁]
      exact (List.Sublist.refl X).append (List.sublist_cons_self i Y)
    refine ⟨1 :: rs, ss', T', ?_, had.agrees, hkept.trans had.kept, ?_, ?_, ?_⟩
    · simp only [addAll, List.map_cons, SortedSet.run, SortedSet.step, hstep, bind, Except.bind]
      simp only [addAll] at hrun'
      rw [hrun']
      rfl
    · intro j
      rw [had.mem, List.mem_cons, hv]
      show j ∈ t₁.view T₁ ∨ _ ↔ _
      rw [hv₁]
      simp only [List.mem_append, List.mem_cons]
      tauto
    · intro hlex hord
      refine had.ordered ?_ (hord.2 _ _ hstep)
      show (t₁.view T₁).Pairwise Item.Precedes
      rw [hv₁]
      rw [hv] at hlex hY
      refine pairwise_insert hlex ?_ (hY hlex)
      intro j hj
      rcases hX j hj with hp | ⟨hscore, hst⟩
      · exact hp
      · have hj' : (⟨i.score, j.member⟩ : Item S) = j := by rw [← hscore]
        have hnlt := hord.1 j.member (hj' ▸ hst)
        have hjv : j ∈ ss.index.view T := by
          rw [hv]
          exact List.mem_append_left _ hj
        have hneq : j.member ≠ i.member := by
          intro heq
          have hsome := (h.agree j.member j.score).mpr hjv
          rw [heq, hni] at hsome
          cases hsome
        exact Or.inr ⟨hscore, lt_of_le_of_ne (not_lt.mp hnlt) hneq⟩
    · intro hnot
      by_cases hhead : ∀ m, ss.index.Stranded ⟨i.score, m⟩ → ¬ i.member < m
      · refine had.swapped ?_
        intro htail
        refine hnot ⟨hhead, ?_⟩
        intro r ss₂ hr
        rw [hstep] at hr
        cases hr
        exact htail
      · -- the stranded item stands in `X`, the new one behind `X`
        simp only [not_forall, not_not] at hhead
        obtain ⟨m, hst, hlt⟩ := hhead
        refine ⟨i, ⟨i.score, m⟩, List.Sublist.trans ?_ had.kept, rfl, hlt⟩
        show List.Sublist [⟨i.score, m⟩, i] (t₁.view T₁)
        rw [hv₁]
        exact (List.singleton_sublist.mpr (hstr _ hst rfl)).append
          (List.singleton_sublist.mpr List.mem_cons_self)

/-- Ranks follow the positions of the stored items. -/
theorem Agrees.getRank_lt {d : Nat} {ri : S → S → Prop} {ss : SortedSet (BTreeIndex S) S}
    {T : AnyTree Ref} (h : Agrees d ri ss T) {i j : Item S}
    (hij : List.Sublist [i, j] (ss.index.view T)) :
    ∃ a b, ss.getRank i.member = .ok a ∧ ss.getRank j.member = .ok b ∧ a < b := by
  obtain ⟨K, L, hv, hi, hj⟩ := List.cons_sublist_iff.mp hij
  obtain ⟨X, Y, rfl⟩ := List.append_of_mem hi
  obtain ⟨Z, W, rfl⟩ := List.append_of_mem (List.singleton_sublist.mp hj)
  refine ⟨X.length, (X ++ i :: (Y ++ Z)).length, ?_, ?_, ?_⟩
  · exact h.getRank_split (Y := Y ++ (Z ++ j :: W)) (by rw [hv]; simp)
  · exact h.getRank_split (Y := W) (by rw [hv]; simp)
  · simp
    omega

/-- Additions of pairwise distinct members rank equal scores by name
exactly if none of them enters behind a stranded item of its score with a
greater member. -/
theorem ties_ranked_iff [Inhabited S] (degree : Int) (hdeg : 3 ≤ degree) (adds : List (Item S))
    (hne : ∀ i ∈ adds, i.member ≠ []) (hnd : (adds.map Item.member).Nodup) :
    ∃ rs ss, (newSortedSetWithBTree (S := S) degree).run (addAll adds) = .ok (rs, ss) ∧
      (TiesRanked ss adds ↔ Orderly (newSortedSetWithBTree (S := S) degree) adds) := by
  obtain ⟨d, T, hd, hnew⟩ := agrees_new (S := S) (· ≤ ·) degree (by omega)
  obtain ⟨rs, ss, T', hrun, had⟩ := hnew.run_adds hd adds hne hnd (fun _ _ => rfl)
  have hempty : (newSortedSetWithBTree (S := S) degree).index.view T = [] := by
    rw [List.eq_nil_iff_forall_not_mem]
    intro i hi
    have hsome := (hnew.agree i.member i.score).mpr hi
    cases hsome
  have hmem : ∀ i, i ∈ ss.index.view T' ↔ i ∈ adds := by
    intro i
    rw [had.mem, hempty]
    simp
  refine ⟨rs, ss, hrun, ?_⟩
  constructor
  · intro hranked
    by_contra hnot
    obtain ⟨i, j, hsub, hscore, hlt⟩ := had.swapped hnot
    obtain ⟨b, a, hj, hi, hba⟩ := had.agrees.getRank_lt hsub
    have hmi := (hmem i).mp (hsub.subset (by simp))
    have hmj := (hmem j).mp (hsub.subset (by simp))
    obtain ⟨a', b', hi', hj', hab⟩ := hranked i hmi j hmj hscore hlt
    rw [hi] at hi'
    rw [hj] at hj'
    cases hi'
    cases hj'
    omega
  · intro hord i hi j hj hscore hlt
    have hlex := had.ordered (by rw [hempty]; exact List.Pairwise.nil) hord
    -- `j` behind `i`, since the other way round `j` would precede `i`
    obtain ⟨X, Y, hv⟩ := List.append_of_mem ((hmem j).mpr hj)
    have hiv := (hmem i).mpr hi
    rw [hv, List.pairwise_append, List.pairwise_cons] at hlex
    rw [hv, List.mem_append, List.mem_cons] at hiv
    rcases hiv with hiX | rfl | hiY
    · refine had.agrees.getRank_lt ?_
      rw [hv]
      exact (List.singleton_sublist.mpr hiX).append
        (List.singleton_sublist.mpr List.mem_cons_self)
    · exact absurd hlt (lt_irrefl _)
    · rcases hlex.2.1.1 i hiY with hp | ⟨-, hp⟩
      · rw [hscore] at hp
        exact absurd hp (lt_irrefl _)
      · exact absurd hp (lt_asymm hlt)

theorem ties_ranked_iff_three : ∃ rs ss, (newSortedSetWithBTree (S := Int) 3).run
      (addAll [⟨1, [97]⟩, ⟨1, [98]⟩, ⟨1, [99]⟩]) = .ok (rs, ss) ∧
    (TiesRanked ss [⟨1, [97]⟩, ⟨1, [98]⟩, ⟨1, [99]⟩] ↔
      Orderly (newSortedSetWithBTree (S := Int) 3) [⟨1, [97]⟩, ⟨1, [98]⟩, ⟨1, [99]⟩]) :=
  ties_ranked_iff 3 (by decide) _ (by simp) (by decide)

end RediGo.SortedSet
