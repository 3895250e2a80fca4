/-
RediGo.SortedSet.SkipListSet — a sorted set over a skip list is a map ordered
by score and name.

`GetRank` looks the member up on the bottom level and then adds up spans on
the way down to its node. At every level the search stops at the last tower
that is not larger than the entry, which is the node itself as soon as the
level is low enough (`rankFrom_eq`), so the sum is its position whatever the
heights are.

`run_refines_skipList`: replies, scores and ranks are those of the map, for
every run and every sequence of node heights.
-/
import RediGo.SortedSet.SkipListShape
import RediGo.SortedSet.SortedSetTheorems

namespace RediGo.SortedSet

open RediGo.Lib RediGo.Go

/-! ## Ranks -/

namespace SkipListIndex

variable {S : Type} {sl : SkipListIndex S}

theorem findMemberFrom_eq {ts : List (Tower S)}
    (hele : ∀ t ∈ ts, (sl.node t.ref).ele = t.ele)
    (hheight : ∀ t ∈ ts, sl.height t.ref = t.height) (hpos : ∀ t ∈ ts, 1 ≤ t.height)
    (hlinked : sl.LinkedAt 0 ts) (member : Bytes) (fuel : Nat) (hfuel : ts.length ≤ fuel) :
    sl.findMemberFrom member fuel (ts.head?.map Tower.ref) =
      .ok ((ts.find? fun t => t.ele = member).map Tower.ref) := by
  induction ts generalizing fuel with
  | nil => cases fuel <;> rfl
  | cons t ts ih =>
    obtain ⟨fuel, rfl⟩ : ∃ m, fuel = m + 1 := ⟨fuel - 1, by simp at hfuel; omega⟩
    have ht : t ∈ t :: ts := List.mem_cons_self ..
    show (if (sl.node t.ref).ele = member then Except.ok (some t.ref) else _) = _
    rw [hele t ht]
    by_cases hfound : t.ele = member
    · simp [hfound]
    · have hforward : (sl.lvl t.ref 0).forward = ts.head?.map Tower.ref :=
        LinkedAt.forward_zero (F := []) hlinked (hpos t ht)
          fun s hs => hpos s (List.mem_cons_of_mem _ hs)
      rw [if_neg hfound, levelAt_eq (by rw [hheight t ht]; exact hpos t ht)]
      show sl.findMemberFrom member fuel (sl.lvl t.ref 0).forward = _
      rw [hforward, ih (fun s hs => hele s (List.mem_cons_of_mem _ hs))
        (fun s hs => hheight s (List.mem_cons_of_mem _ hs))
        (fun s hs => hpos s (List.mem_cons_of_mem _ hs)) hlinked.2 fuel (by simp at hfuel; omega)]
      simp [hfound]

theorem Placed.notAfter_iff [LinearOrder S] {ts : List (Tower S)} (h : Placed sl ts)
    {t : Tower S} (ht : t ∈ ts) (score : S) (ele : Bytes) :
    notAfter score ele (sl.node t.ref) = true ↔ t.key ≤ toLex (score, ele) := by
  unfold notAfter Tower.key
  rw [decide_eq_true_iff, h.score t ht, h.ele t ht, Prod.Lex.toLex_le_toLex]

/-- The last tower that is not larger than an entry of the row is its own
tower or one in front of it. -/
theorem cut_last {i : Nat} {F P C : List (Tower S)} {t y : Tower S}
    (hcut : Cut i (F ++ [t]) P y C) :
    (i < t.height ∧ y = t ∧ P = F) ∨ (t.height ≤ i ∧ y ∈ F) := by
  rcases List.eq_nil_or_concat C with rfl | ⟨C', c, rfl⟩
  · obtain ⟨hP, hy⟩ := List.append_inj' hcut.eq rfl
    obtain rfl := List.singleton_inj.1 hy
    exact .inl ⟨hcut.high, rfl, hP.symm⟩
  · have heq := hcut.eq
    rw [List.concat_eq_append, ← List.cons_append, ← List.append_assoc] at heq
    obtain ⟨hF, hc⟩ := List.append_inj' heq rfl
    obtain rfl := List.singleton_inj.1 hc
    exact .inr ⟨hcut.low t (by simp), by simp [hF]⟩

variable [Zero S] [LinearOrder S] {xs A B : List (Tower S)} {t : Tower S}

theorem Represents.findMember_eq (h : Represents sl xs) (member : Bytes) :
    sl.findMember member = .ok ((xs.find? fun t => t.ele = member).map Tower.ref) := by
  have hhead : 0 < sl.height sl.head := by
    rw [show sl.height sl.head = SkiplistMaxLevel from h.placed.height sl.origin (by simp)]
    decide
  have hrow := h.linked 0 h.level_pos
  have hpos : ∀ t ∈ xs, 1 ≤ t.height := fun t ht => (h.heights t ht).1
  have hforward : (sl.lvl sl.head 0).forward = xs.head?.map Tower.ref :=
    LinkedAt.forward_zero (F := []) (x := sl.origin) hrow (by show 1 ≤ SkiplistMaxLevel; decide) hpos
  unfold findMember
  rw [levelAt_eq hhead]
  show sl.findMemberFrom member sl.fuel (sl.lvl sl.head 0).forward = _
  rw [hforward]
  apply findMemberFrom_eq (fun t ht => h.placed.ele t (by simp [ht]))
    (fun t ht => h.placed.height t (by simp [ht])) hpos hrow.2
  have hle := h.placed.length_le
  simp only [List.length_cons] at hle
  unfold fuel
  omega

theorem rankFrom_eq (h : Represents sl (A ++ t :: B)) (hele : t.ele ≠ [])
    (hA : ∀ a ∈ A, a.key < t.key) (hB : ∀ b ∈ B, t.key < b.key) (n : Nat) (hn : t.height ≤ n)
    (hlevel : n ≤ sl.level) {P C : List (Tower S)} {y : Tower S}
    (hF : sl.origin :: A ++ [t] = P ++ y :: C) (hC : C ⊆ A ++ [t]) (hy : n ≤ y.height) :
    sl.rankFrom t.score t.ele n y.ref (UInt32.ofNat P.length) =
      .ok (UInt32.ofNat (A.length + 1)) := by
  induction n generalizing P y C with
  | zero =>
    have := (h.heights t (by simp)).1
    omega
  | succ n ih =>
    have hrow : sl.origin :: (A ++ t :: B) = (sl.origin :: A ++ [t]) ++ B := by simp
    have hplaced := h.placed
    have hlinked := h.linked n (by omega)
    rw [hrow] at hplaced hlinked
    have hpass : ∀ c ∈ C, notAfter t.score t.ele (sl.node c.ref) = true := by
      intro c hc
      have hmem := hC hc
      refine (hplaced.notAfter_iff (by simp at hmem ⊢; tauto) t.score t.ele).2 ?_
      rcases List.mem_append.1 hmem with hc | hc
      · exact (hA c hc).le
      · rw [List.mem_singleton.1 hc]
        exact le_rfl
    have hstop : ∀ b ∈ B, notAfter t.score t.ele (sl.node b.ref) = false := by
      intro b hb
      refine Bool.eq_false_iff.2 fun hnot => ?_
      exact absurd ((hplaced.notAfter_iff (by simp [hb]) t.score t.ele).1 hnot) (not_le.2 (hB b hb))
    have hfuel : C.length < sl.fuel := by
      have hle := hplaced.length_le
      rw [hF] at hle
      simp only [List.length_append, List.length_cons] at hle
      unfold fuel
      omega
    obtain ⟨P', y', C', hcut, hsuffix, hwalk⟩ :=
      walk_spec hplaced hlinked hstop sl.fuel hF hy hpass hfuel
    unfold rankFrom
    rw [hwalk]
    show (if (sl.node y'.ref).score = t.score ∧ (sl.node y'.ref).ele = t.ele then _ else _) = _
    rcases cut_last hcut with ⟨-, rfl, rfl⟩ | ⟨hlow, hy'⟩
    · rw [if_pos ⟨hplaced.score y' (by simp), hplaced.ele y' (by simp)⟩]
      rfl
    · -- a tower in front of `t` has another entry, and the head has an empty name
      have hne : ¬ ((sl.node y'.ref).score = t.score ∧ (sl.node y'.ref).ele = t.ele) := by
        rw [hplaced.score y' (by simp at hy' ⊢; tauto), hplaced.ele y' (by simp at hy' ⊢; tauto)]
        rintro ⟨hscore, hname⟩
        rcases List.mem_cons.1 hy' with rfl | hy'
        · exact hele hname.symm
        · have hkey : y'.key = t.key := by
            unfold Tower.key
            rw [hscore, hname]
          exact absurd (hA y' hy') (hkey ▸ lt_irrefl _)
      rw [if_neg hne]
      exact ih hlow (by omega) hcut.eq (List.Subset.trans hsuffix.subset hC) (Nat.le_of_lt hcut.high)

/-- `GetRank` is the position of the member. -/
theorem Represents.getRank_eq (h : Represents sl (A ++ t :: B))
    (hnodup : ((A ++ t :: B).map Tower.ele).Nodup) (hele : t.ele ≠ [])
    (hA : ∀ a ∈ A, a.key < t.key) (hB : ∀ b ∈ B, t.key < b.key)
    (hsize : (A ++ t :: B).length < 2 ^ 32) : sl.getRank t.ele = .ok (A.length : Int) := by
  have hfind : ((A ++ t :: B).find? fun s => s.ele = t.ele) = some t := by
    rw [List.map_append, List.nodup_append] at hnodup
    rw [List.find?_append, List.find?_eq_none.2, Option.none_or, List.find?_cons_of_pos (by simp)]
    intro a ha heq
    exact hnodup.2.2 _ (List.mem_map_of_mem ha) t.ele (by simp) (by simpa using heq)
  have hrank : sl.getRankByScoreAndMember (sl.node t.ref).score t.ele =
      .ok (UInt32.ofNat (A.length + 1)) := by
    rw [h.placed.score t (by simp)]
    have hle : t.height ≤ sl.level := by
      rw [h.level]
      exact low_topLevel (A ++ t :: B) t (by simp)
    exact rankFrom_eq h hele hA hB sl.level hle le_rfl (P := []) (y := sl.origin) rfl
      (List.Subset.refl _) h.level_le
  have hlen : A.length + 1 < 2 ^ 32 := by
    simp only [List.length_append, List.length_cons] at hsize
    omega
  have hpos : UInt32.ofNat (A.length + 1) > 0 := by
    show (0 : UInt32).toNat < (UInt32.ofNat (A.length + 1)).toNat
    rw [UInt32.toNat_ofNat', Nat.mod_eq_of_lt hlen]
    exact Nat.succ_pos _
  have hpred : UInt32.ofNat (A.length + 1) - 1 = UInt32.ofNat A.length := by
    rw [UInt32.ofNat_add]
    exact UInt32.add_sub_cancel ..
  unfold getRank
  rw [h.findMember_eq, hfind]
  show (sl.getRankByScoreAndMember (sl.node t.ref).score t.ele >>= _) = _
  rw [hrank]
  show (if UInt32.ofNat (A.length + 1) > 0 then
    Except.ok ((UInt32.ofNat (A.length + 1) - 1).toNat : Int) else _) = _
  rw [if_pos hpos, hpred, UInt32.toNat_ofNat', Nat.mod_eq_of_lt (by omega)]

theorem Represents.getRank_absent (h : Represents sl xs) {member : Bytes}
    (habsent : ∀ t ∈ xs, t.ele ≠ member) : sl.getRank member = .ok (-1) := by
  have hfind : (xs.find? fun t => t.ele = member) = none :=
    List.find?_eq_none.2 fun t ht => by simpa using habsent t ht
  unfold getRank
  rw [h.findMember_eq, hfind]
  rfl

end SkipListIndex

/-! ## The set and the map -/

variable {S : Type} [LinearOrder S]

instance : OrderedIndex (SkipListIndex S) S where
  add := SkipListIndex.add
  removeByScore := SkipListIndex.removeByScore
  getRank := SkipListIndex.getRank

/-- `NewSortedSet` with an index of type `IndexTypeSkipList` -/
def newSortedSetWithSkipList [Zero S] (rnd : Nat → Nat) : SortedSet (SkipListIndex S) S where
  index := SkipListIndex.new rnd
  memberScore := fun _ => none

namespace ScoreMap

/-- `ScoreMap.step` of a map without an empty name. -/
def stepNamed (m : ScoreMap S) : Op S → Int × ScoreMap S
  | .add score member => if member = [] then (0, m) else m.step (.add score member)
  | .remove member => m.step (.remove member)

def runNamed (m : ScoreMap S) : List (Op S) → List Int × ScoreMap S
  | [] => ([], m)
  | op :: ops =>
    ((m.stepNamed op).1 :: ((m.stepNamed op).2.runNamed ops).1, ((m.stepNamed op).2.runNamed ops).2)

/-- The number of members that come before a member by score and name, `-1`
for a member that is absent. -/
noncomputable def lexRank (m : ScoreMap S) (member : Bytes) : Int :=
  match m member with
  | none => -1
  | some s => ({a | ∃ s', m a = some s' ∧ toLex (s', a) < toLex (s, member)} : Set Bytes).ncard

end ScoreMap

/-- The entry of a tower. -/
def Tower.item (t : Tower S) : Item S := ⟨t.score, t.ele⟩

variable [Zero S]

/-- The towers of the index are the members of the map. -/
structure SkipAgrees (ss : SortedSet (SkipListIndex S) S) (xs : List (Tower S)) : Prop where
  represents : SkipListIndex.Represents ss.index xs
  listed : ss.memberScore.Listed (xs.map Tower.item)
  named : ∀ t ∈ xs, t.ele ≠ []

namespace SkipAgrees

variable {ss : SortedSet (SkipListIndex S) S} {xs : List (Tower S)}

/-- The index part of an `Add` of a new member. -/
theorem indexAdd (h : SkipAgrees ss xs) {s : S} {m : Bytes} (hm : m ≠ [])
    (hnone : ss.memberScore m = none) :
    ∃ index' xs', OrderedIndex.add ss.index s m = .ok (1, index') ∧
      SkipAgrees ⟨index', Function.update ss.memberScore m (some s)⟩ xs' := by
  obtain ⟨index', A, B, x, hinsert, rfl, rfl, rfl, -, -, hrep⟩ :=
    SkipListIndex.insert_represents h.represents s m
  refine ⟨index', A ++ x :: B, ?_, hrep, ?_, ?_⟩
  · show (ss.index.insert x.score x.ele >>= _) = _
    rw [hinsert]
    rfl
  · have hlisted := h.listed
    rw [List.map_append] at hlisted
    have hinserted := hlisted.insert (i := x.item) hnone
    rw [List.map_append, List.map_cons]
    exact hinserted
  · intro t ht
    rcases List.mem_append.1 ht with ht | ht
    · exact h.named t (by simp [ht])
    · rcases List.mem_cons.1 ht with rfl | ht
      · exact hm
      · exact h.named t (by simp [ht])

/-- The index part of a removal. -/
theorem indexRemove (h : SkipAgrees ss xs) {s : S} {m : Bytes}
    (hsome : ss.memberScore m = some s) :
    ∃ index' xs', OrderedIndex.removeByScore ss.index s m = .ok (1, index') ∧
      SkipAgrees ⟨index', Function.update ss.memberScore m none⟩ xs' := by
  rcases SkipListIndex.removeByScore_represents h.represents s m with
    ⟨index', A, x, B, hremove, rfl, rfl, rfl, hrep⟩ | ⟨-, habsent⟩
  · refine ⟨index', A ++ B, hremove, hrep, ?_, ?_⟩
    · have hlisted := h.listed
      rw [List.map_append, List.map_cons] at hlisted
      have herased := hlisted.erase
      rw [List.map_append]
      exact herased
    · exact fun t ht => h.named t (by simp at ht ⊢; tauto)
  · obtain ⟨t, ht, heq⟩ := List.mem_map.1 ((h.listed.agree m s).1 hsome)
    exact absurd ⟨congrArg Item.score heq, congrArg Item.member heq⟩ (habsent t ht)

theorem step (h : SkipAgrees ss xs) (op : Op S) :
    ∃ ss' xs', ss.step op = .ok ((ss.memberScore.stepNamed op).1, ss') ∧
      ss'.memberScore = (ss.memberScore.stepNamed op).2 ∧ SkipAgrees ss' xs' := by
  cases op with
  | add s m =>
    by_cases hm : m = []
    · refine ⟨ss, xs, ?_, ?_, h⟩
      · simp only [SortedSet.step, add, ScoreMap.stepNamed, if_pos hm]
        rfl
      · simp only [ScoreMap.stepNamed, if_pos hm]
    · simp only [ScoreMap.stepNamed, if_neg hm]
      cases hscore : ss.memberScore m with
      | none =>
        obtain ⟨index', xs', hadd, h'⟩ := h.indexAdd (s := s) hm hscore
        refine ⟨_, xs', ?_, rfl, h'⟩
        rw [SortedSet.step, add_absent hm hscore hadd]
        simp [ScoreMap.step, hscore]
      | some old =>
        by_cases heq : old = s
        · -- the same score again: nothing is done
          refine ⟨ss, xs, ?_, ?_, h⟩
          · simp only [SortedSet.step, add, if_neg hm, hscore, beq_iff_eq, if_pos heq, ScoreMap.step]
            rfl
          · rw [ScoreMap.step, ← heq, ← hscore, Function.update_eq_self]
        · obtain ⟨index₁, xs₁, hremove, h₁⟩ := h.indexRemove hscore
          obtain ⟨index', xs', hadd, h'⟩ := h₁.indexAdd (s := s) hm (Function.update_self ..)
          simp only [Function.update_idem] at h'
          refine ⟨_, xs', ?_, rfl, h'⟩
          rw [SortedSet.step, add_change hm hscore heq hremove hadd]
          simp [ScoreMap.step, hscore]
  | remove m =>
    show ∃ ss' xs', ss.remove m = .ok ((ss.memberScore.step (.remove m)).1, ss') ∧
      ss'.memberScore = (ss.memberScore.step (.remove m)).2 ∧ SkipAgrees ss' xs'
    cases hscore : ss.memberScore m with
    | none =>
      refine ⟨ss, xs, ?_, ?_, h⟩
      · have hremove : ss.remove m = .ok (0, ss) := by
          unfold remove
          split
          · rfl
          · rw [hscore]
            rfl
        rw [hremove]
        simp [ScoreMap.step, hscore]
      · rw [ScoreMap.step, ← hscore, Function.update_eq_self]
    | some old =>
      have hm : m ≠ [] := by
        obtain ⟨t, ht, heq⟩ := List.mem_map.1 ((h.listed.agree m old).1 hscore)
        have hname : t.ele = m := congrArg Item.member heq
        rw [← hname]
        exact h.named t ht
      obtain ⟨index', xs', hremove, h'⟩ := h.indexRemove hscore
      refine ⟨_, xs', ?_, rfl, h'⟩
      rw [remove_present hm hscore hremove]
      simp [ScoreMap.step, hscore]

theorem run (ops : List (Op S)) (h : SkipAgrees ss xs) :
    ∃ ss' xs', ss.run ops = .ok ((ss.memberScore.runNamed ops).1, ss') ∧
      ss'.memberScore = (ss.memberScore.runNamed ops).2 ∧ SkipAgrees ss' xs' := by
  induction ops generalizing ss xs with
  | nil => exact ⟨ss, xs, rfl, rfl, h⟩
  | cons op ops ih =>
    obtain ⟨ss₁, xs₁, hstep, hmap, h₁⟩ := h.step op
    obtain ⟨ss', xs', hrun, hmap', h'⟩ := ih h₁
    rw [hmap] at hrun hmap'
    refine ⟨ss', xs', ?_, hmap', h'⟩
    simp only [SortedSet.run, hstep, hrun, bind, Except.bind]
    rfl

/-- There are as many towers as members. -/
theorem ncard_members (h : SkipAgrees ss xs) :
    ({a | ss.memberScore a ≠ none} : Set Bytes).ncard = xs.length := by
  have hlisted := h.listed
  rw [← List.append_nil (xs.map Tower.item)] at hlisted
  have hcard := hlisted.ncard_eq (P := fun _ => True) (fun _ _ => trivial) (fun _ hi => nomatch hi)
  rw [List.length_map] at hcard
  rw [← hcard]
  congr 1
  ext a
  simp [Option.ne_none_iff_exists']

omit [Zero S] in
/-- With distinct names the towers are strictly sorted. -/
theorem strictly_sorted {A B : List (Tower S)} {t : Tower S}
    (hsorted : (A ++ t :: B).Pairwise fun a b => a.key ≤ b.key)
    (hnodup : ((A ++ t :: B).map Tower.ele).Nodup) :
    (∀ a ∈ A, a.key < t.key) ∧ ∀ b ∈ B, t.key < b.key := by
  rw [List.pairwise_append, List.pairwise_cons] at hsorted
  rw [List.map_append, List.map_cons, List.nodup_append, List.nodup_cons] at hnodup
  have hname : ∀ {a b : Tower S}, a.key = b.key → a.ele = b.ele :=
    fun heq => congrArg (fun k => (ofLex k).2) heq
  constructor
  · intro a ha
    refine lt_of_le_of_ne (hsorted.2.2 a ha t (List.mem_cons_self ..)) fun heq => ?_
    exact hnodup.2.2 a.ele (List.mem_map_of_mem ha) t.ele (List.mem_cons_self ..) (hname heq)
  · intro b hb
    refine lt_of_le_of_ne (hsorted.2.1.1 b hb) fun heq => ?_
    exact hnodup.2.1.1 (hname heq ▸ List.mem_map_of_mem hb)

theorem getRank_eq_lexRank (h : SkipAgrees ss xs) (hsize : xs.length < 2 ^ 32) (m : Bytes) :
    ss.getRank m = .ok (ss.memberScore.lexRank m) := by
  cases hscore : ss.memberScore m with
  | none =>
    have habsent : ∀ t ∈ xs, t.ele ≠ m := by
      rintro t ht rfl
      have hsome := (h.listed.agree t.ele t.score).2 (List.mem_map.2 ⟨t, ht, rfl⟩)
      rw [hscore] at hsome
      cases hsome
    rw [ScoreMap.lexRank, hscore]
    exact h.represents.getRank_absent habsent
  | some s =>
    obtain ⟨t, ht, heq⟩ := List.mem_map.1 ((h.listed.agree m s).1 hscore)
    obtain ⟨rfl, rfl⟩ : t.score = s ∧ t.ele = m := by
      cases heq
      exact ⟨rfl, rfl⟩
    obtain ⟨A, B, rfl⟩ := List.append_of_mem ht
    have hnodup : ((A ++ t :: B).map Tower.ele).Nodup := by
      have := h.listed.nodup
      rwa [List.map_map] at this
    obtain ⟨hA, hB⟩ := strictly_sorted h.represents.sorted hnodup
    have hlisted := h.listed
    rw [List.map_append] at hlisted
    -- the members that come before are those of `A`
    have hcard := hlisted.ncard_eq (P := fun i => toLex (i.score, i.member) < t.key)
      (by
        intro i hi
        obtain ⟨a, ha, rfl⟩ := List.mem_map.1 hi
        exact hA a ha)
      (by
        intro i hi
        obtain ⟨b, hb, rfl⟩ := List.mem_map.1 hi
        rcases List.mem_cons.1 hb with rfl | hb
        · exact lt_irrefl _
        · exact lt_asymm (hB b hb))
    rw [ScoreMap.lexRank, hscore]
    show ss.index.getRank t.ele = _
    rw [h.represents.getRank_eq hnodup (h.named t ht) hA hB hsize]
    rw [List.length_map] at hcard
    rw [← hcard]
    rfl

end SkipAgrees

theorem skipAgrees_new (rnd : Nat → Nat) : SkipAgrees (newSortedSetWithSkipList (S := S) rnd) [] :=
  ⟨SkipListIndex.represents_new rnd, ⟨List.nodup_nil, fun _ _ => by simp [newSortedSetWithSkipList]⟩,
    fun _ ht => nomatch ht⟩

/-- A sorted set over a skip list is the map of its scores ordered by score
and name, whatever the heights of the nodes: the replies are those of the
map, `GetScore` reads it, and below `2^32` members `GetRank` counts those
that come before. -/
theorem run_refines_skipList (rnd : Nat → Nat) (ops : List (Op S)) :
    ∃ ss, (newSortedSetWithSkipList rnd).run ops =
        .ok ((ScoreMap.runNamed (fun _ => none) ops).1, ss) ∧
      (∀ m, ss.getScore m = (ScoreMap.runNamed (fun _ => none) ops).2 m) ∧
      (({a | (ScoreMap.runNamed (fun _ => none) ops).2 a ≠ none} : Set Bytes).ncard < 2 ^ 32 →
        ∀ m, ss.getRank m = .ok ((ScoreMap.runNamed (fun _ => none) ops).2.lexRank m) ∧
          (ss.getRank m = .ok (-1) ↔ (ScoreMap.runNamed (fun _ => none) ops).2 m = none)) := by
  obtain ⟨ss, xs, hrun, hmap, h⟩ := (skipAgrees_new rnd).run ops
  have hmap : ss.memberScore = (ScoreMap.runNamed (fun _ => none) ops).2 := hmap
  refine ⟨ss, hrun, fun m => congrFun hmap m, ?_⟩
  rw [← hmap, h.ncard_members]
  intro hsize m
  have hrank := h.getRank_eq_lexRank hsize m
  refine ⟨hrank, ?_⟩
  rw [hrank, ScoreMap.lexRank]
  cases ss.memberScore m with
  | none => simp
  | some s => simp

/-- Two members with one score, and an empty name. -/
theorem run_refines_skipList_three : ∃ ss, (newSortedSetWithSkipList (S := Int) (fun k => k)).run
      [.add 2 [98], .add 2 [97], .add 7 []] = .ok ([1, 1, 0], ss) ∧
    ∀ m, ss.getRank m = .ok ((ScoreMap.runNamed (fun _ => none)
      [.add (2 : Int) [98], .add 2 [97], .add 7 []]).2.lexRank m) := by
  obtain ⟨ss, hrun, -, hrank⟩ := run_refines_skipList (S := Int) (fun k => k)
    [.add 2 [98], .add 2 [97], .add 7 []]
  refine ⟨ss, hrun, fun m => (hrank ?_ m).1⟩
  have hsub : {a | (ScoreMap.runNamed (fun _ => none)
      [.add (2 : Int) [98], .add 2 [97], .add 7 []]).2 a ≠ none} ⊆
      (({[97], [98]} : Finset Bytes) : Set Bytes) := by
    intro a ha
    by_contra hnot
    simp only [Finset.coe_insert, Finset.coe_singleton, Set.mem_insert_iff, Set.mem_singleton_iff,
      not_or] at hnot
    apply ha
    show Function.update (Function.update (fun _ => none) [98] (some (2 : Int))) [97] (some 2) a = none
    rw [Function.update_of_ne hnot.1, Function.update_of_ne hnot.2]
  have hle := Set.ncard_le_ncard hsub (Finset.finite_toSet _)
  rw [Set.ncard_coe_finset] at hle
  have hcard : ({[97], [98]} : Finset Bytes).card ≤ 2 := Finset.card_le_two
  omega

end RediGo.SortedSet
