/-
RediGo.SortedSet.BTreeOps — what `Add` and `RemoveByScore` do to the tree
a heap represents.

The descent ends in a leaf, and the frames it went through are the
context of that leaf (`findLeaf_focus`); `Ctx.Routed` keeps what the
comparisons on the way established. Either operation then edits the item
list of this one leaf and hands the rest to the walks of
`RediGo.SortedSet.BTreeClimb`. `add_cases` and `removeByScore_cases`
list every way a call can end, for any scores and members, in order or
not: nothing here depends on the search order.
-/
import Mathlib.Data.List.TakeWhile
import RediGo.Lib.Search
import RediGo.SortedSet.BTreeClimb

namespace RediGo.SortedSet

open RediGo.Lib RediGo.Go

variable {S : Type}

/-- The item is one `RemoveByScore` looks for. -/
def Item.Matches [BEq S] (i : Item S) (score : S) (member : Bytes) : Prop :=
  i.member = member ∧ i.score == score

theorem Item.matches_iff [BEq S] [LawfulBEq S] (i : Item S) (score : S) (member : Bytes) :
    i.Matches score member ↔ i = ⟨score, member⟩ := by
  cases i
  simp [Item.Matches, and_comm]

namespace BTreeIndex

/-- The key of the search order. -/
def scoreOf (t : BTreeIndex S) (r : Ref) : S := (t.item r).score

/-- A row of children with one more entry than separators, cut at a slot. -/
theorem exists_child {α β : Type} (is : List α) (cs : List β) (p : α → Bool)
    (hlen : cs.length = is.length + 1) :
    ∃ csL child csR, cs = csL ++ child :: csR ∧ (is.takeWhile p).length = csL.length ∧
      (is.dropWhile p).length = csR.length := by
  have hsum : (is.takeWhile p).length + (is.dropWhile p).length = is.length := by
    rw [← List.length_append, List.takeWhile_append_dropWhile]
  obtain ⟨csL, D, rfl, hL⟩ := exists_cut cs (is.takeWhile p).length (by omega)
  cases D with
  | nil =>
    simp only [List.append_nil] at hlen
    omega
  | cons child csR =>
    refine ⟨csL, child, csR, rfl, hL.symm, ?_⟩
    simp only [List.length_append, List.length_cons] at hlen
    omega

section Descent

variable [LE S] [DecidableLE S]

theorem findLeaf_focus {lo hi : Nat} (t : BTreeIndex S) (score : S) {n : Nat} :
    ∀ (fuel : Nat) (c : Ctx Ref n) (s : LevelTree Ref n), Focus t c s → s.Inner lo hi →
      c.Routed t.scoreOf score → n < fuel →
      ∃ (c' : Ctx Ref 0) (r : Ref) (is : List Ref), t.findLeaf score fuel s.ref = .ok r ∧
        c.plug s = c'.plug (.leaf r is) ∧ c'.Routed t.scoreOf score := by
  induction n with
  | zero =>
    intro fuel c s h _ hrouted hfuel
    obtain ⟨f, rfl⟩ : ∃ f, fuel = f + 1 := ⟨fuel - 1, by omega⟩
    have hleaf := isLeaf_of_level_zero h
    obtain ⟨r, is, rfl⟩ := s.exists_leaf
    refine ⟨c, r, is, ?_, rfl, hrouted⟩
    rw [findLeaf, if_pos hleaf, LevelTree.ref_leaf]
  | succ n ih =>
    intro fuel c s h hin hrouted hfuel
    obtain ⟨f, rfl⟩ : ∃ f, fuel = f + 1 := ⟨fuel - 1, by omega⟩
    have hinner := isLeaf_of_level_succ h
    obtain ⟨r, is, cs, rfl⟩ := s.exists_node
    rw [LevelTree.inner_node] at hin
    have hnode : t.node r = nodeRec is (cs.map LevelTree.ref) c.parent := h.node_inner
    -- the slot cuts the separators where the comparison first fails
    let p : Ref → Bool := fun x => decide (score ≥ (t.item x).score)
    obtain ⟨csL, child, csR, rfl, hL, hR⟩ := exists_child is cs p hin.1
    have hcut : is.takeWhile p ++ is.dropWhile p = is := List.takeWhile_append_dropWhile
    have hplug : c.plug (.node r is (csL ++ child :: csR))
        = (Ctx.up r (is.takeWhile p) (is.dropWhile p) csL csR hL hR c).plug child := by
      rw [Ctx.plug, hcut]
    have hfoc : Focus t (.up r (is.takeWhile p) (is.dropWhile p) csL csR hL hR c) child := by
      rw [← reps_plug_iff, ← hplug, reps_plug_iff]
      exact h
    have hchild := (LevelTree.occ_iff _ _ _).mp (hin.2 child (by simp))
    have hrouted' : (Ctx.up r (is.takeWhile p) (is.dropWhile p) csL csR hL hR c).Routed
        t.scoreOf score := by
      refine ⟨?_, ?_, hrouted⟩
      · intro x hx
        simpa [p, scoreOf] using List.mem_takeWhile_imp hx
      · intro x hx
        have hhead := List.head?_dropWhile_not p is
        rw [Option.mem_def.mp hx] at hhead
        simpa [p, scoreOf] using hhead
    obtain ⟨c', r', is', hrun, hplug', hr⟩ := ih f _ child hfoc hchild.2.2 hrouted' (by omega)
    refine ⟨c', r', is', ?_, hplug.trans hplug', hr⟩
    have hslot : t.childSlot score (t.node r).items = csL.length := by
      rw [hnode, ← hL]
      rfl
    have hindex : index (t.node r).children csL.length = .ok child.ref := by
      have := index_append (csL.map LevelTree.ref) child.ref (csR.map LevelTree.ref)
      rw [hnode]
      simpa [nodeRec] using this
    rw [LevelTree.ref_node] at hinner ⊢
    rw [findLeaf, if_neg (by simp [hinner]), hslot, hindex]
    exact hrun

end Descent

/-! ## The state of an index between calls -/

/-- The heap of `t` is a balanced tree of degree `d`, namely `T`. -/
structure WellFormed (d : Nat) (t : BTreeIndex S) (T : AnyTree Ref) : Prop where
  degree : t.degree = d
  reps : Reps t T
  balanced : Balanced (min 1 ((d - 1) / 2)) ((d - 1) / 2) (d - 1) T

section Fuel

theorem height_lt_refs {lo hi n : Nat} (s : LevelTree Ref n) (h : s.Inner lo hi) :
    n < s.refs.length := by
  induction n with
  | zero =>
    obtain ⟨r, is, rfl⟩ := s.exists_leaf
    simp
  | succ n ih =>
    obtain ⟨r, is, cs, rfl⟩ := s.exists_node
    rw [LevelTree.inner_node] at h
    obtain ⟨child, cs, rfl⟩ := List.exists_cons_of_length_eq_add_one h.1
    have hchild := (LevelTree.occ_iff _ _ _).mp (h.2 child List.mem_cons_self)
    have := ih child hchild.2.2
    simp
    omega

/-- The fuel `Add` and `RemoveByScore` pass exceeds the height. -/
theorem WellFormed.height_lt_fuel {d : Nat} {t : BTreeIndex S} {T : AnyTree Ref}
    (h : WellFormed d t T) : T.1 < t.fuel := by
  have hrefs := height_lt_refs T.2 h.balanced.2.2
  have hsub : T.2.refs ⊆ List.range t.nodes.next :=
    fun r hr => List.mem_range.mpr (h.reps.alloc r hr)
  have hlen := (List.subperm_of_subset h.reps.nodup hsub).length_le
  rw [List.length_range] at hlen
  rw [fuel]
  omega

theorem height_plug {n : Nat} (c : Ctx Ref n) (s : LevelTree Ref n) :
    (c.plug s).1 = n + depth c := by
  induction c with
  | top => rfl
  | up r isL isR csL csR hL hR c ih =>
    rw [Ctx.plug, ih, depth]
    omega

theorem WellFormed.depth_lt_fuel {d n : Nat} {t : BTreeIndex S} {c : Ctx Ref n}
    {s : LevelTree Ref n} (h : WellFormed d t (c.plug s)) : depth c < t.fuel := by
  have hfuel := h.height_lt_fuel
  rw [height_plug] at hfuel
  omega

end Fuel

theorem WellFormed.findLeaf [LE S] [DecidableLE S] {d : Nat} {t : BTreeIndex S} {T : AnyTree Ref}
    (h : WellFormed d t T) (score : S) :
    ∃ (c : Ctx Ref 0) (r : Ref) (is : List Ref), t.findLeaf score t.fuel t.root = .ok r ∧
      T = c.plug (.leaf r is) ∧ c.Routed t.scoreOf score := by
  have hfoc : Focus t .top T.2 := (reps_plug_iff .top T.2).mp h.reps
  rw [h.reps.root]
  exact findLeaf_focus t score t.fuel .top T.2 hfoc h.balanced.2.2 trivial h.height_lt_fuel

/-! ## Editing a leaf -/

@[simp] theorem allocItem_degree (t : BTreeIndex S) (i : Item S) :
    (t.allocItem i).degree = t.degree := rfl

section Edit

variable {n : Nat} {t u : BTreeIndex S} {r : Ref} {is : List Ref}

/-- Only the node heap and the root are looked at. -/
theorem focus_congr {c : Ctx Ref n} {s : LevelTree Ref n} (h : Focus t c s)
    (hroot : u.root = t.root) (hnodes : u.nodes = t.nodes) : Focus u c s := by
  have hnode : u.node = t.node := by
    funext x
    rw [node, node, hnodes]
  exact {
    root := hroot.trans h.root
    here := hnode ▸ h.here
    outside := hnode ▸ h.outside
    nodup := h.nodup
    nodupOut := h.nodupOut
    disjoint := h.disjoint
    alloc := hnodes ▸ h.alloc
    allocOut := hnodes ▸ h.allocOut }

theorem WellFormed.congr {d : Nat} {T : AnyTree Ref} (h : WellFormed d t T)
    (hroot : u.root = t.root) (hnodes : u.nodes = t.nodes) (hdeg : u.degree = t.degree) :
    WellFormed d u T where
  degree := hdeg.trans h.degree
  reps := (reps_plug_iff .top T.2).mpr
    (focus_congr ((reps_plug_iff .top T.2).mp h.reps) hroot hnodes)
  balanced := h.balanced

/-- Writing the items of a focused leaf. -/
theorem focus_setItems {c : Ctx Ref 0} (h : Focus t c (.leaf r is)) (is' : List Ref) :
    Focus (t.setNode r { t.node r with items := is' }) c (.leaf r is') := by
  have hnode := h.node_leaf
  refine h.replace rfl rfl rfl ?_ ?_ (by simp) (fun x hx => Or.inl hx) h.alloc (le_refl _)
  · intro x hx
    have hne : x ≠ r := by
      intro heq
      exact h.disjoint r (by simp) (heq ▸ hx)
    simp [hne]
  · simp [hnode, leafRec]

end Edit

/-! ## `Add` -/

theorem wellFormed_of_settles {d : Nat} {t t' : BTreeIndex S} {T : AnyTree Ref}
    (hdeg : t.degree = d) (h : Settles d t T t') :
    ∃ T', WellFormed d t' T' ∧ Rebalances T T' ∧ t'.items = t.items := by
  obtain ⟨T', hrep, hbal, hsteps, hitems, hdeg'⟩ := h
  exact ⟨T', ⟨hdeg'.trans hdeg, hrep, hbal⟩, hsteps, hitems⟩

/-- The end of `Add`: the leaf is written and split if it is over
capacity. -/
theorem writeLeaf_add {d : Nat} (hd : 2 ≤ d) {t u : BTreeIndex S} {c : Ctx Ref 0} {r : Ref}
    {is is' : List Ref} (h : WellFormed d t (c.plug (.leaf r is))) (hroot : u.root = t.root)
    (hnodes : u.nodes = t.nodes) (hdeg : u.degree = t.degree)
    (hlen : is'.length = is.length + 1) :
    ∃ t' T', (if (is'.length : Int) > u.degree - 1
        then splitNode t.fuel (u.setNode r { u.node r with items := is' }) r
        else .ok (u.setNode r { u.node r with items := is' })) = .ok t' ∧
      WellFormed d t' T' ∧ Rebalances (c.plug (.leaf r is')) T' ∧ t'.items = u.items := by
  have hud : u.degree = d := hdeg.trans h.degree
  have hfoc : Focus (u.setNode r { u.node r with items := is' }) c (.leaf r is') :=
    focus_setItems (focus_congr ((reps_plug_iff c _).mp h.reps) hroot hnodes) is'
  obtain ⟨hocc, hmin, hmax, -⟩ := (Ctx.balanced_plug c _).mp h.balanced
  rw [LevelTree.items_leaf] at hmin hmax
  by_cases hover : (is'.length : Int) > u.degree - 1
  · rw [if_pos hover]
    have hfull : (LevelTree.leaf r is').items.length = d := by
      rw [LevelTree.items_leaf]
      omega
    have hud' : (u.setNode r { u.node r with items := is' }).degree = d := hud
    obtain ⟨t', hrun, hset⟩ := splitNode_settles hd c (.leaf r is') _ t.fuel hud' hfoc hfull
      trivial hocc h.depth_lt_fuel
    obtain ⟨T', hwf, hsteps, hitems⟩ := wellFormed_of_settles hud' hset
    exact ⟨t', T', hrun, hwf, hsteps, hitems⟩
  · rw [if_neg hover]
    refine ⟨_, c.plug (.leaf r is'), rfl, ⟨hud, (reps_plug_iff c _).mpr hfoc, ?_⟩,
      Relation.ReflTransGen.refl, rfl⟩
    rw [Ctx.balanced_plug, LevelTree.items_leaf]
    exact ⟨hocc, by omega, by omega, trivial⟩

/-- How `Add` of a non-empty member ends: the leaf `r` the score leads to
has an item of this member, whose score is set, or a new item enters `r`
before the first one it does not exceed. -/
theorem add_cases [LT S] [LE S] [DecidableLT S] [DecidableLE S] {d : Nat} (hd : 2 ≤ d) {t : BTreeIndex S} {T : AnyTree Ref}
    (h : WellFormed d t T) (score : S) {member : Bytes} (hm : member ≠ []) :
    ∃ (c : Ctx Ref 0) (r : Ref) (is : List Ref), T = c.plug (.leaf r is) ∧ c.Routed t.scoreOf score ∧
      ((∃ x ∈ is, (t.item x).member = member ∧
          t.add score member = .ok (0, t.setItem x { t.item x with score := score })) ∨
        ((∀ x ∈ is, (t.item x).member ≠ member) ∧
          ∃ A B t' T', is = A ++ B ∧
            (∀ x ∈ A, Item.compareTo ⟨score, member⟩ (t.item x) > 0) ∧
            (∀ x ∈ B.head?, ¬ Item.compareTo ⟨score, member⟩ (t.item x) > 0) ∧
            t.add score member = .ok (1, t') ∧ WellFormed d t' T' ∧
            Rebalances (c.plug (.leaf r (A ++ t.items.next :: B))) T' ∧
            t'.items = t.items.alloc ⟨score, member⟩)) := by
  obtain ⟨c, r, is, hleaf, rfl, hrouted⟩ := h.findLeaf score
  refine ⟨c, r, is, rfl, hrouted, ?_⟩
  have hnode : t.node r = leafRec is c.parent c.leavesAfter.head? :=
    ((reps_plug_iff c _).mp h.reps).node_leaf
  have hitems : (t.node r).items = is := by
    rw [hnode]
    rfl
  have hlen : ¬ member.length = 0 := fun h0 => hm (List.length_eq_zero_iff.mp h0)
  cases hfind : is.find? (fun x => (t.item x).member = member) with
  | some x =>
    refine Or.inl ⟨x, List.mem_of_find?_eq_some hfind, ?_, ?_⟩
    · simpa using List.find?_some hfind
    · simp only [add, addWith, if_neg hlen, hleaf, bind, Except.bind, hitems, hfind]
      rfl
  | none =>
    refine Or.inr ⟨?_, ?_⟩
    · intro x hx
      have := List.find?_eq_none.mp hfind x hx
      simpa using this
    · let p : Ref → Bool :=
        fun x => decide (Item.compareTo ⟨score, member⟩ (t.item x) > 0)
      let A := is.takeWhile p
      let B := is.dropWhile p
      have hcut : A ++ B = is := List.takeWhile_append_dropWhile
      have hcount : (A ++ t.items.next :: B).length = is.length + 1 := by
        rw [← hcut]
        simp
        omega
      obtain ⟨t', T', hrun, hwf, hsteps, hit⟩ :=
        writeLeaf_add hd (u := t.allocItem ⟨score, member⟩) h rfl rfl rfl hcount
      refine ⟨A, B, t', T', hcut.symm, ?_, ?_, ?_, hwf, hsteps, hit⟩
      · intro x hx
        simpa [p] using List.mem_takeWhile_imp hx
      · intro x hx
        have hhead := List.head?_dropWhile_not p is
        rw [Option.mem_def.mp hx] at hhead
        simpa [p] using hhead
      · have hins : insertAt ((t.allocItem ⟨score, member⟩).node r).items
            (t.itemSlot ⟨score, member⟩ is) t.items.next = .ok (A ++ t.items.next :: B) := by
          have hnd : ((t.allocItem ⟨score, member⟩).node r).items = A ++ B := hitems.trans hcut.symm
          rw [hnd]
          exact insertAt_append A B t.items.next
        simp only [add, addWith, if_neg hlen, hleaf, bind, Except.bind, hitems, hfind, hins]
        rw [allocItem_degree] at hrun
        by_cases hover : ((A ++ t.items.next :: B).length : Int) > t.degree - 1
        · rw [if_pos hover] at hrun
          refine (if_pos hover).trans ?_
          rw [hrun]
          rfl
        · rw [if_neg hover] at hrun
          cases hrun
          exact if_neg hover

/-! ## `RemoveByScore` -/

/-- The end of `RemoveByScore`: the leaf is written, and the walk up
starts if it is short and not the root. -/
theorem writeLeaf_remove {d : Nat} (hd : 2 ≤ d) {t : BTreeIndex S} {c : Ctx Ref 0} {r : Ref}
    {is is' : List Ref} (h : WellFormed d t (c.plug (.leaf r is)))
    (hlen : is'.length + 1 = is.length) :
    ∃ t' T', (if (is'.length : Int) < (t.degree - 1).tdiv 2 ∧
          ((t.setNode r { t.node r with items := is' }).node r).parent ≠ none
        then handleUnderflow t.fuel (t.setNode r { t.node r with items := is' }) r
        else .ok (t.setNode r { t.node r with items := is' })) = .ok t' ∧
      WellFormed d t' T' ∧ Rebalances (c.plug (.leaf r is')) T' ∧ t'.items = t.items := by
  have hud : (t.setNode r { t.node r with items := is' }).degree = d := h.degree
  have hfoc : Focus (t.setNode r { t.node r with items := is' }) c (.leaf r is') :=
    focus_setItems ((reps_plug_iff c _).mp h.reps) is'
  have hparent : ((t.setNode r { t.node r with items := is' }).node r).parent = c.parent :=
    hfoc.node_here.1
  have hm : (t.degree - 1).tdiv 2 = ((d - 1) / 2 : Nat) := by
    rw [h.degree]
    exact tdiv_two hd
  obtain ⟨hocc, hmin, hmax, -⟩ := (Ctx.balanced_plug c _).mp h.balanced
  rw [LevelTree.items_leaf] at hmin hmax
  rw [hparent, hm]
  by_cases hunder : (is'.length : Int) < ((d - 1) / 2 : Nat) ∧ c.parent ≠ none
  · rw [if_pos hunder]
    have hone : (d - 1) / 2 ≤ (LevelTree.leaf r is').items.length + 1 := by
      cases c with
      | top => exact absurd rfl hunder.2
      | up =>
        rw [Ctx.least_up] at hmin
        rw [LevelTree.items_leaf]
        omega
    obtain ⟨t', hrun, hset⟩ := handleUnderflow_settles hd c (.leaf r is') _ t.fuel hud hfoc
      trivial (by rw [LevelTree.items_leaf]; omega) hone hunder.2 hocc h.depth_lt_fuel
    obtain ⟨T', hwf, hsteps, hitems⟩ := wellFormed_of_settles hud hset
    exact ⟨t', T', hrun, hwf, hsteps, hitems⟩
  · rw [if_neg hunder]
    refine ⟨_, c.plug (.leaf r is'), rfl, ⟨hud, (reps_plug_iff c _).mpr hfoc, ?_⟩,
      Relation.ReflTransGen.refl, rfl⟩
    rw [Ctx.balanced_plug, LevelTree.items_leaf]
    refine ⟨hocc, ?_, by omega, trivial⟩
    cases c with
    | top => exact Nat.zero_le _
    | up =>
      rw [Ctx.least_up]
      by_contra hlt
      exact hunder ⟨by omega, by simp [Ctx.parent]⟩

/-- How `RemoveByScore` ends: the leaf `r` the score leads to has no item
of this score and member, or the first such item leaves `r`. -/
theorem removeByScore_cases [LE S] [BEq S] [DecidableLE S] {d : Nat} (hd : 2 ≤ d) {t : BTreeIndex S} {T : AnyTree Ref}
    (h : WellFormed d t T) (score : S) (member : Bytes) :
    ∃ (c : Ctx Ref 0) (r : Ref) (is : List Ref), T = c.plug (.leaf r is) ∧ c.Routed t.scoreOf score ∧
      (((∀ x ∈ is, ¬ (t.item x).Matches score member) ∧
          t.removeByScore score member = .ok (0, t)) ∨
        ∃ A x B t' T', is = A ++ x :: B ∧ (t.item x).Matches score member ∧
          t.removeByScore score member = .ok (1, t') ∧ WellFormed d t' T' ∧
          Rebalances (c.plug (.leaf r (A ++ B))) T' ∧ t'.items = t.items) := by
  obtain ⟨c, r, is, hleaf, rfl, hrouted⟩ := h.findLeaf score
  refine ⟨c, r, is, rfl, hrouted, ?_⟩
  have hnode : t.node r = leafRec is c.parent c.leavesAfter.head? :=
    ((reps_plug_iff c _).mp h.reps).node_leaf
  have hitems : (t.node r).items = is := by
    rw [hnode]
    rfl
  let p : Ref → Bool :=
    fun x => decide ((t.item x).member = member ∧ (t.item x).score == score)
  have hp : ∀ x, p x = true ↔ (t.item x).Matches score member := fun x => decide_eq_true_iff
  cases hfind : is.findIdx? p with
  | none =>
    refine Or.inl ⟨?_, ?_⟩
    · intro x hx heq
      have := List.findIdx?_eq_none_iff.mp hfind x hx
      rw [(hp x).mpr heq] at this
      exact absurd this (by simp)
    · simp only [removeByScore, removeByScoreWith, hleaf, bind, Except.bind, hitems]
      rw [show is.findIdx? _ = none from hfind]
      rfl
  | some i =>
    obtain ⟨hi, hpi, -⟩ := List.findIdx?_eq_some_iff_getElem.mp hfind
    have hcut : is = is.take i ++ is[i] :: is.drop (i + 1) := by
      rw [List.getElem_cons_drop, List.take_append_drop]
    have hcount : (is.take i ++ is.drop (i + 1)).length + 1 = is.length := by
      simp
      omega
    obtain ⟨t', T', hrun, hwf, hsteps, hit⟩ := writeLeaf_remove hd h hcount
    refine Or.inr ⟨is.take i, is[i], is.drop (i + 1), t', T', hcut, (hp _).mp hpi, ?_, hwf,
      hsteps, hit⟩
    have hrem : removeAt is i = .ok (is.take i ++ is.drop (i + 1)) := by
      rw [removeAt, if_pos (by omega)]
    simp only [removeByScore, removeByScoreWith, hleaf, bind, Except.bind, hitems]
    rw [show is.findIdx? _ = some i from hfind]
    simp only [hrem]
    split at hrun
    · rename_i hunder
      refine (if_pos hunder).trans ?_
      rw [hrun]
      rfl
    · rename_i hunder
      cases hrun
      exact if_neg hunder

end BTreeIndex

end RediGo.SortedSet
