/-
RediGo.SortedSet.BTreeCost — how far `Add` and `RemoveByScore` walk.

Both calls go down from the root to a leaf and then at most up again, by
splits or by merges. The fuel of the model counts the nodes of such a
walk: a call that gets its result with fuel `n` has entered `splitNode`
or `handleUnderflow` at most `n` times and the descent loop at most `n`
times. So the cost of a call is the least fuel that is enough.

* More fuel never changes a result (`splitNode_extends`,
  `handleUnderflow_extends`, `findLeaf_mono`).
* Fuel above the height is enough (`WellFormed.addWith_eq`,
  `WellFormed.removeByScoreWith_eq`).
* The height is at most a logarithm of the number of items
  (`Balanced.height_le_log`), from degree 3 on. With degree 2 a node below
  the root may be empty, and there is nothing to count.
-/
import RediGo.SortedSet.BTreeRanks

namespace RediGo.SortedSet

open RediGo.Lib RediGo.Go

namespace BTreeIndex

variable {S : Type}

/-! ## More fuel -/

/-- `g` returns what `f` returns, wherever `f` returns. -/
def Extends (f g : BTreeIndex S → Ref → Except Fault (BTreeIndex S)) : Prop :=
  ∀ t r u, f t r = .ok u → g t r = .ok u

theorem bind_imp {α β : Type} {x : Except Fault α} {f g : α → Except Fault β} {b : β}
    (h : x >>= f = .ok b) (hfg : ∀ a, f a = .ok b → g a = .ok b) : x >>= g = .ok b := by
  obtain ⟨a, rfl, hb⟩ := bind_eq_ok h
  exact hfg a hb

section Extends

variable {f g : BTreeIndex S → Ref → Except Fault (BTreeIndex S)} {t u : BTreeIndex S}

theorem insertChild_extends (hfg : Extends f g) {parent node promotedItem newNode : Ref}
    (h : insertChild f t parent node promotedItem newNode = .ok u) :
    insertChild g t parent node promotedItem newNode = .ok u := by
  refine bind_imp h fun items h => bind_imp h fun children h => ?_
  dsimp only at h ⊢
  split at h
  · rw [if_pos ‹_›]
    exact hfg _ _ _ h
  · rw [if_neg ‹_›]
    exact h

theorem splitLeaf_extends (hfg : Extends f g) {node : Ref} (h : splitLeaf f t node = .ok u) :
    splitLeaf g t node = .ok u :=
  bind_imp h fun _ h => bind_imp h fun _ h => insertChild_extends hfg h

theorem splitInternal_extends (hfg : Extends f g) {node : Ref}
    (h : splitInternal f t node = .ok u) : splitInternal g t node = .ok u :=
  bind_imp h fun _ h => bind_imp h fun _ h => bind_imp h fun _ h => bind_imp h fun _ h =>
    insertChild_extends hfg h

theorem splitRoot_extends (hfg : Extends f g) (h : splitRoot f t = .ok u) :
    splitRoot g t = .ok u := by
  simp only [splitRoot] at h ⊢
  split at h
  · rw [if_pos ‹_›]
    exact splitLeaf_extends hfg h
  · rw [if_neg ‹_›]
    exact splitInternal_extends hfg h

theorem checkParent_extends (hfg : Extends f g) {parent : Ref}
    (h : checkParent f t parent = .ok u) : checkParent g t parent = .ok u := by
  rw [checkParent] at h ⊢
  split at h
  · rw [if_pos ‹_›]
    exact hfg _ _ _ h
  · rw [if_neg ‹_›]
    exact h

theorem mergeSiblings_extends (hfg : Extends f g) {node left right : Ref} {separatorIndex : Nat}
    (h : mergeSiblings f t node left right separatorIndex = .ok u) :
    mergeSiblings g t node left right separatorIndex = .ok u := by
  refine bind_imp h fun parent h => ?_
  dsimp only at h ⊢
  split at h
  · rw [if_pos ‹_›]
    exact bind_imp h fun _ h => bind_imp h fun _ h => bind_imp h fun _ h =>
      checkParent_extends hfg h
  · rw [if_neg ‹_›]
    exact bind_imp h fun _ h => bind_imp h fun _ h => bind_imp h fun _ h => bind_imp h fun _ h =>
      checkParent_extends hfg h

end Extends

theorem splitNode_extends (fuel : Nat) : Extends (splitNode (S := S) fuel) (splitNode (fuel + 1)) := by
  induction fuel with
  | zero =>
    intro t r u h
    cases h
  | succ fuel ih =>
    intro t r u h
    rw [splitNode] at h ⊢
    cases hpar : (t.node r).parent with
    | none =>
      simp only [hpar] at h ⊢
      exact splitRoot_extends ih h
    | some p =>
      simp only [hpar] at h ⊢
      split at h
      · rw [if_pos ‹_›]
        exact splitLeaf_extends ih h
      · rw [if_neg ‹_›]
        exact splitInternal_extends ih h

theorem handleUnderflow_extends (fuel : Nat) :
    Extends (handleUnderflow (S := S) fuel) (handleUnderflow (fuel + 1)) := by
  induction fuel with
  | zero =>
    intro t r u h
    cases h
  | succ fuel ih =>
    intro t r u h
    rw [handleUnderflow] at h ⊢
    cases hpar : (t.node r).parent with
    | none =>
      simp only [hpar] at h ⊢
      exact h
    | some p =>
      simp only [hpar] at h ⊢
      split at h
      · rw [if_pos ‹_›]
        exact h
      · rw [if_neg ‹_›]
        split at h
        · cases h
        · rw [if_neg ‹_›]
          refine bind_imp h fun left h => bind_imp h fun right h => ?_
          split at h
          · rw [if_pos ‹_›]
            exact h
          · rw [if_neg ‹_›]
            split at h
            · rw [if_pos ‹_›]
              exact h
            · rw [if_neg ‹_›]
              -- only a merge goes on to the parent
              cases left with
              | some l => exact mergeSiblings_extends ih h
              | none =>
                cases right with
                | some r => exact mergeSiblings_extends ih h
                | none => exact h

theorem extends_of_le {F : Nat → BTreeIndex S → Ref → Except Fault (BTreeIndex S)}
    (hstep : ∀ n, Extends (F n) (F (n + 1))) {m n : Nat} (h : m ≤ n) : Extends (F m) (F n) := by
  induction h with
  | refl => exact fun _ _ _ h => h
  | step _ ih => exact fun t r u h => hstep _ t r u (ih t r u h)

/-- Two fuels with which the walk returns give the same result. -/
theorem eq_of_extends {F : Nat → BTreeIndex S → Ref → Except Fault (BTreeIndex S)}
    (hstep : ∀ n, Extends (F n) (F (n + 1))) {m n : Nat} {t u v : BTreeIndex S} {r : Ref}
    (hm : F m t r = .ok u) (hn : F n t r = .ok v) : u = v := by
  rcases Nat.le_total m n with hle | hle
  · exact Except.ok.inj ((extends_of_le hstep hle t r u hm).symm.trans hn)
  · exact Except.ok.inj (hm.symm.trans (extends_of_le hstep hle t r v hn))

section Descent

variable [LE S] [DecidableLE S]

theorem findLeaf_mono (t : BTreeIndex S) (score : S) {m n : Nat} (hle : m ≤ n) {r leaf : Ref}
    (h : t.findLeaf score m r = .ok leaf) : t.findLeaf score n r = .ok leaf := by
  induction m generalizing n r with
  | zero => cases h
  | succ m ih =>
    obtain ⟨n, rfl⟩ : ∃ k, n = k + 1 := ⟨n - 1, by omega⟩
    rw [findLeaf] at h ⊢
    split at h
    · rw [if_pos ‹_›]
      exact h
    · rw [if_neg ‹_›]
      exact bind_imp h fun child h => ih (by omega) h

end Descent

/-! ## Fuel above the height -/

theorem length_insertAt {α : Type} {l l' : List α} {i : Nat} {a : α}
    (h : insertAt l i a = .ok l') : l'.length = l.length + 1 := by
  rw [insertAt] at h
  split at h
  · cases h
    simp
    omega
  · cases h

theorem length_removeAt {α : Type} {l l' : List α} {i : Nat}
    (h : removeAt l i = .ok l') : l'.length + 1 = l.length := by
  rw [removeAt] at h
  split at h
  · cases h
    simp
    omega
  · cases h

section Enough

variable {d : Nat} {t : BTreeIndex S} {T : AnyTree Ref} {fuel : Nat}

/-- Fuel above the height leads to the leaf the whole fuel leads to. -/
theorem WellFormed.findLeaf_eq [LE S] [DecidableLE S] (h : WellFormed d t T) (hfuel : T.1 < fuel)
    (score : S) :
    ∃ (c : Ctx Ref 0) (r : Ref) (is : List Ref), T = c.plug (.leaf r is) ∧
      t.findLeaf score fuel t.root = .ok r ∧ t.findLeaf score t.fuel t.root = .ok r := by
  have hfoc : Focus t .top T.2 := (reps_plug_iff .top T.2).mp h.reps
  obtain ⟨c, r, is, hleast, hplug, -⟩ := findLeaf_focus t score (T.1 + 1) .top T.2 hfoc
    h.balanced.2.2 trivial (Nat.lt_succ_self _)
  rw [← h.reps.root] at hleast
  exact ⟨c, r, is, hplug, findLeaf_mono t score hfuel hleast,
    findLeaf_mono t score h.height_lt_fuel hleast⟩

/-- The context of a leaf is as deep as the tree is high. -/
theorem depth_of_leaf {c : Ctx Ref 0} {r : Ref} {is : List Ref}
    (hfuel : (c.plug (.leaf r is)).1 < fuel) : depth c < fuel := by
  rw [height_plug] at hfuel
  omega

theorem WellFormed.splitNode_eq {c : Ctx Ref 0} {r : Ref} {is is' : List Ref} {u : BTreeIndex S}
    (hd : 2 ≤ d) (h : WellFormed d t (c.plug (.leaf r is)))
    (hfuel : (c.plug (.leaf r is)).1 < fuel) (hroot : u.root = t.root) (hnodes : u.nodes = t.nodes)
    (hdeg : u.degree = t.degree) (hlen : is'.length = is.length + 1)
    (hover : (is'.length : Int) > u.degree - 1) :
    splitNode fuel (u.setNode r { u.node r with items := is' }) r =
      splitNode t.fuel (u.setNode r { u.node r with items := is' }) r := by
  have hud : (u.setNode r { u.node r with items := is' }).degree = d := hdeg.trans h.degree
  have hfoc : Focus (u.setNode r { u.node r with items := is' }) c (.leaf r is') :=
    focus_setItems (focus_congr ((reps_plug_iff c _).mp h.reps) hroot hnodes) is'
  obtain ⟨hocc, -, hmax, -⟩ := (Ctx.balanced_plug c _).mp h.balanced
  rw [LevelTree.items_leaf] at hmax
  have hfull : (LevelTree.leaf r is').items.length = d := by
    rw [hdeg, h.degree] at hover
    rw [LevelTree.items_leaf]
    omega
  obtain ⟨v, hrun, -⟩ := splitNode_settles hd c (.leaf r is') _ fuel hud hfoc hfull trivial hocc
    (depth_of_leaf hfuel)
  obtain ⟨w, hrun', -⟩ := splitNode_settles hd c (.leaf r is') _ t.fuel hud hfoc hfull trivial hocc
    h.depth_lt_fuel
  rw [LevelTree.ref_leaf] at hrun hrun'
  rw [hrun, hrun', eq_of_extends splitNode_extends hrun hrun']

theorem WellFormed.addWith_eq [LT S] [LE S] [DecidableLT S] [DecidableLE S] (hd : 2 ≤ d)
    (h : WellFormed d t T) (hfuel : T.1 < fuel) (score : S) (member : Bytes) :
    addWith fuel t score member = t.add score member := by
  by_cases hm : member.length = 0
  · rw [add, addWith, addWith, if_pos hm, if_pos hm]
  obtain ⟨c, r, is, rfl, hleaf, hleaf'⟩ := h.findLeaf_eq hfuel score
  have hitems : (t.node r).items = is := by
    rw [((reps_plug_iff c _).mp h.reps).node_leaf]
    rfl
  simp only [add, addWith, if_neg hm, hleaf, hleaf', bind, Except.bind, hitems]
  cases is.find? fun x => (t.item x).member = member with
  | some x => rfl
  | none =>
    dsimp only
    have hnode : ((t.allocItem ⟨score, member⟩).node r).items = is := hitems
    rw [hnode]
    cases hins : insertAt is (t.itemSlot ⟨score, member⟩ is) t.items.next with
    | error fault => rfl
    | ok is' =>
      dsimp only
      split
      · rename_i hover
        rw [h.splitNode_eq (u := t.allocItem ⟨score, member⟩) hd hfuel rfl rfl rfl
          (length_insertAt hins) hover]
      · rfl

theorem WellFormed.handleUnderflow_eq {c : Ctx Ref 0} {r : Ref} {is is' : List Ref} (hd : 2 ≤ d)
    (h : WellFormed d t (c.plug (.leaf r is))) (hfuel : (c.plug (.leaf r is)).1 < fuel)
    (hlen : is'.length + 1 = is.length)
    (hpar : ((t.setNode r { t.node r with items := is' }).node r).parent ≠ none) :
    handleUnderflow fuel (t.setNode r { t.node r with items := is' }) r =
      handleUnderflow t.fuel (t.setNode r { t.node r with items := is' }) r := by
  have hud : (t.setNode r { t.node r with items := is' }).degree = d := h.degree
  have hfoc : Focus (t.setNode r { t.node r with items := is' }) c (.leaf r is') :=
    focus_setItems ((reps_plug_iff c _).mp h.reps) is'
  have hup : c.parent ≠ none := by
    rw [← hfoc.node_here.1]
    exact hpar
  obtain ⟨hocc, hmin, hmax, -⟩ := (Ctx.balanced_plug c _).mp h.balanced
  rw [LevelTree.items_leaf] at hmin hmax
  have hone : (d - 1) / 2 ≤ (LevelTree.leaf r is').items.length + 1 := by
    cases c with
    | top => exact absurd rfl hup
    | up =>
      rw [Ctx.least_up] at hmin
      rw [LevelTree.items_leaf]
      omega
  have hmost : (LevelTree.leaf r is').items.length ≤ d - 1 := by
    rw [LevelTree.items_leaf]
    omega
  obtain ⟨v, hrun, -⟩ := handleUnderflow_settles hd c (.leaf r is') _ fuel hud hfoc trivial hmost
    hone hup hocc (depth_of_leaf hfuel)
  obtain ⟨w, hrun', -⟩ := handleUnderflow_settles hd c (.leaf r is') _ t.fuel hud hfoc trivial hmost
    hone hup hocc h.depth_lt_fuel
  rw [LevelTree.ref_leaf] at hrun hrun'
  rw [hrun, hrun', eq_of_extends handleUnderflow_extends hrun hrun']

theorem WellFormed.removeByScoreWith_eq [LE S] [BEq S] [DecidableLE S] (hd : 2 ≤ d)
    (h : WellFormed d t T) (hfuel : T.1 < fuel) (score : S) (member : Bytes) :
    removeByScoreWith fuel t score member = t.removeByScore score member := by
  obtain ⟨c, r, is, rfl, hleaf, hleaf'⟩ := h.findLeaf_eq hfuel score
  have hitems : (t.node r).items = is := by
    rw [((reps_plug_iff c _).mp h.reps).node_leaf]
    rfl
  simp only [removeByScore, removeByScoreWith, hleaf, hleaf', bind, Except.bind, hitems]
  cases is.findIdx? fun x => decide ((t.item x).member = member ∧ (t.item x).score == score) with
  | none => rfl
  | some i =>
    dsimp only
    cases hrem : removeAt is i with
    | error fault => rfl
    | ok is' =>
      dsimp only
      split
      · rename_i hunder
        rw [h.handleUnderflow_eq hd hfuel (length_removeAt hrem) hunder.2]
      · rfl

end Enough

/-! ## Whole runs -/

theorem exists_of_map_ok {α β : Type} {f : α → β} {x : Except Fault α} {b : β}
    (h : f <$> x = .ok b) : ∃ a, x = .ok a := by
  cases x with
  | error fault => cases h
  | ok a => exact ⟨a, rfl⟩

variable [LT S] [LE S] [BEq S] [DecidableLT S] [DecidableLE S]

/-- After every sequence of calls on a new index of degree 3 or more, the
next `Add` or `RemoveByScore` returns within a walk down and a walk up of
`1 + log n` nodes, `n` the items stored, to the least number of children
of a node below the root. -/
theorem run_cost [Inhabited S] (degree : Int) (hd : 3 ≤ degree) (ops : List (Op S)) :
    ∃ (t : BTreeIndex S) (n : Nat), (BTreeIndex.new degree).run ops = .ok t ∧ t.count = .ok n ∧
      ∀ fuel, Nat.log ((degree.toNat - 1) / 2 + 1) n < fuel → ∀ score member,
        (∃ r, t.add score member = .ok r ∧ addWith fuel t score member = .ok r) ∧
        ∃ r, t.removeByScore score member = .ok r ∧
          removeByScoreWith fuel t score member = .ok r := by
  obtain ⟨d, rfl⟩ := Int.eq_ofNat_of_zero_le (by omega : 0 ≤ degree)
  have hd' : 2 ≤ d := by omega
  obtain ⟨t, T, hrun, h⟩ := run_wellFormed hd' ops (wellFormed_new (S := S) (d := d))
  refine ⟨t, T.2.leafItems.length, hrun, h.count_eq, fun fuel hfuel score member => ?_⟩
  rw [Int.toNat_natCast] at hfuel
  have hheight := h.balanced.height_le_log (by omega) (by omega)
  rw [h.addWith_eq hd' (by omega), h.removeByScoreWith_eq hd' (by omega)]
  obtain ⟨u, U, hadd, -⟩ := step_wellFormed hd' h (.add score member)
  obtain ⟨v, V, hrem, -⟩ := step_wellFormed hd' h (.removeByScore score member)
  obtain ⟨r, hadd⟩ := exists_of_map_ok hadd
  obtain ⟨r', hrem⟩ := exists_of_map_ok hrem
  exact ⟨⟨r, hadd, hadd⟩, r', hrem, hrem⟩

/-- Degree 4, the default: with five items stored a walk passes three
nodes at most. -/
theorem run_cost_five : ∃ t : BTreeIndex Int,
    (BTreeIndex.new 4).run [.add 1 [97], .add 2 [98], .add 3 [99], .add 4 [100], .add 5 [101]]
      = .ok t ∧ t.count = .ok 5 ∧
    ∀ score member, ∃ r, t.add score member = .ok r ∧ addWith 3 t score member = .ok r := by
  obtain ⟨t, n, hrun, hcount, hcost⟩ := run_cost (S := Int) 4 (by decide)
    [.add 1 [97], .add 2 [98], .add 3 [99], .add 4 [100], .add 5 [101]]
  have hfive : (BTreeIndex.new (S := Int) 4).run [.add 1 [97], .add 2 [98], .add 3 [99],
      .add 4 [100], .add 5 [101]] >>= count = .ok 5 := by decide +kernel
  rw [hrun] at hfive
  obtain rfl : n = 5 := by
    have hn : Except.ok (ε := Fault) (n : Int) = .ok 5 := hcount.symm.trans hfive
    exact_mod_cast Except.ok.inj hn
  exact ⟨t, hrun, hcount, fun score member => (hcost 3 (by decide) score member).1⟩

end BTreeIndex

end RediGo.SortedSet
