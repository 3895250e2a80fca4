/-
RediGo.SortedSet.BTreeClimb — the two walks up the tree, `splitNode` and
`handleUnderflow`.

Each is proved by induction on the context of the node it works on. One
turn does a step of `RediGo.Lib.Rebalance` and either stops or goes on
with the parent, one frame further up; the fuel only has to exceed the
depth. What comes out is a heap that represents a tree again, with the
occupancy of the degree restored, reached by rebalancing steps alone.

The leaf and the inner variant of each step are told apart by the level
of the node (`split_focus`, `lendLeft_focus`, `lendRight_focus`,
`merge_focus`), so that the walks themselves do not mention the
difference.
-/
import Mathlib.Tactic.Linarith
import RediGo.Lib.Rebalance
import RediGo.SortedSet.BTreeSteps

namespace RediGo.SortedSet

open RediGo.Lib RediGo.Go

variable {S : Type}

namespace BTreeIndex

/-! ## One turn, for either kind of node -/

theorem isLeaf_of_level_zero {t : BTreeIndex S} {c : Ctx Ref 0} {s : LevelTree Ref 0}
    (h : Focus t c s) : (t.node s.ref).isLeaf = true := by
  obtain ⟨r, is, rfl⟩ := s.exists_leaf
  rw [LevelTree.ref_leaf, h.node_leaf]
  rfl

theorem isLeaf_of_level_succ {n : Nat} {t : BTreeIndex S} {c : Ctx Ref (n + 1)}
    {s : LevelTree Ref (n + 1)} (h : Focus t c s) : (t.node s.ref).isLeaf = false := by
  obtain ⟨r, is, cs, rfl⟩ := s.exists_node
  rw [LevelTree.ref_node, h.node_inner]
  rfl

/-- The cut at the median index. -/
theorem exists_median {α : Type} (l : List α) (hl : 0 < l.length) :
    ∃ A x B, l = A ++ x :: B ∧ A.length = l.length / 2 := by
  have hlt : l.length / 2 < l.length := Nat.div_lt_self hl (by omega)
  refine ⟨l.take (l.length / 2), l.get ⟨_, hlt⟩, l.drop (l.length / 2 + 1), ?_, ?_⟩
  · rw [List.get_eq_getElem, List.getElem_cons_drop, List.take_append_drop]
  · rw [List.length_take]
    omega

/-- A list cut after its first `k` entries. -/
theorem exists_cut {α : Type} (l : List α) (k : Nat) (hk : k ≤ l.length) :
    ∃ C D, l = C ++ D ∧ C.length = k :=
  ⟨l.take k, l.drop k, (List.take_append_drop k l).symm, by simp [hk]⟩

/-- The last entry of a list that has one. -/
theorem exists_snoc {α : Type} (l : List α) (hl : 0 < l.length) :
    ∃ A x, l = A ++ [x] ∧ A.length + 1 = l.length := by
  have hne : l ≠ [] := List.length_pos_iff.mp hl
  refine ⟨l.dropLast, l.getLast hne, (List.dropLast_append_getLast hne).symm, ?_⟩
  rw [List.length_dropLast]
  omega

theorem split_focus {n : Nat} {t : BTreeIndex S} {rp : Ref} {isL isR : List Ref}
    {csL csR : List (LevelTree Ref n)} {hL : isL.length = csL.length}
    {hR : isR.length = csR.length} {c : Ctx Ref (n + 1)} {s : LevelTree Ref n} {d : Nat}
    (rec : BTreeIndex S → Ref → Except Fault (BTreeIndex S)) (hd : 2 ≤ d)
    (hlen : s.items.length = d) (hin : s.Inner ((d - 1) / 2) (d - 1))
    (h : Focus t (.up rp isL isR csL csR hL hR c) s) :
    ∃ t' a x b, (if (t.node s.ref).isLeaf then splitLeaf rec t s.ref
        else splitInternal rec t s.ref)
          = (if ((isL ++ x :: isR).length : Int) > t.degree - 1 then rec t' rp else .ok t') ∧
      Focus t' c (.node rp (isL ++ x :: isR) (csL ++ ([a, b] ++ csR))) ∧ Splits s a x b ∧
      a.Occ ((d - 1) / 2) (d - 1) ∧ b.Occ ((d - 1) / 2) (d - 1) ∧
      t'.items = t.items ∧ t'.degree = t.degree := by
  cases n with
  | zero =>
    rw [if_pos (isLeaf_of_level_zero h)]
    obtain ⟨r, is, rfl⟩ := s.exists_leaf
    rw [LevelTree.items_leaf] at hlen
    obtain ⟨A, x, B, rfl, hA⟩ := exists_median is (by omega)
    have hB : B.length + 1 + A.length = d := by
      rw [← hlen]
      simp
      omega
    obtain ⟨t', hrun, hfoc, hitems, hdeg⟩ := splitLeaf_focus rec h hA.symm
    refine ⟨t', _, x, _, hrun, hfoc, Splits.leaf r _ A x B, ?_, ?_, hitems, hdeg⟩
    · simp [LevelTree.occ_iff]
      omega
    · simp [LevelTree.occ_iff]
      omega
  | succ n =>
    rw [if_neg (by simp [isLeaf_of_level_succ h])]
    obtain ⟨r, is, cs, rfl⟩ := s.exists_node
    rw [LevelTree.items_node] at hlen
    rw [LevelTree.inner_node] at hin
    obtain ⟨A, x, B, rfl, hA⟩ := exists_median is (by omega)
    have hB : B.length + 1 + A.length = d := by
      rw [← hlen]
      simp
      omega
    obtain ⟨C, D, rfl, hC⟩ := exists_cut cs (A.length + 1) (by omega)
    have hD : D.length = B.length + 1 := by
      have := hin.1
      rw [List.length_append] at this
      omega
    obtain ⟨t', hrun, hfoc, hitems, hdeg⟩ := splitInternal_focus rec h hA.symm hC
    refine ⟨t', _, x, _, hrun, hfoc, Splits.node r _ A x B C D hC, ?_, ?_, hitems, hdeg⟩
    · rw [LevelTree.occ_iff, LevelTree.inner_node, LevelTree.items_node]
      exact ⟨by omega, by omega, hC, fun s hs => hin.2 s (List.mem_append_left _ hs)⟩
    · rw [LevelTree.occ_iff, LevelTree.inner_node, LevelTree.items_node]
      exact ⟨by omega, by omega, hD, fun s hs => hin.2 s (List.mem_append_right _ hs)⟩

section Siblings

variable {n lo hi : Nat} {t : BTreeIndex S} {c : Ctx Ref (n + 1)} {rp x : Ref}
  {isL isR : List Ref} {csL csR : List (LevelTree Ref n)} {a b : LevelTree Ref n}

theorem lendLeft_focus (ha : 0 < a.items.length) (hia : a.Inner lo hi) (hib : b.Inner lo hi)
    (h : Focus t c (.node rp (isL ++ x :: isR) (csL ++ ([a, b] ++ csR)))) :
    ∃ t' a' y b', borrowFromLeftSibling t b.ref a.ref isL.length = .ok t' ∧
      Focus t' c (.node rp (isL ++ y :: isR) (csL ++ ([a', b'] ++ csR))) ∧
      Rotates a x b a' y b' ∧ a'.items.length + 1 = a.items.length ∧
      b'.items.length = b.items.length + 1 ∧ a'.Inner lo hi ∧ b'.Inner lo hi ∧
      t'.items = t.items ∧ t'.degree = t.degree := by
  cases n with
  | zero =>
    obtain ⟨ra, A', rfl⟩ := a.exists_leaf
    obtain ⟨rb, B, rfl⟩ := b.exists_leaf
    obtain ⟨A, y, rfl, hA⟩ := exists_snoc A' ha
    obtain ⟨t', hrun, hfoc, -, hitems, hdeg⟩ := borrowFromLeftSibling_leaf h
    exact ⟨t', _, y, _, hrun, hfoc, Rotates.leafRight ra rb A y x B, hA, rfl, trivial, trivial,
      hitems, hdeg⟩
  | succ n =>
    obtain ⟨ra, A', C', rfl⟩ := a.exists_node
    obtain ⟨rb, B, D, rfl⟩ := b.exists_node
    rw [LevelTree.inner_node] at hia hib
    obtain ⟨A, y, rfl, hA⟩ := exists_snoc A' ha
    obtain ⟨C, d, rfl, hC⟩ := exists_snoc C' (by omega)
    obtain ⟨t', hrun, hfoc, -, hitems, hdeg⟩ := borrowFromLeftSibling_node h
    have hCA : C.length = A.length + 1 := by omega
    refine ⟨t', _, y, _, hrun, hfoc, Rotates.nodeRight ra rb A y x B C d D hCA, hA, rfl, ?_, ?_,
      hitems, hdeg⟩
    · exact ⟨hCA, fun s hs => hia.2 s (List.mem_append_left _ hs)⟩
    · rw [LevelTree.inner_node]
      refine ⟨by simpa using hib.1, ?_⟩
      intro s hs
      rcases List.mem_cons.mp hs with rfl | hs
      · exact hia.2 s (by simp)
      · exact hib.2 s hs

theorem lendRight_focus (hb : 1 < b.items.length) (hia : a.Inner lo hi) (hib : b.Inner lo hi)
    (h : Focus t c (.node rp (isL ++ x :: isR) (csL ++ ([a, b] ++ csR)))) :
    ∃ t' a' y b', borrowFromRightSibling t a.ref b.ref isL.length = .ok t' ∧
      Focus t' c (.node rp (isL ++ y :: isR) (csL ++ ([a', b'] ++ csR))) ∧
      Rotates a x b a' y b' ∧ a'.items.length = a.items.length + 1 ∧
      b'.items.length + 1 = b.items.length ∧ a'.Inner lo hi ∧ b'.Inner lo hi ∧
      t'.items = t.items ∧ t'.degree = t.degree := by
  cases n with
  | zero =>
    obtain ⟨ra, A, rfl⟩ := a.exists_leaf
    obtain ⟨rb, B', rfl⟩ := b.exists_leaf
    match B', hb with
    | y :: z :: B, _ =>
      obtain ⟨t', hrun, hfoc, -, hitems, hdeg⟩ := borrowFromRightSibling_leaf h
      exact ⟨t', _, z, _, hrun, hfoc, Rotates.leafLeft ra rb A x y z B, by simp, rfl, trivial,
        trivial, hitems, hdeg⟩
  | succ n =>
    obtain ⟨ra, A, C, rfl⟩ := a.exists_node
    obtain ⟨rb, B', D', rfl⟩ := b.exists_node
    rw [LevelTree.inner_node] at hia hib
    match B', D', hb, hib with
    | y :: B, d :: D, _, hib =>
      obtain ⟨t', hrun, hfoc, -, hitems, hdeg⟩ := borrowFromRightSibling_node h
      refine ⟨t', _, y, _, hrun, hfoc, Rotates.nodeLeft ra rb A x y B C d D hia.1, by simp, rfl,
        ?_, ?_, hitems, hdeg⟩
      · rw [LevelTree.inner_node]
        refine ⟨by simpa using hia.1, ?_⟩
        intro s hs
        rcases List.mem_append.mp hs with hs | hs
        · exact hia.2 s hs
        · exact hib.2 s (by simpa using Or.inl (List.mem_singleton.mp hs))
      · rw [LevelTree.inner_node]
        exact ⟨by simpa using hib.1, fun s hs => hib.2 s (List.mem_cons_of_mem _ hs)⟩
    | _ :: _, [], _, hib => simp at hib

theorem merge_focus (rec : BTreeIndex S → Ref → Except Fault (BTreeIndex S)) {node : Ref}
    (hL : isL.length = csL.length) (hnode : node = a.ref ∨ node = b.ref)
    (hia : a.Inner lo hi) (hib : b.Inner lo hi)
    (h : Focus t c (.node rp (isL ++ x :: isR) (csL ++ ([a, b] ++ csR)))) :
    ∃ t' m, mergeSiblings rec t node a.ref b.ref isL.length = checkParent rec t' rp ∧
      Focus t' c (.node rp (isL ++ isR) (csL ++ ([m] ++ csR))) ∧ Merges a x b m ∧
      a.items.length + b.items.length ≤ m.items.length ∧
      m.items.length ≤ a.items.length + b.items.length + 1 ∧ m.Inner lo hi ∧
      t'.items = t.items ∧ t'.degree = t.degree := by
  cases n with
  | zero =>
    obtain ⟨ra, A, rfl⟩ := a.exists_leaf
    obtain ⟨rb, B, rfl⟩ := b.exists_leaf
    obtain ⟨t', hrun, hfoc, hitems, hdeg⟩ := mergeSiblings_leaf rec hL hnode h
    exact ⟨t', _, hrun, hfoc, Merges.leaf ra rb A x B, by simp, by simp, trivial, hitems, hdeg⟩
  | succ n =>
    obtain ⟨ra, A, C, rfl⟩ := a.exists_node
    obtain ⟨rb, B, D, rfl⟩ := b.exists_node
    rw [LevelTree.inner_node] at hia hib
    obtain ⟨t', hrun, hfoc, hitems, hdeg⟩ := mergeSiblings_node rec hL hnode h
    refine ⟨t', _, hrun, hfoc, Merges.node ra rb A x B C D hia.1, ?_, ?_, ?_, hitems, hdeg⟩
    · simp
    · simp
      omega
    · rw [LevelTree.inner_node]
      refine ⟨?_, ?_⟩
      · simp [hia.1, hib.1]
        omega
      · intro s hs
        rcases List.mem_append.mp hs with hs | hs
        · exact hia.2 s hs
        · exact hib.2 s hs

end Siblings

/-! ## The walk up of `splitNode` -/

/-- The number of ancestors. -/
def depth : {n : Nat} → Ctx Ref n → Nat
  | _, .top => 0
  | _, .up _ _ _ _ _ _ _ c => depth c + 1

/-- `splitRoot` first puts an empty node above the root. -/
theorem focus_newRoot {n : Nat} {t : BTreeIndex S} {s : LevelTree Ref n}
    (h : Focus t .top s) :
    Focus ({ t.allocNode { children := [t.root] } with root := t.nodes.next }.setNode t.root
      { (t.allocNode { children := [t.root] }).node t.root with parent := some t.nodes.next })
      (.up t.nodes.next [] [] [] [] rfl rfl .top) s := by
  have hroot : t.root = s.ref := h.root
  have hlt : s.ref < t.nodes.next := h.alloc _ s.ref_mem_refs
  have hne : s.ref ≠ t.nodes.next := Nat.ne_of_lt hlt
  rw [hroot]
  exact {
    root := rfl
    here := by
      refine holds_cells_reparent _ h.here h.nodup ?_ ?_
      · simp [node, setNode, allocNode, hne, Ctx.parent]
      · intro x hx hxs
        have hxn : x ≠ t.nodes.next := Nat.ne_of_lt (h.alloc x hx)
        simp [node, setNode, allocNode, hxs, hxn]
    outside := by
      simp [CtxCells.cells, Ctx.parent, node, setNode, allocNode, hne.symm, nodeRec]
    nodup := h.nodup
    nodupOut := by simp [CtxCells.refs]
    disjoint := by
      intro x hx hx'
      simp only [CtxCells.refs, List.flatMap_nil, List.nil_append, List.mem_singleton] at hx'
      exact absurd (h.alloc x hx) (by rw [hx']; exact Nat.lt_irrefl _)
    alloc := fun x hx => Nat.lt_succ_of_lt (h.alloc x hx)
    allocOut := by
      intro x hx
      simp only [CtxCells.refs, List.flatMap_nil, List.nil_append, List.mem_singleton] at hx
      rw [hx]
      exact Nat.lt_succ_self _ }

/-- What a walk leaves behind: a tree again, in balance, reached by
rebalancing steps from `T`. -/
def Settles (d : Nat) (t : BTreeIndex S) (T : AnyTree Ref) (t' : BTreeIndex S) : Prop :=
  ∃ T', Reps t' T' ∧ Balanced (min 1 ((d - 1) / 2)) ((d - 1) / 2) (d - 1) T' ∧
    Rebalances T T' ∧ t'.items = t.items ∧ t'.degree = t.degree

theorem splitNode_settles {d : Nat} (hd : 2 ≤ d) {n : Nat} (c : Ctx Ref n) :
    ∀ (s : LevelTree Ref n) (t : BTreeIndex S) (fuel : Nat), t.degree = d → Focus t c s →
      s.items.length = d → s.Inner ((d - 1) / 2) (d - 1) →
      c.Occ (min 1 ((d - 1) / 2)) ((d - 1) / 2) (d - 1) → depth c < fuel →
      ∃ t', splitNode fuel t s.ref = .ok t' ∧ Settles d t (c.plug s) t' := by
  induction c with
  | top =>
    intro s t fuel hdeg h hlen hin _ hfuel
    obtain ⟨f, rfl⟩ : ∃ f, fuel = f + 1 := ⟨fuel - 1, by omega⟩
    have hpar : (t.node s.ref).parent = none := h.node_here.1
    have hroot : t.root = s.ref := h.root
    obtain ⟨t', a, x, b, hrun, hfoc, hsp, ha, hb, hitems, hdeg'⟩ :=
      split_focus (splitNode f) hd hlen hin (focus_newRoot h)
    have hsmall : ¬ ((([] : List Ref) ++ x :: []).length : Int) > t.degree - 1 := by
      rw [hdeg]
      simp
      omega
    refine ⟨t', ?_, ⟨_, _⟩, (reps_plug_iff .top _).mpr hfoc, ?_, ?_, hitems, hdeg'⟩
    · rw [splitNode, hpar]
      rw [← hroot] at hrun
      exact hrun.trans (if_neg hsmall)
    · rw [Ctx.balanced_plug, LevelTree.inner_node]
      refine ⟨trivial, ?_, ?_, rfl, ?_⟩
      · simp [Ctx.least]
      · simp
        omega
      · simpa using ⟨ha, hb⟩
    · refine (Relation.ReflTransGen.single (Rebalance.grow t.nodes.next s)).tail ?_
      exact Rebalance.inside .top (LocalStep.split t.nodes.next [] [] [] [] rfl hsp)
  | up rp isL isR csL csR hL hR c ih =>
    intro s t fuel hdeg h hlen hin hocc hfuel
    obtain ⟨f, rfl⟩ : ∃ f, fuel = f + 1 := ⟨fuel - 1, by omega⟩
    obtain ⟨hmin, hmax, hsL, hsR, hc⟩ := hocc
    have hpar : (t.node s.ref).parent = some rp := h.node_here.1
    obtain ⟨t', a, x, b, hrun, hfoc, hsp, ha, hb, hitems, hdeg'⟩ :=
      split_focus (splitNode f) hd hlen hin h
    have hstep : Rebalance ((Ctx.up rp isL isR csL csR hL hR c).plug s)
        (c.plug (.node rp (isL ++ x :: isR) (csL ++ ([a, b] ++ csR)))) :=
      Rebalance.inside c (LocalStep.split rp isL isR csL csR hL hsp)
    have hinner : (LevelTree.node rp (isL ++ x :: isR) (csL ++ ([a, b] ++ csR))).Inner
        ((d - 1) / 2) (d - 1) := by
      rw [LevelTree.inner_node]
      refine ⟨by simp; omega, ?_⟩
      intro u hu
      simp only [List.mem_append, List.mem_cons, List.not_mem_nil, or_false] at hu
      rcases hu with hu | (rfl | rfl) | hu
      · exact hsL u hu
      · exact ha
      · exact hb
      · exact hsR u hu
    have hcount : (isL ++ x :: isR).length = isL.length + isR.length + 1 := by
      simp
      omega
    rw [splitNode, hpar]
    simp only
    rw [hrun]
    by_cases hover : ((isL ++ x :: isR).length : Int) > t.degree - 1
    · rw [if_pos hover]
      obtain ⟨t'', hrun', T', hrep, hbal, hsteps, hit, hdg⟩ :=
        ih _ t' f (hdeg'.trans hdeg) hfoc (by rw [LevelTree.items_node]; omega) hinner hc
          (by simp only [depth] at hfuel; omega)
      exact ⟨t'', hrun', T', hrep, hbal, hsteps.head hstep, hit.trans hitems, hdg.trans hdeg'⟩
    · rw [if_neg hover]
      refine ⟨t', rfl, _, (reps_plug_iff c _).mpr hfoc, ?_, Relation.ReflTransGen.single hstep,
        hitems, hdeg'⟩
      rw [Ctx.balanced_plug]
      exact ⟨hc, by rw [LevelTree.items_node]; omega, by rw [LevelTree.items_node]; omega, hinner⟩

/-! ## The walk up of `handleUnderflow` -/

theorem rootRef_mem_refs {n : Nat} (c : Ctx Ref n) (hole : Ref) :
    CtxCells.rootRef c hole = hole ∨ CtxCells.rootRef c hole ∈ CtxCells.refs c := by
  induction c generalizing hole with
  | top => exact Or.inl rfl
  | up r isL isR csL csR hL hR c ih =>
    refine Or.inr ?_
    rw [CtxCells.rootRef, CtxCells.refs]
    rcases ih r with h | h
    · rw [h]
      exact List.mem_cons_self
    · simp only [List.mem_cons, List.mem_append]
      exact Or.inr (Or.inr (Or.inr h))

/-- A node below another one is not the root. -/
theorem ref_ne_root {n : Nat} {t : BTreeIndex S} {rp : Ref} {isL isR : List Ref}
    {csL csR : List (LevelTree Ref n)} {hL : isL.length = csL.length}
    {hR : isR.length = csR.length} {c : Ctx Ref (n + 1)} {s : LevelTree Ref n}
    (h : Focus t (.up rp isL isR csL csR hL hR c) s) : s.ref ≠ t.root := by
  intro heq
  have hmem : t.root ∈ CtxCells.refs (.up rp isL isR csL csR hL hR c) := by
    rw [h.root, CtxCells.rootRef, CtxCells.refs]
    rcases rootRef_mem_refs c rp with hr | hr
    · rw [hr]
      exact List.mem_cons_self
    · simp only [List.mem_cons, List.mem_append]
      exact Or.inr (Or.inr (Or.inr hr))
  exact h.disjoint s.ref s.ref_mem_refs (heq ▸ hmem)

/-- The end of a merge that leaves the root with one child. -/
theorem focus_dropRoot {n : Nat} {t : BTreeIndex S} {rp : Ref} {s : LevelTree Ref n}
    (h : Focus t .top (.node rp [] [s])) :
    Focus ({ t with root := s.ref }.setNode s.ref { t.node s.ref with parent := none }) .top s := by
  have hnd := h.nodup
  have hhere := h.here
  simp only [LevelTree.refs_node, List.flatMap_cons, List.flatMap_nil, List.append_nil,
    List.nodup_cons] at hnd
  simp only [cells_node, holds_cons, cellsRow_cons, holds_append, List.flatMap_nil,
    List.nil_append] at hhere
  exact {
    root := rfl
    here := by
      refine holds_cells_reparent _ hhere.2.1 hnd.2 ?_ ?_
      · simp [node, setNode, Ctx.parent]
      · intro x _ hxs
        simp [node, setNode, hxs]
    outside := by simp [CtxCells.cells]
    nodup := hnd.2
    nodupOut := by simp [CtxCells.refs]
    disjoint := by simp [CtxCells.refs]
    alloc := fun x hx => h.alloc x (by simp [hx])
    allocOut := by simp [CtxCells.refs] }

/-- What a merge leaves to do at the parent, given that the walk settles
whatever node below the root it is started at. -/
theorem checkParent_settles {d n : Nat} {t : BTreeIndex S} {c : Ctx Ref (n + 1)}
    {p : LevelTree Ref (n + 1)} (rec : BTreeIndex S → Ref → Except Fault (BTreeIndex S))
    (h : Focus t c p)
    (hocc : c.Occ (min 1 ((d - 1) / 2)) ((d - 1) / 2) (d - 1))
    (hmin : c.least (min 1 ((d - 1) / 2)) ((d - 1) / 2) ≤ p.items.length + 1)
    (hmax : p.items.length ≤ d - 1) (hin : p.Inner ((d - 1) / 2) (d - 1))
    (hrec : c.parent ≠ none → (d - 1) / 2 ≤ p.items.length + 1 →
      ∃ t', rec t p.ref = .ok t' ∧ Settles d t (c.plug p) t') :
    ∃ t', checkParent rec t p.ref = .ok t' ∧ Settles d t (c.plug p) t' := by
  cases c with
  | up r isL isR csL csR hL hR c =>
    rw [checkParent, if_pos (ref_ne_root h)]
    exact hrec (by simp [Ctx.parent]) hmin
  | top =>
    obtain ⟨rp, is, cs, rfl⟩ := p.exists_node
    rw [LevelTree.inner_node] at hin
    have hroot : rp = t.root := h.root.symm
    have hnode : t.node rp = nodeRec is (cs.map LevelTree.ref) none := h.node_inner
    rw [LevelTree.ref_node, checkParent, if_neg (by simp [hroot])]
    cases is with
    | nil =>
      obtain ⟨s, rfl⟩ := List.length_eq_one_iff.mp hin.1
      have hs := (LevelTree.occ_iff _ _ _).mp (hin.2 s List.mem_cons_self)
      refine ⟨_, ?_, ⟨_, s⟩, (reps_plug_iff .top _).mpr (focus_dropRoot h), ?_,
        Relation.ReflTransGen.single (Rebalance.shrink rp s), rfl, rfl⟩
      · rw [if_pos (by simp [hnode, nodeRec])]
        simp only [hnode, nodeRec, List.map_cons, List.map_nil, bind, Except.bind]
        rfl
      · refine ⟨?_, hs.2⟩
        cases n with
        | zero => exact Nat.zero_le _
        | succ n => exact (min_le_right _ _).trans hs.1
    | cons i is =>
      refine ⟨t, ?_, _, (reps_plug_iff .top _).mpr h, ?_, Relation.ReflTransGen.refl, rfl, rfl⟩
      · rw [if_neg (by simp [hnode, nodeRec])]
        rfl
      · rw [Ctx.balanced_plug]
        refine ⟨trivial, ?_, hmax, hin⟩
        simp [Ctx.least]

section Turn

variable {n : Nat} {t : BTreeIndex S} {rp : Ref} {isL isR : List Ref}
  {csL csR : List (LevelTree Ref n)} {hL : isL.length = csL.length}
  {hR : isR.length = csR.length} {c : Ctx Ref (n + 1)} {s : LevelTree Ref n}

theorem findChildIndex_focus (h : Focus t (.up rp isL isR csL csR hL hR c) s) :
    t.findChildIndex rp s.ref = csL.length := by
  have hchildren : (t.node rp).children
      = csL.map LevelTree.ref ++ s.ref :: csR.map LevelTree.ref := by
    rw [h.node_parent]
    rfl
  rw [findChildIndex, hchildren, if_pos (by simp), List.idxOf_append_of_notMem h.notMem_left]
  simp

theorem leftOf_append (L R : List Ref) (x : Ref) :
    leftOf (L ++ x :: R) L.length = .ok L.getLast? := by
  rw [leftOf]
  rcases List.eq_nil_or_concat L with rfl | ⟨L, l, rfl⟩
  · rfl
  · rw [if_pos (by simp), List.concat_eq_append, List.append_assoc, List.singleton_append,
      index_append_of_eq (by simp)]
    simp [Functor.map, Except.map]

theorem rightOf_append (L R : List Ref) (x : Ref) :
    rightOf (L ++ x :: R) L.length = .ok R.head? := by
  rw [rightOf]
  cases R with
  | nil =>
    rw [if_neg (by simp)]
    rfl
  | cons r R =>
    have hassoc : L ++ x :: r :: R = (L ++ [x]) ++ r :: R := by simp
    rw [if_pos (by simp), hassoc, index_append_of_eq (by simp)]
    simp [Functor.map, Except.map]

/-- One turn of `handleUnderflow` at a node that is short. -/
theorem handleUnderflow_turn (fuel : Nat) (h : Focus t (.up rp isL isR csL csR hL hR c) s)
    (hshort : (s.items.length : Int) < (t.degree - 1).tdiv 2) :
    handleUnderflow (fuel + 1) t s.ref
      = if t.canLend ((t.degree - 1).tdiv 2) (csL.map LevelTree.ref).getLast? then do
          borrowFromLeftSibling t s.ref (← deref (csL.map LevelTree.ref).getLast?)
            (csL.length - 1)
        else if t.canLend ((t.degree - 1).tdiv 2) (csR.map LevelTree.ref).head? then do
          borrowFromRightSibling t s.ref (← deref (csR.map LevelTree.ref).head?) csL.length
        else
          match (csL.map LevelTree.ref).getLast?, (csR.map LevelTree.ref).head? with
          | some l, _ => mergeWithLeftSibling (handleUnderflow fuel) t s.ref l (csL.length - 1)
          | none, some r => mergeWithRightSibling (handleUnderflow fuel) t s.ref r csL.length
          | none, none => pure t := by
  have hpar : (t.node s.ref).parent = some rp := h.node_here.1
  have hitems : (t.node s.ref).items = s.items := h.node_here.2
  have hchildren : (t.node rp).children
      = csL.map LevelTree.ref ++ s.ref :: csR.map LevelTree.ref := by
    rw [h.node_parent]
    rfl
  have hleft := leftOf_append (csL.map LevelTree.ref) (csR.map LevelTree.ref) s.ref
  have hright := rightOf_append (csL.map LevelTree.ref) (csR.map LevelTree.ref) s.ref
  rw [List.length_map] at hleft hright
  have hcount : ¬ (s.items.length : Int) ≥ (t.degree - 1).tdiv 2 := by omega
  have hfound : ¬ (csL.length : Int) < 0 := by omega
  have hturn := handleUnderflow.eq_2 t s.ref fuel
  simp only [hpar, hitems, findChildIndex_focus h, hchildren, Int.toNat_natCast, if_neg hcount,
    if_neg hfound, hleft, hright, bind, Except.bind] at hturn
  exact hturn

@[simp] theorem canLend_none (t : BTreeIndex S) (m : Int) : t.canLend m none = false := rfl

/-- The item count the code reads at a sibling. -/
theorem canLend_ref {m : Int} {l : LevelTree Ref n} {c' : Ctx Ref n} (h : Focus t c' l) :
    t.canLend m (some l.ref) = decide ((l.items.length : Int) > m) := by
  rw [canLend, h.node_here.2]

end Turn

/-- The tree after one step at the node above the hole. -/
theorem settles_of_step {d n : Nat} {t t' : BTreeIndex S} {T : AnyTree Ref}
    {c : Ctx Ref (n + 1)} {p : LevelTree Ref (n + 1)} (h : Focus t' c p)
    (hstep : Rebalance T (c.plug p))
    (hocc : c.Occ (min 1 ((d - 1) / 2)) ((d - 1) / 2) (d - 1))
    (hmin : c.least (min 1 ((d - 1) / 2)) ((d - 1) / 2) ≤ p.items.length)
    (hmax : p.items.length ≤ d - 1) (hin : p.Inner ((d - 1) / 2) (d - 1))
    (hitems : t'.items = t.items) (hdeg : t'.degree = t.degree) : Settles d t T t' := by
  refine ⟨c.plug p, (reps_plug_iff c p).mpr h, ?_, Relation.ReflTransGen.single hstep, hitems, hdeg⟩
  rw [Ctx.balanced_plug]
  exact ⟨hocc, hmin, hmax, hin⟩

theorem Settles.head {d : Nat} {t t₁ t' : BTreeIndex S} {T T₁ : AnyTree Ref}
    (hstep : Rebalance T T₁) (hitems : t₁.items = t.items) (hdeg : t₁.degree = t.degree)
    (h : Settles d t₁ T₁ t') : Settles d t T t' := by
  obtain ⟨T', hrep, hbal, hsteps, hi, hd⟩ := h
  exact ⟨T', hrep, hbal, hsteps.head hstep, hi.trans hitems, hd.trans hdeg⟩

/-- Below a node with one child more than separators: two children changed. -/
theorem inner_pair {n lo hi : Nat} {rp : Ref} {is : List Ref} {csL csR : List (LevelTree Ref n)}
    {M : List (LevelTree Ref n)} (hlen : (csL ++ (M ++ csR)).length = is.length + 1)
    (hsL : ∀ s ∈ csL, s.Occ lo hi) (hM : ∀ s ∈ M, s.Occ lo hi) (hsR : ∀ s ∈ csR, s.Occ lo hi) :
    (LevelTree.node rp is (csL ++ (M ++ csR))).Inner lo hi := by
  rw [LevelTree.inner_node]
  refine ⟨hlen, ?_⟩
  intro u hu
  rcases List.mem_append.mp hu with hu | hu
  · exact hsL u hu
  · rcases List.mem_append.mp hu with hu | hu
    · exact hM u hu
    · exact hsR u hu

section Resolve

variable {d n : Nat} {t : BTreeIndex S} {rp x : Ref} {isL isR : List Ref}
  {csL csR : List (LevelTree Ref n)} {c : Ctx Ref (n + 1)} {a b : LevelTree Ref n}

/-- The occupancy around two neighbouring children, with the separator
between them counted. -/
structure AroundPair (d : Nat) (c : Ctx Ref (n + 1)) (isL isR : List Ref)
    (csL csR : List (LevelTree Ref n)) : Prop where
  lenL : isL.length = csL.length
  lenR : isR.length = csR.length
  outer : c.Occ (min 1 ((d - 1) / 2)) ((d - 1) / 2) (d - 1)
  least : c.least (min 1 ((d - 1) / 2)) ((d - 1) / 2) ≤ isL.length + isR.length + 1
  most : isL.length + isR.length + 1 ≤ d - 1
  left : ∀ s ∈ csL, s.Occ ((d - 1) / 2) (d - 1)
  right : ∀ s ∈ csR, s.Occ ((d - 1) / 2) (d - 1)

/-- Neighbours of which one lent to the other: both meet the bounds, and
the walk ends. -/
theorem rotate_settles {t' : BTreeIndex S} {a' b' : LevelTree Ref n} {y : Ref}
    (hP : AroundPair d c isL isR csL csR)
    (hfoc : Focus t' c (.node rp (isL ++ y :: isR) (csL ++ ([a', b'] ++ csR))))
    (hrot : Rotates a x b a' y b') (ha : a'.Occ ((d - 1) / 2) (d - 1))
    (hb : b'.Occ ((d - 1) / 2) (d - 1)) (hitems : t'.items = t.items)
    (hdeg : t'.degree = t.degree) :
    Settles d t (c.plug (.node rp (isL ++ x :: isR) (csL ++ ([a, b] ++ csR)))) t' := by
  have hcount : (isL ++ y :: isR).length = isL.length + isR.length + 1 := by simp; omega
  have hlen : (csL ++ ([a', b'] ++ csR)).length = (isL ++ y :: isR).length + 1 := by
    have h1 := hP.lenL
    have h2 := hP.lenR
    simp
    omega
  have hpair : ∀ s ∈ [a', b'], s.Occ ((d - 1) / 2) (d - 1) := by
    intro s hs
    rcases List.mem_cons.mp hs with rfl | hs
    · exact ha
    · rw [List.mem_singleton] at hs
      exact hs ▸ hb
  refine settles_of_step hfoc
    (Rebalance.inside c (LocalStep.rotate rp isL isR csL csR hP.lenL hrot)) hP.outer ?_ ?_
    (inner_pair hlen hP.left hpair hP.right) hitems hdeg
  · rw [LevelTree.items_node, hcount]
    exact hP.least
  · rw [LevelTree.items_node, hcount]
    exact hP.most

theorem lendLeft_settles (hP : AroundPair d c isL isR csL csR)
    (h : Focus t c (.node rp (isL ++ x :: isR) (csL ++ ([a, b] ++ csR))))
    (ha : a.Occ ((d - 1) / 2) (d - 1)) (hb : b.Inner ((d - 1) / 2) (d - 1))
    (hshort : b.items.length + 1 = (d - 1) / 2) (hlend : (d - 1) / 2 < a.items.length) :
    ∃ t', borrowFromLeftSibling t b.ref a.ref isL.length = .ok t' ∧
      Settles d t (c.plug (.node rp (isL ++ x :: isR) (csL ++ ([a, b] ++ csR)))) t' := by
  rw [LevelTree.occ_iff] at ha
  obtain ⟨t', a', y, b', hrun, hfoc, hrot, ha', hb', hia, hib, hitems, hdeg⟩ :=
    lendLeft_focus (by omega) ha.2.2 hb h
  refine ⟨t', hrun, rotate_settles hP hfoc hrot ?_ ?_ hitems hdeg⟩
  · rw [LevelTree.occ_iff]
    exact ⟨by omega, by omega, hia⟩
  · rw [LevelTree.occ_iff]
    exact ⟨by omega, by omega, hib⟩

theorem lendRight_settles (hP : AroundPair d c isL isR csL csR)
    (h : Focus t c (.node rp (isL ++ x :: isR) (csL ++ ([a, b] ++ csR))))
    (ha : a.Inner ((d - 1) / 2) (d - 1)) (hb : b.Occ ((d - 1) / 2) (d - 1))
    (hshort : a.items.length + 1 = (d - 1) / 2) (hlend : (d - 1) / 2 < b.items.length) :
    ∃ t', borrowFromRightSibling t a.ref b.ref isL.length = .ok t' ∧
      Settles d t (c.plug (.node rp (isL ++ x :: isR) (csL ++ ([a, b] ++ csR)))) t' := by
  rw [LevelTree.occ_iff] at hb
  obtain ⟨t', a', y, b', hrun, hfoc, hrot, ha', hb', hia, hib, hitems, hdeg⟩ :=
    lendRight_focus (by omega) ha hb.2.2 h
  refine ⟨t', hrun, rotate_settles hP hfoc hrot ?_ ?_ hitems hdeg⟩
  · rw [LevelTree.occ_iff]
    exact ⟨by omega, by omega, hia⟩
  · rw [LevelTree.occ_iff]
    exact ⟨by omega, by omega, hib⟩

/-- `rec` settles every node below the root that stands in `c`. -/
def SettlesAt (d : Nat) (D : Int) (c : Ctx Ref (n + 1))
    (rec : BTreeIndex S → Ref → Except Fault (BTreeIndex S)) : Prop :=
  ∀ (t : BTreeIndex S) (p : LevelTree Ref (n + 1)), t.degree = D → Focus t c p →
    p.Inner ((d - 1) / 2) (d - 1) → p.items.length ≤ d - 1 →
    (d - 1) / 2 ≤ p.items.length + 1 → c.parent ≠ none →
    ∃ t', rec t p.ref = .ok t' ∧ Settles d t (c.plug p) t'

/-- Neighbours of which neither can lend: they become one node, and the
walk goes on at the parent. -/
theorem merge_settles {rec : BTreeIndex S → Ref → Except Fault (BTreeIndex S)} {node : Ref}
    (hrec : SettlesAt d t.degree c rec) (hP : AroundPair d c isL isR csL csR)
    (h : Focus t c (.node rp (isL ++ x :: isR) (csL ++ ([a, b] ++ csR))))
    (hnode : node = a.ref ∨ node = b.ref)
    (ha : a.Inner ((d - 1) / 2) (d - 1)) (hb : b.Inner ((d - 1) / 2) (d - 1))
    (hmin : (d - 1) / 2 ≤ a.items.length + b.items.length)
    (hmax : a.items.length + b.items.length + 1 ≤ d - 1) :
    ∃ t', mergeSiblings rec t node a.ref b.ref isL.length = .ok t' ∧
      Settles d t (c.plug (.node rp (isL ++ x :: isR) (csL ++ ([a, b] ++ csR)))) t' := by
  obtain ⟨t₁, m, hrun, hfoc, hmerge, hm1, hm2, hm, hitems, hdeg⟩ :=
    merge_focus rec hP.lenL hnode ha hb h
  have hstep : Rebalance (c.plug (.node rp (isL ++ x :: isR) (csL ++ ([a, b] ++ csR))))
      (c.plug (.node rp (isL ++ isR) (csL ++ ([m] ++ csR)))) :=
    Rebalance.inside c (LocalStep.merge rp isL isR csL csR hP.lenL hmerge)
  have hmocc : ∀ s ∈ [m], s.Occ ((d - 1) / 2) (d - 1) := by
    intro s hs
    rw [List.mem_singleton] at hs
    rw [hs, LevelTree.occ_iff]
    exact ⟨by omega, by omega, hm⟩
  have hlen : (csL ++ ([m] ++ csR)).length = (isL ++ isR).length + 1 := by
    have h1 := hP.lenL
    have h2 := hP.lenR
    simp
    omega
  have hin : (LevelTree.node rp (isL ++ isR) (csL ++ ([m] ++ csR))).Inner ((d - 1) / 2) (d - 1) :=
    inner_pair hlen hP.left hmocc hP.right
  have hleast := hP.least
  have hmost := hP.most
  have hsmall : (LevelTree.node rp (isL ++ isR) (csL ++ ([m] ++ csR))).items.length ≤ d - 1 := by
    rw [LevelTree.items_node, List.length_append]
    omega
  obtain ⟨t', hrun', hset⟩ := checkParent_settles rec hfoc hP.outer
    (by rw [LevelTree.items_node, List.length_append]; exact hleast) hsmall hin
    (fun hpar hone => hrec t₁ _ hdeg hfoc hin hsmall hone hpar)
  exact ⟨t', hrun.trans hrun', hset.head hstep hitems hdeg⟩

end Resolve

theorem tdiv_two {d : Nat} (hd : 2 ≤ d) : ((d : Int) - 1).tdiv 2 = ((d - 1) / 2 : Nat) := by
  rw [Int.tdiv_eq_ediv_of_nonneg (by omega)]
  omega

section Turns

variable {d n : Nat} {t : BTreeIndex S} {rp x : Ref} {isL isR : List Ref}
  {csL csR : List (LevelTree Ref n)} {c : Ctx Ref (n + 1)} {s : LevelTree Ref n}

/-- A node and its left sibling as a pair. -/
theorem plug_left (l : LevelTree Ref n) (hL : (isL ++ [x]).length = (csL ++ [l]).length)
    (hR : isR.length = csR.length) :
    (Ctx.up rp (isL ++ [x]) isR (csL ++ [l]) csR hL hR c).plug s
      = c.plug (.node rp (isL ++ x :: isR) (csL ++ ([l, s] ++ csR))) := by
  simp [Ctx.plug]

/-- A node and its right sibling as a pair. -/
theorem plug_right (r : LevelTree Ref n) (hL : isL.length = csL.length)
    (hR : (x :: isR).length = (r :: csR).length) :
    (Ctx.up rp isL (x :: isR) csL (r :: csR) hL hR c).plug s
      = c.plug (.node rp (isL ++ x :: isR) (csL ++ ([s, r] ++ csR))) := rfl

theorem aroundPair_left {l : LevelTree Ref n} {hL : (isL ++ [x]).length = (csL ++ [l]).length}
    {hR : isR.length = csR.length}
    (h : (Ctx.up rp (isL ++ [x]) isR (csL ++ [l]) csR hL hR c).Occ
      (min 1 ((d - 1) / 2)) ((d - 1) / 2) (d - 1)) :
    AroundPair d c isL isR csL csR ∧ l.Occ ((d - 1) / 2) (d - 1) := by
  obtain ⟨hmin, hmax, hsL, hsR, hc⟩ := h
  simp only [List.length_append, List.length_singleton] at hmin hmax hL
  exact ⟨⟨by omega, hR, hc, by omega, by omega, fun u hu => hsL u (List.mem_append_left _ hu),
    hsR⟩, hsL l (by simp)⟩

theorem aroundPair_right {r : LevelTree Ref n} {hL : isL.length = csL.length}
    {hR : (x :: isR).length = (r :: csR).length}
    (h : (Ctx.up rp isL (x :: isR) csL (r :: csR) hL hR c).Occ
      (min 1 ((d - 1) / 2)) ((d - 1) / 2) (d - 1)) :
    AroundPair d c isL isR csL csR ∧ r.Occ ((d - 1) / 2) (d - 1) := by
  obtain ⟨hmin, hmax, hsL, hsR, hc⟩ := h
  simp only [List.length_cons] at hmin hmax hR
  exact ⟨⟨hL, by omega, hc, by omega, by omega, hsL,
    fun u hu => hsR u (List.mem_cons_of_mem _ hu)⟩, hsR r List.mem_cons_self⟩

theorem focus_left {l : LevelTree Ref n} {hL : (isL ++ [x]).length = (csL ++ [l]).length}
    {hR : isR.length = csR.length}
    (h : Focus t (.up rp (isL ++ [x]) isR (csL ++ [l]) csR hL hR c) s) :
    Focus t c (.node rp (isL ++ x :: isR) (csL ++ ([l, s] ++ csR))) := by
  rw [← reps_plug_iff] at h ⊢
  rwa [plug_left] at h

/-- What the code finds out about the left sibling. -/
theorem canLend_left {l : LevelTree Ref n} {hL : (isL ++ [x]).length = (csL ++ [l]).length}
    {hR : isR.length = csR.length} {m : Nat}
    (h : Focus t (.up rp (isL ++ [x]) isR (csL ++ [l]) csR hL hR c) s) :
    t.canLend m ((csL ++ [l]).map LevelTree.ref).getLast? = decide (m < l.items.length) := by
  have hlen : isL.length = csL.length := by simpa using hL
  have hfoc : Focus t (.up rp isL (x :: isR) csL (s :: csR) hlen (by simp [hR]) c) l :=
    (focus_left h).down hlen (by simp [hR])
  simp [canLend_ref hfoc]

/-- What the code finds out about the right sibling. -/
theorem canLend_right {r : LevelTree Ref n} {hL : isL.length = csL.length}
    {hR : (x :: isR).length = (r :: csR).length} {m : Nat}
    (h : Focus t (.up rp isL (x :: isR) csL (r :: csR) hL hR c) s) :
    t.canLend m ((r :: csR).map LevelTree.ref).head? = decide (m < r.items.length) := by
  have hlen : isR.length = csR.length := by simpa using hR
  have hup := h.up
  rw [List.append_cons, List.append_cons csL] at hup
  have hfoc := hup.down (by simp [hL]) hlen
  simp [canLend_ref hfoc]

end Turns

theorem handleUnderflow_settles {d : Nat} (hd : 2 ≤ d) {n : Nat} (c : Ctx Ref n) :
    ∀ (s : LevelTree Ref n) (t : BTreeIndex S) (fuel : Nat), t.degree = d → Focus t c s →
      s.Inner ((d - 1) / 2) (d - 1) → s.items.length ≤ d - 1 →
      (d - 1) / 2 ≤ s.items.length + 1 → c.parent ≠ none →
      c.Occ (min 1 ((d - 1) / 2)) ((d - 1) / 2) (d - 1) → depth c < fuel →
      ∃ t', handleUnderflow fuel t s.ref = .ok t' ∧ Settles d t (c.plug s) t' := by
  induction c with
  | top =>
    intro s t fuel _ _ _ _ _ hpar
    exact absurd rfl hpar
  | up rp isL isR csL csR hL hR c ih =>
    intro s t fuel hdeg h hin hmax hone _ hocc hfuel
    obtain ⟨f, rfl⟩ : ∃ f, fuel = f + 1 := ⟨fuel - 1, by omega⟩
    have hm : (t.degree - 1).tdiv 2 = ((d - 1) / 2 : Nat) := by
      rw [hdeg]
      exact tdiv_two hd
    by_cases hshort : s.items.length < (d - 1) / 2
    · have hone' : s.items.length + 1 = (d - 1) / 2 := by omega
      have hturn := handleUnderflow_turn f h (by rw [hm]; exact_mod_cast hshort)
      have hrec : SettlesAt d t.degree c (handleUnderflow (S := S) f) := by
        intro t' p hdeg' hfoc hpin hpmax hpone hpar
        exact ih p t' f (hdeg'.trans hdeg) hfoc hpin hpmax hpone hpar hocc.2.2.2.2
          (by simp only [depth] at hfuel; omega)
      rw [hturn, hm]
      clear hturn
      rcases List.eq_nil_or_concat' csL with rfl | ⟨csL', l, rfl⟩
      · -- no sibling to the left, so there is one to the right
        obtain rfl : isL = [] := List.length_eq_zero_iff.mp hL
        cases csR with
        | nil =>
          obtain rfl : isR = [] := List.length_eq_zero_iff.mp hR
          have hleast : 1 ≤ c.least (min 1 ((d - 1) / 2)) ((d - 1) / 2) := by
            cases c with
            | top => simp [Ctx.least]; omega
            | up => rw [Ctx.least_up]; omega
          have hnone : c.least (min 1 ((d - 1) / 2)) ((d - 1) / 2) ≤ 0 := hocc.1
          omega
        | cons r csR =>
          obtain ⟨x, isR, rfl⟩ := List.exists_cons_of_length_eq_add_one hR
          obtain ⟨hP, hr⟩ := aroundPair_right hocc
          have hr' := (LevelTree.occ_iff _ _ _).mp hr
          rw [canLend_right h, plug_right]
          by_cases hlend : (d - 1) / 2 < r.items.length
          · simpa [hlend, bind, Except.bind] using lendRight_settles hP h.up hin hr hone' hlend
          · simpa [hlend, mergeWithRightSibling] using merge_settles hrec hP h.up (Or.inl rfl) hin
              hr'.2.2 (by omega) (by omega)
      · obtain ⟨isL', x, rfl, hlen⟩ := exists_snoc isL (by rw [hL]; simp)
        obtain ⟨hP, hl⟩ := aroundPair_left hocc
        have hl' := (LevelTree.occ_iff _ _ _).mp hl
        have hfoc := focus_left h
        have hlast : ((csL' ++ [l]).map LevelTree.ref).getLast? = some l.ref := by simp
        have hindex : (csL' ++ [l]).length - 1 = isL'.length := by
          have := hP.lenL
          simp
          omega
        rw [canLend_left h, hlast, hindex]
        by_cases hlend : (d - 1) / 2 < l.items.length
        · rw [if_pos (by simpa using hlend), plug_left]
          exact lendLeft_settles hP hfoc hl hin hone' hlend
        · rw [if_neg (by simpa using hlend)]
          have hmerge := merge_settles hrec hP hfoc (Or.inr rfl) hl'.2.2 hin (by omega) (by omega)
          rw [← plug_left l hL hR] at hmerge
          cases csR with
          | nil => exact hmerge
          | cons r csR =>
            obtain ⟨y, isR, rfl⟩ := List.exists_cons_of_length_eq_add_one hR
            obtain ⟨hP', hr⟩ := aroundPair_right hocc
            rw [canLend_right h]
            by_cases hlend' : (d - 1) / 2 < r.items.length
            · rw [if_pos (by simpa using hlend'), plug_right, ← hL]
              exact lendRight_settles hP' h.up hin hr hone' hlend'
            · rw [if_neg (by simpa using hlend')]
              exact hmerge
    · refine ⟨t, ?_, _, (reps_plug_iff _ _).mpr h, ?_, Relation.ReflTransGen.refl, rfl, rfl⟩
      · have hpar : (t.node s.ref).parent = some rp := h.node_here.1
        have hcount : ((t.node s.ref).items.length : Int) ≥ (t.degree - 1).tdiv 2 := by
          rw [h.node_here.2, hm]
          exact_mod_cast Nat.not_lt.mp hshort
        rw [handleUnderflow, hpar]
        simp only [if_pos hcount]
        rfl
      · rw [Ctx.balanced_plug, Ctx.least_up]
        exact ⟨hocc, Nat.not_lt.mp hshort, hmax, hin⟩

end BTreeIndex

end RediGo.SortedSet
