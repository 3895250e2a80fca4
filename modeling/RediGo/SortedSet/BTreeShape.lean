/-
RediGo.SortedSet.BTreeShape — the structural invariant of the index, read
off the heap, and the walk along the leaf chain.

`Shape` says what a reader of the Go structs can check, node by node:
arity, one depth for all leaves, the two occupancy bounds, the parent
pointers, the leaf chain. It mentions records and pointers only.
`Shape.of_wellFormed` derives it from the tree the heap represents,
and `run_shape` carries it through every sequence of calls.

The chain lemmas (`nextChain_eq`, `getRankFrom_eq`) are about a list of
leaves that hang together by `Next`; a represented tree has its leaves
in such a list.
-/
import Mathlib.Data.List.Perm.Subperm
import RediGo.SortedSet.BTreeOps

namespace RediGo.SortedSet

open RediGo.Lib RediGo.Go

variable {S : Type}

namespace BTreeIndex

/-! ## What the structs must look like -/

/-- `r` is `k` levels below the root, along `Children`. -/
inductive ReachAt (t : BTreeIndex S) : Nat → Ref → Prop
  | root : ReachAt t 0 t.root
  | child {k : Nat} {r c : Ref} (h : ReachAt t k r) (hc : c ∈ (t.node r).children) :
      ReachAt t (k + 1) c

/-- The leaves below a node, by the recursive traversal of `Children`. -/
def leaves (t : BTreeIndex S) : Nat → Ref → Except Fault (List Ref)
  | 0, _ => .error .fuel
  | fuel + 1, node =>
      if (t.node node).isLeaf then .ok [node]
      else do
        let parts ← (t.node node).children.mapM (t.leaves fuel)
        pure parts.flatten

structure Shape (t : BTreeIndex S) : Prop where
  arity : ∀ {k r}, ReachAt t k r → (t.node r).isLeaf = false →
    (t.node r).children.length = (t.node r).items.length + 1
  depth : ∃ height, ∀ {k r}, ReachAt t k r → ((t.node r).isLeaf = true ↔ k = height)
  most : ∀ {k r}, ReachAt t k r → ((t.node r).items.length : Int) ≤ t.degree - 1
  least : ∀ {k r}, ReachAt t k r → r ≠ t.root →
    (t.degree - 1).tdiv 2 ≤ (t.node r).items.length
  root : 3 ≤ t.degree → (t.node t.root).isLeaf = false → 1 ≤ (t.node t.root).items.length
  parent : ∀ {k r}, ReachAt t k r → ∀ c ∈ (t.node r).children, (t.node c).parent = some r
  rootParent : (t.node t.root).parent = none
  chain : ∃ l, t.leaves t.fuel t.root = .ok l ∧ t.leafChain = .ok l

/-! ## The leaf chain -/

/-- The leaves of a tree with their items, left to right. -/
def leafRow : {n : Nat} → LevelTree Ref n → List (Ref × List Ref)
  | 0, s => [(s.ref, s.items)]
  | n + 1, s => List.flatMap (leafRow (n := n)) s.2.2

section LeafRow

variable {n : Nat}

@[simp] theorem leafRow_leaf (r : Ref) (is : List Ref) :
    leafRow (.leaf r is) = [(r, is)] := rfl

@[simp] theorem leafRow_node (r : Ref) (is : List Ref) (cs : List (LevelTree Ref n)) :
    leafRow (.node r is cs) = cs.flatMap leafRow := rfl

theorem map_fst_leafRow (s : LevelTree Ref n) : (leafRow s).map Prod.fst = s.leafRefs := by
  induction n with
  | zero =>
    obtain ⟨r, is, rfl⟩ := s.exists_leaf
    rfl
  | succ n ih =>
    obtain ⟨r, is, cs, rfl⟩ := s.exists_node
    rw [leafRow_node, LevelTree.leafRefs_node, List.map_flatMap]
    exact List.flatMap_congr (fun c _ => ih c)

theorem flatMap_snd_leafRow (s : LevelTree Ref n) :
    (leafRow s).flatMap Prod.snd = s.leafItems := by
  induction n with
  | zero =>
    obtain ⟨r, is, rfl⟩ := s.exists_leaf
    simp
  | succ n ih =>
    obtain ⟨r, is, cs, rfl⟩ := s.exists_node
    rw [leafRow_node, LevelTree.leafItems_node, List.flatMap_assoc]
    exact List.flatMap_congr (fun c _ => ih c)

end LeafRow

/-- Leaves that hang together by `Next`, followed by `after`. -/
def Chained (h : Ref → BTreeNode) (after : List Ref) : List (Ref × List Ref) → Prop
  | [] => True
  | l :: ls => (h l.1).items = l.2 ∧ (h l.1).next = (ls.map Prod.fst ++ after).head? ∧
      Chained h after ls

theorem chained_append {h : Ref → BTreeNode} {after : List Ref} (K L : List (Ref × List Ref)) :
    Chained h after (K ++ L) ↔ Chained h (L.map Prod.fst ++ after) K ∧ Chained h after L := by
  induction K with
  | nil => simp [Chained]
  | cons l K ih => simp [Chained, ih, and_assoc]

/-- A represented subtree has its leaves in a chain. -/
theorem chained_leafRow {n : Nat} {h : Ref → BTreeNode} :
    ∀ {p : Option Ref} {after : List Ref} {s : LevelTree Ref n}, Holds h (cells p after s) →
      Chained h after (leafRow s) := by
  induction n with
  | zero =>
    intro p after s hh
    obtain ⟨r, is, rfl⟩ := s.exists_leaf
    rw [cells_leaf, holds_cons] at hh
    simp [Chained, hh.1, leafRec]
  | succ n ih =>
    intro p after s hh
    obtain ⟨r, is, cs, rfl⟩ := s.exists_node
    rw [cells_node, holds_cons] at hh
    rw [leafRow_node]
    have hrow := hh.2
    clear hh
    induction cs with
    | nil => simp [Chained]
    | cons c cs ihc =>
      rw [cellsRow_cons, holds_append] at hrow
      rw [List.flatMap_cons, chained_append]
      refine ⟨?_, ihc hrow.2⟩
      have hmap : (cs.flatMap leafRow).map Prod.fst = cs.flatMap LevelTree.leafRefs := by
        rw [List.map_flatMap]
        exact List.flatMap_congr (fun c _ => map_fst_leafRow c)
      rw [hmap]
      exact ih hrow.1

theorem nextChain_eq {t : BTreeIndex S} (L : List (Ref × List Ref)) :
    ∀ fuel, L.length ≤ fuel → Chained t.node [] L →
      t.nextChain fuel (L.map Prod.fst).head? = .ok (L.map Prod.fst) := by
  induction L with
  | nil =>
    intro fuel _ _
    cases fuel <;> rfl
  | cons l L ih =>
    intro fuel hfuel hch
    obtain ⟨f, rfl⟩ : ∃ f, fuel = f + 1 := ⟨fuel - 1, by simp at hfuel; omega⟩
    obtain ⟨-, hnext, hrest⟩ := hch
    rw [List.append_nil] at hnext
    have hrun := ih f (by simpa using hfuel) hrest
    rw [List.map_cons, List.head?_cons, nextChain, hnext, hrun]
    rfl

/-- `GetRank` counts along the items of the chain. -/
theorem getRankFrom_eq {t : BTreeIndex S} (member : Bytes) (L : List (Ref × List Ref)) :
    ∀ fuel (rank : Int), L.length ≤ fuel → Chained t.node [] L →
      t.getRankFrom member fuel rank (L.map Prod.fst).head?
        = .ok (match (L.flatMap Prod.snd).findIdx? (fun r => (t.item r).member = member) with
            | some i => rank + i
            | none => -1) := by
  induction L with
  | nil =>
    intro fuel rank _ _
    cases fuel <;> rfl
  | cons l L ih =>
    intro fuel rank hfuel hch
    obtain ⟨f, rfl⟩ : ∃ f, fuel = f + 1 := ⟨fuel - 1, by simp at hfuel; omega⟩
    obtain ⟨hitems, hnext, hrest⟩ := hch
    rw [List.append_nil] at hnext
    have hrun := ih f (rank + l.2.length) (by simpa using hfuel) hrest
    rw [List.map_cons, List.head?_cons, getRankFrom, hitems, List.flatMap_cons,
      List.findIdx?_append]
    cases hfind : l.2.findIdx? (fun r => (t.item r).member = member) with
    | some i => rfl
    | none =>
      simp only [hnext, hrun, Option.none_or]
      cases (L.flatMap Prod.snd).findIdx? (fun r => (t.item r).member = member) with
      | none => rfl
      | some i => simp; omega

/-! ## The two ways to the leaves -/

theorem leafRefs_sublist_refs {n : Nat} (s : LevelTree Ref n) :
    s.leafRefs.Sublist s.refs := by
  induction n with
  | zero =>
    obtain ⟨r, is, rfl⟩ := s.exists_leaf
    exact List.Sublist.refl _
  | succ n ih =>
    obtain ⟨r, is, cs, rfl⟩ := s.exists_node
    rw [LevelTree.leafRefs_node, LevelTree.refs_node]
    refine List.Sublist.cons _ ?_
    induction cs with
    | nil => exact List.Sublist.refl _
    | cons c cs ihc =>
      rw [List.flatMap_cons, List.flatMap_cons]
      exact (ih c).append ihc

/-- The children's rows of records are independent. -/
theorem holds_of_mem {n : Nat} {h : Ref → BTreeNode} {p : Option Ref} {after : List Ref}
    {cs : List (LevelTree Ref n)} (hh : Holds h (cellsRow p after cs)) :
    ∀ c ∈ cs, ∃ after', Holds h (cells p after' c) := by
  induction cs with
  | nil => simp
  | cons d cs ih =>
    rw [cellsRow_cons, holds_append] at hh
    intro c hc
    rcases List.mem_cons.mp hc with rfl | hc
    · exact ⟨_, hh.1⟩
    · exact ih hh.2 c hc

theorem mapM_ok {α β ε : Type} {f : α → Except ε β} {g : α → β} {l : List α}
    (h : ∀ a ∈ l, f a = .ok (g a)) : l.mapM f = .ok (l.map g) := by
  induction l with
  | nil => rfl
  | cons a l ih =>
    rw [List.mapM_cons, h a List.mem_cons_self, ih (fun b hb => h b (List.mem_cons_of_mem _ hb))]
    rfl

/-- A recursive reader of the nodes computes, on a heap that holds a tree, what
it computes on the tree. -/
theorem reader_eq {β : Type} {t : BTreeIndex S} {f : Nat → Ref → Except Fault β}
    {g : {n : Nat} → LevelTree Ref n → β}
    (hleaf : ∀ fuel r is p next, t.node r = leafRec is p next →
      f (fuel + 1) r = .ok (g (.leaf r is)))
    (hnode : ∀ {n : Nat} fuel r is (cs : List (LevelTree Ref n)) p,
      t.node r = nodeRec is (cs.map LevelTree.ref) p →
      (cs.map LevelTree.ref).mapM (f fuel) = .ok (cs.map g) →
      f (fuel + 1) r = .ok (g (.node r is cs))) {n : Nat} :
    ∀ {p : Option Ref} {after : List Ref} {s : LevelTree Ref n} {fuel : Nat},
      Holds t.node (cells p after s) → n < fuel → f fuel s.ref = .ok (g s) := by
  induction n with
  | zero =>
    intro p after s fuel hh hfuel
    obtain ⟨k, rfl⟩ : ∃ k, fuel = k + 1 := ⟨fuel - 1, by omega⟩
    obtain ⟨r, is, rfl⟩ := s.exists_leaf
    rw [cells_leaf, holds_cons] at hh
    exact hleaf k r is p _ hh.1
  | succ n ih =>
    intro p after s fuel hh hfuel
    obtain ⟨k, rfl⟩ : ∃ k, fuel = k + 1 := ⟨fuel - 1, by omega⟩
    obtain ⟨r, is, cs, rfl⟩ := s.exists_node
    rw [cells_node, holds_cons] at hh
    refine hnode k r is cs p hh.1 ?_
    rw [List.mapM_map]
    refine mapM_ok ?_
    intro c hc
    obtain ⟨after', hc'⟩ := holds_of_mem hh.2 c hc
    exact ih hc' (by omega)

theorem leaves_eq {n : Nat} {t : BTreeIndex S} {p : Option Ref} {after : List Ref}
    {s : LevelTree Ref n} {fuel : Nat} (hh : Holds t.node (cells p after s)) (hfuel : n < fuel) :
    t.leaves fuel s.ref = .ok s.leafRefs := by
  refine reader_eq (f := t.leaves) (g := LevelTree.leafRefs) ?_ ?_ hh hfuel
  · intro fuel r is p next hr
    rw [leaves, hr]
    rfl
  · intro n fuel r is cs p hr hparts
    rw [leaves, hr]
    simp only [nodeRec, Bool.false_eq_true, if_false, hparts, bind, Except.bind]
    rw [LevelTree.leafRefs_node, List.flatMap_def]
    rfl

theorem firstLeaf_eq {n lo hi : Nat} {t : BTreeIndex S} :
    ∀ {p : Option Ref} {after : List Ref} {s : LevelTree Ref n} {fuel : Nat},
      Holds t.node (cells p after s) → s.Inner lo hi → n < fuel →
      ∃ r, t.firstLeaf fuel s.ref = .ok r ∧ s.leafRefs.head? = some r := by
  induction n with
  | zero =>
    intro p after s fuel hh _ hfuel
    obtain ⟨f, rfl⟩ : ∃ f, fuel = f + 1 := ⟨fuel - 1, by omega⟩
    obtain ⟨r, is, rfl⟩ := s.exists_leaf
    rw [cells_leaf, holds_cons] at hh
    refine ⟨r, ?_, rfl⟩
    rw [LevelTree.ref_leaf, firstLeaf, hh.1]
    rfl
  | succ n ih =>
    intro p after s fuel hh hin hfuel
    obtain ⟨f, rfl⟩ : ∃ f, fuel = f + 1 := ⟨fuel - 1, by omega⟩
    obtain ⟨r, is, cs, rfl⟩ := s.exists_node
    rw [cells_node, holds_cons] at hh
    rw [LevelTree.inner_node] at hin
    obtain ⟨c, cs, rfl⟩ := List.exists_cons_of_length_eq_add_one hin.1
    have hc := (LevelTree.occ_iff _ _ _).mp (hin.2 c List.mem_cons_self)
    obtain ⟨after', hc'⟩ := holds_of_mem hh.2 c List.mem_cons_self
    obtain ⟨x, hrun, hhead⟩ : ∃ x, t.firstLeaf f c.ref = .ok x ∧ c.leafRefs.head? = some x :=
      ih hc' hc.2.2 (by omega)
    refine ⟨x, ?_, ?_⟩
    · rw [LevelTree.ref_node, firstLeaf, hh.1]
      exact hrun
    · rw [LevelTree.leafRefs_node, List.flatMap_cons, List.head?_append, hhead]
      rfl

section WellFormed

variable {d : Nat} {t : BTreeIndex S} {T : AnyTree Ref}

theorem WellFormed.leafRow_le_fuel (h : WellFormed d t T) : (leafRow T.2).length ≤ t.fuel := by
  have hsub : T.2.refs ⊆ List.range t.nodes.next :=
    fun r hr => List.mem_range.mpr (h.reps.alloc r hr)
  have hle := (List.subperm_of_subset h.reps.nodup hsub).length_le
  have hsl := (leafRefs_sublist_refs T.2).length_le
  rw [← map_fst_leafRow, List.length_map] at hsl
  rw [List.length_range] at hle
  rw [fuel]
  omega

theorem WellFormed.firstLeaf (h : WellFormed d t T) :
    ∃ r, t.firstLeaf t.fuel t.root = .ok r ∧ ((leafRow T.2).map Prod.fst).head? = some r := by
  rw [map_fst_leafRow, h.reps.root]
  exact firstLeaf_eq h.reps.holds h.balanced.2.2 h.height_lt_fuel

theorem WellFormed.leafChain_eq (h : WellFormed d t T) : t.leafChain = .ok T.2.leafRefs := by
  obtain ⟨r, hrun, hhead⟩ := h.firstLeaf
  have hchain := nextChain_eq (leafRow T.2) t.fuel h.leafRow_le_fuel
    (chained_leafRow h.reps.holds)
  rw [hhead, map_fst_leafRow] at hchain
  simp only [leafChain, hrun, bind, Except.bind]
  exact hchain

theorem WellFormed.leaves_eq (h : WellFormed d t T) :
    t.leaves t.fuel t.root = .ok T.2.leafRefs := by
  rw [h.reps.root]
  exact BTreeIndex.leaves_eq h.reps.holds h.height_lt_fuel

theorem WellFormed.getRank_eq (h : WellFormed d t T) (member : Bytes) :
    t.getRank member
      = .ok (match T.2.leafItems.findIdx? (fun r => (t.item r).member = member) with
          | some i => (i : Int)
          | none => -1) := by
  obtain ⟨r, hrun, hhead⟩ := h.firstLeaf
  have hrank := getRankFrom_eq member (leafRow T.2) t.fuel 0 h.leafRow_le_fuel
    (chained_leafRow h.reps.holds)
  rw [hhead, flatMap_snd_leafRow] at hrank
  simp only [getRank, hrun, bind, Except.bind, hrank, Int.zero_add]

end WellFormed

/-! ## The invariant -/

section Shape

variable {d : Nat} {t : BTreeIndex S} {T : AnyTree Ref}

/-- A child of a node that has one child more than separators stands in
a frame. -/
theorem exists_frame {n : Nat} {is : List Ref} {cs : List (LevelTree Ref n)}
    (hlen : cs.length = is.length + 1) {s : LevelTree Ref n} (hs : s ∈ cs) :
    ∃ isL isR csL csR, is = isL ++ isR ∧ cs = csL ++ s :: csR ∧ isL.length = csL.length ∧
      isR.length = csR.length := by
  obtain ⟨csL, csR, rfl⟩ := List.append_of_mem hs
  rw [List.length_append, List.length_cons] at hlen
  obtain ⟨isL, isR, rfl, hL⟩ := exists_cut is csL.length (by omega)
  rw [List.length_append] at hlen
  exact ⟨isL, isR, csL, csR, rfl, rfl, hL, by omega⟩

/-- Whatever is reached along `Children` is a subtree in its context. -/
theorem ReachAt.exists_focus (h : WellFormed d t T) {k : Nat} {r : Ref} (hr : ReachAt t k r) :
    ∃ (n : Nat) (c : Ctx Ref n) (s : LevelTree Ref n), T = c.plug s ∧ s.ref = r ∧
      BTreeIndex.depth c = k := by
  induction hr with
  | root => exact ⟨T.1, .top, T.2, rfl, h.reps.root.symm, rfl⟩
  | @child k r x hr hx ih =>
    obtain ⟨n, c, s, hplug, href, hk⟩ := ih
    rw [hplug] at h
    have hfoc := (reps_plug_iff c s).mp h.reps
    obtain ⟨-, -, -, hin⟩ := (Ctx.balanced_plug c s).mp h.balanced
    cases n with
    | zero =>
      obtain ⟨r', is, rfl⟩ := s.exists_leaf
      rw [← href, LevelTree.ref_leaf, hfoc.node_leaf] at hx
      cases hx
    | succ n =>
      obtain ⟨r', is, cs, rfl⟩ := s.exists_node
      rw [← href, LevelTree.ref_node, hfoc.node_inner] at hx
      obtain ⟨u, hu, rfl⟩ := List.mem_map.mp hx
      rw [LevelTree.inner_node] at hin
      obtain ⟨isL, isR, csL, csR, rfl, rfl, hL, hR⟩ := exists_frame hin.1 hu
      refine ⟨n, .up r' isL isR csL csR hL hR c, u, hplug, rfl, ?_⟩
      rw [BTreeIndex.depth, hk]

/-- What a reached node looks like: the facts of its place in the tree. -/
theorem ReachAt.facts (h : WellFormed d t T) {k : Nat} {r : Ref} (hr : ReachAt t k r) :
    ∃ (n : Nat) (c : Ctx Ref n) (s : LevelTree Ref n), s.ref = r ∧ Focus t c s ∧ n + k = T.1 ∧
      s.Inner ((d - 1) / 2) (d - 1) ∧ s.items.length ≤ d - 1 ∧
      (r ≠ t.root → (d - 1) / 2 ≤ s.items.length) := by
  obtain ⟨n, c, s, rfl, rfl, rfl⟩ := hr.exists_focus h
  have hfoc := (reps_plug_iff c s).mp h.reps
  obtain ⟨-, hmin, hmax, hin⟩ := (Ctx.balanced_plug c s).mp h.balanced
  refine ⟨n, c, s, rfl, hfoc, (height_plug c s).symm, hin, hmax, ?_⟩
  intro hne
  cases c with
  | top => exact absurd hfoc.root.symm hne
  | up => rwa [Ctx.least_up] at hmin

theorem Shape.of_wellFormed (hd : 2 ≤ d) (h : WellFormed d t T) : Shape t where
  arity := by
    intro k r hr hleaf
    obtain ⟨n, c, s, rfl, hfoc, -, hin, -, -⟩ := hr.facts h
    cases n with
    | zero => rw [isLeaf_of_level_zero hfoc] at hleaf; cases hleaf
    | succ n =>
      obtain ⟨r, is, cs, rfl⟩ := s.exists_node
      rw [LevelTree.ref_node, hfoc.node_inner]
      rw [LevelTree.inner_node] at hin
      simpa [nodeRec] using hin.1
  depth := by
    refine ⟨T.1, ?_⟩
    intro k r hr
    obtain ⟨n, c, s, rfl, hfoc, hk, -, -, -⟩ := hr.facts h
    cases n with
    | zero => simp [isLeaf_of_level_zero hfoc]; omega
    | succ n => simp [isLeaf_of_level_succ hfoc]; omega
  most := by
    intro k r hr
    obtain ⟨n, c, s, rfl, hfoc, -, -, hmax, -⟩ := hr.facts h
    rw [hfoc.node_here.2, h.degree]
    omega
  least := by
    intro k r hr hne
    obtain ⟨n, c, s, rfl, hfoc, -, -, -, hmin⟩ := hr.facts h
    rw [hfoc.node_here.2, h.degree, tdiv_two hd]
    exact_mod_cast hmin hne
  root := by
    intro h3 hleaf
    have hfoc : Focus t .top T.2 := (reps_plug_iff .top T.2).mp h.reps
    rw [h.reps.root] at hleaf ⊢
    rw [hfoc.node_here.2]
    rw [h.degree] at h3
    obtain ⟨n, s⟩ := T
    cases n with
    | zero => rw [isLeaf_of_level_zero hfoc] at hleaf; cases hleaf
    | succ n =>
      have hmin := h.balanced.1
      simp only [Ctx.least] at hmin
      show 1 ≤ s.items.length
      omega
  parent := by
    intro k r hr x hx
    obtain ⟨n, c, s, rfl, hfoc, -, hin, -, -⟩ := hr.facts h
    cases n with
    | zero =>
      obtain ⟨r, is, rfl⟩ := s.exists_leaf
      rw [LevelTree.ref_leaf, hfoc.node_leaf] at hx
      cases hx
    | succ n =>
      obtain ⟨r, is, cs, rfl⟩ := s.exists_node
      rw [LevelTree.ref_node, hfoc.node_inner] at hx
      obtain ⟨u, hu, rfl⟩ := List.mem_map.mp hx
      rw [LevelTree.inner_node] at hin
      obtain ⟨isL, isR, csL, csR, rfl, rfl, hL, hR⟩ := exists_frame hin.1 hu
      exact (hfoc.down hL hR).node_here.1
  rootParent := by
    have hfoc : Focus t .top T.2 := (reps_plug_iff .top T.2).mp h.reps
    rw [h.reps.root]
    exact hfoc.node_here.1
  chain := ⟨_, h.leaves_eq, h.leafChain_eq⟩

end Shape

/-! ## Degree 1 -/

section DegreeOne

/-- A root with one item and two children is over capacity, and its split
leaves a new root of the same form. -/
theorem splitNode_root_degree_one (fuel : Nat) :
    ∀ {n : Nat} {t : BTreeIndex S} {r x : Ref} {a b : LevelTree Ref n}, t.degree = 1 →
      Focus t .top (.node r [x] [a, b]) → splitNode fuel t r = .error .fuel := by
  induction fuel with
  | zero => exact fun _ _ => rfl
  | succ f ih =>
    intro n t r x a b hdeg h
    have hroot : t.root = r := h.root
    have hpar : (t.node r).parent = none := h.node_here.1
    have hleaf := isLeaf_of_level_succ (focus_newRoot h)
    have hnew : Focus _ _ (.node r ([] ++ x :: []) ([a] ++ [b])) := focus_newRoot h
    obtain ⟨t', hrun, hfoc, -, hdeg'⟩ := splitInternal_focus (splitNode f) hnew (by simp) (by simp)
    have hone : t'.degree = 1 := hdeg'.trans hdeg
    rw [if_pos (by rw [← hdeg', hone]; simp), ih hone hfoc] at hrun
    rw [splitNode, hpar]
    show splitRoot (splitNode f) t = _
    rw [LevelTree.ref_node, ← hroot] at hleaf
    rw [← hroot] at hrun
    refine Eq.trans ?_ hrun
    exact if_neg (fun hl => Bool.noConfusion (hleaf.symm.trans hl))

theorem splitNode_leaf_degree_one (fuel : Nat) {t : BTreeIndex S} {r x : Ref}
    (hdeg : t.degree = 1) (h : Focus t .top (.leaf r [x])) :
    splitNode fuel t r = .error .fuel := by
  cases fuel with
  | zero => rfl
  | succ f =>
    have hroot : t.root = r := h.root
    have hpar : (t.node r).parent = none := h.node_here.1
    have hleaf := isLeaf_of_level_zero (focus_newRoot h)
    have hnew : Focus _ _ (.leaf r ([] ++ x :: [])) := focus_newRoot h
    obtain ⟨t', hrun, hfoc, -, hdeg'⟩ := splitLeaf_focus (splitNode f) hnew (by simp)
    have hone : t'.degree = 1 := hdeg'.trans hdeg
    rw [if_pos (by rw [← hdeg', hone]; simp), splitNode_root_degree_one f hone hfoc] at hrun
    rw [splitNode, hpar]
    show splitRoot (splitNode f) t = _
    rw [LevelTree.ref_leaf, ← hroot] at hleaf
    rw [← hroot] at hrun
    refine Eq.trans ?_ hrun
    exact if_pos hleaf

end DegreeOne

/-! ## Runs -/

/-- A call on the index. -/
inductive Op (S : Type) where
  | add (score : S) (member : Bytes)
  | removeByScore (score : S) (member : Bytes)

section Run

variable [LT S] [LE S] [BEq S] [DecidableLT S] [DecidableLE S]

def step (t : BTreeIndex S) : Op S → Except Fault (BTreeIndex S)
  | .add score member => Prod.snd <$> t.add score member
  | .removeByScore score member => Prod.snd <$> t.removeByScore score member

/-- One call after the other. -/
def run (t : BTreeIndex S) (ops : List (Op S)) : Except Fault (BTreeIndex S) :=
  ops.foldlM step t

omit [LT S] [LE S] [BEq S] [DecidableLT S] [DecidableLE S] in
theorem wellFormed_new [Inhabited S] {d : Nat} :
    WellFormed d (BTreeIndex.new (S := S) d) ⟨0, .leaf 0 []⟩ where
  degree := rfl
  reps := {
    root := rfl
    holds := by simp [cells_leaf, BTreeIndex.new, node, leafRec]
    nodup := by simp
    alloc := by simp [BTreeIndex.new] }
  balanced := ⟨Nat.zero_le _, Nat.zero_le _, trivial⟩

omit [BEq S] in
/-- With degree 1 the first `Add` does not come back, whatever the fuel:
the splits never end. -/
theorem addWith_degree_one [Inhabited S] (fuel : Nat) (score : S) {member : Bytes}
    (hm : member ≠ []) :
    addWith fuel (BTreeIndex.new (S := S) 1) score member = .error .fuel := by
  have hlen : ¬ member.length = 0 := fun h0 => hm (List.length_eq_zero_iff.mp h0)
  cases fuel with
  | zero =>
    simp only [addWith, if_neg hlen]
    rfl
  | succ f =>
    have hwf : WellFormed 1 (BTreeIndex.new (S := S) 1) ⟨0, .leaf 0 []⟩ := wellFormed_new
    have hfoc : Focus (BTreeIndex.new (S := S) 1) .top (.leaf 0 []) :=
      (reps_plug_iff .top _).mp hwf.reps
    have hfoc' := focus_setItems
      (focus_congr (u := (BTreeIndex.new (S := S) 1).allocItem ⟨score, member⟩) hfoc rfl rfl) [0]
    have hsplit := splitNode_leaf_degree_one (f + 1) rfl hfoc'
    have hleaf : (BTreeIndex.new (S := S) 1).findLeaf score (f + 1) (BTreeIndex.new (S := S) 1).root
        = .ok 0 := rfl
    have hitems : ((BTreeIndex.new (S := S) 1).node 0).items = [] := rfl
    have hins : insertAt (((BTreeIndex.new (S := S) 1).allocItem ⟨score, member⟩).node 0).items
        (itemSlot (BTreeIndex.new (S := S) 1) ⟨score, member⟩ [])
        (BTreeIndex.new (S := S) 1).items.next = .ok [0] := rfl
    simp only [addWith, if_neg hlen, hleaf, bind, Except.bind, hitems, List.find?_nil, hins]
    refine (if_pos (show ((1 : Nat) : Int) > 1 - 1 by decide)).trans ?_
    rw [hsplit]

theorem step_wellFormed {d : Nat} (hd : 2 ≤ d) {t : BTreeIndex S} {T : AnyTree Ref}
    (h : WellFormed d t T) (op : Op S) : ∃ t' T', t.step op = .ok t' ∧ WellFormed d t' T' := by
  cases op with
  | add score member =>
    by_cases hm : member = []
    · refine ⟨t, T, ?_, h⟩
      rw [step, hm]
      rfl
    · obtain ⟨c, r, is, -, -, hcase⟩ := add_cases hd h score hm
      rcases hcase with ⟨x, -, -, hrun⟩ | ⟨-, A, B, t', T', -, -, -, hrun, hwf, -, -⟩
      · refine ⟨t.setItem x { t.item x with score := score }, T, ?_, h.congr rfl rfl rfl⟩
        rw [step, hrun]
        rfl
      · exact ⟨t', T', by rw [step, hrun]; rfl, hwf⟩
  | removeByScore score member =>
    obtain ⟨c, r, is, -, -, hcase⟩ := removeByScore_cases hd h score member
    rcases hcase with ⟨-, hrun⟩ | ⟨A, x, B, t', T', -, -, hrun, hwf, -, -⟩
    · exact ⟨t, T, by rw [step, hrun]; rfl, h⟩
    · exact ⟨t', T', by rw [step, hrun]; rfl, hwf⟩

theorem run_wellFormed {d : Nat} (hd : 2 ≤ d) (ops : List (Op S)) :
    ∀ {t : BTreeIndex S} {T : AnyTree Ref}, WellFormed d t T →
      ∃ t' T', t.run ops = .ok t' ∧ WellFormed d t' T' := by
  induction ops with
  | nil => exact fun {t T} h => ⟨t, T, rfl, h⟩
  | cons op ops ih =>
    intro t T h
    obtain ⟨t₁, T₁, hstep, h₁⟩ := step_wellFormed hd h op
    obtain ⟨t', T', hrun, h'⟩ := ih h₁
    refine ⟨t', T', ?_, h'⟩
    rw [run, List.foldlM_cons, hstep]
    exact hrun

/-- Every sequence of calls on a new index of degree at least 2 runs to
its end, without an index out of range and with every child found in
its parent, and leaves the structural invariant in place. -/
theorem run_shape [Inhabited S] (degree : Int) (hd : 2 ≤ degree) (ops : List (Op S)) :
    ∃ t, (BTreeIndex.new (S := S) degree).run ops = .ok t ∧ t.degree = degree ∧ Shape t := by
  obtain ⟨d, rfl⟩ := Int.eq_ofNat_of_zero_le (by omega : 0 ≤ degree)
  have hd' : 2 ≤ d := by omega
  obtain ⟨t, T, hrun, hwf⟩ := run_wellFormed hd' ops (wellFormed_new (S := S) (d := d))
  exact ⟨t, hrun, hwf.degree, Shape.of_wellFormed hd' hwf⟩

theorem run_shape_three : ∃ t, (BTreeIndex.new (S := Int) 3).run
    [.add 1 [97], .add 2 [98], .add 1 [99], .add 2 [100], .removeByScore 2 [98], .add 3 [97]]
      = .ok t ∧ t.degree = 3 ∧ Shape t :=
  run_shape 3 (by decide) _

omit [LT S] [LE S] [BEq S] [DecidableLT S] [DecidableLE S] in
/-- Every degree but 1 gives an index with room for an item in a leaf. -/
theorem exists_newOrderedIndex_eq [Inhabited S] {degree : Int} (hdeg : degree ≠ 1) :
    ∃ d : Nat, 2 ≤ d ∧ newOrderedIndex (S := S) degree = BTreeIndex.new d := by
  by_cases hpos : degree ≤ 0
  · refine ⟨4, by omega, ?_⟩
    rw [newOrderedIndex, if_pos hpos]
    rfl
  · obtain ⟨d, rfl⟩ := Int.eq_ofNat_of_zero_le (by omega : 0 ≤ degree)
    refine ⟨d, by omega, ?_⟩
    rw [newOrderedIndex, if_neg hpos]

/-- Whatever calls an index has seen, `Add` returns on it, unless the
configured degree is 1: then the split of a root is over capacity again. -/
theorem add_returns_iff [Inhabited S] (degree : Int) :
    (∀ ops t, (newOrderedIndex (S := S) degree).run ops = .ok t → ∀ score member, member ≠ [] →
      ∃ fuel r, addWith fuel t score member = .ok r) ↔ degree ≠ 1 := by
  constructor
  · rintro hreturns rfl
    obtain ⟨fuel, r, hadd⟩ := hreturns [] _ rfl default [0] (by simp)
    rw [show newOrderedIndex (S := S) 1 = BTreeIndex.new 1 from rfl,
      addWith_degree_one fuel default (by simp)] at hadd
    cases hadd
  · intro hdeg ops t hrun score member hm
    obtain ⟨d, hd, hnew⟩ := exists_newOrderedIndex_eq (S := S) hdeg
    obtain ⟨t', T, hrun', hwf⟩ := run_wellFormed hd ops (wellFormed_new (S := S) (d := d))
    rw [hnew, hrun'] at hrun
    cases hrun
    obtain ⟨c, r, is, -, -, hcase⟩ := add_cases hd hwf score hm
    rcases hcase with ⟨x, -, -, hadd⟩ | ⟨-, A, B, t', T', -, -, -, hadd, -, -, -⟩
    · exact ⟨t.fuel, _, hadd⟩
    · exact ⟨t.fuel, _, hadd⟩

/-- The first `Add` on an index of degree 1. -/
theorem add_degree_one_diverges :
    ¬ ∃ fuel r, addWith fuel (newOrderedIndex (S := Int) 1) 0 [97] = .ok r := by
  rintro ⟨fuel, r, hadd⟩
  rw [show newOrderedIndex (S := Int) 1 = BTreeIndex.new 1 from rfl,
    addWith_degree_one fuel 0 (by simp)] at hadd
  cases hadd

end Run

end BTreeIndex

end RediGo.SortedSet
