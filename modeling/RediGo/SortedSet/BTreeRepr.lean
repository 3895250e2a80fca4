/-
RediGo.SortedSet.BTreeRepr — when the node heap of a `BTreeIndex` is a
tree.

`cells` lists the records a tree occupies: every node with its items,
the references of its children, its parent, and, for a leaf, the leaf to
its right. `Reps t T` says that the heap of `t` has these records, at
pairwise distinct references, with `T` at the root. The parent pointers
and the leaf chain are part of the records, so they come with `Reps` and
are not separate invariants.

A walk up the tree works at one subtree and its context. `Focus` is
`Reps` cut at a context, and `Focus.replace` is the frame rule: to
exchange the subtree in the hole it is enough to look at the subtree's
own records, provided its reference and its first leaf stay, since that
is all the outside points to.
-/
import Mathlib.Data.List.Perm.Subperm
import Mathlib.Tactic.Tauto
import RediGo.Lib.LevelTree
import RediGo.SortedSet.BTreeIndex

namespace RediGo.SortedSet

open RediGo.Lib RediGo.Go

/-! ## The records of a tree -/

def leafRec (items : List Ref) (parent next : Option Ref) : BTreeNode :=
  { items := items, isLeaf := true, parent := parent, next := next }

def nodeRec (items children : List Ref) (parent : Option Ref) : BTreeNode :=
  { items := items, children := children, parent := parent }

/-- The records of neighbouring subtrees. `after` are the leaves to the
right of all of them. -/
def row {α : Type} (leafRefs : α → List Ref) (cells : List Ref → α → List (Ref × BTreeNode))
    (after : List Ref) : List α → List (Ref × BTreeNode)
  | [] => []
  | c :: cs => cells (cs.flatMap leafRefs ++ after) c ++ row leafRefs cells after cs

/-- The records of a subtree with the given parent and leaves to its right. -/
def cells : {n : Nat} → Option Ref → List Ref → LevelTree Ref n → List (Ref × BTreeNode)
  | 0, p, after, t => [(t.ref, leafRec t.items p after.head?)]
  | n + 1, p, after, t =>
      (t.ref, nodeRec t.items (List.map (LevelTree.ref (n := n)) t.2.2) p) ::
        row LevelTree.leafRefs (cells (n := n) (some t.ref)) after t.2.2

/-- The records of the subtrees below one parent. -/
def cellsRow {n : Nat} (p : Option Ref) (after : List Ref) (cs : List (LevelTree Ref n)) :
    List (Ref × BTreeNode) :=
  row LevelTree.leafRefs (cells p) after cs

section Cells

variable {n : Nat}

@[simp] theorem cells_leaf (p : Option Ref) (after : List Ref) (r : Ref) (is : List Ref) :
    cells p after (.leaf r is) = [(r, leafRec is p after.head?)] := rfl

@[simp] theorem cells_node (p : Option Ref) (after : List Ref) (r : Ref) (is : List Ref)
    (cs : List (LevelTree Ref n)) :
    cells p after (.node r is cs)
      = (r, nodeRec is (cs.map LevelTree.ref) p) :: cellsRow (some r) after cs := rfl

@[simp] theorem cellsRow_nil (p : Option Ref) (after : List Ref) :
    cellsRow p after ([] : List (LevelTree Ref n)) = [] := rfl

@[simp] theorem cellsRow_cons (p : Option Ref) (after : List Ref) (c : LevelTree Ref n)
    (cs : List (LevelTree Ref n)) :
    cellsRow p after (c :: cs)
      = cells p (cs.flatMap LevelTree.leafRefs ++ after) c ++ cellsRow p after cs := rfl

@[simp] theorem cellsRow_append (p : Option Ref) (after : List Ref)
    (xs ys : List (LevelTree Ref n)) :
    cellsRow p after (xs ++ ys)
      = cellsRow p (ys.flatMap LevelTree.leafRefs ++ after) xs ++ cellsRow p after ys := by
  induction xs with
  | nil => simp
  | cons x xs ih => simp [ih, List.append_assoc]

/-- The references of the records are the references of the tree. -/
theorem map_fst_cells (p : Option Ref) (after : List Ref) (t : LevelTree Ref n) :
    (cells p after t).map Prod.fst = t.refs := by
  induction n generalizing p after with
  | zero => obtain ⟨r, is, rfl⟩ := t.exists_leaf; simp
  | succ n ih =>
    obtain ⟨r, is, cs, rfl⟩ := t.exists_node
    simp only [cells_node, List.map_cons, LevelTree.refs_node, List.cons.injEq, true_and]
    generalize some r = q
    induction cs with
    | nil => simp
    | cons c cs ihc => simp [ih, ihc]

theorem map_fst_cellsRow (p : Option Ref) (after : List Ref) (cs : List (LevelTree Ref n)) :
    (cellsRow p after cs).map Prod.fst = cs.flatMap LevelTree.refs := by
  induction cs with
  | nil => simp
  | cons c cs ih => simp [map_fst_cells, ih]

/-- The roots of neighbouring subtrees are among their references. -/
theorem map_ref_subset (cs : List (LevelTree Ref n)) :
    ∀ y ∈ cs.map LevelTree.ref, y ∈ cs.flatMap LevelTree.refs := by
  intro y hy
  obtain ⟨d, hd, rfl⟩ := List.mem_map.mp hy
  exact List.mem_flatMap.mpr ⟨d, hd, d.ref_mem_refs⟩

theorem head?_append_congr {α : Type} {xs ys : List α} (zs : List α)
    (h : xs.head? = ys.head?) : (zs ++ xs).head? = (zs ++ ys).head? := by
  simp [List.head?_append, h]

/-- Of the leaves to the right only the first one is looked at. -/
theorem cells_congr {after after' : List Ref} (h : after.head? = after'.head?)
    (p : Option Ref) (t : LevelTree Ref n) : cells p after t = cells p after' t := by
  induction n generalizing p after after' with
  | zero =>
    obtain ⟨r, is, rfl⟩ := t.exists_leaf
    simp [h]
  | succ n ih =>
    obtain ⟨r, is, cs, rfl⟩ := t.exists_node
    simp only [cells_node, List.cons.injEq, true_and]
    generalize some r = q
    induction cs with
    | nil => rfl
    | cons c cs ihc =>
      rw [cellsRow_cons, cellsRow_cons, ihc, ih (head?_append_congr _ h)]

theorem cellsRow_congr {after after' : List Ref} (h : after.head? = after'.head?)
    (p : Option Ref) (cs : List (LevelTree Ref n)) :
    cellsRow p after cs = cellsRow p after' cs := by
  induction cs with
  | nil => rfl
  | cons c cs ih =>
    rw [cellsRow_cons, cellsRow_cons, ih, cells_congr (head?_append_congr _ h)]

/-- Changing the parent of a subtree changes one record, that of its root. -/
theorem holds_cells_reparent {h h' : Ref → BTreeNode} {p : Option Ref} {after : List Ref}
    {t : LevelTree Ref n} (p' : Option Ref) (H : Holds h (cells p after t)) (hnd : t.refs.Nodup)
    (hroot : h' t.ref = { h t.ref with parent := p' })
    (hrest : ∀ x ∈ t.refs, x ≠ t.ref → h' x = h x) : Holds h' (cells p' after t) := by
  cases n with
  | zero =>
    obtain ⟨r, is, rfl⟩ := t.exists_leaf
    simp only [cells_leaf, holds_cons, holds_nil, and_true, LevelTree.ref_leaf] at H hroot ⊢
    rw [hroot, H]
    rfl
  | succ n =>
    obtain ⟨r, is, cs, rfl⟩ := t.exists_node
    simp only [cells_node, holds_cons, LevelTree.ref_node, LevelTree.refs_node,
      List.nodup_cons] at H hroot hnd hrest ⊢
    refine ⟨by rw [hroot, H.1]; rfl, H.2.frame ?_⟩
    intro x hx
    rw [map_fst_cellsRow] at hx
    exact hrest x (List.mem_cons_of_mem _ hx) (fun he => hnd.1 (he ▸ hx))

/-- The loop `for _, child := range cs { child.Parent = p }` on neighbours. -/
theorem holds_cellsRow_reparent {h h' : Ref → BTreeNode} {p : Option Ref} {after : List Ref}
    {cs : List (LevelTree Ref n)} (p' : Option Ref) (H : Holds h (cellsRow p after cs))
    (hnd : (cs.flatMap LevelTree.refs).Nodup)
    (hh : ∀ x ∈ cs.flatMap LevelTree.refs,
      h' x = if x ∈ cs.map LevelTree.ref then { h x with parent := p' } else h x) :
    Holds h' (cellsRow p' after cs) := by
  induction cs with
  | nil => simp
  | cons c cs ih =>
    simp only [cellsRow_cons, holds_append] at H ⊢
    rw [List.flatMap_cons, List.nodup_append] at hnd
    obtain ⟨hc, hcs, hdisj⟩ := hnd
    constructor
    · refine holds_cells_reparent p' H.1 hc ?_ ?_
      · rw [hh c.ref (by simp [LevelTree.ref_mem_refs]), if_pos (by simp)]
      · intro x hx hne
        rw [hh x (by simp [hx]), if_neg]
        -- `x` is below `c`, so it is not the root of a neighbour either
        intro hmem
        rcases List.mem_cons.mp hmem with rfl | hmem
        · exact hne rfl
        · obtain ⟨d, hd, hdx⟩ := List.mem_map.mp hmem
          have hxd : x ∈ cs.flatMap LevelTree.refs :=
            List.mem_flatMap.mpr ⟨d, hd, hdx ▸ d.ref_mem_refs⟩
          exact hdisj x hx x hxd rfl
    · refine ih H.2 hcs ?_
      intro x hx
      rw [hh x (by simp [hx])]
      have hxc : x ≠ c.ref := fun he => hdisj c.ref c.ref_mem_refs x hx he.symm
      simp [hxc]

end Cells

/-! ## The records outside a hole -/

namespace CtxCells

/-- The records of a context, given the reference in the hole and the
leaves below it. -/
def cells : {n : Nat} → Ctx Ref n → Ref → List Ref → List (Ref × BTreeNode)
  | _, .top, _, _ => []
  | _, .up r isL isR csL csR _ _ c, hole, hl =>
      (r, nodeRec (isL ++ isR) (csL.map LevelTree.ref ++ hole :: csR.map LevelTree.ref)
        c.parent) ::
      (cellsRow (some r) (hl ++ (csR.flatMap LevelTree.leafRefs ++ c.leavesAfter)) csL ++
        (cellsRow (some r) c.leavesAfter csR ++
          cells c r (csL.flatMap LevelTree.leafRefs ++ (hl ++ csR.flatMap LevelTree.leafRefs))))

/-- The references of a context. -/
def refs : {n : Nat} → Ctx Ref n → List Ref
  | _, .top => []
  | _, .up r _ _ csL csR _ _ c =>
      r :: (csL.flatMap LevelTree.refs ++ (csR.flatMap LevelTree.refs ++ refs c))

/-- The reference of the root, seen from the hole. -/
def rootRef : {n : Nat} → Ctx Ref n → Ref → Ref
  | _, .top, hole => hole
  | _, .up r _ _ _ _ _ _ c, _ => rootRef c r

variable {n : Nat}

theorem map_fst_cells (c : Ctx Ref n) (hole : Ref) (hl : List Ref) :
    (cells c hole hl).map Prod.fst = refs c := by
  induction c generalizing hole hl with
  | top => rfl
  | up r isL isR csL csR hL hR c ih => simp [cells, refs, map_fst_cellsRow, ih]

theorem cells_congr (c : Ctx Ref n) (hole : Ref) {hl hl' : List Ref}
    (h : hl.head? = hl'.head?) : cells c hole hl = cells c hole hl' := by
  have happ : ∀ zs : List Ref, (hl ++ zs).head? = (hl' ++ zs).head? := by
    intro zs
    simp [List.head?_append, h]
  induction c generalizing hole hl hl' with
  | top => rfl
  | up r isL isR csL csR hL hR c ih =>
    have hnext : (csL.flatMap LevelTree.leafRefs ++ (hl ++ csR.flatMap LevelTree.leafRefs)).head?
        = (csL.flatMap LevelTree.leafRefs ++ (hl' ++ csR.flatMap LevelTree.leafRefs)).head? :=
      head?_append_congr _ (happ _)
    simp only [cells]
    rw [cellsRow_congr (happ _), ih r hnext (fun zs => by simp [List.head?_append, h])]

theorem rootRef_plug (c : Ctx Ref n) (s : LevelTree Ref n) :
    (c.plug s).2.ref = rootRef c s.ref := by
  induction c with
  | top => rfl
  | up r isL isR csL csR hL hR c ih => rw [Ctx.plug, ih]; rfl

/-- The records of a closed context are those of the subtree and those
of the context. -/
theorem perm_plug (c : Ctx Ref n) (s : LevelTree Ref n) :
    (SortedSet.cells none [] (c.plug s).2).Perm
      (SortedSet.cells c.parent c.leavesAfter s ++ cells c s.ref s.leafRefs) := by
  induction c with
  | top => simp [Ctx.plug, Ctx.parent, Ctx.leavesAfter, cells]
  | up r isL isR csL csR hL hR c ih =>
    rw [Ctx.plug]
    refine (ih _).trans ?_
    simp only [cells_node, cellsRow_append, cellsRow_cons, LevelTree.ref_node,
      LevelTree.leafRefs_node, cells, Ctx.parent, Ctx.leavesAfter, List.map_append,
      List.map_cons, List.flatMap_append, List.flatMap_cons, List.append_assoc,
      List.cons_append]
    -- the subtree's own records move from the middle to the front
    refine List.Perm.trans ?_ List.perm_middle.symm
    refine List.Perm.cons _ ?_
    rw [← List.append_assoc, ← List.append_assoc (SortedSet.cells _ _ s)]
    exact List.Perm.append_right _ List.perm_append_comm

theorem refs_plug_perm (c : Ctx Ref n) (s : LevelTree Ref n) :
    (c.plug s).2.refs.Perm (s.refs ++ refs c) := by
  have h := (perm_plug c s).map Prod.fst
  rwa [SortedSet.map_fst_cells, List.map_append, SortedSet.map_fst_cells, map_fst_cells] at h

end CtxCells

/-! ## Representation -/

section Reps

variable {S : Type}

/-- The node heap of `t`, from its root, is the tree `T`. -/
structure Reps (t : BTreeIndex S) (T : AnyTree Ref) : Prop where
  root : t.root = T.2.ref
  holds : Holds t.node (cells none [] T.2)
  nodup : T.2.refs.Nodup
  alloc : ∀ r ∈ T.2.refs, r < t.nodes.next

/-- The same, cut at a context: `s` stands in the hole of `c`. -/
structure Focus {n : Nat} (t : BTreeIndex S) (c : Ctx Ref n) (s : LevelTree Ref n) : Prop where
  root : t.root = CtxCells.rootRef c s.ref
  here : Holds t.node (cells c.parent c.leavesAfter s)
  outside : Holds t.node (CtxCells.cells c s.ref s.leafRefs)
  nodup : s.refs.Nodup
  nodupOut : (CtxCells.refs c).Nodup
  disjoint : ∀ x ∈ s.refs, x ∉ CtxCells.refs c
  alloc : ∀ r ∈ s.refs, r < t.nodes.next
  allocOut : ∀ r ∈ CtxCells.refs c, r < t.nodes.next

theorem reps_plug_iff {n : Nat} {t : BTreeIndex S} (c : Ctx Ref n) (s : LevelTree Ref n) :
    Reps t (c.plug s) ↔ Focus t c s := by
  have hp := CtxCells.perm_plug c s
  have hr := CtxCells.refs_plug_perm c s
  constructor
  · intro h
    have hh := h.holds.perm hp
    rw [holds_append] at hh
    have hnd := hr.nodup_iff.mp h.nodup
    rw [List.nodup_append] at hnd
    exact {
      root := by rw [h.root, CtxCells.rootRef_plug]
      here := hh.1
      outside := hh.2
      nodup := hnd.1
      nodupOut := hnd.2.1
      disjoint := fun x hx hx' => hnd.2.2 x hx x hx' rfl
      alloc := fun x hx => h.alloc x (hr.mem_iff.mpr (List.mem_append_left _ hx))
      allocOut := fun x hx => h.alloc x (hr.mem_iff.mpr (List.mem_append_right _ hx)) }
  · intro h
    refine ⟨by rw [h.root, CtxCells.rootRef_plug], ?_, ?_, ?_⟩
    · exact Holds.perm ((holds_append _ _ _).mpr ⟨h.here, h.outside⟩) hp.symm
    · rw [hr.nodup_iff, List.nodup_append]
      refine ⟨h.nodup, h.nodupOut, ?_⟩
      rintro a ha b hb rfl
      exact h.disjoint a ha hb
    · intro x hx
      rcases List.mem_append.mp (hr.mem_iff.mp hx) with hx | hx
      · exact h.alloc x hx
      · exact h.allocOut x hx

/-- The frame rule. The subtree in the hole may be exchanged for another
one with the same reference and the same first leaf, built from its own
records and newly allocated ones. -/
theorem Focus.replace {n : Nat} {t t' : BTreeIndex S} {c : Ctx Ref n} {s s' : LevelTree Ref n}
    (h : Focus t c s) (href : s'.ref = s.ref) (hhead : s'.leafRefs.head? = s.leafRefs.head?)
    (hroot : t'.root = t.root) (hframe : ∀ x ∈ CtxCells.refs c, t'.node x = t.node x)
    (hhere : Holds t'.node (cells c.parent c.leavesAfter s')) (hnd : s'.refs.Nodup)
    (hsub : ∀ x ∈ s'.refs, x ∈ s.refs ∨ t.nodes.next ≤ x)
    (halloc : ∀ x ∈ s'.refs, x < t'.nodes.next) (hmono : t.nodes.next ≤ t'.nodes.next) :
    Focus t' c s' where
  root := by rw [hroot, h.root, href]
  here := hhere
  outside := by
    rw [href, CtxCells.cells_congr c _ hhead]
    refine h.outside.frame ?_
    intro x hx
    rw [CtxCells.map_fst_cells] at hx
    exact hframe x hx
  nodup := hnd
  nodupOut := h.nodupOut
  disjoint := by
    intro x hx hxc
    rcases hsub x hx with hx' | hx'
    · exact h.disjoint x hx' hxc
    · exact absurd (h.allocOut x hxc) (Nat.not_lt.mpr hx')
  alloc := halloc
  allocOut := fun x hx => Nat.lt_of_lt_of_le (h.allocOut x hx) hmono

/-- What the heap says about some neighbouring children `M` of a node. -/
structure RowFacts {n : Nat} (t : BTreeIndex S) (c : Ctx Ref (n + 1)) (r : Ref) (is : List Ref)
    (csL M csR : List (LevelTree Ref n)) : Prop where
  node : t.node r = nodeRec is ((csL ++ (M ++ csR)).map LevelTree.ref) c.parent
  rows : Holds t.node
    (cellsRow (some r) (csR.flatMap LevelTree.leafRefs ++ c.leavesAfter) M)
  nodup : (M.flatMap LevelTree.refs).Nodup
  notMem : r ∉ M.flatMap LevelTree.refs
  alloc : ∀ y ∈ M.flatMap LevelTree.refs, y < t.nodes.next
  allocNode : r < t.nodes.next

theorem Focus.rowFacts {n : Nat} {t : BTreeIndex S} {c : Ctx Ref (n + 1)} {r : Ref}
    {is : List Ref} {csL M csR : List (LevelTree Ref n)}
    (h : Focus t c (.node r is (csL ++ (M ++ csR)))) : RowFacts t c r is csL M csR := by
  have hnd := h.nodup
  have hal := h.alloc
  have hhere := h.here
  rw [LevelTree.refs_node, List.flatMap_append, List.flatMap_append] at hnd hal
  rw [List.nodup_cons, List.nodup_append, List.nodup_append] at hnd
  rw [cells_node, holds_cons, cellsRow_append, cellsRow_append, holds_append, holds_append] at hhere
  simp only [List.mem_append, not_or] at hnd
  exact {
    node := hhere.1
    rows := hhere.2.2.1
    nodup := hnd.2.2.1.1
    notMem := hnd.1.2.1
    alloc := fun y hy => hal y (by simp only [List.mem_cons, List.mem_append]; tauto)
    allocNode := hal r List.mem_cons_self }

/-- A neighbour on either side is none of the touched records. -/
theorem Focus.beside {n : Nat} {t : BTreeIndex S} {c : Ctx Ref (n + 1)} {r : Ref}
    {is : List Ref} {csL M csR : List (LevelTree Ref n)}
    (h : Focus t c (.node r is (csL ++ (M ++ csR)))) :
    ∀ y, y ∈ csL.flatMap LevelTree.refs ∨ y ∈ csR.flatMap LevelTree.refs →
      y ≠ r ∧ y ∉ M.flatMap LevelTree.refs ∧ y < t.nodes.next := by
  have hnd := h.nodup
  have hal := h.alloc
  rw [LevelTree.refs_node, List.flatMap_append, List.flatMap_append] at hnd hal
  rw [List.nodup_cons, List.nodup_append, List.nodup_append] at hnd
  simp only [List.mem_append, not_or] at hnd
  obtain ⟨hr, _, ⟨_, _, hMR⟩, hL⟩ := hnd
  intro y hy
  refine ⟨?_, ?_, hal y (by simp only [List.mem_cons, List.mem_append]; tauto)⟩
  · rintro rfl
    exact hy.elim hr.1 hr.2.2
  · intro hyM
    rcases hy with hy | hy
    · exact hL y hy y (Or.inl hyM) rfl
    · exact hMR y hyM y hy rfl

/-- The frame rule at one node: some neighbouring children `M` become
`M'`, the others stay. All ten ways the index changes a node go through
this lemma; what is left to each is the node's own record, the records
of the children it touches, and that the references of `M'` are those of
`M` or newly allocated ones, `N`. -/
theorem Focus.replaceRow {n : Nat} {t t' : BTreeIndex S} {c : Ctx Ref (n + 1)} {r : Ref}
    {is is' : List Ref} {csL M M' csR : List (LevelTree Ref n)} (N : List Ref)
    (h : Focus t c (.node r is (csL ++ (M ++ csR)))) (hroot : t'.root = t.root)
    (hnode : t'.node r = nodeRec is' ((csL ++ (M' ++ csR)).map LevelTree.ref) c.parent)
    (hM : Holds t'.node
      (cellsRow (some r) (csR.flatMap LevelTree.leafRefs ++ c.leavesAfter) M'))
    (hhead : (M'.flatMap LevelTree.leafRefs).head? = (M.flatMap LevelTree.leafRefs).head?)
    (hframe : ∀ x, x ≠ r → x ∉ M.flatMap LevelTree.refs → x < t.nodes.next →
      t'.node x = t.node x)
    (hrefs : List.Subperm (M'.flatMap LevelTree.refs) (N ++ M.flatMap LevelTree.refs))
    (hN : N.Nodup) (hNnew : ∀ x ∈ N, t.nodes.next ≤ x ∧ x < t'.nodes.next)
    (hmono : t.nodes.next ≤ t'.nodes.next) :
    Focus t' c (.node r is' (csL ++ (M' ++ csR))) := by
  have hf := h.rowFacts
  have hbes := h.beside
  have hndT := h.nodup
  rw [LevelTree.refs_node, List.flatMap_append, List.flatMap_append, List.nodup_cons,
    List.nodup_append, List.nodup_append] at hndT
  simp only [List.mem_append, not_or] at hndT
  obtain ⟨hr, hndL, ⟨_, hndR, hMR⟩, hL⟩ := hndT
  -- a reference of `M'` is one of `M`, or new and so none of the old ones
  have hsub : ∀ x ∈ M'.flatMap LevelTree.refs,
      x ∈ M.flatMap LevelTree.refs ∨ t.nodes.next ≤ x := by
    intro x hx
    rcases List.mem_append.mp (hrefs.subset hx) with hx | hx
    · exact Or.inr (hNnew x hx).1
    · exact Or.inl hx
  have hnew : ∀ x ∈ M'.flatMap LevelTree.refs, ∀ y, y < t.nodes.next →
      y ∉ M.flatMap LevelTree.refs → x ≠ y := by
    rintro x hx y hy hyM rfl
    rcases hsub x hx with hx' | hx'
    · exact hyM hx'
    · exact absurd hy (Nat.not_lt.mpr hx')
  have hndM' : (M'.flatMap LevelTree.refs).Nodup := by
    obtain ⟨l, hperm, hsubl⟩ := hrefs
    refine hperm.nodup_iff.mp (hsubl.nodup ?_)
    rw [List.nodup_append]
    refine ⟨hN, hf.nodup, ?_⟩
    rintro a ha b hb rfl
    exact absurd (hf.alloc a hb) (Nat.not_lt.mpr (hNnew a ha).1)
  have hhere := h.here
  rw [cells_node, holds_cons, cellsRow_append, cellsRow_append, holds_append, holds_append] at hhere
  obtain ⟨_, hhL, _, hhR⟩ := hhere
  refine h.replace rfl ?_ hroot ?_ ?_ ?_ ?_ ?_ hmono
  · simp only [LevelTree.leafRefs_node, List.flatMap_append]
    exact head?_append_congr _ (by simp [List.head?_append, hhead])
  · -- outside the node nothing is touched
    intro x hx
    refine hframe x ?_ ?_ (h.allocOut x hx)
    · rintro rfl
      exact h.disjoint x (by simp) hx
    · intro hxM
      refine h.disjoint x ?_ hx
      rw [LevelTree.refs_node, List.flatMap_append, List.flatMap_append]
      simp only [List.mem_cons, List.mem_append]
      tauto
  · rw [cells_node, holds_cons, cellsRow_append, cellsRow_append, holds_append, holds_append]
    have hkeep : ∀ y, y ∈ csL.flatMap LevelTree.refs ∨ y ∈ csR.flatMap LevelTree.refs →
        t'.node y = t.node y :=
      fun y hy => hframe y (hbes y hy).1 (hbes y hy).2.1 (hbes y hy).2.2
    have hafter : ((M' ++ csR).flatMap LevelTree.leafRefs ++ c.leavesAfter).head?
        = ((M ++ csR).flatMap LevelTree.leafRefs ++ c.leavesAfter).head? := by
      simp [List.head?_append, hhead]
    refine ⟨hnode, ?_, hM, ?_⟩
    · rw [cellsRow_congr hafter]
      exact hhL.frame (by rw [map_fst_cellsRow]; exact fun y hy => hkeep y (Or.inl hy))
    · exact hhR.frame (by rw [map_fst_cellsRow]; exact fun y hy => hkeep y (Or.inr hy))
  · rw [LevelTree.refs_node, List.flatMap_append, List.flatMap_append, List.nodup_cons,
      List.nodup_append, List.nodup_append]
    simp only [List.mem_append, not_or]
    refine ⟨⟨hr.1, fun hrM => hnew r hrM r hf.allocNode hf.notMem rfl, hr.2.2⟩, hndL,
      ⟨hndM', hndR, ?_⟩, ?_⟩
    · intro a ha b hb
      exact hnew a ha b (hbes b (Or.inr hb)).2.2 (hbes b (Or.inr hb)).2.1
    · rintro a ha b (hb | hb)
      · exact (hnew b hb a (hbes a (Or.inl ha)).2.2 (hbes a (Or.inl ha)).2.1).symm
      · exact hL a ha b (Or.inr hb)
  · intro x hx
    rw [LevelTree.refs_node, List.flatMap_append, List.flatMap_append] at hx ⊢
    simp only [List.mem_cons, List.mem_append] at hx ⊢
    have := hsub x
    tauto
  · intro x hx
    rw [LevelTree.refs_node, List.flatMap_append, List.flatMap_append] at hx
    simp only [List.mem_cons, List.mem_append] at hx
    rcases hx with rfl | hx | hx | hx
    · exact Nat.lt_of_lt_of_le hf.allocNode hmono
    · exact Nat.lt_of_lt_of_le (hbes x (Or.inl hx)).2.2 hmono
    · rcases List.mem_append.mp (hrefs.subset hx) with hx | hx
      · exact (hNnew x hx).2
      · exact Nat.lt_of_lt_of_le (hf.alloc x hx) hmono
    · exact Nat.lt_of_lt_of_le (hbes x (Or.inr hx)).2.2 hmono

/-- The node above the hole is in the heap with the hole among its children. -/
theorem Focus.up {n : Nat} {t : BTreeIndex S} {r : Ref} {isL isR : List Ref}
    {csL csR : List (LevelTree Ref n)} {hL : isL.length = csL.length}
    {hR : isR.length = csR.length} {c : Ctx Ref (n + 1)} {s : LevelTree Ref n}
    (h : Focus t (.up r isL isR csL csR hL hR c) s) :
    Focus t c (.node r (isL ++ isR) (csL ++ s :: csR)) := by
  rw [← reps_plug_iff] at h ⊢
  exact h

/-- Focus on any child of a focused node. -/
theorem Focus.down {n : Nat} {t : BTreeIndex S} {rp : Ref} {isL isR : List Ref}
    {csL csR : List (LevelTree Ref n)} {c : Ctx Ref (n + 1)} {s : LevelTree Ref n}
    (h : Focus t c (.node rp (isL ++ isR) (csL ++ s :: csR))) (hL : isL.length = csL.length)
    (hR : isR.length = csR.length) : Focus t (.up rp isL isR csL csR hL hR c) s := by
  rw [← reps_plug_iff] at h ⊢
  exact h

/-- A child is not listed among the siblings to its left. -/
theorem Focus.notMem_left {n : Nat} {t : BTreeIndex S} {rp : Ref} {isL isR : List Ref}
    {csL csR : List (LevelTree Ref n)} {hL : isL.length = csL.length}
    {hR : isR.length = csR.length} {c : Ctx Ref (n + 1)} {s : LevelTree Ref n}
    (h : Focus t (.up rp isL isR csL csR hL hR c) s) : s.ref ∉ csL.map LevelTree.ref := by
  have hnd := h.up.nodup
  rw [LevelTree.refs_node, List.flatMap_append, List.nodup_cons, List.nodup_append] at hnd
  intro hmem
  obtain ⟨d, hd, hds⟩ := List.mem_map.mp hmem
  exact hnd.2.2.2 s.ref (List.mem_flatMap.mpr ⟨d, hd, hds ▸ d.ref_mem_refs⟩) s.ref
    (by simp [LevelTree.ref_mem_refs]) rfl

/-- The record of the node above the hole. -/
theorem Focus.node_parent {n : Nat} {t : BTreeIndex S} {r : Ref} {isL isR : List Ref}
    {csL csR : List (LevelTree Ref n)} {hL : isL.length = csL.length}
    {hR : isR.length = csR.length} {c : Ctx Ref (n + 1)} {s : LevelTree Ref n}
    (h : Focus t (.up r isL isR csL csR hL hR c) s) :
    t.node r = nodeRec (isL ++ isR) (csL.map LevelTree.ref ++ s.ref :: csR.map LevelTree.ref)
      c.parent := by
  have hout := h.outside
  rw [CtxCells.cells, holds_cons] at hout
  exact hout.1

theorem Focus.node_leaf {t : BTreeIndex S} {c : Ctx Ref 0} {r : Ref} {is : List Ref}
    (h : Focus t c (.leaf r is)) : t.node r = leafRec is c.parent c.leavesAfter.head? := by
  have hh := h.here
  rw [cells_leaf, holds_cons] at hh
  exact hh.1

theorem Focus.node_inner {n : Nat} {t : BTreeIndex S} {c : Ctx Ref (n + 1)} {r : Ref}
    {is : List Ref} {cs : List (LevelTree Ref n)} (h : Focus t c (.node r is cs)) :
    t.node r = nodeRec is (cs.map LevelTree.ref) c.parent := by
  have hh := h.here
  rw [cells_node, holds_cons] at hh
  exact hh.1

/-- The record of a focused node of either kind, as far as the climbing
code looks at it. -/
theorem Focus.node_here {n : Nat} {t : BTreeIndex S} {c : Ctx Ref n} {s : LevelTree Ref n}
    (h : Focus t c s) : (t.node s.ref).parent = c.parent ∧ (t.node s.ref).items = s.items := by
  cases n with
  | zero =>
    obtain ⟨r, is, rfl⟩ := s.exists_leaf
    rw [LevelTree.ref_leaf, h.node_leaf]
    exact ⟨rfl, rfl⟩
  | succ n =>
    obtain ⟨r, is, cs, rfl⟩ := s.exists_node
    rw [LevelTree.ref_node, h.node_inner]
    exact ⟨rfl, rfl⟩

end Reps

end RediGo.SortedSet
