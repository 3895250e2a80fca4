/-
RediGo.SortedSet.BTreeSteps — splits, rotations and merges on the heap.

Each helper of the B+ tree that changes its shape (`splitLeaf`,
`splitInternal`, the two `borrowFrom…Sibling`, `mergeSiblings`) is run at a
focused node, and the tree that the heap represents afterwards is written
out. Leaves and inner nodes are separate cases, as in the source.
-/
import RediGo.SortedSet.BTreeRepr

namespace RediGo.SortedSet

open RediGo.Lib RediGo.Go

variable {S : Type}

namespace BTreeIndex

@[simp] theorem setNode_node (t : BTreeIndex S) (r : Ref) (nd : BTreeNode) (x : Ref) :
    (t.setNode r nd).node x = if x = r then nd else t.node x := rfl

@[simp] theorem setNode_next (t : BTreeIndex S) (r : Ref) (nd : BTreeNode) :
    (t.setNode r nd).nodes.next = t.nodes.next := rfl

@[simp] theorem setNode_root (t : BTreeIndex S) (r : Ref) (nd : BTreeNode) :
    (t.setNode r nd).root = t.root := rfl

@[simp] theorem setNode_degree (t : BTreeIndex S) (r : Ref) (nd : BTreeNode) :
    (t.setNode r nd).degree = t.degree := rfl

@[simp] theorem setNode_items (t : BTreeIndex S) (r : Ref) (nd : BTreeNode) :
    (t.setNode r nd).items = t.items := rfl

@[simp] theorem allocNode_node (t : BTreeIndex S) (nd : BTreeNode) (x : Ref) :
    (t.allocNode nd).node x = if x = t.nodes.next then nd else t.node x := rfl

@[simp] theorem allocNode_next (t : BTreeIndex S) (nd : BTreeNode) :
    (t.allocNode nd).nodes.next = t.nodes.next + 1 := rfl

@[simp] theorem allocNode_root (t : BTreeIndex S) (nd : BTreeNode) :
    (t.allocNode nd).root = t.root := rfl

@[simp] theorem allocNode_degree (t : BTreeIndex S) (nd : BTreeNode) :
    (t.allocNode nd).degree = t.degree := rfl

@[simp] theorem allocNode_items (t : BTreeIndex S) (nd : BTreeNode) :
    (t.allocNode nd).items = t.items := rfl

/-- `insertChild` on the record of a parent that lists the node. -/
theorem insertChild_eq (rec : BTreeIndex S → Ref → Except Fault (BTreeIndex S))
    {t : BTreeIndex S} {rp r x r' : Ref} {isL isR rsL rsR : List Ref} {p : Option Ref}
    (hp : t.node rp = nodeRec (isL ++ isR) (rsL ++ r :: rsR) p) (hr : r ∉ rsL)
    (hL : isL.length = rsL.length) :
    insertChild rec t rp r x r'
      = if ((isL ++ x :: isR).length : Int) > t.degree - 1
        then rec (t.setNode rp (nodeRec (isL ++ x :: isR) (rsL ++ r :: r' :: rsR) p)) rp
        else .ok (t.setNode rp (nodeRec (isL ++ x :: isR) (rsL ++ r :: r' :: rsR) p)) := by
  have hidx : (rsL ++ r :: rsR).idxOf r = isL.length := by
    rw [List.idxOf_append_of_notMem hr, hL]
    simp
  have hchild : insertAt (rsL ++ r :: rsR) (isL.length + 1) r' = .ok (rsL ++ r :: r' :: rsR) := by
    have hins := insertAt_append (rsL ++ [r]) rsR r'
    simpa [hL] using hins
  have hitems : (t.node rp).items = isL ++ isR := by rw [hp]; rfl
  have hchildren : (t.node rp).children = rsL ++ r :: rsR := by rw [hp]; rfl
  simp only [insertChild, hitems, hchildren, hidx, insertAt_append, hchild, bind, Except.bind]
  rw [hp]
  rfl

theorem splitLeaf_focus {t : BTreeIndex S} {rp : Ref} {isL isR : List Ref}
    {csL csR : List (LevelTree Ref 0)} {hL : isL.length = csL.length}
    {hR : isR.length = csR.length} {c : Ctx Ref 1} {r : Ref} {A : List Ref} {x : Ref}
    {B : List Ref} (rec : BTreeIndex S → Ref → Except Fault (BTreeIndex S))
    (h : Focus t (.up rp isL isR csL csR hL hR c) (.leaf r (A ++ x :: B)))
    (hA : (A ++ x :: B).length / 2 = A.length) :
    ∃ t', splitLeaf rec t r
        = (if ((isL ++ x :: isR).length : Int) > t.degree - 1 then rec t' rp else .ok t') ∧
      Focus t' c (.node rp (isL ++ x :: isR)
        (csL ++ ([.leaf r A, .leaf t.nodes.next (x :: B)] ++ csR))) ∧
      t'.items = t.items ∧ t'.degree = t.degree := by
  have hleaf := h.node_leaf
  have hup : Focus t c (.node rp (isL ++ isR) (csL ++ ([.leaf r (A ++ x :: B)] ++ csR))) := h.up
  have hf := hup.rowFacts
  have hrp : rp ≠ r := by simpa using hf.notMem
  have hnext : rp ≠ t.nodes.next := Nat.ne_of_lt hf.allocNode
  have hnext' : t.nodes.next ≠ r := (Nat.ne_of_lt (hf.alloc r (by simp))).symm
  have hsplit : splitLeaf rec t r = insertChild rec
      ((t.allocNode (leafRec (x :: B) (some rp)
        (csR.flatMap LevelTree.leafRefs ++ c.leavesAfter).head?)).setNode r
          (leafRec A (some rp) (some t.nodes.next))) rp r x t.nodes.next := by
    simp only [splitLeaf, hleaf, leafRec, hA, List.drop_left, List.take_left, Ctx.parent]
    rfl
  have hpar : ((t.allocNode (leafRec (x :: B) (some rp)
      (csR.flatMap LevelTree.leafRefs ++ c.leavesAfter).head?)).setNode r
        (leafRec A (some rp) (some t.nodes.next))).node rp
      = nodeRec (isL ++ isR) (csL.map LevelTree.ref ++ r :: csR.map LevelTree.ref) c.parent := by
    simpa [hrp, hnext] using hf.node
  rw [hsplit, insertChild_eq rec hpar h.notMem_left (by simpa using hL)]
  refine ⟨_, rfl, ?_, rfl, rfl⟩
  refine hup.replaceRow [t.nodes.next] rfl ?_ ?_ rfl ?_ ?_ (by simp) (by simp) (Nat.le_succ _)
  · simp
  · simp [hrp.symm, hnext', hnext.symm]
  · intro y hy hyM hyn
    have hyr : y ≠ r := by simpa using hyM
    simp [hy, hyr, Nat.ne_of_lt hyn]
  · exact (List.Perm.swap _ _ []).subperm

/-! ## Splitting an inner node -/

@[simp] theorem setParents_next (t : BTreeIndex S) (cs : List Ref) (p : Ref) :
    (t.setParents cs p).nodes.next = t.nodes.next := by
  induction cs generalizing t with
  | nil => rfl
  | cons c cs ih => exact (ih _).trans rfl

@[simp] theorem setParents_root (t : BTreeIndex S) (cs : List Ref) (p : Ref) :
    (t.setParents cs p).root = t.root := by
  induction cs generalizing t with
  | nil => rfl
  | cons c cs ih => exact (ih _).trans rfl

@[simp] theorem setParents_degree (t : BTreeIndex S) (cs : List Ref) (p : Ref) :
    (t.setParents cs p).degree = t.degree := by
  induction cs generalizing t with
  | nil => rfl
  | cons c cs ih => exact (ih _).trans rfl

@[simp] theorem setParents_items (t : BTreeIndex S) (cs : List Ref) (p : Ref) :
    (t.setParents cs p).items = t.items := by
  induction cs generalizing t with
  | nil => rfl
  | cons c cs ih => exact (ih _).trans rfl

@[simp] theorem setParents_node (t : BTreeIndex S) (cs : List Ref) (p x : Ref) :
    (t.setParents cs p).node x
      = if x ∈ cs then { t.node x with parent := some p } else t.node x := by
  induction cs generalizing t with
  | nil => rfl
  | cons c cs ih =>
    have hstep : t.setParents (c :: cs) p
        = (t.setNode c { t.node c with parent := some p }).setParents cs p := rfl
    rw [hstep, ih, setNode_node]
    by_cases hc : x = c
    · subst hc
      simp
    · simp [hc]

/-- A node's reference and those of its children, in two groups. -/
theorem nodup_cons_append {r : Ref} {X Y : List Ref} (h : (r :: (X ++ Y)).Nodup) :
    (∀ y ∈ X, y ≠ r ∧ y ∉ Y) ∧ (∀ y ∈ Y, y ≠ r) ∧ X.Nodup ∧ Y.Nodup := by
  rw [List.nodup_cons, List.nodup_append] at h
  obtain ⟨hr, hX, hY, hXY⟩ := h
  refine ⟨fun y hy => ⟨?_, fun hy' => hXY y hy y hy' rfl⟩, ?_, hX, hY⟩
  · rintro rfl
    exact hr (List.mem_append_left _ hy)
  · rintro y hy rfl
    exact hr (List.mem_append_right _ hy)

theorem splitInternal_focus {n : Nat} {t : BTreeIndex S} {rp : Ref} {isL isR : List Ref}
    {csL csR : List (LevelTree Ref (n + 1))} {hL : isL.length = csL.length}
    {hR : isR.length = csR.length} {c : Ctx Ref (n + 2)} {r : Ref} {A : List Ref} {x : Ref}
    {B : List Ref} {C D : List (LevelTree Ref n)}
    (rec : BTreeIndex S → Ref → Except Fault (BTreeIndex S))
    (h : Focus t (.up rp isL isR csL csR hL hR c) (.node r (A ++ x :: B) (C ++ D)))
    (hA : (A ++ x :: B).length / 2 = A.length) (hC : C.length = A.length + 1) :
    ∃ t', splitInternal rec t r
        = (if ((isL ++ x :: isR).length : Int) > t.degree - 1 then rec t' rp else .ok t') ∧
      Focus t' c (.node rp (isL ++ x :: isR)
        (csL ++ ([.node r A C, .node t.nodes.next B D] ++ csR))) ∧
      t'.items = t.items ∧ t'.degree = t.degree := by
  have hnode := h.node_inner
  have hup : Focus t c (.node rp (isL ++ isR)
      (csL ++ ([.node r (A ++ x :: B) (C ++ D)] ++ csR))) := h.up
  have hf := hup.rowFacts
  have hsub := map_ref_subset D
  have hnd := hf.nodup
  have hnot := hf.notMem
  have hal := hf.alloc
  have hrows := hf.rows
  simp only [List.flatMap_cons, List.flatMap_nil, LevelTree.refs_node, List.flatMap_append,
    List.append_nil] at hnd hnot hal
  simp only [cellsRow_cons, cellsRow_nil, List.append_nil, cells_node, cellsRow_append,
    holds_cons, holds_append, List.flatMap_nil, List.nil_append] at hrows
  have hsplit : splitInternal rec t r = insertChild rec
      (((t.allocNode (nodeRec B (D.map LevelTree.ref) (some rp))).setNode r
        (nodeRec A (C.map LevelTree.ref) (some rp))).setParents (D.map LevelTree.ref)
          t.nodes.next) rp r x t.nodes.next := by
    have h1 : sliceFrom (A ++ x :: B) (A.length + 1) = .ok B := by
      have := sliceFrom_append (A ++ [x]) B
      simpa using this
    have h2 : sliceFrom (C.map LevelTree.ref ++ D.map LevelTree.ref) (A.length + 1)
        = .ok (D.map LevelTree.ref) := by
      have := sliceFrom_append (C.map LevelTree.ref) (D.map LevelTree.ref)
      simpa [hC] using this
    have h3 : (C.map LevelTree.ref ++ D.map LevelTree.ref).take (A.length + 1)
        = C.map LevelTree.ref := List.take_left' (by simpa using hC)
    simp only [splitInternal, hnode, nodeRec, hA, List.map_append, index_append, h1, h2, h3,
      List.take_left, Ctx.parent]
    rfl
  obtain ⟨hCr, hDr, _, hndD⟩ := nodup_cons_append hnd
  simp only [List.mem_cons, List.mem_append, not_or] at hnot
  obtain ⟨hrp, hrpC, hrpD⟩ := hnot
  have hnext : rp ≠ t.nodes.next := Nat.ne_of_lt hf.allocNode
  have hnext' : t.nodes.next ≠ r := (Nat.ne_of_lt (hal r List.mem_cons_self)).symm
  have hCfacts : ∀ y ∈ C.flatMap LevelTree.refs, y ≠ rp ∧ y ≠ t.nodes.next := by
    intro y hy
    have hlt := hal y (by simp only [List.mem_cons, List.mem_append, hy]; tauto)
    exact ⟨fun he => hrpC (he ▸ hy), Nat.ne_of_lt hlt⟩
  have hDfacts : ∀ y ∈ D.flatMap LevelTree.refs, y ≠ rp ∧ y ≠ t.nodes.next := by
    intro y hy
    have hlt := hal y (by simp only [List.mem_cons, List.mem_append, hy]; tauto)
    exact ⟨fun he => hrpD (he ▸ hy), Nat.ne_of_lt hlt⟩
  have hrpDm : rp ∉ D.map LevelTree.ref := fun hm => hrpD (hsub _ hm)
  have hrDm : r ∉ D.map LevelTree.ref := fun hm => hDr _ (hsub _ hm) rfl
  have hnextD : t.nodes.next ∉ D.map LevelTree.ref := fun hm => (hDfacts _ (hsub _ hm)).2 rfl
  have hpar : ((((t.allocNode (nodeRec B (D.map LevelTree.ref) (some rp))).setNode r
        (nodeRec A (C.map LevelTree.ref) (some rp))).setParents (D.map LevelTree.ref)
          t.nodes.next)).node rp
      = nodeRec (isL ++ isR) (csL.map LevelTree.ref ++ r :: csR.map LevelTree.ref) c.parent := by
    simpa [hrp, hnext, hrpDm] using hf.node
  rw [hsplit, insertChild_eq rec hpar h.notMem_left (by simpa using hL), setParents_degree,
    setNode_degree, allocNode_degree]
  refine ⟨_, rfl, ?_, by simp, by simp⟩
  refine hup.replaceRow [t.nodes.next] (by simp) ?_ ?_ ?_ ?_ ?_ (by simp) (by simp) (by simp)
  · simp
  · simp only [cellsRow_cons, cellsRow_nil, cells_node, List.append_nil, holds_append, holds_cons,
      List.flatMap_nil, List.flatMap_cons, List.nil_append, LevelTree.leafRefs_node]
    refine ⟨⟨?_, ?_⟩, ?_, ?_⟩
    · simp [Ne.symm hrp, hrDm]
    · -- the children that stay
      refine hrows.2.1.frame ?_
      rw [map_fst_cellsRow]
      intro y hy
      have hyD : y ∉ D.map LevelTree.ref := fun hm => (hCr y hy).2 (hsub y hm)
      simp [hyD, hCfacts y hy, hCr y hy]
    · simp [hnext.symm, hnextD, hnext']
    · -- the children that move
      refine holds_cellsRow_reparent _ hrows.2.2 hndD ?_
      intro y hy
      simp [hDfacts y hy, hDr y hy]
  · simp [List.flatMap_append]
  · intro y hy hyM hyn
    simp only [List.flatMap_cons, List.flatMap_nil, LevelTree.refs_node, List.flatMap_append,
      List.append_nil, List.mem_cons, List.mem_append, not_or] at hyM
    have hyD : y ∉ D.map LevelTree.ref := fun hm => hyM.2.2 (hsub y hm)
    simp [hy, hyD, hyM.1, Nat.ne_of_lt hyn]
  · simp only [List.flatMap_cons, List.flatMap_nil, LevelTree.refs_node, List.flatMap_append,
      List.append_nil, List.cons_append, List.nil_append]
    refine List.Perm.subperm ?_
    refine (List.Perm.cons _ List.perm_middle).trans ?_
    exact List.Perm.swap _ _ _

/-! ## Borrowing -/

theorem borrowFromLeftSibling_leaf {t : BTreeIndex S} {c : Ctx Ref 1} {rp x y ra rb : Ref}
    {isL isR A B : List Ref} {csL csR : List (LevelTree Ref 0)}
    (h : Focus t c (.node rp (isL ++ x :: isR)
      (csL ++ ([.leaf ra (A ++ [y]), .leaf rb B] ++ csR)))) :
    ∃ t', borrowFromLeftSibling t rb ra isL.length = .ok t' ∧
      Focus t' c (.node rp (isL ++ y :: isR) (csL ++ ([.leaf ra A, .leaf rb (y :: B)] ++ csR))) ∧
      t'.root = t.root ∧ t'.items = t.items ∧ t'.degree = t.degree := by
  have hf := h.rowFacts
  have hnd := hf.nodup
  have hnot := hf.notMem
  have hrows := hf.rows
  simp only [List.flatMap_cons, List.flatMap_nil, LevelTree.refs_leaf, List.singleton_append,
    List.nodup_cons, List.mem_cons, List.not_mem_nil, or_false, not_or] at hnd hnot
  simp only [cellsRow_cons, cellsRow_nil, List.append_nil, cells_leaf, holds_append, holds_cons,
    holds_nil, and_true] at hrows
  obtain ⟨ha, hb⟩ := hrows
  obtain ⟨hpa, hpb⟩ := hnot
  have hab : ra ≠ rb := hnd.1
  have hp := hf.node
  have hlast : index (A ++ [y]) ((A ++ [y]).length - 1) = .ok y := by
    simp
  have hrun : borrowFromLeftSibling t rb ra isL.length = .ok
      (((t.setNode ra { t.node ra with items := A }).setNode rb
        { t.node rb with items := y :: B }).setNode rp
          { t.node rp with items := isL ++ y :: isR }) := by
    simp only [borrowFromLeftSibling, ha, hb, hp, leafRec, nodeRec, deref_some, bind, Except.bind,
      if_true, hlast, setNode_node, if_neg hab.symm, if_neg hpa, if_neg hpb, setAt_append]
    simp [index]
    rfl
  refine ⟨_, hrun, h.replaceRow [] rfl ?_ ?_ rfl ?_ (List.Subperm.refl _) (by simp) (by simp)
    (Nat.le_refl _), rfl, rfl, rfl⟩
  · simp [hp, nodeRec]
  · simp [Ne.symm hpa, Ne.symm hpb, hab, ha, hb, leafRec]
  · intro z hz hzM _
    simp only [List.flatMap_cons, List.flatMap_nil, LevelTree.refs_leaf, List.singleton_append,
      List.mem_cons, List.not_mem_nil, or_false, not_or] at hzM
    simp [hz, hzM]

theorem borrowFromRightSibling_leaf {t : BTreeIndex S} {c : Ctx Ref 1} {rp x y z ra rb : Ref}
    {isL isR A B : List Ref} {csL csR : List (LevelTree Ref 0)}
    (h : Focus t c (.node rp (isL ++ x :: isR)
      (csL ++ ([.leaf ra A, .leaf rb (y :: z :: B)] ++ csR)))) :
    ∃ t', borrowFromRightSibling t ra rb isL.length = .ok t' ∧
      Focus t' c (.node rp (isL ++ z :: isR)
        (csL ++ ([.leaf ra (A ++ [y]), .leaf rb (z :: B)] ++ csR))) ∧
      t'.root = t.root ∧ t'.items = t.items ∧ t'.degree = t.degree := by
  have hf := h.rowFacts
  have hnd := hf.nodup
  have hnot := hf.notMem
  have hrows := hf.rows
  simp only [List.flatMap_cons, List.flatMap_nil, LevelTree.refs_leaf, List.singleton_append,
    List.nodup_cons, List.mem_cons, List.not_mem_nil, or_false, not_or] at hnd hnot
  simp only [cellsRow_cons, cellsRow_nil, List.append_nil, cells_leaf, holds_append, holds_cons,
    holds_nil, and_true] at hrows
  obtain ⟨ha, hb⟩ := hrows
  obtain ⟨hpa, hpb⟩ := hnot
  have hab : ra ≠ rb := hnd.1
  have hp := hf.node
  have hfirst : index (y :: z :: B) 0 = .ok y := rfl
  have hrest : sliceFrom (y :: z :: B) 1 = .ok (z :: B) := sliceFrom_append [y] (z :: B)
  have hrun : borrowFromRightSibling t ra rb isL.length = .ok
      (((t.setNode rb { t.node rb with items := z :: B }).setNode ra
        { t.node ra with items := A ++ [y] }).setNode rp
          { t.node rp with items := isL ++ z :: isR }) := by
    simp only [borrowFromRightSibling, ha, hb, hp, leafRec, nodeRec, deref_some, bind,
      Except.bind, if_true, hfirst, hrest, setNode_node, if_neg hab, if_neg hpa, if_neg hpb,
      setAt_append]
    rfl
  refine ⟨_, hrun, h.replaceRow [] rfl ?_ ?_ rfl ?_ (List.Subperm.refl _) (by simp) (by simp)
    (Nat.le_refl _), rfl, rfl, rfl⟩
  · simp [hp, nodeRec]
  · simp [Ne.symm hpa, Ne.symm hpb, Ne.symm hab, ha, hb, leafRec]
  · intro w hw hwM _
    simp only [List.flatMap_cons, List.flatMap_nil, LevelTree.refs_leaf, List.singleton_append,
      List.mem_cons, List.not_mem_nil, or_false, not_or] at hwM
    simp [hw, hwM]

/-- The references of two neighbouring nodes and of the children below
them are apart from one another. -/
theorem nodup_pair {ra rb : Ref} {X Y : List Ref} (h : (ra :: (X ++ rb :: Y)).Nodup) :
    ra ≠ rb ∧ (∀ y ∈ X, y ≠ ra ∧ y ≠ rb ∧ y ∉ Y) ∧ (∀ y ∈ Y, y ≠ ra ∧ y ≠ rb) ∧
      X.Nodup ∧ Y.Nodup := by
  rw [List.nodup_cons, List.nodup_append, List.nodup_cons] at h
  simp only [List.mem_append, List.mem_cons, not_or] at h
  obtain ⟨⟨haX, hab, haY⟩, hX, ⟨hbY, hY⟩, hXY⟩ := h
  refine ⟨hab, fun y hy => ⟨?_, ?_, ?_⟩, fun y hy => ⟨?_, ?_⟩, hX, hY⟩
  · rintro rfl
    exact haX hy
  · exact hXY y hy rb (Or.inl rfl)
  · intro hy'
    exact hXY y hy y (Or.inr hy') rfl
  · rintro rfl
    exact haY hy
  · rintro rfl
    exact hbY hy

theorem borrowFromLeftSibling_node {n : Nat} {t : BTreeIndex S} {c : Ctx Ref (n + 2)}
    {rp x y ra rb : Ref} {isL isR A B : List Ref} {csL csR : List (LevelTree Ref (n + 1))}
    {C D : List (LevelTree Ref n)} {d : LevelTree Ref n}
    (h : Focus t c (.node rp (isL ++ x :: isR)
      (csL ++ ([.node ra (A ++ [y]) (C ++ [d]), .node rb B D] ++ csR)))) :
    ∃ t', borrowFromLeftSibling t rb ra isL.length = .ok t' ∧
      Focus t' c (.node rp (isL ++ y :: isR)
        (csL ++ ([.node ra A C, .node rb (x :: B) (d :: D)] ++ csR))) ∧
      t'.root = t.root ∧ t'.items = t.items ∧ t'.degree = t.degree := by
  have hf := h.rowFacts
  have hnd := hf.nodup
  have hnot := hf.notMem
  have hrows := hf.rows
  have hp := hf.node
  simp only [List.flatMap_cons, List.flatMap_nil, LevelTree.refs_node, List.flatMap_append,
    List.append_nil, List.cons_append, List.append_assoc] at hnd hnot
  rw [← List.append_assoc] at hnd
  simp only [cellsRow_cons, cellsRow_nil, List.append_nil, cells_node, cellsRow_append,
    holds_append, holds_cons, List.flatMap_cons, List.flatMap_nil, List.nil_append,
    LevelTree.leafRefs_node] at hrows
  simp only [List.mem_cons, List.mem_append, not_or] at hnot
  obtain ⟨⟨ha, hCrow, hdcell⟩, hb, hDrow⟩ := hrows
  obtain ⟨hpa, hpC, hpd, hpb, hpD⟩ := hnot
  obtain ⟨hab, hX, hY, hndX, _⟩ := nodup_pair hnd
  obtain ⟨_, hndd, hCd⟩ := List.nodup_append.mp hndX
  have hdr := d.ref_mem_refs
  obtain ⟨hda, hdb, hdD⟩ := hX d.ref (List.mem_append_right _ hdr)
  have hdp : d.ref ≠ rp := fun he => hpd (he ▸ hdr)
  have hitem : index (A ++ [y]) ((A ++ [y]).length - 1) = .ok y := by
    simp
  have hchild : index ((C ++ [d]).map LevelTree.ref) (((C ++ [d]).map LevelTree.ref).length - 1)
      = .ok d.ref := by
    simpa using index_append (C.map LevelTree.ref) d.ref []
  have hrun : borrowFromLeftSibling t rb ra isL.length = .ok
      ((((t.setNode ra { t.node ra with items := A, children := C.map LevelTree.ref }).setNode rb
        { t.node rb with items := x :: B, children := d.ref :: D.map LevelTree.ref }).setNode d.ref
          { t.node d.ref with parent := some rb }).setNode rp
            { t.node rp with items := isL ++ y :: isR }) := by
    simp only [borrowFromLeftSibling, ha, hb, hp, nodeRec, deref_some, bind, Except.bind,
      index_append, hitem, hchild, setNode_node, if_neg hab.symm, if_neg hpa, if_neg hpb,
      if_neg hda, if_neg hdb, if_neg (Ne.symm hdp), setAt_append]
    simp
    rfl
  refine ⟨_, hrun, h.replaceRow [] rfl ?_ ?_ ?_ ?_ ?_ (by simp) (by simp) (Nat.le_refl _),
    rfl, rfl, rfl⟩
  · simp [hp, nodeRec]
  · simp only [cellsRow_cons, cellsRow_nil, cells_node, List.append_nil, holds_append, holds_cons,
      List.flatMap_nil, List.flatMap_cons, List.nil_append, LevelTree.leafRefs_node,
      List.append_assoc]
    refine ⟨⟨?_, ?_⟩, ?_, ?_, ?_⟩
    · simp [Ne.symm hpa, Ne.symm hda, hab, ha, nodeRec]
    · refine hCrow.frame ?_
      rw [map_fst_cellsRow]
      intro w hw
      have hwp : w ≠ rp := fun he => hpC (he ▸ hw)
      have hwd : w ≠ d.ref := fun he => hCd w hw d.ref hdr he
      simp [hwp, hwd, hX w (List.mem_append_left _ hw)]
    · simp [Ne.symm hpb, Ne.symm hdb, hb, nodeRec]
    · refine holds_cells_reparent _ hdcell hndd ?_ ?_
      · simp [hdp]
      · intro w hw hwd
        have hwp : w ≠ rp := fun he => hpd (he ▸ hw)
        simp [hwp, hwd, hX w (List.mem_append_right _ hw)]
    · refine hDrow.frame ?_
      rw [map_fst_cellsRow]
      intro w hw
      have hwp : w ≠ rp := fun he => hpD (he ▸ hw)
      have hwd : w ≠ d.ref := fun he => hdD (he ▸ hw)
      simp [hwp, hwd, hY w hw]
  · simp [List.flatMap_append]
  · intro w hw hwM _
    simp only [List.flatMap_cons, List.flatMap_nil, LevelTree.refs_node, List.flatMap_append,
      List.append_nil, List.cons_append, List.append_assoc, List.mem_cons, List.mem_append,
      not_or] at hwM
    have hwd : w ≠ d.ref := fun he => hwM.2.2.1 (he ▸ hdr)
    simp [hw, hwM, hwd]
  · simp only [List.flatMap_cons, List.flatMap_nil, LevelTree.refs_node, List.flatMap_append,
      List.append_nil, List.cons_append, List.append_assoc, List.nil_append]
    refine List.Perm.subperm (List.Perm.cons _ (List.Perm.append_left _ ?_))
    exact List.perm_middle.symm

theorem borrowFromRightSibling_node {n : Nat} {t : BTreeIndex S} {c : Ctx Ref (n + 2)}
    {rp x y ra rb : Ref} {isL isR A B : List Ref} {csL csR : List (LevelTree Ref (n + 1))}
    {C D : List (LevelTree Ref n)} {d : LevelTree Ref n}
    (h : Focus t c (.node rp (isL ++ x :: isR)
      (csL ++ ([.node ra A C, .node rb (y :: B) (d :: D)] ++ csR)))) :
    ∃ t', borrowFromRightSibling t ra rb isL.length = .ok t' ∧
      Focus t' c (.node rp (isL ++ y :: isR)
        (csL ++ ([.node ra (A ++ [x]) (C ++ [d]), .node rb B D] ++ csR))) ∧
      t'.root = t.root ∧ t'.items = t.items ∧ t'.degree = t.degree := by
  have hf := h.rowFacts
  have hnd := hf.nodup
  have hnot := hf.notMem
  have hrows := hf.rows
  have hp := hf.node
  simp only [List.flatMap_cons, List.flatMap_nil, LevelTree.refs_node, List.append_nil,
    List.cons_append] at hnd hnot
  simp only [cellsRow_cons, cellsRow_nil, List.append_nil, cells_node, holds_append, holds_cons,
    List.flatMap_cons, List.flatMap_nil, List.nil_append, LevelTree.leafRefs_node,
    List.append_assoc] at hrows
  simp only [List.mem_cons, List.mem_append, not_or] at hnot
  obtain ⟨⟨ha, hCrow⟩, hb, hdcell, hDrow⟩ := hrows
  obtain ⟨hpa, hpC, hpb, hpd, hpD⟩ := hnot
  obtain ⟨hab, hX, hY, _, hndY⟩ := nodup_pair hnd
  obtain ⟨hndd, _, hdD⟩ := List.nodup_append.mp hndY
  have hdr := d.ref_mem_refs
  obtain ⟨hda, hdb⟩ := hY d.ref (List.mem_append_left _ hdr)
  have hdp : d.ref ≠ rp := fun he => hpd (he ▸ hdr)
  have hitem : index (y :: B) 0 = .ok y := rfl
  have hchild : index (d.ref :: D.map LevelTree.ref) 0 = .ok d.ref := rfl
  have hitems : sliceFrom (y :: B) 1 = .ok B := sliceFrom_append [y] B
  have hchildren : sliceFrom (d.ref :: D.map LevelTree.ref) 1 = .ok (D.map LevelTree.ref) :=
    sliceFrom_append [d.ref] _
  have hrun : borrowFromRightSibling t ra rb isL.length = .ok
      ((((t.setNode rb { t.node rb with items := B, children := D.map LevelTree.ref }).setNode ra
        { t.node ra with items := A ++ [x], children := C.map LevelTree.ref ++ [d.ref] }).setNode
          d.ref { t.node d.ref with parent := some ra }).setNode rp
            { t.node rp with items := isL ++ y :: isR }) := by
    simp only [borrowFromRightSibling, ha, hb, hp, nodeRec, List.map_cons, deref_some, bind,
      Except.bind, index_append, hitem, hchild, hitems, hchildren, setNode_node, if_neg hab,
      if_neg hpa, if_neg hpb, if_neg hda, if_neg hdb, if_neg (Ne.symm hdp), setAt_append]
    rfl
  refine ⟨_, hrun, h.replaceRow [] rfl ?_ ?_ ?_ ?_ ?_ (by simp) (by simp) (Nat.le_refl _),
    rfl, rfl, rfl⟩
  · simp [hp, nodeRec]
  · simp only [cellsRow_cons, cellsRow_nil, cells_node, List.append_nil, holds_append, holds_cons,
      List.flatMap_nil, List.flatMap_cons, List.nil_append, LevelTree.leafRefs_node,
      cellsRow_append]
    refine ⟨⟨?_, ?_, ?_⟩, ?_, ?_⟩
    · simp [Ne.symm hpa, Ne.symm hda, ha, nodeRec]
    · refine hCrow.frame ?_
      rw [map_fst_cellsRow]
      intro w hw
      have hwp : w ≠ rp := fun he => hpC (he ▸ hw)
      have hwd : w ≠ d.ref := fun he => (hX w hw).2.2 (he ▸ List.mem_append_left _ hdr)
      simp [hwp, hwd, (hX w hw).1, (hX w hw).2.1]
    · refine holds_cells_reparent _ hdcell hndd ?_ ?_
      · simp [hdp]
      · intro w hw hwd
        have hwp : w ≠ rp := fun he => hpd (he ▸ hw)
        simp [hwp, hwd, hY w (List.mem_append_left _ hw)]
    · simp [Ne.symm hpb, Ne.symm hdb, Ne.symm hab, hb, nodeRec]
    · refine hDrow.frame ?_
      rw [map_fst_cellsRow]
      intro w hw
      have hwp : w ≠ rp := fun he => hpD (he ▸ hw)
      have hwd : w ≠ d.ref := fun he => hdD d.ref hdr w hw he.symm
      simp [hwp, hwd, hY w (List.mem_append_right _ hw)]
  · simp [List.flatMap_append]
  · intro w hw hwM _
    simp only [List.flatMap_cons, List.flatMap_nil, LevelTree.refs_node, List.append_nil,
      List.cons_append, List.mem_cons, List.mem_append, not_or] at hwM
    have hwd : w ≠ d.ref := fun he => hwM.2.2.2.1 (he ▸ hdr)
    simp [hw, hwM, hwd]
  · simp only [List.flatMap_cons, List.flatMap_nil, LevelTree.refs_node, List.flatMap_append,
      List.append_nil, List.cons_append, List.append_assoc, List.nil_append]
    refine List.Perm.subperm (List.Perm.cons _ (List.Perm.append_left _ ?_))
    exact List.perm_middle

/-! ## Merging -/

theorem mergeSiblings_leaf {t : BTreeIndex S} {c : Ctx Ref 1} {rp x ra rb node : Ref}
    {isL isR A B : List Ref} {csL csR : List (LevelTree Ref 0)}
    (rec : BTreeIndex S → Ref → Except Fault (BTreeIndex S)) (hL : isL.length = csL.length)
    (hnode : node = ra ∨ node = rb)
    (h : Focus t c (.node rp (isL ++ x :: isR) (csL ++ ([.leaf ra A, .leaf rb B] ++ csR)))) :
    ∃ t', mergeSiblings rec t node ra rb isL.length = checkParent rec t' rp ∧
      Focus t' c (.node rp (isL ++ isR) (csL ++ ([.leaf ra (A ++ B)] ++ csR))) ∧
      t'.items = t.items ∧ t'.degree = t.degree := by
  have hf := h.rowFacts
  have hnd := hf.nodup
  have hnot := hf.notMem
  have hrows := hf.rows
  have hp := hf.node
  simp only [List.flatMap_cons, List.flatMap_nil, LevelTree.refs_leaf, List.singleton_append,
    List.nodup_cons, List.mem_cons, List.not_mem_nil, or_false, not_or] at hnd hnot
  simp only [cellsRow_cons, cellsRow_nil, List.append_nil, cells_leaf, holds_append, holds_cons,
    holds_nil, and_true] at hrows
  obtain ⟨ha, hb⟩ := hrows
  obtain ⟨hpa, hpb⟩ := hnot
  have hab : ra ≠ rb := hnd.1
  have hpar : (t.node node).parent = some rp := by
    rcases hnode with rfl | rfl
    · rw [ha]; rfl
    · rw [hb]; rfl
  have hleaf : (t.node node).isLeaf = true := by
    rcases hnode with rfl | rfl
    · rw [ha]; rfl
    · rw [hb]; rfl
  have hchildren : removeAt ((csL ++ ([LevelTree.leaf ra A, .leaf rb B] ++ csR)).map LevelTree.ref)
      (isL.length + 1) = .ok (csL.map LevelTree.ref ++ ra :: csR.map LevelTree.ref) := by
    have := removeAt_append (csL.map LevelTree.ref ++ [ra]) rb (csR.map LevelTree.ref)
    simpa [hL] using this
  have hrun : mergeSiblings rec t node ra rb isL.length = checkParent rec
      ((t.setNode ra { t.node ra with items := A ++ B, next := (t.node rb).next }).setNode rp
        { t.node rp with items := isL ++ isR
                         children := csL.map LevelTree.ref ++ ra :: csR.map LevelTree.ref }) rp := by
    simp only [mergeSiblings, hpar, hleaf, ha, hb, hp, leafRec, nodeRec, deref_some, bind,
      Except.bind, if_true, pure, Except.pure, setNode_node, if_neg hpa, removeAt_append,
      hchildren]
  refine ⟨_, hrun, h.replaceRow [] rfl ?_ ?_ rfl ?_ ?_ (by simp) (by simp) (Nat.le_refl _),
    rfl, rfl⟩
  · simp [hp, nodeRec]
  · simp [Ne.symm hpa, ha, hb, leafRec]
  · intro w hw hwM _
    simp only [List.flatMap_cons, List.flatMap_nil, LevelTree.refs_leaf, List.singleton_append,
      List.mem_cons, List.not_mem_nil, or_false, not_or] at hwM
    simp [hw, hwM]
  · exact (List.Sublist.cons_cons ra (List.nil_sublist [rb])).subperm

theorem mergeSiblings_node {n : Nat} {t : BTreeIndex S} {c : Ctx Ref (n + 2)}
    {rp x ra rb node : Ref} {isL isR A B : List Ref} {csL csR : List (LevelTree Ref (n + 1))}
    {C D : List (LevelTree Ref n)}
    (rec : BTreeIndex S → Ref → Except Fault (BTreeIndex S)) (hL : isL.length = csL.length)
    (hnode : node = ra ∨ node = rb)
    (h : Focus t c (.node rp (isL ++ x :: isR) (csL ++ ([.node ra A C, .node rb B D] ++ csR)))) :
    ∃ t', mergeSiblings rec t node ra rb isL.length = checkParent rec t' rp ∧
      Focus t' c (.node rp (isL ++ isR) (csL ++ ([.node ra (A ++ x :: B) (C ++ D)] ++ csR))) ∧
      t'.items = t.items ∧ t'.degree = t.degree := by
  have hf := h.rowFacts
  have hnd := hf.nodup
  have hnot := hf.notMem
  have hrows := hf.rows
  have hp := hf.node
  have hsub := map_ref_subset D
  simp only [List.flatMap_cons, List.flatMap_nil, LevelTree.refs_node, List.append_nil,
    List.cons_append] at hnd hnot
  simp only [cellsRow_cons, cellsRow_nil, List.append_nil, cells_node, holds_append, holds_cons,
    List.flatMap_cons, List.flatMap_nil, List.nil_append, LevelTree.leafRefs_node] at hrows
  simp only [List.mem_cons, List.mem_append, not_or] at hnot
  obtain ⟨⟨ha, hCrow⟩, hb, hDrow⟩ := hrows
  obtain ⟨hpa, hpC, hpb, hpD⟩ := hnot
  obtain ⟨hab, hX, hY, _, hndY⟩ := nodup_pair hnd
  have hpar : (t.node node).parent = some rp := by
    rcases hnode with rfl | rfl
    · rw [ha]; rfl
    · rw [hb]; rfl
  have hleaf : (t.node node).isLeaf = false := by
    rcases hnode with rfl | rfl
    · rw [ha]; rfl
    · rw [hb]; rfl
  have hpD' : rp ∉ D.map LevelTree.ref := fun hm => hpD (hsub _ hm)
  have haD : ra ∉ D.map LevelTree.ref := fun hm => (hY _ (hsub _ hm)).1 rfl
  have hchildren : removeAt ((csL ++ ([LevelTree.node ra A C, .node rb B D] ++ csR)).map
      LevelTree.ref) (isL.length + 1) = .ok (csL.map LevelTree.ref ++ ra :: csR.map LevelTree.ref) := by
    have := removeAt_append (csL.map LevelTree.ref ++ [ra]) rb (csR.map LevelTree.ref)
    simpa [hL] using this
  have hrun : mergeSiblings rec t node ra rb isL.length = checkParent rec
      (((t.setNode ra { t.node ra with
          items := A ++ x :: B, children := C.map LevelTree.ref ++ D.map LevelTree.ref }).setParents
            (D.map LevelTree.ref) ra).setNode rp
        { t.node rp with items := isL ++ isR
                         children := csL.map LevelTree.ref ++ ra :: csR.map LevelTree.ref }) rp := by
    simp only [mergeSiblings, hpar, hleaf, ha, hb, hp, nodeRec, deref_some, bind, Except.bind,
      pure, Except.pure, index_append, setNode_node, setParents_node, if_neg hpa, if_neg hpD',
      removeAt_append, hchildren]
    rfl
  refine ⟨_, hrun, h.replaceRow [] (by simp) ?_ ?_ ?_ ?_ ?_ (by simp) (by simp) (by simp),
    by simp, by simp⟩
  · simp [hp, nodeRec]
  · simp only [cellsRow_cons, cellsRow_nil, cells_node, List.append_nil, holds_append, holds_cons,
      List.flatMap_nil, List.nil_append, cellsRow_append]
    refine ⟨?_, ?_, ?_⟩
    · simp [Ne.symm hpa, haD, ha, nodeRec]
    · refine hCrow.frame ?_
      rw [map_fst_cellsRow]
      intro w hw
      have hwp : w ≠ rp := fun he => hpC (he ▸ hw)
      have hwD : w ∉ D.map LevelTree.ref := fun hm => (hX w hw).2.2 (hsub _ hm)
      simp [hwp, hwD, (hX w hw).1]
    · refine holds_cellsRow_reparent _ hDrow hndY ?_
      intro w hw
      have hwp : w ≠ rp := fun he => hpD (he ▸ hw)
      simp [hwp, hY w hw]
  · simp [List.flatMap_append]
  · intro w hw hwM _
    simp only [List.flatMap_cons, List.flatMap_nil, LevelTree.refs_node, List.append_nil,
      List.cons_append, List.mem_cons, List.mem_append, not_or] at hwM
    have hwD : w ∉ D.map LevelTree.ref := fun hm => hwM.2.2.2 (hsub _ hm)
    simp [hw, hwM.1, hwD]
  · simp only [List.flatMap_cons, List.flatMap_nil, LevelTree.refs_node, List.flatMap_append,
      List.append_nil, List.cons_append, List.nil_append]
    refine List.Sublist.subperm (List.Sublist.cons_cons _ (List.Sublist.append_left ?_ _))
    exact List.sublist_cons_self _ _

end BTreeIndex

end RediGo.SortedSet
