/-
RediGo.SortedSet.BTreeOrder — the stored items of a B+ tree index as one
list, and what `Add` and `RemoveByScore` do to this list while the
separators and items are ordered by score.

`Indexed d ri t T` adds the score order to `WellFormed`; `ri` is `≤`
where ties may be stored and `<` where they may not. `view` is the list
of items in the leaves. Under `Indexed`:

* `Add` of a member not stored enters one item (`add_indexed`). It goes
  behind the stranded items of its score, whatever their members;
* `RemoveByScore` of a stored item takes it out, unless it is stranded:
  then nothing is found (`removeByScore_indexed`).

`entries` and `Stranded` are the same notions for a reader of the heap;
`WellFormed` makes them agree.
-/
import RediGo.SortedSet.BTreeShape

namespace RediGo.SortedSet

open RediGo.Lib RediGo.Go

variable {S : Type}

section ItemOrder

variable [LinearOrder S]

/-- The order within a leaf: by score, then by member. -/
def Item.Precedes (i j : Item S) : Prop :=
  i.score < j.score ∨ (i.score = j.score ∧ i.member < j.member)

theorem Item.compareTo_pos_iff (i j : Item S) : i.compareTo j > 0 ↔ Item.Precedes j i := by
  unfold Item.compareTo Item.Precedes
  rcases lt_trichotomy i.score j.score with hlt | heq | hgt
  · simp [hlt, hlt.not_gt, hlt.ne']
  · rcases lt_trichotomy i.member j.member with hlt' | heq' | hgt'
    · simp [heq, hlt', hlt'.not_gt]
    · simp [heq, heq']
    · simp [heq, hgt', hgt'.not_gt]
  · simp [hgt, hgt.not_gt]

theorem Item.Precedes.trans {i j k : Item S} (hij : Item.Precedes i j)
    (hjk : Item.Precedes j k) : Item.Precedes i k := by
  rcases hij with h1 | ⟨h1, h2⟩
  · rcases hjk with h3 | ⟨h3, -⟩
    · exact Or.inl (h1.trans h3)
    · exact Or.inl (h3 ▸ h1)
  · rcases hjk with h3 | ⟨h3, h4⟩
    · exact Or.inl (h1 ▸ h3)
    · exact Or.inr ⟨h1.trans h3, h2.trans h4⟩

/-- Two items of different members are ordered one way or the other. -/
theorem Item.precedes_of_not {i j : Item S} (h : ¬ Item.Precedes j i)
    (hne : i.member ≠ j.member) : Item.Precedes i j := by
  unfold Item.Precedes at h ⊢
  rw [not_or, not_lt] at h
  obtain ⟨hle, hnot⟩ := h
  rcases lt_or_eq_of_le hle with hlt | heq
  · exact Or.inl hlt
  · rcases lt_or_gt_of_ne hne with hlt | hgt
    · exact Or.inr ⟨heq, hlt⟩
    · exact absurd ⟨heq.symm, hgt⟩ hnot

end ItemOrder

namespace BTreeIndex

/-! ## Reading the heap -/

/-- The items in the leaves, left to right. -/
def entries (t : BTreeIndex S) : Except Fault (List (Item S)) := do
  let l ← t.leaves t.fuel t.root
  pure ((l.flatMap (fun r => (t.node r).items)).map t.item)

/-- Leaf items and separators below a node, in the order a search meets
them. -/
def inorder (t : BTreeIndex S) : Nat → Ref → Except Fault (List (Mark Ref))
  | 0, _ => .error .fuel
  | fuel + 1, node =>
      if (t.node node).isLeaf then .ok ((t.node node).items.map .item)
      else do
        let parts ← (t.node node).children.mapM (t.inorder fuel)
        pure (weave parts (t.node node).items)

/-- The item `i` is stored where a descent by its score does not lead: a
separator of the same score stands to its right. -/
def Stranded (t : BTreeIndex S) (i : Item S) : Prop :=
  ∃ M r, t.inorder t.fuel t.root = .ok M ∧ t.item r = i ∧ Lib.Stranded t.scoreOf M r

theorem stranded_iff_mem {t : BTreeIndex S} {M : List (Mark Ref)}
    (hM : t.inorder t.fuel t.root = .ok M) (i : Item S) :
    t.Stranded i ↔ ∃ m ∈ M, t.item m.val = i ∧ Lib.Stranded t.scoreOf M m.val := by
  constructor
  · rintro ⟨M', r, hM', hr, hs⟩
    rw [hM] at hM'
    cases hM'
    obtain ⟨X, Y, hXY, -⟩ := id hs
    exact ⟨.item r, by simp [hXY], hr, hs⟩
  · rintro ⟨m, -, hr, hs⟩
    exact ⟨M, m.val, hM, hr, hs⟩

instance decidableStranded [LinearOrder S] (t : BTreeIndex S) (i : Item S) :
    Decidable (t.Stranded i) :=
  match hM : t.inorder t.fuel t.root with
  | .ok M => decidable_of_iff _ (stranded_iff_mem hM i).symm
  | .error _ => isFalse (by
      rintro ⟨M, r, hM', -⟩
      rw [hM] at hM'
      cases hM')

theorem inorder_eq {n : Nat} {t : BTreeIndex S} {p : Option Ref} {after : List Ref}
    {s : LevelTree Ref n} {fuel : Nat} (hh : Holds t.node (cells p after s)) (hfuel : n < fuel) :
    t.inorder fuel s.ref = .ok s.inorder := by
  refine reader_eq (f := t.inorder) (g := LevelTree.inorder) ?_ ?_ hh hfuel
  · intro fuel r is p next hr
    rw [inorder, hr]
    rfl
  · intro n fuel r is cs p hr hparts
    rw [inorder, hr]
    simp only [nodeRec, Bool.false_eq_true, if_false, hparts, bind, Except.bind]
    rfl

theorem Chained.flatMap_items {h : Ref → BTreeNode} {after : List Ref} :
    ∀ {L : List (Ref × List Ref)}, Chained h after L →
      (L.map Prod.fst).flatMap (fun r => (h r).items) = L.flatMap Prod.snd
  | [], _ => rfl
  | l :: L, hch => by
      obtain ⟨hitems, -, hrest⟩ := hch
      rw [List.map_cons, List.flatMap_cons, List.flatMap_cons, hitems, hrest.flatMap_items]

/-- The list of stored items of a represented tree. -/
def view (t : BTreeIndex S) (T : AnyTree Ref) : List (Item S) := T.2.leafItems.map t.item

section WellFormed

variable {d : Nat} {t : BTreeIndex S} {T : AnyTree Ref}

theorem WellFormed.entries_eq (h : WellFormed d t T) : t.entries = .ok (t.view T) := by
  have hch : Chained t.node [] (leafRow T.2) := chained_leafRow h.reps.holds
  have hflat := hch.flatMap_items
  rw [map_fst_leafRow, flatMap_snd_leafRow] at hflat
  simp only [entries, h.leaves_eq, bind, Except.bind, hflat]
  rfl

theorem WellFormed.stranded_iff (h : WellFormed d t T) (i : Item S) :
    t.Stranded i ↔ ∃ r, t.item r = i ∧ Lib.Stranded t.scoreOf T.2.inorder r := by
  have hM : t.inorder t.fuel t.root = .ok T.2.inorder := by
    rw [h.reps.root]
    exact inorder_eq h.reps.holds h.height_lt_fuel
  unfold Stranded
  rw [hM]
  constructor
  · rintro ⟨M, r, hMr, hr, hs⟩
    cases hMr
    exact ⟨r, hr, hs⟩
  · rintro ⟨r, hr, hs⟩
    exact ⟨_, r, rfl, hr, hs⟩

end WellFormed

/-! ## The score order -/

section Order

variable [LinearOrder S]

structure Indexed (d : Nat) (ri : S → S → Prop) (t : BTreeIndex S) (T : AnyTree Ref) : Prop
    extends WellFormed d t T where
  allocItems : ∀ m ∈ T.2.inorder, m.val < t.items.next
  sorted : Sorted t.scoreOf ri T

theorem indexed_new [Inhabited S] {d : Nat} {ri : S → S → Prop} :
    Indexed d ri (BTreeIndex.new (S := S) d) ⟨0, .leaf 0 []⟩ where
  toWellFormed := wellFormed_new
  allocItems := by simp
  sorted := by simp [Sorted]

theorem Indexed.leafItems_lt {d : Nat} {ri : S → S → Prop} {t : BTreeIndex S} {T : AnyTree Ref}
    (h : Indexed d ri t T) : ∀ x ∈ T.2.leafItems, x < t.items.next := by
  intro x hx
  rw [LevelTree.leafItems_eq_inorder, mem_filterMap_item] at hx
  exact h.allocItems (.item x) hx

omit [LinearOrder S] in
/-- The stored items of a tree cut at a leaf. -/
theorem leafItems_plug (c : Ctx Ref 0) (r : Ref) (is : List Ref) :
    (c.plug (.leaf r is)).2.leafItems
      = c.before.filterMap Mark.item? ++ (is ++ c.after.filterMap Mark.item?) := by
  rw [LevelTree.leafItems_eq_inorder, Ctx.inorder_plug]
  simp

omit [LinearOrder S] in
theorem inorder_plug_leaf (c : Ctx Ref 0) (r : Ref) (is : List Ref) :
    (c.plug (.leaf r is)).2.inorder = c.before ++ is.map Mark.item ++ c.after := by
  rw [Ctx.inorder_plug, LevelTree.inorder_leaf]

section Ops

variable {d : Nat} {ri : S → S → Prop} {t : BTreeIndex S} {T : AnyTree Ref}

omit [LinearOrder S] in
theorem mem_view_plug {c : Ctx Ref 0} {r : Ref} {is : List Ref} {i : Item S} :
    i ∈ t.view (c.plug (.leaf r is)) ↔
      (∃ x, .item x ∈ c.before ∧ t.item x = i) ∨ (∃ x ∈ is, t.item x = i) ∨
        ∃ x, .item x ∈ c.after ∧ t.item x = i := by
  rw [view, leafItems_plug]
  simp only [List.map_append, List.mem_append, List.mem_map, mem_filterMap_item]

/-- Where the stored items of score `score` stand, seen from the leaf the
score leads to. -/
theorem Indexed.stranded_plug (hri : ∀ a b, ri a b → a ≤ b) {c : Ctx Ref 0} {r : Ref}
    {is : List Ref} {score : S} (h : Indexed d ri t (c.plug (.leaf r is)))
    (hrouted : c.Routed t.scoreOf score) {i : Item S} (hi : i.score = score) :
    t.Stranded i ↔ ∃ x, .item x ∈ c.before ∧ t.item x = i := by
  have hs := h.sorted
  rw [Sorted, inorder_plug_leaf] at hs
  rw [h.toWellFormed.stranded_iff, inorder_plug_leaf]
  constructor
  · rintro ⟨x, hx, hstr⟩
    have hkey : t.scoreOf x = score := by rw [scoreOf, hx, hi]
    exact ⟨x, (hrouted.stranded_iff hri hkey hs).mp hstr, hx⟩
  · rintro ⟨x, hmem, hx⟩
    have hkey : t.scoreOf x = score := by rw [scoreOf, hx, hi]
    exact ⟨x, hx, (hrouted.stranded_iff hri hkey hs).mpr hmem⟩

/-- What `add_cases` leaves of the order: the state after a new item has
entered its leaf and the tree has been rebalanced. -/
theorem Indexed.insert (hri : ∀ a b, ri a b → a ≤ b) (hlt : ∀ a b, a < b → ri a b)
    {c : Ctx Ref 0} {r : Ref} {A B : List Ref} {i : Item S} {t' : BTreeIndex S}
    {T' : AnyTree Ref} (h : Indexed d ri t (c.plug (.leaf r (A ++ B))))
    (hrouted : c.Routed t.scoreOf i.score) (hA : ∀ x ∈ A, t.scoreOf x ≤ i.score)
    (hB : ∀ x ∈ B, i.score ≤ t.scoreOf x)
    (hties : (∀ a, ri a a) ∨ ∀ j ∈ t.view (c.plug (.leaf r (A ++ B))), j.score ≠ i.score)
    (hwf : WellFormed d t' T') (hitems : t'.items = t.items.alloc i)
    (hsteps : Rebalances (c.plug (.leaf r (A ++ t.items.next :: B))) T') :
    Indexed d ri t' T' := by
  have hold : ∀ x, x < t.items.next → t'.scoreOf x = t.scoreOf x := by
    intro x hx
    rw [scoreOf, scoreOf, item, item, hitems, Heap.alloc_get, if_neg (Nat.ne_of_lt hx)]
  have hnew : t'.scoreOf t.items.next = i.score := by
    rw [scoreOf, item, hitems, Heap.alloc_get, if_pos rfl]
  have halloc := h.allocItems
  have hs := h.sorted
  rw [inorder_plug_leaf] at halloc
  rw [Sorted, inorder_plug_leaf] at hs
  have hs' := hs
  rw [List.pairwise_append, List.pairwise_append] at hs'
  obtain ⟨⟨hbefore, -, -⟩, hafter, -⟩ := hs'
  have hkey : ∀ m ∈ c.before ++ (A ++ B).map Mark.item ++ c.after,
      t'.scoreOf m.val = t.scoreOf m.val := fun m hm => hold _ (halloc m hm)
  have hcongr : (c.before ++ (A ++ B).map Mark.item ++ c.after).Pairwise
      (Before t'.scoreOf ri) := by
    refine hs.imp_of_mem ?_
    intro m m' hm hm' hmm
    exact hmm.congr_key (hkey m hm) (hkey m' hm')
  have hsorted : Sorted t'.scoreOf ri (c.plug (.leaf r (A ++ t.items.next :: B))) := by
    rw [Sorted, inorder_plug_leaf]
    refine insert_sorted hlt hcongr hnew ?_ ?_ ?_ ?_ ?_
    · intro m hm
      rw [hkey m (by simp [hm])]
      exact hrouted.before_le hri hbefore m hm
    · intro m hm
      rw [hkey m (by simp [hm])]
      exact hrouted.lt_after hafter m hm
    · intro x hx
      have := hkey (.item x) (by simp [hx])
      rw [Mark.val_item] at this
      rw [this]
      exact hA x hx
    · intro x hx
      have := hkey (.item x) (by simp [hx])
      rw [Mark.val_item] at this
      rw [this]
      exact hB x hx
    · refine hties.imp_right ?_
      intro hne y hy
      have := hkey (.item y) hy
      rw [Mark.val_item] at this
      rw [this]
      refine hne (t.item y) ?_
      rw [mem_view_plug]
      simp only [List.mem_append, List.mem_map, Mark.item.injEq, exists_eq_right] at hy
      rcases hy with (hy | hy) | hy
      · exact Or.inl ⟨y, hy, rfl⟩
      · exact Or.inr (Or.inl ⟨y, List.mem_append.mpr hy, rfl⟩)
      · exact Or.inr (Or.inr ⟨y, hy, rfl⟩)
  refine { toWellFormed := hwf, allocItems := ?_, sorted := hsteps.sorted hri hsorted }
  intro m hm
  obtain ⟨m₀, hm₀, hv⟩ := hsteps.vals m hm
  rw [inorder_plug_leaf] at hm₀
  have hbound : m₀.val < t.items.next + 1 := by
    simp only [List.mem_append, List.mem_map, List.mem_cons] at hm₀
    rcases hm₀ with (hm₀ | ⟨x, hx | rfl | hx, rfl⟩) | hm₀
    · exact Nat.lt_succ_of_lt (halloc m₀ (by simp [hm₀]))
    · exact Nat.lt_succ_of_lt (halloc (.item x) (by simp [hx]))
    · exact Nat.lt_succ_self _
    · exact Nat.lt_succ_of_lt (halloc (.item x) (by simp [hx]))
    · exact Nat.lt_succ_of_lt (halloc m₀ (by simp [hm₀]))
  rw [← hv, hitems, Heap.alloc_next]
  exact hbound

omit [LinearOrder S] in
/-- The stored items after a new one has entered a leaf. -/
theorem view_insert {c : Ctx Ref 0} {r : Ref} {A B : List Ref} {i : Item S} {t' : BTreeIndex S}
    {T' : AnyTree Ref} (halloc : ∀ x ∈ (c.plug (.leaf r (A ++ B))).2.leafItems, x < t.items.next)
    (hitems : t'.items = t.items.alloc i)
    (hsteps : Rebalances (c.plug (.leaf r (A ++ t.items.next :: B))) T') :
    t.view (c.plug (.leaf r (A ++ B)))
        = (c.before.filterMap Mark.item? ++ A).map t.item
          ++ (B ++ c.after.filterMap Mark.item?).map t.item ∧
      t'.view T' = (c.before.filterMap Mark.item? ++ A).map t.item
          ++ i :: (B ++ c.after.filterMap Mark.item?).map t.item := by
  have hold : ∀ x, x < t.items.next → t'.item x = t.item x := by
    intro x hx
    rw [item, item, hitems, Heap.alloc_get, if_neg (Nat.ne_of_lt hx)]
  have hnew : t'.item t.items.next = i := by
    rw [item, hitems, Heap.alloc_get, if_pos rfl]
  have hx : ∀ x ∈ c.before.filterMap Mark.item? ++ (A ++ B) ++ c.after.filterMap Mark.item?,
      t'.item x = t.item x := by
    intro x hx
    refine hold x (halloc x ?_)
    rw [leafItems_plug, ← List.append_assoc]
    exact hx
  refine ⟨by rw [view, leafItems_plug]; simp, ?_⟩
  have hX : (c.before.filterMap Mark.item? ++ A).map t'.item
      = (c.before.filterMap Mark.item? ++ A).map t.item := by
    refine List.map_congr_left ?_
    intro x hmem
    exact hx x (by simp only [List.mem_append] at hmem ⊢; tauto)
  have hY : (B ++ c.after.filterMap Mark.item?).map t'.item
      = (B ++ c.after.filterMap Mark.item?).map t.item := by
    refine List.map_congr_left ?_
    intro x hmem
    exact hx x (by simp only [List.mem_append] at hmem ⊢; tauto)
  rw [view, hsteps.leafItems_eq, leafItems_plug, ← hX, ← hY, ← hnew]
  simp

/-- The items of a leaf from the first one on that `i` does not exceed. -/
theorem Indexed.le_of_head (hri : ∀ a b, ri a b → a ≤ b) {c : Ctx Ref 0} {r : Ref}
    {A B : List Ref} {i : Item S} (h : Indexed d ri t (c.plug (.leaf r (A ++ B))))
    (hB : ∀ x ∈ B.head?, ¬ (t.item x).Precedes i) : ∀ x ∈ B, i.score ≤ t.scoreOf x := by
  cases B with
  | nil => simp
  | cons b B =>
    have hb : i.score ≤ t.scoreOf b := by
      have hnot := hB b rfl
      rw [Item.Precedes, not_or] at hnot
      exact not_lt.mp hnot.1
    have hs := h.sorted
    rw [Sorted, inorder_plug_leaf, List.pairwise_append, List.pairwise_append, List.map_append,
      List.pairwise_append, List.map_cons, List.pairwise_cons] at hs
    obtain ⟨⟨-, ⟨-, ⟨hbB, -⟩, -⟩, -⟩, -⟩ := hs
    intro x hx
    rcases List.mem_cons.mp hx with rfl | hx
    · exact hb
    · exact hb.trans (hri _ _ (hbB (.item x) (List.mem_map_of_mem hx)))

/-- `Add` of a member that is not stored. The new item enters behind the
items it does not precede and behind the stranded items of its score. -/
theorem add_indexed (hri : ∀ a b, ri a b → a ≤ b) (hlt : ∀ a b, a < b → ri a b) (hd : 2 ≤ d)
    (h : Indexed d ri t T) {i : Item S} (hm : i.member ≠ [])
    (hnew : ∀ j ∈ t.view T, j.member ≠ i.member)
    (hties : (∀ a, ri a a) ∨ ∀ j ∈ t.view T, j.score ≠ i.score) :
    ∃ t' T' X Y, t.add i.score i.member = .ok (1, t') ∧ Indexed d ri t' T' ∧
      t.view T = X ++ Y ∧ t'.view T' = X ++ i :: Y ∧
      (∀ j ∈ X, j.Precedes i ∨ (j.score = i.score ∧ t.Stranded j)) ∧
      ((t.view T).Pairwise Item.Precedes → ∀ j ∈ Y, i.Precedes j) ∧
      (∀ j, t.Stranded j → j.score = i.score → j ∈ X) := by
  obtain ⟨c, r, is, rfl, hrouted, hcase⟩ := add_cases hd h.toWellFormed i.score hm
  rcases hcase with ⟨x, hx, hmem, -⟩ | ⟨-, A, B, t', T', rfl, hA, hB, hrun, hwf, hsteps, hit⟩
  · exact absurd hmem (hnew _ (mem_view_plug.mpr (Or.inr (Or.inl ⟨x, hx, rfl⟩))))
  have hA' : ∀ x ∈ A, (t.item x).Precedes i := fun x hx => (Item.compareTo_pos_iff _ _).mp (hA x hx)
  have hB' : ∀ x ∈ B.head?, ¬ (t.item x).Precedes i :=
    fun x hx hp => hB x hx ((Item.compareTo_pos_iff _ _).mpr hp)
  have hAle : ∀ x ∈ A, t.scoreOf x ≤ i.score := by
    intro x hx
    rcases hA' x hx with hlt' | ⟨heq, -⟩
    · exact hlt'.le
    · exact heq.le
  have hBle := h.le_of_head hri hB'
  obtain ⟨hview, hview'⟩ := view_insert h.leafItems_lt hit hsteps
  have hstr : ∀ {j : Item S}, j.score = i.score →
      (t.Stranded j ↔ ∃ x, .item x ∈ c.before ∧ t.item x = j) := h.stranded_plug hri hrouted
  have hs := h.sorted
  rw [Sorted, inorder_plug_leaf, List.pairwise_append, List.pairwise_append] at hs
  obtain ⟨⟨hbefore, -, -⟩, hafter, -⟩ := hs
  refine ⟨t', T', _, _, hrun, h.insert hri hlt hrouted hAle hBle hties hwf hit hsteps, hview,
    hview', ?_, ?_, ?_⟩
  · intro j hj
    obtain ⟨x, hx, rfl⟩ := List.mem_map.mp hj
    rcases List.mem_append.mp hx with hx | hx
    · rw [mem_filterMap_item] at hx
      rcases lt_or_eq_of_le (hrouted.before_le hri hbefore _ hx) with hlt' | heq
      · exact Or.inl (Or.inl hlt')
      · exact Or.inr ⟨heq, (hstr heq).mpr ⟨x, hx, rfl⟩⟩
    · exact Or.inl (hA' x hx)
  · intro hlex j hj
    obtain ⟨x, hx, rfl⟩ := List.mem_map.mp hj
    rcases List.mem_append.mp hx with hx | hx
    · -- behind the head of `B` the items are ordered among themselves
      have hBlex : (B.map t.item).Pairwise Item.Precedes := by
        refine hlex.sublist ?_
        rw [hview]
        exact ((List.sublist_append_left B _).map t.item).trans (List.sublist_append_right _ _)
      cases B with
      | nil => cases hx
      | cons b B =>
        have hb : i.Precedes (t.item b) := by
          refine Item.precedes_of_not (hB' b rfl) ?_
          exact (hnew _ (mem_view_plug.mpr (Or.inr (Or.inl ⟨b, by simp, rfl⟩)))).symm
        rw [List.map_cons, List.pairwise_cons] at hBlex
        rcases List.mem_cons.mp hx with rfl | hx
        · exact hb
        · exact hb.trans (hBlex.1 _ (List.mem_map_of_mem hx))
    · rw [mem_filterMap_item] at hx
      exact Or.inl (hrouted.lt_after hafter _ hx)
  · intro j hj hscore
    obtain ⟨x, hx, rfl⟩ := (hstr hscore).mp hj
    exact List.mem_map_of_mem (List.mem_append_left _ (mem_filterMap_item.mpr hx))

/-- The order after an item has left its leaf: separators may outlive the
item they point to, so the in-order list only loses an entry. -/
theorem Indexed.erase (hri : ∀ a b, ri a b → a ≤ b) {c : Ctx Ref 0} {r x : Ref}
    {A B : List Ref} {t' : BTreeIndex S} {T' : AnyTree Ref}
    (h : Indexed d ri t (c.plug (.leaf r (A ++ x :: B)))) (hwf : WellFormed d t' T')
    (hitems : t'.items = t.items) (hsteps : Rebalances (c.plug (.leaf r (A ++ B))) T') :
    Indexed d ri t' T' := by
  have hscore : t'.scoreOf = t.scoreOf := by
    funext y
    rw [scoreOf, scoreOf, item, item, hitems]
  have hsub : (c.plug (.leaf r (A ++ B))).2.inorder.Sublist
      (c.plug (.leaf r (A ++ x :: B))).2.inorder := by
    rw [inorder_plug_leaf, inorder_plug_leaf]
    have hle : (A ++ B).Sublist (A ++ x :: B) :=
      (List.Sublist.refl A).append (List.sublist_cons_self x B)
    exact ((List.Sublist.refl _).append (hle.map _)).append (List.Sublist.refl _)
  have hsorted : Sorted t'.scoreOf ri (c.plug (.leaf r (A ++ B))) := by
    rw [hscore]
    exact h.sorted.sublist hsub
  refine { toWellFormed := hwf, allocItems := ?_, sorted := hsteps.sorted hri hsorted }
  intro m hm
  obtain ⟨m₀, hm₀, hv⟩ := hsteps.vals m hm
  rw [← hv, hitems]
  exact h.allocItems m₀ (hsub.subset hm₀)

/-- `RemoveByScore` of an item that is stored, and is the only one of its
member: it is found unless it is stranded. -/
theorem removeByScore_indexed (hri : ∀ a b, ri a b → a ≤ b) (hd : 2 ≤ d) (h : Indexed d ri t T)
    (hnodup : ((t.view T).map Item.member).Nodup) {i : Item S} (hi : i ∈ t.view T) :
    (t.Stranded i → t.removeByScore i.score i.member = .ok (0, t)) ∧
      (¬ t.Stranded i → ∃ t' T' X Y, t.removeByScore i.score i.member = .ok (1, t') ∧
        Indexed d ri t' T' ∧ t.view T = X ++ i :: Y ∧ t'.view T' = X ++ Y) := by
  obtain ⟨c, r, is, rfl, hrouted, hcase⟩ :=
    removeByScore_cases hd h.toWellFormed i.score i.member
  simp only [Item.matches_iff] at hcase
  have hstr : t.Stranded i ↔ ∃ x, .item x ∈ c.before ∧ t.item x = i :=
    h.stranded_plug hri hrouted rfl
  have hs := h.sorted
  rw [Sorted, inorder_plug_leaf, List.pairwise_append] at hs
  have hnodup' : (t.view (c.plug (.leaf r is))).Nodup := hnodup.of_map _
  rw [view, leafItems_plug, List.map_append, List.map_append, List.nodup_append] at hnodup'
  rcases hcase with ⟨hnone, hrun⟩ | ⟨A, x, B, t', T', rfl, hx, hrun, hwf, hsteps, hit⟩
  · -- not in the leaf, and nothing to the right has this score
    refine ⟨fun _ => hrun, fun hns => ?_⟩
    rcases mem_view_plug.mp hi with hbefore | ⟨x, hx, heq⟩ | ⟨x, hx, heq⟩
    · exact absurd (hstr.mpr hbefore) hns
    · exact absurd heq (hnone x hx)
    · have hlt' := hrouted.lt_after hs.2.1 _ hx
      rw [Mark.val_item, scoreOf, heq] at hlt'
      exact absurd hlt' (lt_irrefl _)
  · have hitem : t'.item = t.item := by
      funext y
      rw [item, item, hit]
    refine ⟨fun hst => ?_, fun _ => ?_⟩
    · -- it would be stored twice
      obtain ⟨y, hy, heq⟩ := hstr.mp hst
      refine absurd rfl (hnodup'.2.2 i ?_ i ?_)
      · exact List.mem_map.mpr ⟨y, mem_filterMap_item.mpr hy, heq⟩
      · have hx' : t.item x = i := hx
        simp [← hx']
    · refine ⟨t', T', (c.before.filterMap Mark.item? ++ A).map t.item,
        (B ++ c.after.filterMap Mark.item?).map t.item, hrun, ?_, ?_, ?_⟩
      · exact h.erase hri hwf hit hsteps
      · rw [view, leafItems_plug]
        simp [hx]
      · rw [view, hitem, hsteps.leafItems_eq, leafItems_plug]
        simp

end Ops

end Order

end BTreeIndex

end RediGo.SortedSet
