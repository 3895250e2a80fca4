/-
RediGo.Lib.Rebalance — the steps by which a B+ tree restores its
occupancy, and what none of them can change.

A step works on one node and at most two adjacent children: it splits a
child (`Splits`), moves one item across a separator (`Rotates`) or
joins two children (`Merges`). `Rebalance` closes these under contexts
and adds the two steps at the root, a new root above the old one and
dropping a root that has a single child.

Two facts are proved per step and hold of any chain of steps:

* `Rebalance.leafItems_eq` — the items in the leaves, read left to
  right, stay the same list;
* `Rebalance.sorted` — the order condition on the in-order list stays.
  It is stated for a relation `ri` between an item and whatever follows
  it, so that the same proof covers ties (`ri` is `≤`) and the strict
  order (`ri` is `<`).
-/
import RediGo.Lib.LevelTree

namespace RediGo.Lib

variable {ι : Type}

/-- `Splits t a x b`: the node `t` becomes `a` and a new node `b`, with
`x` between them. A leaf keeps `x` in its right half, a node hands it
over. -/
inductive Splits : {n : Nat} → LevelTree ι n → LevelTree ι n → ι → LevelTree ι n → Prop
  | leaf (r r' : Ref) (A : List ι) (x : ι) (B : List ι) :
      Splits (.leaf r (A ++ x :: B)) (.leaf r A) x (.leaf r' (x :: B))
  | node {n : Nat} (r r' : Ref) (A : List ι) (x : ι) (B : List ι) (C D : List (LevelTree ι n))
      (hC : C.length = A.length + 1) :
      Splits (.node r (A ++ x :: B) (C ++ D)) (.node r A C) x (.node r' B D)

/-- `Rotates a x b a' x' b'`: one item moves between the neighbours `a`
and `b`, across the separator `x`. -/
inductive Rotates : {n : Nat} → LevelTree ι n → ι → LevelTree ι n →
    LevelTree ι n → ι → LevelTree ι n → Prop
  | leafRight (r r' : Ref) (A : List ι) (y x : ι) (B : List ι) :
      Rotates (.leaf r (A ++ [y])) x (.leaf r' B) (.leaf r A) y (.leaf r' (y :: B))
  | leafLeft (r r' : Ref) (A : List ι) (x y z : ι) (B : List ι) :
      Rotates (.leaf r A) x (.leaf r' (y :: z :: B)) (.leaf r (A ++ [y])) z (.leaf r' (z :: B))
  | nodeRight {n : Nat} (r r' : Ref) (A : List ι) (y x : ι) (B : List ι)
      (C : List (LevelTree ι n)) (d : LevelTree ι n) (D : List (LevelTree ι n))
      (hC : C.length = A.length + 1) :
      Rotates (.node r (A ++ [y]) (C ++ [d])) x (.node r' B D)
        (.node r A C) y (.node r' (x :: B) (d :: D))
  | nodeLeft {n : Nat} (r r' : Ref) (A : List ι) (x y : ι) (B : List ι)
      (C : List (LevelTree ι n)) (d : LevelTree ι n) (D : List (LevelTree ι n))
      (hC : C.length = A.length + 1) :
      Rotates (.node r A C) x (.node r' (y :: B) (d :: D))
        (.node r (A ++ [x]) (C ++ [d])) y (.node r' B D)

/-- `Merges a x b m`: the neighbours `a` and `b` become one node `m`. A
node takes the separator `x` in, a leaf drops it. -/
inductive Merges : {n : Nat} → LevelTree ι n → ι → LevelTree ι n → LevelTree ι n → Prop
  | leaf (r r' : Ref) (A : List ι) (x : ι) (B : List ι) :
      Merges (.leaf r A) x (.leaf r' B) (.leaf r (A ++ B))
  | node {n : Nat} (r r' : Ref) (A : List ι) (x : ι) (B : List ι) (C D : List (LevelTree ι n))
      (hC : C.length = A.length + 1) :
      Merges (.node r A C) x (.node r' B D) (.node r (A ++ x :: B) (C ++ D))

/-- A step at one node: the children on both sides stay as they are. -/
inductive LocalStep {n : Nat} : LevelTree ι (n + 1) → LevelTree ι (n + 1) → Prop
  | split (r : Ref) (isL isR : List ι) (csL csR : List (LevelTree ι n)) {t a b : LevelTree ι n}
      {x : ι} (hL : isL.length = csL.length) (h : Splits t a x b) :
      LocalStep (.node r (isL ++ isR) (csL ++ t :: csR))
        (.node r (isL ++ x :: isR) (csL ++ a :: b :: csR))
  | rotate (r : Ref) (isL isR : List ι) (csL csR : List (LevelTree ι n))
      {a b a' b' : LevelTree ι n} {x x' : ι} (hL : isL.length = csL.length)
      (h : Rotates a x b a' x' b') :
      LocalStep (.node r (isL ++ x :: isR) (csL ++ a :: b :: csR))
        (.node r (isL ++ x' :: isR) (csL ++ a' :: b' :: csR))
  | merge (r : Ref) (isL isR : List ι) (csL csR : List (LevelTree ι n)) {a b m : LevelTree ι n}
      {x : ι} (hL : isL.length = csL.length) (h : Merges a x b m) :
      LocalStep (.node r (isL ++ x :: isR) (csL ++ a :: b :: csR))
        (.node r (isL ++ isR) (csL ++ m :: csR))

/-- One rebalancing step of a whole tree. -/
inductive Rebalance : AnyTree ι → AnyTree ι → Prop
  | grow {n : Nat} (r : Ref) (t : LevelTree ι n) : Rebalance ⟨n, t⟩ ⟨n + 1, .node r [] [t]⟩
  | shrink {n : Nat} (r : Ref) (t : LevelTree ι n) : Rebalance ⟨n + 1, .node r [] [t]⟩ ⟨n, t⟩
  | inside {n : Nat} (c : Ctx ι (n + 1)) {t t' : LevelTree ι (n + 1)} (h : LocalStep t t') :
      Rebalance (c.plug t) (c.plug t')

/-- Any number of steps. -/
abbrev Rebalances : AnyTree ι → AnyTree ι → Prop := Relation.ReflTransGen Rebalance

/-! ## The part of the in-order list a step rewrites -/

/-- How a step may rewrite a stretch of the in-order list: the items
stay, every separator it leaves was there before, as item or separator,
and the new stretch is ordered if the old one was. -/
structure Rewrites (R : Mark ι → Mark ι → Prop) (M M' : List (Mark ι)) : Prop where
  items : M'.filterMap Mark.item? = M.filterMap Mark.item?
  vals : ∀ m ∈ M', ∃ m₀ ∈ M, m₀.val = m.val
  sorted : M.Pairwise R → M'.Pairwise R

/-- A stretch with the same entries in the same order. -/
theorem Rewrites.refl (R : Mark ι → Mark ι → Prop) (M : List (Mark ι)) : Rewrites R M M :=
  ⟨rfl, fun m hm => ⟨m, hm, rfl⟩, id⟩

section Order

variable {S : Type} [LinearOrder S] (key : ι → S) (ri : S → S → Prop)

/-- `m` may stand before `m'`: a separator up to equality, an item by `ri`. -/
def Before (m m' : Mark ι) : Prop :=
  match m with
  | .item x => ri (key x) (key m'.val)
  | .sep x => key x ≤ key m'.val

variable {key ri}

/-- The order only looks at the values, and an item's bound is the
stronger one: a separator may take the place of an item of its value. -/
theorem Before.sep_left (hri : ∀ a b, ri a b → a ≤ b) {m m' : Mark ι}
    (h : Before key ri m m') : key m.val ≤ key m'.val := by
  cases m with
  | item x => exact hri _ _ h
  | sep x => exact h

theorem Before.congr_right {m m₁ m₂ : Mark ι} (h : Before key ri m m₁)
    (hv : m₁.val = m₂.val) : Before key ri m m₂ := by
  cases m with
  | item x => simpa [Before, hv] using h
  | sep x => simpa [Before, hv] using h

/-- Only the keys of the two entries are looked at. -/
theorem Before.congr_key {key' : ι → S} {m m' : Mark ι} (h : Before key ri m m')
    (hm : key' m.val = key m.val) (hm' : key' m'.val = key m'.val) : Before key' ri m m' := by
  cases m with
  | item x =>
    show ri (key' x) (key' m'.val)
    rw [hm', show key' x = key x from hm]
    exact h
  | sep x =>
    show key' x ≤ key' m'.val
    rw [hm', show key' x = key x from hm]
    exact h

theorem mem_filterMap_item {M : List (Mark ι)} {x : ι} :
    x ∈ M.filterMap Mark.item? ↔ Mark.item x ∈ M := by
  rw [List.mem_filterMap]
  constructor
  · rintro ⟨m, hm, he⟩
    cases m with
    | item y => simp at he; exact he ▸ hm
    | sep y => simp at he
  · intro h
    exact ⟨_, h, rfl⟩

/-- Rewriting a stretch keeps the order of the whole list: what stood
before the stretch still precedes it, since only values are compared
there, and what followed an item or separator of the old stretch
follows whatever replaces it. -/
theorem Rewrites.pairwise (hri : ∀ a b, ri a b → a ≤ b) {M M' X Y : List (Mark ι)}
    (h : Rewrites (Before key ri) M M') (hs : (X ++ M ++ Y).Pairwise (Before key ri)) :
    (X ++ M' ++ Y).Pairwise (Before key ri) := by
  rw [List.pairwise_append, List.pairwise_append] at hs ⊢
  obtain ⟨⟨hX, hM, hXM⟩, hY, hXY⟩ := hs
  refine ⟨⟨hX, h.sorted hM, ?_⟩, hY, ?_⟩
  · intro a ha m hm
    obtain ⟨m₀, hm₀, hv⟩ := h.vals m hm
    exact (hXM a ha m₀ hm₀).congr_right hv
  · intro a ha y hy
    rcases List.mem_append.mp ha with ha | ha
    · exact hXY a (List.mem_append_left _ ha) y hy
    · cases a with
      | item x =>
        have hx : Mark.item x ∈ M := by
          rw [← mem_filterMap_item, ← h.items, mem_filterMap_item]
          exact ha
        exact hXY _ (List.mem_append_right _ hx) y hy
      | sep x =>
        obtain ⟨m₀, hm₀, hv⟩ := h.vals _ ha
        have hle := (hXY m₀ (List.mem_append_right _ hm₀) y hy).sep_left hri
        rw [hv] at hle
        exact hle

end Order

/-! ## The three kinds of local step -/

section Steps

variable {S : Type} [LinearOrder S] {key : ι → S} {ri : S → S → Prop}

theorem weave_single (c : List (Mark ι)) : weave [c] ([] : List ι) = c := by
  simp [weave]

theorem weave_snoc_pair (C : List (List (Mark ι))) (A : List ι) (d : List (Mark ι)) (y : ι)
    (hC : C.length = A.length + 1) :
    weave (C ++ [d]) (A ++ [y]) = weave C A ++ .sep y :: d := by
  induction A generalizing C with
  | nil =>
    obtain ⟨c, rfl⟩ := List.length_eq_one_iff.mp (by simpa using hC)
    simp [weave]
  | cons a A ih =>
    cases C with
    | nil => simp at hC
    | cons c C =>
      have hC' : C.length = A.length + 1 := by simpa using hC
      simp [weave, ih C hC']

/-- Two weaves joined by a separator are one weave. -/
theorem weave_append_sep (C D : List (List (Mark ι))) (A B : List ι) (x : ι)
    (hC : C.length = A.length + 1) :
    weave (C ++ D) (A ++ x :: B) = weave C A ++ .sep x :: weave D B := by
  induction A generalizing C with
  | nil =>
    obtain ⟨c, rfl⟩ := List.length_eq_one_iff.mp (by simpa using hC)
    simp [weave]
  | cons a A ih =>
    cases C with
    | nil => simp at hC
    | cons c C =>
      have hC' : C.length = A.length + 1 := by simpa using hC
      simp [weave, ih C hC']

theorem Splits.rewrites (hri : ∀ a b, ri a b → a ≤ b) {n : Nat} {t a b : LevelTree ι n} {x : ι}
    (h : Splits t a x b) :
    Rewrites (Before key ri) t.inorder (a.inorder ++ .sep x :: b.inorder) := by
  cases h with
  | leaf r r' A x B =>
    simp only [LevelTree.inorder_leaf, List.map_append, List.map_cons]
    refine ⟨by simp, ?_, ?_⟩
    · intro m hm
      simp only [List.mem_append, List.mem_cons] at hm ⊢
      rcases hm with hm | rfl | rfl | hm
      · exact ⟨m, Or.inl hm, rfl⟩
      · exact ⟨.item x, Or.inr (Or.inl rfl), rfl⟩
      · exact ⟨.item x, Or.inr (Or.inl rfl), rfl⟩
      · exact ⟨m, Or.inr (Or.inr hm), rfl⟩
    · -- the new separator has the value of the item right behind it
      intro hs
      rw [List.pairwise_append, List.pairwise_cons] at hs
      obtain ⟨hA, ⟨hx, hB⟩, hAx⟩ := hs
      rw [List.pairwise_append, List.pairwise_cons, List.pairwise_cons]
      refine ⟨hA, ⟨?_, hx, hB⟩, ?_⟩
      · intro m hm
        rcases List.mem_cons.mp hm with rfl | hm
        · exact le_refl _
        · exact (hx m hm).sep_left hri
      · intro m hm m' hm'
        rcases List.mem_cons.mp hm' with rfl | hm'
        · exact (hAx m hm (.item x) List.mem_cons_self).congr_right rfl
        · exact hAx m hm m' hm'
  | node r r' A x B C D hC =>
    have hC' : (C.map LevelTree.inorder).length = A.length + 1 := by simpa using hC
    simp only [LevelTree.inorder_node, List.map_append]
    rw [weave_append_sep _ _ _ _ _ hC']
    exact Rewrites.refl _ _

theorem Rotates.rewrites (hri : ∀ a b, ri a b → a ≤ b) {n : Nat} {a b a' b' : LevelTree ι n}
    {x x' : ι} (h : Rotates a x b a' x' b') :
    Rewrites (Before key ri) (a.inorder ++ .sep x :: b.inorder)
      (a'.inorder ++ .sep x' :: b'.inorder) := by
  cases h with
  | leafRight r r' A y x B =>
    simp only [LevelTree.inorder_leaf, List.map_append, List.map_cons, List.map_nil,
      List.append_assoc, List.singleton_append]
    refine ⟨by simp, ?_, ?_⟩
    · intro m hm
      simp only [List.mem_append, List.mem_cons] at hm ⊢
      rcases hm with hm | rfl | rfl | hm
      · exact ⟨m, Or.inl hm, rfl⟩
      · exact ⟨.item x', Or.inr (Or.inl rfl), rfl⟩
      · exact ⟨.item x', Or.inr (Or.inl rfl), rfl⟩
      · exact ⟨m, Or.inr (Or.inr (Or.inr hm)), rfl⟩
    · intro hs
      rw [List.pairwise_append, List.pairwise_cons, List.pairwise_cons] at hs
      obtain ⟨hA, ⟨hy, hx, hB⟩, hAy⟩ := hs
      rw [List.pairwise_append, List.pairwise_cons, List.pairwise_cons]
      refine ⟨hA, ⟨?_, fun m hm => hy m (List.mem_cons_of_mem _ hm), hB⟩, ?_⟩
      · intro m hm
        rcases List.mem_cons.mp hm with rfl | hm
        · exact le_refl _
        · exact (hy m (List.mem_cons_of_mem _ hm)).sep_left hri
      · intro m hm m' hm'
        rcases List.mem_cons.mp hm' with rfl | hm'
        · exact (hAy m hm (.item x') List.mem_cons_self).congr_right rfl
        · rcases List.mem_cons.mp hm' with rfl | hm'
          · exact hAy m hm _ List.mem_cons_self
          · exact hAy m hm m' (List.mem_cons_of_mem _ (List.mem_cons_of_mem _ hm'))
  | leafLeft r r' A x y z B =>
    simp only [LevelTree.inorder_leaf, List.map_append, List.map_cons, List.map_nil,
      List.append_assoc, List.singleton_append]
    refine ⟨by simp, ?_, ?_⟩
    · intro m hm
      simp only [List.mem_append, List.mem_cons] at hm ⊢
      rcases hm with hm | rfl | rfl | rfl | hm
      · exact ⟨m, Or.inl hm, rfl⟩
      · exact ⟨.item y, by simp, rfl⟩
      · exact ⟨.item x', by simp, rfl⟩
      · exact ⟨.item x', by simp, rfl⟩
      · exact ⟨m, by simp [hm], rfl⟩
    · intro hs
      rw [List.pairwise_append, List.pairwise_cons, List.pairwise_cons, List.pairwise_cons] at hs
      obtain ⟨hA, ⟨hx, hy, hz, hB⟩, hAx⟩ := hs
      rw [List.pairwise_append, List.pairwise_cons, List.pairwise_cons, List.pairwise_cons]
      refine ⟨hA, ⟨?_, ?_, hz, hB⟩, ?_⟩
      · intro m hm
        rcases List.mem_cons.mp hm with rfl | hm
        · exact (hy (.item x') List.mem_cons_self).congr_right rfl
        · exact hy m hm
      · intro m hm
        rcases List.mem_cons.mp hm with rfl | hm
        · exact le_refl _
        · exact (hz m hm).sep_left hri
      · intro m hm m' hm'
        simp only [List.mem_cons] at hm'
        rcases hm' with rfl | rfl | rfl | hm'
        · exact hAx m hm _ (by simp)
        · exact (hAx m hm (.item x') (by simp)).congr_right rfl
        · exact hAx m hm _ (by simp)
        · exact hAx m hm m' (by simp [hm'])
  | nodeRight r r' A y x B C d D hC =>
    have hC' : (C.map LevelTree.inorder).length = A.length + 1 := by simpa using hC
    simp only [LevelTree.inorder_node, List.map_append, List.map_cons, List.map_nil]
    rw [weave_snoc_pair _ _ _ _ hC', weave]
    simp only [List.append_assoc, List.cons_append]
    exact Rewrites.refl _ _
  | nodeLeft r r' A x y B C d D hC =>
    have hC' : (C.map LevelTree.inorder).length = A.length + 1 := by simpa using hC
    simp only [LevelTree.inorder_node, List.map_append, List.map_cons, List.map_nil]
    rw [weave_snoc_pair _ _ _ _ hC', weave]
    simp only [List.append_assoc, List.cons_append]
    exact Rewrites.refl _ _

theorem Merges.rewrites {n : Nat} {a b m : LevelTree ι n} {x : ι} (h : Merges a x b m) :
    Rewrites (Before key ri) (a.inorder ++ .sep x :: b.inorder) m.inorder := by
  cases h with
  | leaf r r' A x B =>
    simp only [LevelTree.inorder_leaf, List.map_append]
    refine ⟨by simp, ?_, ?_⟩
    · intro m hm
      rcases List.mem_append.mp hm with hm | hm
      · exact ⟨m, List.mem_append_left _ hm, rfl⟩
      · exact ⟨m, List.mem_append_right _ (List.mem_cons_of_mem _ hm), rfl⟩
    · intro hs
      exact hs.sublist (List.Sublist.append_left (List.sublist_cons_self _ _) _)
  | node r r' A x B C D hC =>
    have hC' : (C.map LevelTree.inorder).length = A.length + 1 := by simpa using hC
    simp only [LevelTree.inorder_node, List.map_append]
    rw [weave_append_sep _ _ _ _ _ hC']
    exact Rewrites.refl _ _

variable (key) in
/-- A local step rewrites one stretch of the node's in-order list. -/
theorem LocalStep.rewrites (hri : ∀ a b, ri a b → a ≤ b) {n : Nat} {t t' : LevelTree ι (n + 1)}
    (h : LocalStep t t') :
    ∃ X M M' Y, t.inorder = X ++ M ++ Y ∧ t'.inorder = X ++ M' ++ Y ∧
      Rewrites (Before key ri) M M' := by
  cases h with
  | split r isL isR csL csR hL h =>
    have hL' : isL.length = (csL.map LevelTree.inorder).length := by simpa using hL
    refine ⟨weave (csL.map LevelTree.inorder) isL, _, _,
      weave ([] :: csR.map LevelTree.inorder) isR, ?_, ?_, h.rewrites hri⟩
    · simp only [LevelTree.inorder_node, List.map_append, List.map_cons]
      rw [weave_append _ _ _ _ hL', weave_cons, List.append_assoc]
    · simp only [LevelTree.inorder_node, List.map_append, List.map_cons]
      rw [weave_append _ _ _ _ hL', weave, weave_cons _ _ isR]
      simp [List.append_assoc]
  | rotate r isL isR csL csR hL h =>
    have hL' : isL.length = (csL.map LevelTree.inorder).length := by simpa using hL
    refine ⟨weave (csL.map LevelTree.inorder) isL, _, _,
      weave ([] :: csR.map LevelTree.inorder) isR, ?_, ?_, h.rewrites hri⟩
    · simp only [LevelTree.inorder_node, List.map_append, List.map_cons]
      rw [weave_append _ _ _ _ hL', weave, weave_cons _ _ isR]
      simp [List.append_assoc]
    · simp only [LevelTree.inorder_node, List.map_append, List.map_cons]
      rw [weave_append _ _ _ _ hL', weave, weave_cons _ _ isR]
      simp [List.append_assoc]
  | merge r isL isR csL csR hL h =>
    have hL' : isL.length = (csL.map LevelTree.inorder).length := by simpa using hL
    refine ⟨weave (csL.map LevelTree.inorder) isL, _, _,
      weave ([] :: csR.map LevelTree.inorder) isR, ?_, ?_, h.rewrites⟩
    · simp only [LevelTree.inorder_node, List.map_append, List.map_cons]
      rw [weave_append _ _ _ _ hL', weave, weave_cons _ _ isR]
      simp [List.append_assoc]
    · simp only [LevelTree.inorder_node, List.map_append, List.map_cons]
      rw [weave_append _ _ _ _ hL', weave_cons, List.append_assoc]

variable (key) in
/-- The same for a step of the whole tree. The two steps at the root
rewrite nothing. -/
theorem Rebalance.rewrites (hri : ∀ a b, ri a b → a ≤ b) {T T' : AnyTree ι}
    (h : Rebalance T T') :
    ∃ X M M' Y, T.2.inorder = X ++ M ++ Y ∧ T'.2.inorder = X ++ M' ++ Y ∧
      Rewrites (Before key ri) M M' := by
  cases h with
  | grow r t =>
    refine ⟨[], t.inorder, t.inorder, [], by simp, ?_, Rewrites.refl _ _⟩
    simp [weave_single]
  | shrink r t =>
    refine ⟨[], t.inorder, t.inorder, [], ?_, by simp, Rewrites.refl _ _⟩
    simp [weave_single]
  | inside c h =>
    obtain ⟨X, M, M', Y, ht, ht', hr⟩ := h.rewrites key hri
    refine ⟨c.before ++ X, M, M', Y ++ c.after, ?_, ?_, hr⟩
    · rw [Ctx.inorder_plug, ht]
      simp [List.append_assoc]
    · rw [Ctx.inorder_plug, ht']
      simp [List.append_assoc]

end Steps

/-! ## What a chain of steps preserves -/

section Preserved

variable {S : Type} [LinearOrder S]

/-- The order condition of a search tree, ties allowed or not by `ri`. -/
def Sorted (key : ι → S) (ri : S → S → Prop) (T : AnyTree ι) : Prop :=
  T.2.inorder.Pairwise (Before key ri)

/-- Rebalancing does not touch the sequence of stored items. -/
theorem Rebalance.leafItems_eq {T T' : AnyTree ι} (h : Rebalance T T') :
    T'.2.leafItems = T.2.leafItems := by
  obtain ⟨X, M, M', Y, hT, hT', hr⟩ :=
    h.rewrites (fun _ => (0 : Nat)) (fun (a b : Nat) (hab : a ≤ b) => hab)
  rw [LevelTree.leafItems_eq_inorder, LevelTree.leafItems_eq_inorder, hT, hT']
  simp [hr.items]

theorem Rebalance.sorted {key : ι → S} {ri : S → S → Prop} (hri : ∀ a b, ri a b → a ≤ b)
    {T T' : AnyTree ι} (h : Rebalance T T') (hs : Sorted key ri T) : Sorted key ri T' := by
  obtain ⟨X, M, M', Y, hT, hT', hr⟩ := h.rewrites key hri
  rw [Sorted, hT] at hs
  rw [Sorted, hT']
  exact hr.pairwise hri hs

/-- Nor does it bring in anything new. -/
theorem Rebalance.vals {T T' : AnyTree ι} (h : Rebalance T T') :
    ∀ m ∈ T'.2.inorder, ∃ m₀ ∈ T.2.inorder, m₀.val = m.val := by
  obtain ⟨X, M, M', Y, hT, hT', hr⟩ :=
    h.rewrites (fun _ => (0 : Nat)) (fun (a b : Nat) (hab : a ≤ b) => hab)
  rw [hT, hT']
  intro m hm
  simp only [List.mem_append] at hm ⊢
  rcases hm with (hm | hm) | hm
  · exact ⟨m, Or.inl (Or.inl hm), rfl⟩
  · obtain ⟨m₀, hm₀, hv⟩ := hr.vals m hm
    exact ⟨m₀, Or.inl (Or.inr hm₀), hv⟩
  · exact ⟨m, Or.inr hm, rfl⟩

theorem Rebalances.leafItems_eq {T T' : AnyTree ι} (h : Rebalances T T') :
    T'.2.leafItems = T.2.leafItems := by
  induction h with
  | refl => rfl
  | tail _ hstep ih => exact hstep.leafItems_eq.trans ih

theorem Rebalances.vals {T T' : AnyTree ι} (h : Rebalances T T') :
    ∀ m ∈ T'.2.inorder, ∃ m₀ ∈ T.2.inorder, m₀.val = m.val := by
  induction h with
  | refl => exact fun m hm => ⟨m, hm, rfl⟩
  | tail _ hstep ih =>
    intro m hm
    obtain ⟨m₁, hm₁, hv₁⟩ := hstep.vals m hm
    obtain ⟨m₀, hm₀, hv₀⟩ := ih m₁ hm₁
    exact ⟨m₀, hm₀, hv₀.trans hv₁⟩

theorem Rebalances.sorted {key : ι → S} {ri : S → S → Prop} (hri : ∀ a b, ri a b → a ≤ b)
    {T T' : AnyTree ι} (h : Rebalances T T') (hs : Sorted key ri T) : Sorted key ri T' := by
  induction h with
  | refl => exact hs
  | tail _ hstep ih => exact hstep.sorted hri ih

end Preserved

end RediGo.Lib
