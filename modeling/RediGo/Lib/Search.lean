/-
RediGo.Lib.Search — what a descent by key comparisons finds in a search
tree that may hold equal keys.

The descent goes left of the first separator that is greater than the
key (`Ctx.Routed`). In an ordered tree everything to the left of the
leaf it ends in is then at most the key, everything to the right is
greater (`Routed.before_le`, `Routed.lt_after`).

"At most" is where ties matter: an item EQUAL to the key can stand to the
left of that leaf, and the descent misses it. These are exactly the
items with a separator of their own key to the right (`Stranded`,
`Routed.stranded_iff`). Under the strict order there are none.
-/
import RediGo.Lib.Rebalance

namespace RediGo.Lib

variable {ι S : Type} {n : Nat}

/-- The comparisons made on the way to the hole of a context: the
separators passed on the left are at most `s`, the first one left on the
right is not. -/
def Ctx.Routed [LE S] (key : ι → S) (s : S) : {n : Nat} → Ctx ι n → Prop
  | _, .top => True
  | _, .up _ isL isR _ _ _ _ c =>
      (∀ x ∈ isL, key x ≤ s) ∧ (∀ x ∈ isR.head?, ¬ key x ≤ s) ∧ c.Routed key s

variable [LinearOrder S]

/-- An item that a descent by its own key passes by: a separator of the
same key stands to its right. -/
def Stranded (key : ι → S) (M : List (Mark ι)) (x : ι) : Prop :=
  ∃ X Y, M = X ++ .item x :: Y ∧ ∃ y, .sep y ∈ Y ∧ key y = key x

section Decide

variable {key : ι → S}

omit [LinearOrder S] in
theorem stranded_nil (x : ι) : ¬ Stranded key [] x := by
  rintro ⟨X, Y, h, -⟩
  simp at h

omit [LinearOrder S] in
theorem stranded_cons (m : Mark ι) (M : List (Mark ι)) (x : ι) :
    Stranded key (m :: M) x ↔
      (m = .item x ∧ ∃ y, .sep y ∈ M ∧ key y = key x) ∨ Stranded key M x := by
  constructor
  · rintro ⟨X, Y, h, hy⟩
    cases X with
    | nil =>
      obtain ⟨rfl, rfl⟩ := List.cons.inj h
      exact Or.inl ⟨rfl, hy⟩
    | cons a X =>
      obtain ⟨rfl, rfl⟩ := List.cons.inj h
      exact Or.inr ⟨X, Y, rfl, hy⟩
  · rintro (⟨rfl, hy⟩ | ⟨X, Y, rfl, hy⟩)
    · exact ⟨[], M, rfl, hy⟩
    · exact ⟨m :: X, Y, rfl, hy⟩

/-- Being a separator of a given key can be checked. -/
def Mark.isSep (key : ι → S) (s : S) : Mark ι → Bool
  | .item _ => false
  | .sep y => decide (key y = s)

theorem exists_isSep (M : List (Mark ι)) (s : S) :
    (∃ m ∈ M, Mark.isSep key s m = true) ↔ ∃ y, .sep y ∈ M ∧ key y = s := by
  constructor
  · rintro ⟨m, hm, h⟩
    cases m with
    | item y => cases h
    | sep y => exact ⟨y, hm, of_decide_eq_true h⟩
  · rintro ⟨y, hm, h⟩
    exact ⟨_, hm, decide_eq_true h⟩

instance decidableStranded [DecidableEq ι] :
    (M : List (Mark ι)) → (x : ι) → Decidable (Stranded key M x)
  | [], x => isFalse (stranded_nil x)
  | m :: M, x =>
      have : Decidable (Stranded key M x) := decidableStranded M x
      have : Decidable (∃ y, .sep y ∈ M ∧ key y = key x) :=
        decidable_of_iff _ (exists_isSep M (key x))
      decidable_of_iff _ (stranded_cons m M x).symm

end Decide

/-! ## Weaves with a separator after every list -/

omit [LinearOrder S] in
/-- Whatever stands in such a weave is a separator or has one behind it. -/
theorem weave_split (cs : List (List (Mark ι))) (xs : List ι) (hlen : xs.length = cs.length)
    {X Y : List (Mark ι)} {m : Mark ι} (h : weave cs xs = X ++ m :: Y) :
    (∃ x ∈ xs, m = .sep x) ∨ ∃ x ∈ xs, .sep x ∈ Y := by
  induction cs generalizing xs X with
  | nil =>
    obtain rfl : xs = [] := List.length_eq_zero_iff.mp hlen
    simp [weave] at h
  | cons c cs ih =>
    cases xs with
    | nil => simp at hlen
    | cons x xs =>
      have hlen' : xs.length = cs.length := by simpa using hlen
      rw [weave] at h
      rcases List.append_eq_append_iff.mp h with ⟨Z, rfl, hZ⟩ | ⟨Z, rfl, hZ⟩
      · -- `m` is at the separator or in the rest
        cases Z with
        | nil =>
          obtain ⟨rfl, rfl⟩ := List.cons.inj hZ
          exact Or.inl ⟨x, List.mem_cons_self, rfl⟩
        | cons z Z =>
          obtain ⟨rfl, hrest⟩ := List.cons.inj hZ
          rcases ih xs hlen' hrest with ⟨y, hy, rfl⟩ | ⟨y, hy, hmem⟩
          · exact Or.inl ⟨y, List.mem_cons_of_mem _ hy, rfl⟩
          · exact Or.inr ⟨y, List.mem_cons_of_mem _ hy, hmem⟩
      · -- `m` is in the first list
        cases Z with
        | nil =>
          obtain ⟨rfl, rfl⟩ := List.cons.inj hZ
          exact Or.inl ⟨x, List.mem_cons_self, rfl⟩
        | cons z Z =>
          obtain ⟨rfl, rfl⟩ := List.cons.inj hZ
          exact Or.inr ⟨x, List.mem_cons_self, by simp⟩

section Routed

variable {key : ι → S} {ri : S → S → Prop} {s : S}

/-- To the left of the hole everything is at most the key: it is a
separator that was passed, or has one behind it. -/
theorem Ctx.Routed.before_le (hri : ∀ a b, ri a b → a ≤ b) {c : Ctx ι n}
    (h : c.Routed key s) (hs : c.before.Pairwise (Before key ri)) :
    ∀ m ∈ c.before, key m.val ≤ s := by
  induction c with
  | top => simp [Ctx.before]
  | up r isL isR csL csR hL hR c ih =>
    rw [Ctx.before, List.pairwise_append] at hs
    intro m hm
    rw [Ctx.before] at hm
    rcases List.mem_append.mp hm with hm | hm
    · exact ih h.2.2 hs.1 m hm
    · obtain ⟨X, Y, hXY⟩ := List.append_of_mem hm
      have hL' : isL.length = (csL.map LevelTree.inorder).length := by simpa using hL
      rcases weave_split _ _ hL' hXY with ⟨x, hx, rfl⟩ | ⟨x, hx, hmem⟩
      · exact h.1 x hx
      · have hpair := hs.2.1
        rw [hXY, List.pairwise_append, List.pairwise_cons] at hpair
        exact ((hpair.2.1.1 _ hmem).sep_left hri).trans (h.1 x hx)

/-- To the right of the hole everything is greater: it starts with a
separator that is. -/
theorem Ctx.Routed.lt_after {c : Ctx ι n} (h : c.Routed key s)
    (hs : c.after.Pairwise (Before key ri)) : ∀ m ∈ c.after, s < key m.val := by
  induction c with
  | top => simp [Ctx.after]
  | up r isL isR csL csR hL hR c ih =>
    rw [Ctx.after, List.pairwise_append] at hs
    intro m hm
    rw [Ctx.after] at hm
    rcases List.mem_append.mp hm with hm | hm
    · cases isR with
      | nil =>
        obtain rfl : csR = [] := List.length_eq_zero_iff.mp hR.symm
        simp [weave] at hm
      | cons x isR =>
        have hx : s < key x := not_le.1 (h.2.1 x (by simp))
        have hpair := hs.1
        rw [weave, List.nil_append, List.pairwise_cons] at hpair
        rw [weave, List.nil_append] at hm
        rcases List.mem_cons.mp hm with rfl | hm
        · exact hx
        · exact lt_of_lt_of_le hx (hpair.1 m hm)
    · exact ih h.2.2 hs.2.1 m hm

/-- An item to the left of the hole has a separator behind it that the
descent passed. -/
theorem Ctx.Routed.exists_sep {c : Ctx ι n} (h : c.Routed key s) {X Y : List (Mark ι)} {x : ι}
    (hXY : c.before = X ++ .item x :: Y) : ∃ y, .sep y ∈ Y ∧ key y ≤ s := by
  induction c generalizing X Y with
  | top => simp [Ctx.before] at hXY
  | up r isL isR csL csR hL hR c ih =>
    have hL' : isL.length = (csL.map LevelTree.inorder).length := by simpa using hL
    have hframe : ∀ {X Y : List (Mark ι)},
        weave (csL.map LevelTree.inorder) isL = X ++ .item x :: Y →
        ∃ y, .sep y ∈ Y ∧ key y ≤ s := by
      intro X Y hw
      rcases weave_split _ _ hL' hw with ⟨y, -, hy⟩ | ⟨y, hy, hmem⟩
      · cases hy
      · exact ⟨y, hmem, h.1 y hy⟩
    rw [Ctx.before] at hXY
    rcases List.append_eq_append_iff.mp hXY with ⟨Z, rfl, hZ⟩ | ⟨Z, hZ, hZ'⟩
    · exact hframe hZ
    · cases Z with
      | nil => exact hframe (show _ = [] ++ _ from hZ'.symm)
      | cons z Z =>
        obtain ⟨rfl, rfl⟩ := List.cons.inj hZ'
        obtain ⟨y, hy, hle⟩ := ih h.2.2 hZ
        exact ⟨y, List.mem_append_left _ hy, hle⟩

/-- The items of key `s` that a descent by `s` misses are those to the
left of the leaf it ends in. -/
theorem Ctx.Routed.stranded_iff (hri : ∀ a b, ri a b → a ≤ b) {c : Ctx ι n}
    (h : c.Routed key s) {is : List ι} {x : ι} (hx : key x = s)
    (hs : (c.before ++ is.map Mark.item ++ c.after).Pairwise (Before key ri)) :
    Stranded key (c.before ++ is.map Mark.item ++ c.after) x ↔ .item x ∈ c.before := by
  have hs' := hs
  rw [List.pairwise_append, List.pairwise_append] at hs'
  obtain ⟨⟨hbefore, -, -⟩, hafter, -⟩ := hs'
  constructor
  · rintro ⟨X, Y, hM, y, hy, hkey⟩
    -- behind the leaf every key is greater, and a leaf has no separator
    have hnot : Mark.sep y ∉ is.map Mark.item ++ c.after := by
      intro hmem
      rcases List.mem_append.mp hmem with hmem | hmem
      · simp at hmem
      · have hlt := h.lt_after hafter _ hmem
        rw [Mark.val_sep, hkey, hx] at hlt
        exact lt_irrefl _ hlt
    rw [List.append_assoc] at hM
    rcases List.append_eq_append_iff.mp hM with ⟨Z, -, hZ⟩ | ⟨Z, hZ, hZ'⟩
    · exact absurd (hZ ▸ List.mem_append_right Z (List.mem_cons_of_mem _ hy)) hnot
    · cases Z with
      | nil => exact absurd (hZ' ▸ List.mem_cons_of_mem _ hy) hnot
      | cons z Z =>
        obtain ⟨rfl, -⟩ := List.cons.inj hZ'
        rw [hZ]
        simp
  · intro hmem
    obtain ⟨X, Y, hXY⟩ := List.append_of_mem hmem
    obtain ⟨y, hy, hle⟩ := h.exists_sep hXY
    refine ⟨X, Y ++ (is.map Mark.item ++ c.after), by simp [hXY], y, List.mem_append_left _ hy, ?_⟩
    rw [hXY, List.pairwise_append, List.pairwise_cons] at hbefore
    have hge := (hbefore.2.1.1 _ hy).sep_left hri
    rw [Mark.val_item, Mark.val_sep] at hge
    exact le_antisymm (hle.trans hx.ge) hge

/-- Under the strict order nothing is stranded. -/
theorem not_stranded_of_sorted {M : List (Mark ι)} (hs : M.Pairwise (Before key (· < ·))) (x : ι) :
    ¬ Stranded key M x := by
  rintro ⟨X, Y, rfl, y, hy, hkey⟩
  rw [List.pairwise_append, List.pairwise_cons] at hs
  exact absurd hkey (ne_of_gt (hs.2.1.1 _ hy))

omit [LinearOrder S] in
/-- Entering one element into an ordered list. -/
theorem pairwise_insert {α : Type} {R : α → α → Prop} {X Y : List α} {a : α}
    (h : (X ++ Y).Pairwise R) (hX : ∀ b ∈ X, R b a) (hY : ∀ b ∈ Y, R a b) :
    (X ++ a :: Y).Pairwise R := by
  rw [List.pairwise_append] at h
  rw [List.pairwise_append, List.pairwise_cons]
  refine ⟨h.1, ⟨hY, h.2.1⟩, ?_⟩
  intro b hb m hm
  rcases List.mem_cons.mp hm with rfl | hm
  · exact hX b hb
  · exact h.2.2 b hb m hm

/-- Entering an item of key `s` between what is at most and what is at
least `s`. Where the order is strict, `s` has to be new. -/
theorem insert_sorted (hlt : ∀ a b, a < b → ri a b) {L R : List (Mark ι)} {A B : List ι} {x : ι}
    (hs : (L ++ (A ++ B).map Mark.item ++ R).Pairwise (Before key ri)) (hx : key x = s)
    (hL : ∀ m ∈ L, key m.val ≤ s) (hR : ∀ m ∈ R, s < key m.val) (hA : ∀ a ∈ A, key a ≤ s)
    (hB : ∀ b ∈ B, s ≤ key b)
    (hties : (∀ a, ri a a) ∨ ∀ y, .item y ∈ L ++ (A ++ B).map Mark.item ++ R → key y ≠ s) :
    (L ++ (A ++ x :: B).map Mark.item ++ R).Pairwise (Before key ri) := by
  have hcut : L ++ (A ++ B).map Mark.item ++ R
      = (L ++ A.map Mark.item) ++ (B.map Mark.item ++ R) := by simp
  have hcut' : L ++ (A ++ x :: B).map Mark.item ++ R
      = (L ++ A.map Mark.item) ++ .item x :: (B.map Mark.item ++ R) := by simp
  rw [hcut] at hs hties
  -- a stored item on either side is related to `s` by `ri`, not only by `≤`
  have hle : ∀ y, .item y ∈ (L ++ A.map Mark.item) ++ (B.map Mark.item ++ R) → key y ≤ s →
      ri (key y) s := by
    intro y hy hys
    rcases lt_or_eq_of_le hys with hlt' | heq
    · exact hlt _ _ hlt'
    · rcases hties with hrefl | hne
      · rw [heq]
        exact hrefl s
      · exact absurd heq (hne y hy)
  have hge : ∀ y, .item y ∈ (L ++ A.map Mark.item) ++ (B.map Mark.item ++ R) → s ≤ key y →
      ri s (key y) := by
    intro y hy hys
    rcases lt_or_eq_of_le hys with hlt' | heq
    · exact hlt _ _ hlt'
    · rcases hties with hrefl | hne
      · rw [← heq]
        exact hrefl s
      · exact absurd heq.symm (hne y hy)
  rw [hcut']
  refine pairwise_insert hs ?_ ?_
  · intro m hm
    have hms : key m.val ≤ s := by
      rcases List.mem_append.mp hm with hm | hm
      · exact hL m hm
      · obtain ⟨a, ha, rfl⟩ := List.mem_map.mp hm
        exact hA a ha
    cases m with
    | item y =>
      have := hle y (List.mem_append_left _ hm) hms
      rwa [← hx] at this
    | sep y => exact hms.trans hx.ge
  · intro m hm
    rcases List.mem_append.mp hm with hm' | hm'
    · obtain ⟨b, hb, rfl⟩ := List.mem_map.mp hm'
      have := hge b (List.mem_append_right _ hm) (hB b hb)
      rwa [← hx] at this
    · have := hlt _ _ (hR m hm')
      rwa [← hx] at this

end Routed

end RediGo.Lib
