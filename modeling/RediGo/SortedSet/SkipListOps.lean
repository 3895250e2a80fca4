/-
RediGo.SortedSet.SkipListOps — `Add` and `RemoveByScore` of the skip list as
changes of its row of towers.

`Represents sl xs` says that the index `sl` stands for the towers `xs`, in
order: every level below `sl.level` is linked up, the head has nothing above
it, `backward` and `tail` lead back, and the height of the list is that of
its tallest tower. Spans and the length are stated modulo `2^32`, so this
needs no bound on the number of nodes.

`insert_tower` and `insert_represents`: an insertion puts one tower in, in
front of those that are not smaller. `removeByScore_tower` and
`removeByScore_represents`: a removal takes out the first tower with the given
entry, if there is one.
-/
import Mathlib.Data.Prod.Lex
import RediGo.SortedSet.SkipListRepr

namespace RediGo.SortedSet

open RediGo.Lib RediGo.Go

/-- Towers are ordered by score and then by name. -/
def Tower.key {S : Type} (t : Tower S) : S ×ₗ Bytes := toLex (t.score, t.ele)

namespace SkipListIndex

variable {S : Type} {sl sl' : SkipListIndex S}

/-! ## The representation -/

/-- The largest height, and 1 if there is no tower. -/
def topLevel (xs : List (Tower S)) : Nat := (xs.map Tower.height).foldr max 1

theorem topLevel_cons (x : Tower S) (xs : List (Tower S)) :
    topLevel (x :: xs) = max x.height (topLevel xs) := rfl

theorem topLevel_le_iff {xs : List (Tower S)} {n : Nat} :
    topLevel xs ≤ n ↔ 1 ≤ n ∧ Low Tower.height n xs := by
  induction xs with
  | nil => simp [topLevel]
  | cons x xs ih =>
    rw [topLevel_cons, Nat.max_le, ih, low_cons]
    tauto

theorem one_le_topLevel (xs : List (Tower S)) : 1 ≤ topLevel xs := (topLevel_le_iff.1 le_rfl).1

theorem low_topLevel (xs : List (Tower S)) : Low Tower.height (topLevel xs) xs :=
  (topLevel_le_iff.1 le_rfl).2

theorem topLevel_insert (A : List (Tower S)) (x : Tower S) (B : List (Tower S)) :
    topLevel (A ++ x :: B) = max (topLevel (A ++ B)) x.height := by
  induction A with
  | nil => exact Nat.max_comm ..
  | cons a A ih =>
    rw [List.cons_append, List.cons_append, topLevel_cons, topLevel_cons, ih, Nat.max_assoc]

/-- `backward` leads from each tower to the one before it. -/
def Backs (sl : SkipListIndex S) : Option Ref → List (Tower S) → Prop
  | _, [] => True
  | prev, t :: ts => (sl.node t.ref).backward = prev ∧ Backs sl (some t.ref) ts

/-- The reference of the last tower. -/
def lastRef (xs : List (Tower S)) : Option Ref := xs.getLast?.map Tower.ref

/-- The head as a tower of the row. -/
def origin [Zero S] (sl : SkipListIndex S) : Tower S := ⟨sl.head, 0, [], SkiplistMaxLevel⟩

structure Represents [Zero S] [LinearOrder S] (sl : SkipListIndex S) (xs : List (Tower S)) :
    Prop where
  placed : Placed sl (sl.origin :: xs)
  heights : ∀ t ∈ xs, 1 ≤ t.height ∧ t.height ≤ SkiplistMaxLevel
  linked : ∀ i < sl.level, sl.LinkedAt i (sl.origin :: xs)
  above : ∀ i, sl.level ≤ i → (sl.lvl sl.head i).forward = none
  level : sl.level = topLevel xs
  sorted : xs.Pairwise fun a b => a.key ≤ b.key
  length : sl.length = UInt32.ofNat xs.length
  backward : sl.Backs none xs
  tail : sl.tail = lastRef xs

theorem lastRef_append (A : List (Tower S)) (x : Tower S) (B : List (Tower S)) :
    lastRef (A ++ x :: B) = lastRef (x :: B) := by
  unfold lastRef
  rw [List.getLast?_append]
  cases h : (x :: B).getLast? with
  | none => simp at h
  | some b => rfl

theorem backs_append {prev : Option Ref} (A B : List (Tower S)) : sl.Backs prev (A ++ B) ↔
    sl.Backs prev A ∧ sl.Backs ((lastRef A).or prev) B := by
  induction A generalizing prev with
  | nil => simp [Backs, lastRef]
  | cons a A ih =>
    rw [List.cons_append, Backs, Backs, ih, and_assoc]
    have hlast : (lastRef (a :: A)).or prev = (lastRef A).or (some a.ref) := by
      cases A with
      | nil => rfl
      | cons b A =>
        rw [show a :: b :: A = [a] ++ b :: A from rfl, lastRef_append]
        cases h : (b :: A).getLast? with
        | none => simp at h
        | some c => simp [lastRef, h]
    rw [hlast]

theorem Backs.congr {prev : Option Ref} {ts : List (Tower S)} (h : sl.Backs prev ts)
    (hsame : ∀ t ∈ ts, (sl'.node t.ref).backward = (sl.node t.ref).backward) :
    sl'.Backs prev ts := by
  induction ts generalizing prev with
  | nil => trivial
  | cons t ts ih =>
    exact ⟨(hsame t (List.mem_cons_self ..)).trans h.1,
      ih h.2 fun s hs => hsame s (List.mem_cons_of_mem _ hs)⟩

theorem represents_new [Zero S] [LinearOrder S] (rnd : Nat → Nat) :
    Represents (new (S := S) rnd) [] := by
  have hlvl : ∀ r i, (new (S := S) rnd).lvl r i = default := by
    intro r i
    show (List.replicate SkiplistMaxLevel default)[i]?.getD default = default
    rw [List.getElem?_replicate]
    split <;> rfl
  constructor
  · constructor
    · simp [origin, new, node, createNode]
    · simp [origin, new, node, createNode]
    · simp [origin, new, height, node, createNode]
    · simp [origin, new]
    · simp
  · exact fun t ht => nomatch ht
  · intro i _
    refine ⟨fun _ => ?_, trivial⟩
    show (new rnd).lvl _ i = _
    rw [hlvl]
    rfl
  · intro i _
    rw [hlvl]
    rfl
  · rfl
  · exact List.Pairwise.nil
  · rfl
  · trivial
  · rfl

/-! ## Changes that leave the levels alone -/

/-- The same head and the same nodes, except for `backward`. -/
structure Keeps (sl sl' : SkipListIndex S) : Prop where
  head : sl'.head = sl.head
  next : sl'.nodes.next = sl.nodes.next
  ele : ∀ r, (sl'.node r).ele = (sl.node r).ele
  score : ∀ r, (sl'.node r).score = (sl.node r).score
  levels : ∀ r, (sl'.node r).levels = (sl.node r).levels

theorem Keeps.height (h : Keeps sl sl') (r : Ref) : sl'.height r = sl.height r := by
  unfold SkipListIndex.height
  rw [h.levels]

theorem Keeps.lvl (h : Keeps sl sl') (r : Ref) (i : Nat) : sl'.lvl r i = sl.lvl r i := by
  unfold SkipListIndex.lvl
  rw [h.levels]

theorem Keeps.placed (h : Keeps sl sl') {ts : List (Tower S)} (hplaced : Placed sl ts) :
    Placed sl' ts where
  ele t ht := (h.ele _).trans (hplaced.ele t ht)
  score t ht := (h.score _).trans (hplaced.score t ht)
  height t ht := (h.height _).trans (hplaced.height t ht)
  fresh t ht := by
    rw [h.next]
    exact hplaced.fresh t ht
  nodup := hplaced.nodup

theorem Keeps.trans {sl'' : SkipListIndex S} (h : Keeps sl sl') (h' : Keeps sl' sl'') :
    Keeps sl sl'' where
  head := h'.head.trans h.head
  next := h'.next.trans h.next
  ele r := (h'.ele r).trans (h.ele r)
  score r := (h'.score r).trans (h.score r)
  levels r := (h'.levels r).trans (h.levels r)

/-- `node.backward = b` -/
def putBackward (sl : SkipListIndex S) (r : Ref) (b : Option Ref) : SkipListIndex S :=
  sl.setNode r { sl.node r with backward := b }

theorem keeps_putBackward (sl : SkipListIndex S) (r : Ref) (b : Option Ref) :
    Keeps sl (sl.putBackward r b) := by
  have hnode : ∀ r', (sl.putBackward r b).node r' =
      if r' = r then { sl.node r with backward := b } else sl.node r' := fun _ => rfl
  refine ⟨rfl, rfl, ?_, ?_, ?_⟩ <;>
    intro r' <;> rw [hnode] <;> by_cases hr : r' = r <;> simp [hr]

theorem backward_putBackward (sl : SkipListIndex S) (r : Ref) (b : Option Ref) (r' : Ref) :
    ((sl.putBackward r b).node r').backward =
      if r' = r then b else (sl.node r').backward := by
  show (if r' = r then { sl.node r with backward := b } else sl.node r').backward = _
  split <;> rfl

/-- Every tower reaches the bottom level, so the next node there is the next
tower. -/
theorem LinkedAt.forward_zero {F B : List (Tower S)} {x : Tower S}
    (h : sl.LinkedAt 0 (F ++ x :: B)) (hx : 1 ≤ x.height) (hB : ∀ t ∈ B, 1 ≤ t.height) :
    (sl.lvl x.ref 0).forward = B.head?.map Tower.ref := by
  rw [h.lvl_mid hx]
  cases B with
  | nil => rfl
  | cons b B =>
    rw [gap_cons_high (hB b (List.mem_cons_self ..))]
    rfl

/-! ## The loops of `insert` -/

theorem lvl_allocNode (sl : SkipListIndex S) (nd : SkiplistNode S) {r : Ref}
    (hr : r < sl.nodes.next) (i : Nat) : (sl.allocNode nd).lvl r i = sl.lvl r i := by
  unfold lvl
  rw [show (sl.allocNode nd).node r = sl.node r from if_neg (Nat.ne_of_lt hr)]

/-- An allocation leaves the towers where they are. -/
theorem Placed.allocNode {ts : List (Tower S)} (h : Placed sl ts) (nd : SkiplistNode S) :
    Placed (sl.allocNode nd) ts := by
  have hnode : ∀ t ∈ ts, (sl.allocNode nd).node t.ref = sl.node t.ref :=
    fun t ht => if_neg (Nat.ne_of_lt (h.fresh t ht))
  constructor
  · intro t ht
    rw [hnode t ht, h.ele t ht]
  · intro t ht
    rw [hnode t ht, h.score t ht]
  · intro t ht
    unfold SkipListIndex.height
    rw [hnode t ht]
    exact h.height t ht
  · exact fun t ht => Nat.lt_succ_of_lt (h.fresh t ht)
  · exact h.nodup

/-- The new node is a tower like the others. -/
theorem Placed.insert {F B : List (Tower S)} (h : Placed sl (F ++ B)) (level : Nat) (score : S)
    (ele : Bytes) : Placed (sl.allocNode (createNode level score ele))
      (F ++ ⟨sl.nodes.next, score, ele, level⟩ :: B) := by
  have hold := h.allocNode (createNode level score ele)
  have hnew : (sl.allocNode (createNode level score ele)).node sl.nodes.next =
      createNode level score ele := if_pos rfl
  have hmem : ∀ t ∈ F ++ (⟨sl.nodes.next, score, ele, level⟩ : Tower S) :: B,
      t = ⟨sl.nodes.next, score, ele, level⟩ ∨ t ∈ F ++ B := by
    intro t ht
    simp only [List.mem_append, List.mem_cons] at ht ⊢
    tauto
  constructor
  · intro t ht
    rcases hmem t ht with rfl | ht
    · rw [hnew]
      rfl
    · exact hold.ele t ht
  · intro t ht
    rcases hmem t ht with rfl | ht
    · rw [hnew]
      rfl
    · exact hold.score t ht
  · intro t ht
    rcases hmem t ht with rfl | ht
    · unfold SkipListIndex.height
      rw [hnew]
      exact List.length_replicate
    · exact hold.height t ht
  · intro t ht
    rcases hmem t ht with rfl | ht
    · exact Nat.lt_succ_self _
    · exact hold.fresh t ht
  · have hperm : (F ++ (⟨sl.nodes.next, score, ele, level⟩ : Tower S) :: B).Perm
        (⟨sl.nodes.next, score, ele, level⟩ :: (F ++ B)) := List.perm_middle
    rw [(hperm.map Tower.ref).nodup_iff, List.map_cons, List.nodup_cons]
    refine ⟨?_, h.nodup⟩
    intro hin
    obtain ⟨t, ht, heq⟩ := List.mem_map.1 hin
    exact absurd heq (Nat.ne_of_lt (h.fresh t ht))

theorem randomLevel_bounds (sl : SkipListIndex S) :
    1 ≤ sl.randomLevel.1 ∧ sl.randomLevel.1 ≤ SkiplistMaxLevel := by
  unfold randomLevel SkiplistMaxLevel
  dsimp only
  split <;> omega

/-- The two loops of `insert` put the new node in at every level. -/
theorem weave {F B : List (Tower S)} (hplaced : Placed sl (F ++ B))
    (hlinked : ∀ i < sl.level, sl.LinkedAt i (F ++ B)) {path : List (Ref × UInt32)}
    (hlength : path.length = sl.level) (hpath : OnPath F path) {u : Ref}
    (hrank : index path 0 = .ok (u, UInt32.ofNat (F.length - 1))) {level : Nat}
    (hlevel : level ≤ sl.level) (score : S) (ele : Bytes) :
    ∃ s₁ s₂, forRange (link path sl.nodes.next) level 0
        (sl.allocNode (createNode level score ele)) = .ok s₁ ∧
      forRange (widen path) (s₁.level - level) level s₁ = .ok s₂ ∧
      Relinks (sl.allocNode (createNode level score ele)) s₂ ∧
      (∀ i < sl.level, s₂.LinkedAt i (F ++ ⟨sl.nodes.next, score, ele, level⟩ :: B)) ∧
      ∀ r i, r < sl.nodes.next → sl.level ≤ i → s₂.lvl r i = sl.lvl r i := by
  let x : Tower S := ⟨sl.nodes.next, score, ele, level⟩
  let s₀ := sl.allocNode (createNode level score ele)
  have hplaced₀ : Placed s₀ (F ++ B) := hplaced.allocNode _
  have hx : ∀ t ∈ F ++ B, t.ref ≠ x.ref := fun t ht => Nat.ne_of_lt (hplaced.fresh t ht)
  have hheight : s₀.height x.ref = level := by
    show (if sl.nodes.next = sl.nodes.next then createNode level score ele else _).levels.length = _
    rw [if_pos rfl]
    exact List.length_replicate
  have hlinked₀ : ∀ i < sl.level, s₀.LinkedAt i (F ++ B) := fun i hi =>
    Linked.congr_link (hlinked i hi) fun t ht => lvl_allocNode sl _ (hplaced.fresh t ht) i
  obtain ⟨s₁, hrun₁, hrelinks₁, hlinked₁, hother₁⟩ := forRange_sets level 0
    fun i s _ hi hrelinks hsame => link_spec (x := x) (hplaced₀.relinks hrelinks) hx
      ((hrelinks.height _).trans hheight) (show i < level by omega)
      ((hlinked₀ i (by omega)).congr hsame) hpath (by omega) hrank
  have hlevel₁ : s₁.level = sl.level := hrelinks₁.level
  obtain ⟨s₂, hrun₂, hrelinks₂, hlinked₂, hother₂⟩ := forRange_sets (s₁.level - level) level
    fun i s hlo hi hrelinks hsame => widen_spec (x := x)
      (hplaced₀.relinks (hrelinks₁.trans hrelinks)) hx hlo
      ((hlinked₀ i (by omega)).congr fun r => (hsame r).trans (hother₁ r i (.inr (.inl (by omega)))))
      hpath (by omega)
  refine ⟨s₁, s₂, hrun₁, hrun₂, hrelinks₁.trans hrelinks₂, ?_, ?_⟩
  · intro i hi
    by_cases hlow : i < level
    · exact (hlinked₁ i (Nat.zero_le i) (by omega)).congr fun r => hother₂ r i (.inl hlow)
    · exact hlinked₂ i (by omega) (by omega)
  · intro r i hr hi
    rw [hother₂ r i (.inr (.inl (by omega))), hother₁ r i (.inr (.inl (by omega)))]
    exact lvl_allocNode sl _ hr i

/-! ## The search -/

theorem exists_split [LinearOrder S] {xs : List (Tower S)}
    (hsorted : xs.Pairwise fun a b => a.key ≤ b.key) (k : S ×ₗ Bytes) :
    ∃ A B, xs = A ++ B ∧ (∀ a ∈ A, a.key < k) ∧ ∀ b ∈ B, k ≤ b.key := by
  induction xs with
  | nil => exact ⟨[], [], rfl, by simp, by simp⟩
  | cons x xs ih =>
    rw [List.pairwise_cons] at hsorted
    by_cases hx : x.key < k
    · obtain ⟨A, B, rfl, hA, hB⟩ := ih hsorted.2
      refine ⟨x :: A, B, rfl, ?_, hB⟩
      intro a ha
      rcases List.mem_cons.1 ha with rfl | ha
      · exact hx
      · exact hA a ha
    · refine ⟨[], x :: xs, rfl, by simp, ?_⟩
      have hk : k ≤ x.key := not_lt.1 hx
      intro b hb
      rcases List.mem_cons.1 hb with rfl | hb
      · exact hk
      · exact hk.trans (hsorted.1 b hb)

/-- The entry in front of the others that are not smaller. -/
theorem sorted_insert [LinearOrder S] {A B : List (Tower S)} {x : Tower S}
    (hsorted : (A ++ B).Pairwise fun a b => a.key ≤ b.key)
    (hA : ∀ a ∈ A, a.key < x.key) (hB : ∀ b ∈ B, x.key ≤ b.key) :
    (A ++ x :: B).Pairwise fun a b => a.key ≤ b.key := by
  rw [List.pairwise_append] at hsorted ⊢
  refine ⟨hsorted.1, List.pairwise_cons.2 ⟨hB, hsorted.2.1⟩, ?_⟩
  intro a ha b hb
  rcases List.mem_cons.1 hb with rfl | hb
  · exact (hA a ha).le
  · exact hsorted.2.2 a ha b hb

theorem Placed.before_iff [LinearOrder S] {ts : List (Tower S)} (h : Placed sl ts) {t : Tower S}
    (ht : t ∈ ts) (score : S) (ele : Bytes) :
    before score ele (sl.node t.ref) = true ↔ t.key < toLex (score, ele) := by
  unfold before Tower.key
  rw [decide_eq_true_iff, h.score t ht, h.ele t ht, Prod.Lex.toLex_lt_toLex]

/-- Entry 0 of the path is the last tower. -/
theorem OnPath.first {F : List (Tower S)} {path : List (Ref × UInt32)} (h : OnPath F path)
    (hlength : 0 < path.length) (hheights : ∀ t ∈ F, 1 ≤ t.height) :
    ∃ P y, F = P ++ [y] ∧ index path 0 = .ok (y.ref, UInt32.ofNat P.length) := by
  obtain ⟨P, y, C, hcut, hindex⟩ := h 0 hlength
  cases C with
  | nil => exact ⟨P, y, hcut.eq, hindex⟩
  | cons c C =>
    have hlow := (low_cons.1 hcut.low).1
    have hhigh := hheights c (by simp [hcut.eq])
    omega

section

variable [Zero S] [LinearOrder S] {xs A B : List (Tower S)}

theorem Represents.level_le (h : Represents sl xs) : sl.level ≤ SkiplistMaxLevel := by
  rw [h.level, topLevel_le_iff]
  exact ⟨by decide, fun t ht => (h.heights t ht).2⟩

theorem Represents.level_pos (h : Represents sl xs) : 0 < sl.level := by
  rw [h.level]
  exact one_le_topLevel xs

/-- The towers with the head in front all have a bottom level. -/
theorem Represents.one_le_height (h : Represents sl xs) : ∀ t ∈ sl.origin :: xs, 1 ≤ t.height := by
  intro t ht
  rcases List.mem_cons.1 ht with rfl | ht
  · show 1 ≤ SkiplistMaxLevel
    decide
  · exact (h.heights t ht).1

/-- A search for an entry with the towers `A` in front of it. -/
theorem Represents.descend (h : Represents sl (A ++ B)) {pass : SkiplistNode S → Bool}
    (hA : ∀ a ∈ A, pass (sl.node a.ref) = true) (hB : ∀ b ∈ B, pass (sl.node b.ref) = false) :
    ∃ path, sl.descend pass sl.level sl.head 0 = .ok path ∧ path.length = sl.level ∧
      OnPath (sl.origin :: A) path :=
  descend_spec (P := []) (y := sl.origin) (C := A) h.placed hB sl.level h.linked rfl h.level_le hA

/-- A new level gets a head with nothing behind it. -/
theorem Represents.enterHead (h : Represents sl xs) {s : SkipListIndex S} (hrelinks : Relinks sl s)
    {i : Nat} (hi : sl.level ≤ i) (hmax : i < SkiplistMaxLevel)
    (hsame : ∀ r, s.lvl r i = sl.lvl r i) :
    ∃ s', s.enterHead i = .ok s' ∧ Sets s s' i (sl.origin :: xs) := by
  have hhead : s.head = sl.origin.ref := hrelinks.head
  have hheight : i < s.height sl.origin.ref := by
    rw [hrelinks.height, h.placed.height _ (List.mem_cons_self ..)]
    exact hmax
  have hlow : Low Tower.height i xs := by
    rw [h.level] at hi
    exact (topLevel_le_iff.1 hi).2
  have hnone : (s.lvl sl.origin.ref i).forward = none := by
    rw [hsame]
    exact h.above i hi
  refine ⟨s.putLevel sl.origin.ref i ⟨none, s.length⟩, ?_, relinks_putLevel .., ?_, ?_⟩
  · unfold SkipListIndex.enterHead
    rw [hhead, levelAt_eq hheight]
    show s.setLevel _ i ⟨(s.lvl sl.origin.ref i).forward, s.length⟩ = _
    rw [hnone, setLevel_eq hheight]
  · exact fun r j => other_putLevel (List.mem_cons_self ..) hheight _
  · refine linkedAt_cons_low hlow ?_
    rw [lvl_putLevel hheight, if_pos ⟨rfl, rfl⟩, hrelinks.length, h.length]

/-- The levels a tall new node adds are linked up, with nothing on them. -/
theorem Represents.raise (h : Represents sl (A ++ B)) {level : Nat}
    (hlevel : level ≤ SkiplistMaxLevel) {path : List (Ref × UInt32)}
    (hlength : path.length = sl.level) (hpath : OnPath (sl.origin :: A) path) :
    ∃ path' s, sl.raise level path = .ok (path', { s with level := max sl.level level }) ∧
      Relinks sl s ∧ path'.length = max sl.level level ∧ OnPath (sl.origin :: A) path' ∧
      (∀ i < max sl.level level, s.LinkedAt i (sl.origin :: (A ++ B))) ∧
      ∀ r i, max sl.level level ≤ i → s.lvl r i = sl.lvl r i := by
  by_cases hraise : level > sl.level
  · have hmax : max sl.level level = level := Nat.max_eq_right (Nat.le_of_lt hraise)
    rw [hmax]
    obtain ⟨s, hrun, hrelinks, hlinked, hother⟩ := forRange_sets
      (level - sl.level) sl.level fun i s hi hhi hrelinks hsame =>
        h.enterHead hrelinks hi (by omega) hsame
    rw [Nat.add_sub_cancel' (Nat.le_of_lt hraise)] at hlinked hother
    refine ⟨path ++ List.replicate (level - sl.level) (sl.head, 0), s, ?_, hrelinks, ?_, ?_, ?_, ?_⟩
    · unfold SkipListIndex.raise
      rw [if_pos hraise, hrun]
      rfl
    · rw [List.length_append, List.length_replicate, hlength]
      omega
    · refine hpath.replicate _ ?_ ?_
      · show path.length + (level - sl.level) ≤ SkiplistMaxLevel
        omega
      · intro i hi
        rw [hlength, h.level] at hi
        exact fun t ht => (topLevel_le_iff.1 hi).2 t (List.mem_append_left B ht)
    · intro i hi
      by_cases hold : i < sl.level
      · exact (h.linked i hold).congr fun r => hother r i (.inl hold)
      · exact hlinked i (Nat.not_lt.1 hold) hi
    · exact fun r i hi => hother r i (.inr (.inl hi))
  · have hmax : max sl.level level = sl.level := Nat.max_eq_left (Nat.not_lt.1 hraise)
    rw [hmax]
    refine ⟨path, sl, ?_, Relinks.refl sl, hlength, hpath, h.linked, fun _ _ _ => rfl⟩
    unfold SkipListIndex.raise
    rw [if_neg hraise]
    rfl

/-! ## `insert` -/

/-- What `insert` writes to `backward` of the new node. -/
theorem Represents.backward_eq (h : Represents sl (A ++ B)) {P : List (Tower S)} {y : Tower S}
    (hy : sl.origin :: A = P ++ [y]) : (if y.ref = sl.head then none else some y.ref) = lastRef A := by
  rcases List.eq_nil_or_concat A with rfl | ⟨A', a, rfl⟩
  · obtain rfl : sl.origin = y := by
      simpa using congrArg List.getLast? hy
    exact if_pos rfl
  · obtain rfl : a = y := by
      rw [List.concat_eq_append, ← List.cons_append] at hy
      exact List.singleton_inj.1 (List.append_inj' hy rfl).2
    have hne : a.ref ≠ sl.head := by
      have hnodup := h.placed.nodup
      simp only [List.map_cons, List.nodup_cons] at hnodup
      intro heq
      exact hnodup.1 (List.mem_map.2 ⟨a, by simp, heq⟩)
    rw [if_neg hne]
    simp [lastRef]

omit [Zero S] [LinearOrder S] in
theorem ref_ne_of_nodup {x : Tower S} (h : ((A ++ x :: B).map Tower.ref).Nodup) :
    ∀ t ∈ A ++ B, t.ref ≠ x.ref := by
  rw [List.map_append, List.map_cons, List.nodup_middle, List.nodup_cons, ← List.map_append] at h
  exact fun t ht heq => h.1 (heq ▸ List.mem_map_of_mem ht)

omit [Zero S] [LinearOrder S] in
theorem linkBack_eq {s : SkipListIndex S} {x u : Ref} {back : Option Ref}
    (hheight : 0 < s.height x) (hu : (if u = s.head then none else some u) = back) :
    s.linkBack x u = match (s.lvl x 0).forward with
      | some next => .ok ((s.putBackward x back).putBackward next (some x))
      | none => .ok { s.putBackward x back with tail := some x } := by
  have hkeeps := keeps_putBackward s x back
  unfold linkBack
  rw [hu]
  show ((s.putBackward x back).levelAt x 0 >>= _) = _
  rw [levelAt_eq (by rw [hkeeps.height]; exact hheight), hkeeps.lvl]
  rfl

omit [Zero S] [LinearOrder S] in
/-- With `x` behind `A`, `backward` and `tail` lead through it. -/
theorem linkBack_backs {s : SkipListIndex S} {x : Tower S} {u : Ref}
    (hnodup : ((A ++ x :: B).map Tower.ref).Nodup) (hheight : 0 < s.height x.ref)
    (hforward : (s.lvl x.ref 0).forward = B.head?.map Tower.ref)
    (hback : s.Backs none (A ++ B)) (htail : s.tail = lastRef (A ++ B))
    (hu : (if u = s.head then none else some u) = lastRef A) :
    ∃ s', s.linkBack x.ref u = .ok s' ∧ Keeps s s' ∧ s'.level = s.level ∧ s'.length = s.length ∧
      s'.Backs none (A ++ x :: B) ∧ s'.tail = lastRef (A ++ x :: B) := by
  have hkeeps := keeps_putBackward s x.ref (lastRef A)
  have hrun := linkBack_eq hheight hu
  rw [hforward] at hrun
  have hnex := ref_ne_of_nodup hnodup
  rw [backs_append] at hback
  cases B with
  | nil =>
    refine ⟨_, hrun, ⟨hkeeps.head, hkeeps.next, hkeeps.ele, hkeeps.score, hkeeps.levels⟩, rfl, rfl,
      ?_, ?_⟩
    · rw [backs_append]
      refine ⟨hback.1.congr fun t ht => ?_, ?_, trivial⟩
      · show ((s.putBackward x.ref (lastRef A)).node t.ref).backward = _
        rw [backward_putBackward, if_neg (hnex t (by simp [ht]))]
      · show ((s.putBackward x.ref (lastRef A)).node x.ref).backward = _
        rw [backward_putBackward, if_pos rfl, Option.or_none]
    · rw [lastRef_append]
      rfl
  | cons b B =>
    have hneb : ∀ t ∈ A ++ [x] ++ B, t.ref ≠ b.ref := ref_ne_of_nodup (by simpa using hnodup)
    have hbackward : ∀ r, (((s.putBackward x.ref (lastRef A)).putBackward b.ref (some x.ref)).node
        r).backward = if r = b.ref then some x.ref else if r = x.ref then lastRef A
          else (s.node r).backward := by
      intro r
      rw [backward_putBackward, backward_putBackward]
    refine ⟨_, hrun, hkeeps.trans (keeps_putBackward ..), rfl, rfl, ?_, ?_⟩
    · rw [backs_append]
      refine ⟨hback.1.congr fun t ht => ?_, ?_, ?_, hback.2.2.congr fun t ht => ?_⟩
      · rw [hbackward, if_neg (hneb t (by simp [ht])), if_neg (hnex t (by simp [ht]))]
      · rw [hbackward, if_neg (hneb x (by simp)), if_pos rfl, Option.or_none]
      · rw [hbackward, if_pos rfl]
      · rw [hbackward, if_neg (hneb t (by simp [ht])), if_neg (hnex t (by simp [ht]))]
    · show s.tail = _
      rw [htail, lastRef_append, lastRef_append]
      exact (lastRef_append [x] b B).symm

/-- The last steps of `insert`: once the new tower is linked up at all
levels, `backward`, `tail` and the length follow. -/
theorem linkBack_represents {s : SkipListIndex S} {x : Tower S} {u : Ref}
    (hplaced : Placed s (s.origin :: (A ++ x :: B)))
    (hheights : ∀ t ∈ A ++ x :: B, 1 ≤ t.height ∧ t.height ≤ SkiplistMaxLevel)
    (hlinked : ∀ i < s.level, s.LinkedAt i (s.origin :: (A ++ x :: B)))
    (habove : ∀ i, s.level ≤ i → (s.lvl s.head i).forward = none)
    (hlevel : s.level = topLevel (A ++ x :: B))
    (hsorted : (A ++ x :: B).Pairwise fun a b => a.key ≤ b.key)
    (hlength : s.length = UInt32.ofNat (A ++ B).length) (hback : s.Backs none (A ++ B))
    (htail : s.tail = lastRef (A ++ B))
    (hu : (if u = s.head then none else some u) = lastRef A) :
    ∃ s', s.linkBack x.ref u = .ok s' ∧
      Represents { s' with length := s'.length + 1 } (A ++ x :: B) := by
  have hheightx : 1 ≤ x.height := (hheights x (by simp)).1
  have hforward : (s.lvl x.ref 0).forward = B.head?.map Tower.ref := by
    have hpos : 0 < s.level := by
      rw [hlevel]
      exact one_le_topLevel _
    have hrow := hlinked 0 hpos
    rw [← List.cons_append] at hrow
    exact hrow.forward_zero hheightx fun t ht => (hheights t (by simp [ht])).1
  obtain ⟨s', hrun, hkeeps, hlevel', hlength', hback', htail'⟩ := linkBack_backs
    (List.nodup_cons.1 hplaced.nodup).2 (by rw [hplaced.height x (by simp)]; exact hheightx)
    hforward hback htail hu
  have horigin : s'.origin = s.origin := by
    unfold origin
    rw [hkeeps.head]
  refine ⟨s', hrun, ?_⟩
  constructor
  · have hp := hkeeps.placed hplaced
    rw [← horigin] at hp
    exact ⟨hp.ele, hp.score, hp.height, hp.fresh, hp.nodup⟩
  · exact hheights
  · intro i hi
    have hl := (hlinked i (hlevel' ▸ hi)).congr fun r => hkeeps.lvl r i
    rw [← horigin] at hl
    exact hl
  · intro i hi
    show (s'.lvl s'.head i).forward = none
    rw [hkeeps.lvl, hkeeps.head]
    exact habove i (hlevel' ▸ hi)
  · exact hlevel'.trans hlevel
  · exact hsorted
  · show s'.length + 1 = _
    rw [hlength', hlength, List.length_append, List.length_append, List.length_cons,
      ← Nat.add_assoc, UInt32.ofNat_add _ 1]
    rfl
  · exact hback'.congr fun _ _ => rfl
  · exact htail'

/-- The random generator is no part of the representation. -/
theorem Represents.setRnd (h : Represents sl xs) (rnd : Nat → Nat) :
    Represents { sl with rnd := rnd } xs :=
  ⟨⟨h.placed.ele, h.placed.score, h.placed.height, h.placed.fresh, h.placed.nodup⟩, h.heights,
    h.linked, h.above, h.level, h.sorted, h.length, h.backward.congr fun _ _ => rfl, h.tail⟩

theorem Represents.descend_before (h : Represents sl (A ++ B)) {score : S} {ele : Bytes}
    (hA : ∀ a ∈ A, a.key < toLex (score, ele)) (hB : ∀ b ∈ B, toLex (score, ele) ≤ b.key) :
    ∃ path, sl.descend (before score ele) sl.level sl.head 0 = .ok path ∧
      path.length = sl.level ∧ OnPath (sl.origin :: A) path := by
  apply h.descend
  · intro a ha
    exact (h.placed.before_iff (by simp [ha]) score ele).2 (hA a ha)
  · intro b hb
    refine Bool.eq_false_iff.2 fun hbefore => ?_
    exact absurd ((h.placed.before_iff (by simp [hb]) score ele).1 hbefore) (not_lt.2 (hB b hb))

/-- The new tower is as high as `randomLevel` says. -/
theorem insert_tower (h : Represents sl xs) (score : S) (ele : Bytes) :
    ∃ sl' A B x, sl.insert score ele = .ok sl' ∧ xs = A ++ B ∧
      x.score = score ∧ x.ele = ele ∧ (∀ a ∈ A, a.key < x.key) ∧ (∀ b ∈ B, x.key ≤ b.key) ∧
      Represents sl' (A ++ x :: B) ∧ x.height = sl.randomLevel.1 := by
  obtain ⟨A, B, rfl, hA, hB⟩ := exists_split h.sorted (toLex (score, ele))
  obtain ⟨path, hdescend, hlength, hpath⟩ := h.descend_before hA hB
  obtain ⟨hlevel1, hlevel32⟩ := randomLevel_bounds sl
  generalize hrandom : sl.randomLevel = random at hlevel1 hlevel32
  obtain ⟨level, sl₁⟩ := random
  obtain rfl : sl₁ = { sl with rnd := fun k => sl.rnd (k + 1) } := (congrArg Prod.snd hrandom).symm
  have h₁ := h.setRnd fun k => sl.rnd (k + 1)
  obtain ⟨path', s, hraise, hrelinks, hlength', hpath', hlinked, habove⟩ :=
    h₁.raise hlevel32 hlength hpath
  -- the new levels do not change what is on the old ones
  let s₀ : SkipListIndex S := { s with level := max sl.level level }
  have hplaced : Placed s₀ (sl.origin :: A ++ B) := by
    have hp := h₁.placed.relinks hrelinks
    exact ⟨hp.ele, hp.score, hp.height, hp.fresh, hp.nodup⟩
  have hmax : 0 < max sl.level level := Nat.lt_of_lt_of_le h.level_pos (Nat.le_max_left ..)
  obtain ⟨P, y, hF, hindex⟩ := hpath'.first (by rw [hlength']; exact hmax) fun t ht =>
    h.one_le_height t (by simp at ht ⊢; tauto)
  have hrank : index path' 0 = .ok (y.ref, UInt32.ofNat ((sl.origin :: A).length - 1)) := by
    have hlen : (sl.origin :: A).length = P.length + 1 := by
      rw [show sl.origin :: A = P ++ [y] from hF, List.length_append, List.length_singleton]
    rw [hindex, hlen, Nat.add_sub_cancel]
  obtain ⟨s₁, s₂, hrun₁, hrun₂, hrelinks₂, hlinked₂, habove₂⟩ := weave hplaced hlinked
    hlength' hpath' hrank (Nat.le_max_right ..) score ele
  have hhead₂ : s₂.head = sl.head := hrelinks₂.head.trans hrelinks.head
  have horigin₂ : s₂.origin = sl.origin := by
    unfold origin
    rw [hhead₂]
  have hlevel₂ : s₂.level = max sl.level level := hrelinks₂.level
  let x : Tower S := ⟨s₀.nodes.next, score, ele, level⟩
  have hback₂ : s₂.Backs none (A ++ B) := by
    refine h₁.backward.congr fun t ht => ?_
    have hfresh : t.ref < s₀.nodes.next := hplaced.fresh t (by simp at ht ⊢; tauto)
    rw [hrelinks₂.backward]
    show (if t.ref = s₀.nodes.next then _ else s₀.node t.ref).backward = _
    rw [if_neg (Nat.ne_of_lt hfresh)]
    exact hrelinks.backward t.ref
  obtain ⟨s₃, hlinkBack, hrep⟩ := linkBack_represents (s := s₂) (x := x) (A := A) (B := B)
    (u := y.ref)
    (by rw [horigin₂]; exact (hplaced.insert level score ele).relinks hrelinks₂)
    (by
      intro t ht
      rcases List.mem_append.1 ht with ht | ht
      · exact h.heights t (by simp [ht])
      · rcases List.mem_cons.1 ht with rfl | ht
        · exact ⟨hlevel1, hlevel32⟩
        · exact h.heights t (by simp [ht]))
    (by rw [horigin₂, hlevel₂]; exact hlinked₂)
    (by
      intro i hi
      rw [hlevel₂] at hi
      rw [hhead₂, habove₂ sl.head i (hplaced.fresh sl.origin (by simp)) hi]
      show (s.lvl sl.head i).forward = none
      rw [habove sl.head i hi]
      exact h.above i (Nat.le_trans (Nat.le_max_left ..) hi))
    (by rw [hlevel₂, topLevel_insert, h.level])
    (sorted_insert h.sorted hA hB)
    (by rw [hrelinks₂.length]; exact hrelinks.length.trans h.length)
    hback₂
    (by rw [hrelinks₂.tail]; exact hrelinks.tail.trans h.tail)
    (by rw [hhead₂]; exact h.backward_eq hF)
  refine ⟨_, A, B, x, ?_, rfl, rfl, rfl, hA, hB, hrep, rfl⟩
  unfold insert
  rw [hdescend]
  rw [hrandom]
  show (SkipListIndex.raise _ level path >>= _) = _
  rw [hraise]
  show (forRange (link path' s₀.nodes.next) level 0 (s₀.allocNode _) >>= _) = _
  rw [hrun₁]
  show (forRange (widen path') (s₁.level - level) level s₁ >>= _) = _
  rw [hrun₂]
  show (index path' 0 >>= _) = _
  rw [hindex]
  show (s₂.linkBack s₀.nodes.next y.ref >>= _) = _
  rw [hlinkBack]
  rfl

theorem insert_represents (h : Represents sl xs) (score : S) (ele : Bytes) :
    ∃ sl' A B x, sl.insert score ele = .ok sl' ∧ xs = A ++ B ∧
      x.score = score ∧ x.ele = ele ∧ (∀ a ∈ A, a.key < x.key) ∧ (∀ b ∈ B, x.key ≤ b.key) ∧
      Represents sl' (A ++ x :: B) := by
  obtain ⟨sl', A, B, x, hinsert, hxs, hscore, hele, hA, hB, hrep, -⟩ := insert_tower h score ele
  exact ⟨sl', A, B, x, hinsert, hxs, hscore, hele, hA, hB, hrep⟩

/-! ## `deleteNode` -/

omit [Zero S] [LinearOrder S] in
/-- The level falls to that of the tallest tower. -/
theorem lowered_eq {s : SkipListIndex S} {o : Tower S} (ho : o.ref = s.head)
    (hplaced : Placed s (o :: xs)) (n : Nat) (hlinked : ∀ i < n, s.LinkedAt i (o :: xs))
    (hn : 1 ≤ n) (hheight : n ≤ o.height) (hlow : Low Tower.height n xs) :
    s.lowered n = .ok (topLevel xs) := by
  have htop : topLevel xs ≤ n := topLevel_le_iff.2 ⟨hn, hlow⟩
  match n with
  | 1 =>
    rw [Nat.le_antisymm htop (one_le_topLevel xs)]
    rfl
  | n + 2 =>
    have hhead : n + 1 < s.height s.head := by
      rw [← ho, hplaced.height o (List.mem_cons_self ..)]
      omega
    have hlvl : s.lvl s.head (n + 1) = Tower.render (gap Tower.height (n + 1) xs) := by
      rw [← ho]
      exact LinkedAt.lvl_mid (F := []) (hlinked (n + 1) (by omega)) (by omega)
    unfold lowered
    rw [levelAt_eq hhead]
    show (if (s.lvl s.head (n + 1)).forward = none then s.lowered (n + 1) else .ok (n + 2)) = _
    rw [hlvl]
    have hcases : Low Tower.height (n + 1) xs ∨ _ := low_or_high (n + 1) xs
    rcases hcases with hlow' | ⟨C, t, D, hxs, hC, ht⟩
    · rw [gap_low hlow']
      exact lowered_eq ho hplaced (n + 1) (fun i hi => hlinked i (by omega)) (by omega) (by omega)
        hlow'
    · have hge : n + 2 ≤ topLevel xs := Nat.le_trans ht (low_topLevel xs t (by simp [hxs]))
      rw [Nat.le_antisymm htop hge, hxs, gap_append_high hC ht]
      rfl

omit [Zero S] [LinearOrder S] in
theorem unlinkBack_eq {s : SkipListIndex S} {x : Ref} (hheight : 0 < s.height x) :
    s.unlinkBack x = match (s.lvl x 0).forward with
      | some next => .ok (s.putBackward next (s.node x).backward)
      | none => .ok { s with tail := (s.node x).backward } := by
  unfold unlinkBack
  rw [levelAt_eq hheight]
  rfl

omit [Zero S] [LinearOrder S] in
/-- Behind `x`, `backward` and `tail` lead past it. -/
theorem unlinkBack_backs {s : SkipListIndex S} {x : Tower S}
    (hnodup : ((A ++ x :: B).map Tower.ref).Nodup) (hheight : 0 < s.height x.ref)
    (hforward : (s.lvl x.ref 0).forward = B.head?.map Tower.ref)
    (hback : s.Backs none (A ++ x :: B)) (htail : s.tail = lastRef (A ++ x :: B)) :
    ∃ s', s.unlinkBack x.ref = .ok s' ∧ Keeps s s' ∧ s'.level = s.level ∧ s'.length = s.length ∧
      s'.Backs none (A ++ B) ∧ s'.tail = lastRef (A ++ B) := by
  have hrun := unlinkBack_eq hheight
  rw [hforward] at hrun
  rw [backs_append] at hback
  obtain ⟨hA, hx, hB⟩ := hback
  rw [Option.or_none] at hx
  cases B with
  | nil =>
    refine ⟨_, hrun, ⟨rfl, rfl, fun _ => rfl, fun _ => rfl, fun _ => rfl⟩, rfl, rfl, ?_, ?_⟩
    · rw [List.append_nil]
      exact hA.congr fun _ _ => rfl
    · rw [List.append_nil]
      exact hx
  | cons b B =>
    refine ⟨_, hrun, keeps_putBackward .., rfl, rfl, ?_, ?_⟩
    · have hne : ∀ t ∈ A ++ [x] ++ B, t.ref ≠ b.ref := ref_ne_of_nodup (by simpa using hnodup)
      rw [backs_append]
      refine ⟨hA.congr fun t ht => ?_, ?_, hB.2.congr fun t ht => ?_⟩
      · rw [backward_putBackward, if_neg (hne t (by simp [ht]))]
      · rw [backward_putBackward, if_pos rfl, hx, Option.or_none]
      · rw [backward_putBackward, if_neg (hne t (by simp [ht]))]
    · show s.tail = _
      rw [htail, lastRef_append, lastRef_append]
      exact lastRef_append [x] b B

theorem deleteNode_represents {x : Tower S} (h : Represents sl (A ++ x :: B))
    {path : List (Ref × UInt32)} (hlength : path.length = sl.level)
    (hpath : OnPath (sl.origin :: A) path) :
    ∃ sl', sl.deleteNode x.ref path = .ok sl' ∧ Represents sl' (A ++ B) := by
  have hplaced : Placed sl (sl.origin :: A ++ x :: B) := h.placed
  obtain ⟨s₁, hrun₁, hrelinks₁, hlinked₁, hother₁⟩ := forRange_sets sl.level 0
    fun i s _ hi hrelinks hsame => unlink_spec (B := B) (x := x) (hplaced.relinks hrelinks)
      ((h.linked i (by omega)).congr hsame) hpath (by omega)
  have hx : x.ref ∉ (sl.origin :: A ++ B).map Tower.ref := by
    intro hin
    obtain ⟨t, ht, heq⟩ := List.mem_map.1 hin
    exact hplaced.ne_mid t ht heq
  have hheightx : 1 ≤ x.height := (h.heights x (by simp)).1
  have hforward : (s₁.lvl x.ref 0).forward = B.head?.map Tower.ref := by
    have hrow : sl.LinkedAt 0 (sl.origin :: A ++ x :: B) := h.linked 0 h.level_pos
    rw [hother₁ x.ref 0 (.inr (.inr hx))]
    exact hrow.forward_zero hheightx fun t ht => (h.heights t (by simp [ht])).1
  obtain ⟨s₂, hrun₂, hkeeps, hlevel₂, hlength₂, hback₂, htail₂⟩ := unlinkBack_backs (s := s₁)
    (List.nodup_cons.1 h.placed.nodup).2
    (by rw [hrelinks₁.height, h.placed.height x (by simp)]; exact hheightx) hforward
    (h.backward.congr fun t _ => hrelinks₁.backward t.ref) (hrelinks₁.tail.trans h.tail)
  have hhead : sl.origin.ref = s₂.head := (hkeeps.head.trans hrelinks₁.head).symm
  have horigin : s₂.origin = sl.origin := by
    unfold origin
    rw [← hhead]
    rfl
  have hplaced₂ : Placed s₂ (sl.origin :: (A ++ B)) := by
    have hp := hkeeps.placed (h.placed.relinks hrelinks₁)
    have hsub : (sl.origin :: (A ++ B)).Sublist (sl.origin :: (A ++ x :: B)) :=
      ((List.sublist_cons_self x B).append_left A).cons_cons _
    exact ⟨fun t ht => hp.ele t (hsub.subset ht), fun t ht => hp.score t (hsub.subset ht),
      fun t ht => hp.height t (hsub.subset ht), fun t ht => hp.fresh t (hsub.subset ht),
      hp.nodup.sublist (hsub.map _)⟩
  have hlinked₂ : ∀ i < sl.level, s₂.LinkedAt i (sl.origin :: (A ++ B)) := fun i hi =>
    (hlinked₁ i (Nat.zero_le i) (by omega)).congr fun r => hkeeps.lvl r i
  have hlow : Low Tower.height sl.level (A ++ B) := by
    intro t ht
    rw [h.level]
    exact low_topLevel (A ++ x :: B) t (by simp at ht ⊢; tauto)
  have hlowered := lowered_eq hhead hplaced₂ sl.level hlinked₂ h.level_pos h.level_le hlow
  have htop : topLevel (A ++ B) ≤ sl.level := topLevel_le_iff.2 ⟨h.level_pos, hlow⟩
  refine ⟨{ s₂ with level := topLevel (A ++ B), length := s₂.length - 1 }, ?_, ?_⟩
  · unfold deleteNode
    rw [hrun₁]
    show (s₁.unlinkBack x.ref >>= _) = _
    rw [hrun₂]
    show (s₂.lowered s₂.level >>= _) = _
    rw [hlevel₂, hrelinks₁.level, hlowered]
    rfl
  · constructor
    · show Placed _ (s₂.origin :: (A ++ B))
      rw [horigin]
      exact ⟨hplaced₂.ele, hplaced₂.score, hplaced₂.height, hplaced₂.fresh, hplaced₂.nodup⟩
    · exact fun t ht => h.heights t (by simp at ht ⊢; tauto)
    · intro i hi
      show SkipListIndex.LinkedAt _ i (s₂.origin :: (A ++ B))
      rw [horigin]
      exact hlinked₂ i (Nat.lt_of_lt_of_le hi htop)
    · intro i hi
      show (s₂.lvl s₂.head i).forward = none
      by_cases hold : i < sl.level
      · have hgap := gap_low (topLevel_le_iff.1 hi).2
        have hrow := LinkedAt.lvl_mid (F := []) (hlinked₂ i hold)
          (Nat.lt_of_lt_of_le hold h.level_le)
        rw [← hhead, hrow, hgap]
        rfl
      · rw [hkeeps.lvl, hkeeps.head, hother₁ _ i (.inr (.inl (by omega))), hrelinks₁.head]
        exact h.above i (Nat.not_lt.1 hold)
    · rfl
    · exact h.sorted.sublist ((List.sublist_cons_self x B).append_left A)
    · show s₂.length - 1 = _
      rw [hlength₂, hrelinks₁.length, h.length, List.length_append, List.length_append,
        List.length_cons, ← Nat.add_assoc, UInt32.ofNat_add _ 1]
      exact UInt32.add_sub_cancel ..
    · exact hback₂.congr fun _ _ => rfl
    · exact htail₂

omit [Zero S] in
/-- The search ends at `y`; the entry behind it is the one that may go. -/
theorem removeByScore_eq {y : Ref} {rank : UInt32} {path : List (Ref × UInt32)}
    {score : S} {ele : Bytes}
    (hdescend : sl.descend (before score ele) sl.level sl.head 0 = .ok path)
    (hindex : index path 0 = .ok (y, rank)) (hheight : 0 < sl.height y) :
    sl.removeByScore score ele = match (sl.lvl y 0).forward with
      | none => .ok (0, sl)
      | some x =>
        if (sl.node x).score = score ∧ (sl.node x).ele = ele then do
          let sl ← sl.deleteNode x path
          pure (1, sl)
        else .ok (0, sl) := by
  unfold removeByScore
  rw [hdescend]
  show (index path 0 >>= _) = _
  rw [hindex]
  show (sl.levelAt y 0 >>= _) = _
  rw [levelAt_eq hheight]
  rfl

/-- The tower that goes is the first with the entry. -/
theorem removeByScore_tower (h : Represents sl xs) (score : S) (ele : Bytes) :
    (∃ sl' A x B, sl.removeByScore score ele = .ok (1, sl') ∧ xs = A ++ x :: B ∧
        x.score = score ∧ x.ele = ele ∧ Represents sl' (A ++ B) ∧
        ∀ a ∈ A, ¬ (a.score = score ∧ a.ele = ele)) ∨
      sl.removeByScore score ele = .ok (0, sl) ∧ ∀ t ∈ xs, ¬ (t.score = score ∧ t.ele = ele) := by
  obtain ⟨A, B, rfl, hA, hB⟩ := exists_split h.sorted (toLex (score, ele))
  obtain ⟨path, hdescend, hlength, hpath⟩ := h.descend_before hA hB
  obtain ⟨P, y, hF, hindex⟩ := hpath.first (by rw [hlength]; exact h.level_pos) fun t ht =>
    h.one_le_height t (by simp at ht ⊢; tauto)
  have hrow : sl.origin :: (A ++ B) = P ++ y :: B := by
    rw [← List.cons_append, hF, List.append_assoc]
    rfl
  have hy : y ∈ sl.origin :: (A ++ B) := by simp [hrow]
  have hforward : (sl.lvl y.ref 0).forward = B.head?.map Tower.ref := by
    have hlinked := h.linked 0 h.level_pos
    rw [hrow] at hlinked
    exact hlinked.forward_zero (h.one_le_height y hy) fun t ht => (h.heights t (by simp [ht])).1
  have hheight : 0 < sl.height y.ref := by
    rw [h.placed.height y hy]
    exact h.one_le_height y hy
  have hrun := removeByScore_eq hdescend hindex hheight
  rw [hforward] at hrun
  -- an entry in front of the search position is smaller
  have hnotA : ∀ t ∈ A, ¬ (t.score = score ∧ t.ele = ele) := by
    rintro t ht ⟨rfl, rfl⟩
    exact absurd (hA t ht) (lt_irrefl _)
  rw [hrun]
  cases B with
  | nil => exact .inr ⟨rfl, fun t ht => hnotA t (by simpa using ht)⟩
  | cons x B =>
    have hx : x ∈ sl.origin :: (A ++ x :: B) := by simp
    show (∃ sl' A' x' B', (if (sl.node x.ref).score = score ∧ (sl.node x.ref).ele = ele then _
      else _) = _ ∧ _) ∨ (if (sl.node x.ref).score = score ∧ (sl.node x.ref).ele = ele then _
      else _) = _ ∧ _
    rw [h.placed.score x hx, h.placed.ele x hx]
    by_cases hfound : x.score = score ∧ x.ele = ele
    · left
      obtain ⟨sl', hdelete, hrep⟩ := deleteNode_represents h hlength hpath
      refine ⟨sl', A, x, B, ?_, rfl, hfound.1, hfound.2, hrep, hnotA⟩
      rw [if_pos hfound]
      show (sl.deleteNode x.ref path >>= _) = _
      rw [hdelete]
      rfl
    · right
      rw [if_neg hfound]
      refine ⟨rfl, ?_⟩
      intro t ht hentry
      rcases List.mem_append.1 ht with ht | ht
      · exact hnotA t ht hentry
      · -- `x` is larger than the entry, and so is all that follows it
        have hlt : toLex (score, ele) < x.key := by
          refine lt_of_le_of_ne (hB x (List.mem_cons_self ..)) fun heq => hfound ?_
          have := toLex.injective heq
          exact ⟨congrArg Prod.fst this.symm, congrArg Prod.snd this.symm⟩
        have hle : x.key ≤ t.key := by
          rcases List.mem_cons.1 ht with rfl | ht
          · exact le_rfl
          · exact (List.pairwise_cons.1 (List.pairwise_append.1 h.sorted).2.1).1 t ht
        have hkey : t.key = toLex (score, ele) := by
          unfold Tower.key
          rw [hentry.1, hentry.2]
        exact absurd (hkey ▸ hle) (not_le.2 hlt)

theorem removeByScore_represents (h : Represents sl xs) (score : S) (ele : Bytes) :
    (∃ sl' A x B, sl.removeByScore score ele = .ok (1, sl') ∧ xs = A ++ x :: B ∧
        x.score = score ∧ x.ele = ele ∧ Represents sl' (A ++ B)) ∨
      sl.removeByScore score ele = .ok (0, sl) ∧ ∀ t ∈ xs, ¬ (t.score = score ∧ t.ele = ele) := by
  refine (removeByScore_tower h score ele).imp_left ?_
  rintro ⟨sl', A, x, B, hremove, hxs, hscore, hele, hrep, -⟩
  exact ⟨sl', A, x, B, hremove, hxs, hscore, hele, hrep⟩

end

end SkipListIndex

end RediGo.SortedSet
