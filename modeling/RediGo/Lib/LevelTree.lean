/-
RediGo.Lib.LevelTree — search trees that keep their data in the leaves,
with every leaf at the same level, and the one-hole contexts a bottom-up
rebalancing walks through.

`LevelTree ι n` is indexed by its height, so "all leaves are at the same
depth" is part of the type. Every node carries the reference of the
record it stands for; the references are what ties a tree to a heap and
play no part in the order results.

* `Ctx` is the path from a subtree up to the root: one `up` frame per
  ancestor, the separators and siblings to the left and to the right of
  the hole. `Ctx.plug` closes it.
* `inorder` writes a tree as one list, leaf items and separators in the
  order a search meets them. The search-tree condition is then a
  statement about one list (`Sorted`), and every rebalancing step is an
  edit of that list.
* `Rebalance` is the repertoire of a B+ tree: the splits, the rotations,
  the merges, growing and shrinking the root. What holds of each step
  holds of any chain of them.
-/
import Mathlib.Data.List.Basic
import Mathlib.Data.List.Flatten
import Mathlib.Order.Lattice
import Mathlib.Logic.Relation
import Mathlib.Algebra.Order.BigOperators.Group.List
import Mathlib.Data.Nat.Log
import Mathlib.Tactic.Ring
import RediGo.Lib.Heap

namespace RediGo.Lib

/-- A tree of height `n`: a reference and the items of one node, and
above level 0 the subtrees, all one level lower. -/
def LevelTree (ι : Type) : Nat → Type
  | 0 => Ref × List ι
  | n + 1 => Ref × List ι × List (LevelTree ι n)

namespace LevelTree

variable {ι : Type} {n : Nat}

def leaf (r : Ref) (items : List ι) : LevelTree ι 0 := (r, items)

def node (r : Ref) (items : List ι) (children : List (LevelTree ι n)) : LevelTree ι (n + 1) :=
  (r, items, children)

theorem exists_leaf (t : LevelTree ι 0) : ∃ r is, t = leaf r is := ⟨t.1, t.2, rfl⟩

theorem exists_node (t : LevelTree ι (n + 1)) : ∃ r is cs, t = node r is cs :=
  ⟨t.1, t.2.1, t.2.2, rfl⟩

def ref : {n : Nat} → LevelTree ι n → Ref
  | 0, t => t.1
  | _ + 1, t => t.1

def items : {n : Nat} → LevelTree ι n → List ι
  | 0, t => t.2
  | _ + 1, t => t.2.1

@[simp] theorem ref_leaf (r : Ref) (is : List ι) : (leaf r is).ref = r := rfl

@[simp] theorem ref_node (r : Ref) (is : List ι) (cs : List (LevelTree ι n)) :
    (node r is cs).ref = r := rfl

@[simp] theorem items_leaf (r : Ref) (is : List ι) : (leaf r is).items = is := rfl

@[simp] theorem items_node (r : Ref) (is : List ι) (cs : List (LevelTree ι n)) :
    (node r is cs).items = is := rfl

/-- The references of the leaves, left to right. -/
def leafRefs : {n : Nat} → LevelTree ι n → List Ref
  | 0, t => [t.ref]
  | n + 1, t => List.flatMap (leafRefs (n := n)) t.2.2

/-- The references of all nodes. -/
def refs : {n : Nat} → LevelTree ι n → List Ref
  | 0, t => [t.ref]
  | n + 1, t => t.ref :: List.flatMap (refs (n := n)) t.2.2

/-- The items of the leaves, left to right. -/
def leafItems : {n : Nat} → LevelTree ι n → List ι
  | 0, t => t.items
  | n + 1, t => List.flatMap (leafItems (n := n)) t.2.2

@[simp] theorem leafRefs_leaf (r : Ref) (is : List ι) : (leaf r is).leafRefs = [r] := rfl

@[simp] theorem leafRefs_node (r : Ref) (is : List ι) (cs : List (LevelTree ι n)) :
    (node r is cs).leafRefs = cs.flatMap leafRefs := rfl

@[simp] theorem refs_leaf (r : Ref) (is : List ι) : (leaf r is).refs = [r] := rfl

@[simp] theorem refs_node (r : Ref) (is : List ι) (cs : List (LevelTree ι n)) :
    (node r is cs).refs = r :: cs.flatMap refs := rfl

@[simp] theorem leafItems_leaf (r : Ref) (is : List ι) : (leaf r is).leafItems = is := rfl

@[simp] theorem leafItems_node (r : Ref) (is : List ι) (cs : List (LevelTree ι n)) :
    (node r is cs).leafItems = cs.flatMap leafItems := rfl

theorem ref_mem_refs (t : LevelTree ι n) : t.ref ∈ t.refs := by
  cases n with
  | zero => obtain ⟨r, is, rfl⟩ := t.exists_leaf; simp
  | succ n => obtain ⟨r, is, cs, rfl⟩ := t.exists_node; simp

end LevelTree

/-- A tree of some height. -/
abbrev AnyTree (ι : Type) := (n : Nat) × LevelTree ι n

/-! ## The in-order list -/

/-- An entry of the in-order list: an item of a leaf or a separator. -/
inductive Mark (ι : Type) where
  | item (x : ι)
  | sep (x : ι)
  deriving DecidableEq, Repr

def Mark.val {ι : Type} : Mark ι → ι
  | .item x => x
  | .sep x => x

@[simp] theorem Mark.val_item {ι : Type} (x : ι) : (Mark.item x).val = x := rfl

@[simp] theorem Mark.val_sep {ι : Type} (x : ι) : (Mark.sep x).val = x := rfl

/-- Lists with a separator after each of them, as long as there are
separators. A node has one child more than separators, so nothing
follows its last child. -/
def weave {ι : Type} : List (List (Mark ι)) → List ι → List (Mark ι)
  | [], _ => []
  | c :: cs, [] => c ++ weave cs []
  | c :: cs, x :: xs => c ++ .sep x :: weave cs xs

section Weave

variable {ι : Type}

/-- A weave is cut where as many separators as lists are used up. -/
theorem weave_append (cs ds : List (List (Mark ι))) (xs ys : List ι)
    (h : xs.length = cs.length) :
    weave (cs ++ ds) (xs ++ ys) = weave cs xs ++ weave ds ys := by
  induction cs generalizing xs with
  | nil =>
    have hx : xs = [] := List.length_eq_zero_iff.mp (by simpa using h)
    subst hx
    simp [weave]
  | cons c cs ih =>
    cases xs with
    | nil => simp at h
    | cons x xs =>
      have h' : xs.length = cs.length := by simpa using h
      simp [weave, ih xs h']

/-- The first list of a weave stands in front of it. -/
theorem weave_cons (c : List (Mark ι)) (cs : List (List (Mark ι))) (xs : List ι) :
    weave (c :: cs) xs = c ++ weave ([] :: cs) xs := by
  cases xs <;> simp [weave]

/-- The items of a weave are the items of its lists. -/
theorem filterMap_weave {β : Type} (f : Mark ι → Option β) (hf : ∀ x, f (.sep x) = none)
    (cs : List (List (Mark ι))) (xs : List ι) :
    (weave cs xs).filterMap f = cs.flatMap (List.filterMap f) := by
  induction cs generalizing xs with
  | nil => simp [weave]
  | cons c cs ih => cases xs <;> simp [weave, ih, hf]

end Weave

namespace LevelTree

variable {ι : Type} {n : Nat}

/-- Leaf items and separators in the order a search meets them. -/
def inorder : {n : Nat} → LevelTree ι n → List (Mark ι)
  | 0, t => t.items.map .item
  | n + 1, t => weave (List.map (inorder (n := n)) t.2.2) t.items

@[simp] theorem inorder_leaf (r : Ref) (is : List ι) :
    (leaf r is).inorder = is.map .item := rfl

@[simp] theorem inorder_node (r : Ref) (is : List ι) (cs : List (LevelTree ι n)) :
    (node r is cs).inorder = weave (cs.map inorder) is := rfl

end LevelTree

/-- The item an entry of the in-order list stores, if it is not a separator. -/
def Mark.item? {ι : Type} : Mark ι → Option ι
  | .item x => some x
  | .sep _ => none

@[simp] theorem Mark.item?_item {ι : Type} (x : ι) : (Mark.item x).item? = some x := rfl

@[simp] theorem Mark.item?_sep {ι : Type} (x : ι) : (Mark.sep x).item? = none := rfl

@[simp] theorem filterMap_item_cons {ι : Type} (x : ι) (M : List (Mark ι)) :
    (Mark.item x :: M).filterMap Mark.item? = x :: M.filterMap Mark.item? := rfl

@[simp] theorem filterMap_sep_cons {ι : Type} (x : ι) (M : List (Mark ι)) :
    (Mark.sep x :: M).filterMap Mark.item? = M.filterMap Mark.item? := rfl

@[simp] theorem filterMap_comp_item {ι : Type} (xs : List ι) :
    xs.filterMap (Mark.item? ∘ Mark.item) = xs :=
  List.filterMap_some

namespace LevelTree

variable {ι : Type} {n : Nat}

/-- The leaf items are the in-order list without the separators. -/
theorem leafItems_eq_inorder (t : LevelTree ι n) :
    t.leafItems = t.inorder.filterMap Mark.item? := by
  induction n with
  | zero =>
    obtain ⟨r, is, rfl⟩ := t.exists_leaf
    simp
  | succ n ih =>
    obtain ⟨r, is, cs, rfl⟩ := t.exists_node
    rw [inorder_node, filterMap_weave _ (fun _ => rfl), leafItems_node, List.flatMap_map]
    exact List.flatMap_congr (fun c _ => ih c)

/-! ## Occupancy -/

/-- Every node has between `lo` and `hi` items, and every inner node one
child more than items. -/
def Occ (lo hi : Nat) : {n : Nat} → LevelTree ι n → Prop
  | 0, t => lo ≤ t.items.length ∧ t.items.length ≤ hi
  | n + 1, t => lo ≤ t.items.length ∧ t.items.length ≤ hi ∧
      List.length (α := LevelTree ι n) t.2.2 = t.items.length + 1 ∧
      ∀ c ∈ (t.2.2 : List (LevelTree ι n)), Occ lo hi c

/-- The same, with nothing said about the item count of the topmost node. -/
def Inner (lo hi : Nat) : {n : Nat} → LevelTree ι n → Prop
  | 0, _ => True
  | n + 1, t => List.length (α := LevelTree ι n) t.2.2 = t.items.length + 1 ∧
      ∀ c ∈ (t.2.2 : List (LevelTree ι n)), Occ lo hi c

@[simp] theorem inner_leaf (lo hi : Nat) (r : Ref) (is : List ι) :
    (leaf r is).Inner lo hi := trivial

@[simp] theorem inner_node (lo hi : Nat) (r : Ref) (is : List ι) (cs : List (LevelTree ι n)) :
    (node r is cs).Inner lo hi ↔ cs.length = is.length + 1 ∧ ∀ c ∈ cs, c.Occ lo hi := Iff.rfl

theorem occ_iff (lo hi : Nat) (t : LevelTree ι n) :
    t.Occ lo hi ↔ lo ≤ t.items.length ∧ t.items.length ≤ hi ∧ t.Inner lo hi := by
  cases n with
  | zero => simp [Occ, Inner]
  | succ n => simp [Occ, Inner]

/-- Subtrees of at least `k` items each. -/
theorem length_mul_le_leafItems {k : Nat} {cs : List (LevelTree ι n)}
    (h : ∀ c ∈ cs, k ≤ c.leafItems.length) :
    cs.length * k ≤ (cs.flatMap leafItems).length := by
  rw [List.length_flatMap]
  simpa using List.card_nsmul_le_sum (cs.map fun c => c.leafItems.length) k (by simpa using h)

/-- A height takes a number of items that grows as its power. -/
theorem pow_mul_le_leafItems {lo hi : Nat} (t : LevelTree ι n) (h : t.Occ lo hi) :
    (lo + 1) ^ n * lo ≤ t.leafItems.length := by
  induction n with
  | zero =>
    obtain ⟨r, is, rfl⟩ := t.exists_leaf
    simpa using ((occ_iff lo hi _).mp h).1
  | succ n ih =>
    obtain ⟨r, is, cs, rfl⟩ := t.exists_node
    obtain ⟨hlo, -, hin⟩ := (occ_iff lo hi _).mp h
    rw [inner_node] at hin
    rw [items_node] at hlo
    calc (lo + 1) ^ (n + 1) * lo = (lo + 1) * ((lo + 1) ^ n * lo) := by ring
      _ ≤ cs.length * ((lo + 1) ^ n * lo) := Nat.mul_le_mul_right _ (by omega)
      _ ≤ (cs.flatMap leafItems).length :=
        length_mul_le_leafItems fun c hc => ih c (hin.2 c hc)

end LevelTree

/-! ## Contexts -/

/-- The path from a subtree of height `n` up to the root. A frame `up`
has the separators and the siblings on either side of the hole, one
separator per sibling. -/
inductive Ctx (ι : Type) : Nat → Type
  | top {n : Nat} : Ctx ι n
  | up {n : Nat} (r : Ref) (isL isR : List ι) (csL csR : List (LevelTree ι n))
      (hL : isL.length = csL.length) (hR : isR.length = csR.length)
      (c : Ctx ι (n + 1)) : Ctx ι n

namespace Ctx

variable {ι : Type} {n : Nat}

/-- Close the hole. -/
def plug : {n : Nat} → Ctx ι n → LevelTree ι n → AnyTree ι
  | _, .top, t => ⟨_, t⟩
  | _, .up r isL isR csL csR _ _ c, t => c.plug (.node r (isL ++ isR) (csL ++ t :: csR))

/-- The node above the hole. -/
def parent : Ctx ι n → Option Ref
  | .top => none
  | .up r _ _ _ _ _ _ _ => some r

/-- The leaves to the right of the hole. -/
def leavesAfter : {n : Nat} → Ctx ι n → List Ref
  | _, .top => []
  | _, .up _ _ _ _ csR _ _ c => csR.flatMap LevelTree.leafRefs ++ c.leavesAfter

/-- The in-order list to the left of the hole. -/
def before : {n : Nat} → Ctx ι n → List (Mark ι)
  | _, .top => []
  | _, .up _ isL _ csL _ _ _ c => c.before ++ weave (csL.map LevelTree.inorder) isL

/-- The in-order list to the right of the hole. -/
def after : {n : Nat} → Ctx ι n → List (Mark ι)
  | _, .top => []
  | _, .up _ _ isR _ csR _ _ c => weave ([] :: csR.map LevelTree.inorder) isR ++ c.after

theorem inorder_plug (c : Ctx ι n) (t : LevelTree ι n) :
    (c.plug t).2.inorder = c.before ++ t.inorder ++ c.after := by
  induction c with
  | top => simp [plug, before, after]
  | up r isL isR csL csR hL hR c ih =>
    have hL' : isL.length = (csL.map LevelTree.inorder).length := by simpa using hL
    rw [plug, ih, before, after, LevelTree.inorder_node, List.map_append, List.map_cons,
      weave_append _ _ _ _ hL', weave_cons t.inorder]
    simp [List.append_assoc]

/-- The least number of items the node in the hole may have: `lo` below
the root, `root` for a root that is no leaf. -/
def least (root lo : Nat) : {n : Nat} → Ctx ι n → Nat
  | 0, .top => 0
  | _ + 1, .top => root
  | _, .up _ _ _ _ _ _ _ _ => lo

@[simp] theorem least_up (root lo : Nat) (r : Ref) (isL isR : List ι)
    (csL csR : List (LevelTree ι n)) (hL : isL.length = csL.length)
    (hR : isR.length = csR.length) (c : Ctx ι (n + 1)) :
    (Ctx.up r isL isR csL csR hL hR c).least root lo = lo := by
  cases n <;> rfl

/-- The occupancy of everything outside the hole. -/
def Occ (root lo hi : Nat) : {n : Nat} → Ctx ι n → Prop
  | _, .top => True
  | _, .up _ isL isR csL csR _ _ c =>
      c.least root lo ≤ isL.length + isR.length ∧ isL.length + isR.length ≤ hi ∧
      (∀ s ∈ csL, s.Occ lo hi) ∧ (∀ s ∈ csR, s.Occ lo hi) ∧ c.Occ root lo hi

end Ctx

/-- The occupancy of a whole tree, whose root is under a weaker bound. -/
def Balanced {ι : Type} (root lo hi : Nat) (T : AnyTree ι) : Prop :=
  (Ctx.top (ι := ι) (n := T.1)).least root lo ≤ T.2.items.length ∧
    T.2.items.length ≤ hi ∧ T.2.Inner lo hi

/-- The height is at most the logarithm of the number of items, to the
least number of children. -/
theorem Balanced.height_le_log {ι : Type} {root lo hi : Nat} {T : AnyTree ι}
    (h : Balanced root lo hi T) (hroot : 1 ≤ root) (hlo : 1 ≤ lo) :
    T.1 ≤ Nat.log (lo + 1) T.2.leafItems.length := by
  obtain ⟨n, t⟩ := T
  cases n with
  | zero => exact Nat.zero_le _
  | succ n =>
    obtain ⟨r, is, cs, rfl⟩ := t.exists_node
    obtain ⟨hleast, -, hin⟩ := h
    rw [LevelTree.inner_node] at hin
    have hitems : root ≤ is.length := hleast
    -- two children at least, and each at its least
    have hpow : (lo + 1) ^ (n + 1) ≤ (cs.flatMap LevelTree.leafItems).length := by
      calc (lo + 1) ^ (n + 1) = (lo + 1) * (lo + 1) ^ n := by ring
        _ ≤ (2 * lo) * (lo + 1) ^ n := Nat.mul_le_mul_right _ (by omega)
        _ = 2 * ((lo + 1) ^ n * lo) := by ring
        _ ≤ cs.length * ((lo + 1) ^ n * lo) := Nat.mul_le_mul_right _ (by omega)
        _ ≤ (cs.flatMap LevelTree.leafItems).length :=
          LevelTree.length_mul_le_leafItems fun c hc => c.pow_mul_le_leafItems (hin.2 c hc)
    exact Nat.le_log_of_pow_le (by omega) hpow

namespace Ctx

variable {ι : Type} {n : Nat}

/-- A tree with a hole is balanced once the outside is and the subtree
meets the bound of its place. -/
theorem balanced_plug {root lo hi : Nat} (c : Ctx ι n) (t : LevelTree ι n) :
    Balanced root lo hi (c.plug t) ↔
      c.Occ root lo hi ∧ c.least root lo ≤ t.items.length ∧ t.items.length ≤ hi ∧
        t.Inner lo hi := by
  induction c with
  | top => simp [plug, Occ, Balanced]
  | up r isL isR csL csR hL hR c ih =>
    have hlen : (csL ++ t :: csR).length = (isL ++ isR).length + 1 := by simp; omega
    rw [plug, ih]
    simp only [LevelTree.items_node, LevelTree.inner_node, List.length_append, Occ, least,
      List.mem_append, List.mem_cons, hlen, true_and]
    constructor
    · rintro ⟨hc, h1, h2, hall⟩
      have ht := (LevelTree.occ_iff lo hi t).mp (hall t (by simp))
      exact ⟨⟨h1, h2, fun s hs => hall s (by simp [hs]), fun s hs => hall s (by simp [hs]), hc⟩,
        ht⟩
    · rintro ⟨⟨h1, h2, hsL, hsR, hc⟩, ht⟩
      refine ⟨hc, h1, h2, ?_⟩
      rintro s (hs | rfl | hs)
      · exact hsL s hs
      · exact (LevelTree.occ_iff lo hi s).mpr ht
      · exact hsR s hs

end Ctx

end RediGo.Lib
