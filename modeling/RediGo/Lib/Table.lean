/-
RediGo.Lib.Table — two-dimensional tables that lie row after row in one
list, and the running minimum of a loop.

`Tabulates w d l f` says that the list `l` holds the values `f i j` of a
table with `d` rows and `w` columns. Writing one entry changes that entry
and no other, because `i * w + j` determines row and column; the list is
determined by the table.

A loop that keeps the smaller of two values computes a least element: the
set it is the least element of grows by one value in each iteration
(`isLeast_range_succ`).
-/
import Mathlib.Order.Bounds.Basic
import Mathlib.Order.Interval.Set.Basic

namespace RediGo.Lib

/-! ## Tables -/

theorem entry_lt {w d i j : Nat} (hi : i < d) (hj : j < w) : i * w + j < d * w := by
  calc i * w + j < i * w + w := Nat.add_lt_add_left hj _
    _ = (i + 1) * w := (Nat.succ_mul i w).symm
    _ ≤ d * w := Nat.mul_le_mul_right w hi

theorem entry_inj {w i i' j j' : Nat} (hj : j < w) (hj' : j' < w)
    (h : i * w + j = i' * w + j') : i = i' ∧ j = j' := by
  have hdiv : ∀ i j, j < w → (i * w + j) / w = i := by
    intro i j hj
    rw [Nat.mul_comm, Nat.mul_add_div (by omega), Nat.div_eq_of_lt hj, Nat.add_zero]
  have hmod : ∀ i j, j < w → (i * w + j) % w = j := by
    intro i j hj
    rw [Nat.mul_comm, Nat.mul_add_mod, Nat.mod_eq_of_lt hj]
  constructor
  · rw [← hdiv i j hj, h, hdiv i' j' hj']
  · rw [← hmod i j hj, h, hmod i' j' hj']

section Table

variable {α : Type} {w d : Nat} {l l' : List α} {f g : Nat → Nat → α}

structure Tabulates (w d : Nat) (l : List α) (f : Nat → Nat → α) : Prop where
  length : l.length = d * w
  get : ∀ i < d, ∀ j < w, l[i * w + j]? = some (f i j)

theorem tabulates_replicate (w d : Nat) (a : α) :
    Tabulates w d (List.replicate (d * w) a) fun _ _ => a where
  length := List.length_replicate
  get i hi j hj := by simp [entry_lt hi hj]

/-- Only the entries inside the table count. -/
theorem Tabulates.congr (h : Tabulates w d l f) (hfg : ∀ i < d, ∀ j < w, f i j = g i j) :
    Tabulates w d l g where
  length := h.length
  get i hi j hj := by rw [h.get i hi j hj, hfg i hi j hj]

theorem Tabulates.set (h : Tabulates w d l f) {i j : Nat} (hi : i < d) (hj : j < w) (a : α) :
    Tabulates w d (l.set (i * w + j) a) fun i' j' => if i' = i ∧ j' = j then a else f i' j' where
  length := by rw [List.length_set, h.length]
  get i' hi' j' hj' := by
    by_cases heq : i' = i ∧ j' = j
    · obtain ⟨rfl, rfl⟩ := heq
      simp [h.length, entry_lt hi hj]
    · have hne : i * w + j ≠ i' * w + j' := by
        intro hidx
        obtain ⟨rfl, rfl⟩ := entry_inj hj hj' hidx
        exact heq ⟨rfl, rfl⟩
      rw [List.getElem?_set_ne hne, h.get i' hi' j' hj', if_neg heq]

/-- A table has one list. -/
theorem Tabulates.unique (hl : Tabulates w d l f) (hl' : Tabulates w d l' f) : l = l' := by
  apply List.ext_getElem?
  intro p
  by_cases hp : p < d * w
  · have hw : 0 < w := Nat.pos_of_ne_zero fun h => by simp [h] at hp
    have hrow : p / w < d := Nat.div_lt_of_lt_mul (by rwa [Nat.mul_comm])
    have hcol : p % w < w := Nat.mod_lt _ hw
    rw [← Nat.div_add_mod' p w, hl.get _ hrow _ hcol, hl'.get _ hrow _ hcol]
  · rw [List.getElem?_eq_none (by rw [hl.length]; omega),
      List.getElem?_eq_none (by rw [hl'.length]; omega)]

end Table

/-! ## The running minimum -/

section Least

variable {β : Type} [LinearOrder β] {top m : β} {g : Nat → β} {k : Nat}

theorem isLeast_range_zero (top : β) (g : Nat → β) :
    IsLeast (insert top (g '' Set.Iio 0)) top := by
  have hempty : Set.Iio 0 = (∅ : Set Nat) := by
    ext i
    simp
  rw [hempty]
  simp

theorem isLeast_range_succ (h : IsLeast (insert top (g '' Set.Iio k)) m) :
    IsLeast (insert top (g '' Set.Iio (k + 1))) (min (g k) m) := by
  have hset : insert top (g '' Set.Iio (k + 1)) = insert (g k) (insert top (g '' Set.Iio k)) := by
    rw [Set.insert_comm, ← Set.image_insert_eq]
    congr 2
    ext i
    rw [Set.mem_insert_iff, Set.mem_Iio, Set.mem_Iio]
    omega
  rw [hset]
  exact h.insert (g k)

/-- The start value does not count when no other is greater. -/
theorem isLeast_range_of_le (h : IsLeast (insert top (g '' Set.Iio k)) m) (hk : 0 < k)
    (htop : ∀ i < k, g i ≤ top) : IsLeast (g '' Set.Iio k) m := by
  refine ⟨?_, fun b hb => h.2 (Set.mem_insert_of_mem top hb)⟩
  rcases h.1 with rfl | hm
  · have hle : m ≤ g 0 := h.2 (Set.mem_insert_of_mem _ ⟨0, hk, rfl⟩)
    exact ⟨0, hk, le_antisymm (htop 0 hk) hle⟩
  · exact hm

end Least

end RediGo.Lib
