/-
RediGo.Lib.Heap — a store of records addressed by references, and the
footprint assertions the pointer proofs are written in.

A `Heap α` maps references to records and knows the first reference
that has not been handed out. Reading is total: a reference that is in
use always has a record, and `nil` is modelled outside the heap, as
`none : Option Ref`.

`Holds h cells` says that the heap has exactly the listed record at each
listed reference. A data structure is described by the list of cells it
occupies, so "an update leaves the rest alone" is a statement about
lists: a write at a reference that is not listed preserves `Holds`
(`Holds.set`), and so does any change outside the listed references
(`Holds.frame`).
-/
import Mathlib.Data.List.Nodup
import Mathlib.Data.List.Range
import Mathlib.Logic.Function.Basic

namespace RediGo.Lib

/-- A reference: the identity of an allocated record. -/
abbrev Ref := Nat

/-- Records by reference, with the first unused reference. -/
structure Heap (α : Type) where
  get : Ref → α
  next : Ref

namespace Heap

variable {α : Type}

/-- Overwrite one record. -/
def set (h : Heap α) (r : Ref) (a : α) : Heap α :=
  { h with get := fun x => if x = r then a else h.get x }

/-- Allocate a record at the first unused reference. -/
def alloc (h : Heap α) (a : α) : Heap α :=
  { get := fun x => if x = h.next then a else h.get x, next := h.next + 1 }

@[simp] theorem set_get (h : Heap α) (r : Ref) (a : α) (x : Ref) :
    (h.set r a).get x = if x = r then a else h.get x := rfl

@[simp] theorem set_next (h : Heap α) (r : Ref) (a : α) : (h.set r a).next = h.next := rfl

@[simp] theorem alloc_get (h : Heap α) (a : α) (x : Ref) :
    (h.alloc a).get x = if x = h.next then a else h.get x := rfl

@[simp] theorem alloc_next (h : Heap α) (a : α) : (h.alloc a).next = h.next + 1 := rfl

end Heap

/-! ## Footprints -/

section Footprint

variable {α : Type}

/-- The heap has the listed record at every listed reference. -/
def Holds (h : Ref → α) (cells : List (Ref × α)) : Prop := ∀ c ∈ cells, h c.1 = c.2

@[simp] theorem holds_nil (h : Ref → α) : Holds h [] := by
  intro c hc
  cases hc

@[simp] theorem holds_cons (h : Ref → α) (c : Ref × α) (cells : List (Ref × α)) :
    Holds h (c :: cells) ↔ h c.1 = c.2 ∧ Holds h cells := by
  simp [Holds]

@[simp] theorem holds_append (h : Ref → α) (xs ys : List (Ref × α)) :
    Holds h (xs ++ ys) ↔ Holds h xs ∧ Holds h ys := by
  simp only [Holds, List.mem_append]
  constructor
  · intro H
    exact ⟨fun c hc => H c (Or.inl hc), fun c hc => H c (Or.inr hc)⟩
  · rintro ⟨hx, hy⟩ c (hc | hc)
    · exact hx c hc
    · exact hy c hc

theorem Holds.perm {h : Ref → α} {xs ys : List (Ref × α)} (H : Holds h xs)
    (hp : xs.Perm ys) : Holds h ys :=
  fun c hc => H c (hp.mem_iff.mpr hc)

/-- A heap that agrees on the listed references holds the same cells. -/
theorem Holds.frame {h h' : Ref → α} {cells : List (Ref × α)} (H : Holds h cells)
    (hsame : ∀ r ∈ cells.map Prod.fst, h' r = h r) : Holds h' cells := by
  intro c hc
  rw [hsame c.1 (List.mem_map_of_mem hc)]
  exact H c hc

end Footprint

end RediGo.Lib
