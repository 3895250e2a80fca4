/-
RediGo.Lib.SkipLevel — one level of a skip list.

The elements stand in a row and have heights; level `i` links those higher
than `i`. `gap i ts` is what an element in front of `ts` must know at level
`i`: the next element that reaches it and how far away that is, or the
distance to the end.

`Linked f link i after ts` says that every element of `ts`, with `after`
behind the row, carries its gap at level `i`, in the representation `f`.
Below an element that reaches level `i` the row may change without the
elements in front of it noticing, so one update per level is enough to put
an element in or to take one out (`linked_split`).
-/
import Mathlib.Data.List.Basic

namespace RediGo.Lib

variable {T X : Type} (height : T → Nat)

def gap (i : Nat) : List T → Option T × Nat
  | [] => (none, 0)
  | t :: ts => if i < height t then (some t, 1) else ((gap i ts).1, (gap i ts).2 + 1)

/-- No element reaches level `i`. -/
def Low (i : Nat) (ts : List T) : Prop := ∀ t ∈ ts, height t ≤ i

variable {height} {i : Nat}

@[simp] theorem low_nil : Low height i [] := by
  simp [Low]

@[simp] theorem low_cons {t : T} {ts : List T} :
    Low height i (t :: ts) ↔ height t ≤ i ∧ Low height i ts := by
  simp [Low]

theorem gap_cons_high {t : T} (h : i < height t) (ts : List T) :
    gap height i (t :: ts) = (some t, 1) := by
  simp [gap, h]

theorem gap_append_low {C : List T} (hC : Low height i C) (B : List T) :
    gap height i (C ++ B) = ((gap height i B).1, C.length + (gap height i B).2) := by
  induction C with
  | nil => simp
  | cons c C ih =>
    obtain ⟨hc, hC⟩ := low_cons.1 hC
    simp only [List.cons_append, gap, Nat.not_lt.2 hc, if_false, ih hC, List.length_cons]
    rw [Nat.add_right_comm]

theorem gap_low {C : List T} (hC : Low height i C) : gap height i C = (none, C.length) := by
  have h := gap_append_low hC []
  rwa [List.append_nil] at h

/-- What an element knows depends on the far end of the row only through its
gap. -/
theorem gap_append_congr {B B' : List T} (h : gap height i B = gap height i B') (C : List T) :
    gap height i (C ++ B) = gap height i (C ++ B') := by
  induction C with
  | nil => exact h
  | cons c C ih =>
    simp only [List.cons_append, gap]
    rw [ih]

/-- The next element on the level is one of the row. -/
theorem gap_mem {ts : List T} {t : T} (h : (gap height i ts).1 = some t) : t ∈ ts := by
  induction ts with
  | nil => cases h
  | cons s ts ih =>
    by_cases hs : i < height s
    · rw [gap_cons_high hs] at h
      cases h
      exact List.mem_cons_self ..
    · simp only [gap, hs, if_false] at h
      exact List.mem_cons_of_mem _ (ih h)

/-- A row is low, or it has a first element that reaches the level. -/
theorem low_or_high (i : Nat) (ts : List T) :
    Low height i ts ∨ ∃ C t D, ts = C ++ t :: D ∧ Low height i C ∧ i < height t := by
  induction ts with
  | nil => exact .inl low_nil
  | cons s ts ih =>
    by_cases hs : i < height s
    · exact .inr ⟨[], s, ts, rfl, low_nil, hs⟩
    · have hs' : height s ≤ i := Nat.not_lt.1 hs
      rcases ih with hlow | ⟨C, t, D, hts, hC, ht⟩
      · exact .inl (low_cons.2 ⟨hs', hlow⟩)
      · exact .inr ⟨s :: C, t, D, by rw [hts, List.cons_append], low_cons.2 ⟨hs', hC⟩, ht⟩

/-- Where the next element is: `gap` finds the first one that is high
enough. -/
theorem gap_append_high {C : List T} (hC : Low height i C) {t : T} (ht : i < height t)
    (D : List T) : gap height i (C ++ t :: D) = (some t, C.length + 1) := by
  rw [gap_append_low hC, gap_cons_high ht]

/-! ## Linked rows -/

variable (height) in
/-- Each element of the row that reaches level `i` carries its gap. -/
def Linked (f : Option T × Nat → X) (link : T → X) (i : Nat) (after : List T) : List T → Prop
  | [] => True
  | t :: ts => (i < height t → link t = f (gap height i (ts ++ after))) ∧
      Linked f link i after ts

variable {f : Option T × Nat → X} {link link' : T → X} {after : List T}

theorem linked_append (A B : List T) : Linked height f link i after (A ++ B) ↔
    Linked height f link i (B ++ after) A ∧ Linked height f link i after B := by
  induction A with
  | nil => simp [Linked]
  | cons a A ih => simp only [List.cons_append, Linked, ih, List.append_assoc, and_assoc]

theorem Linked.congr_after {after' : List T} (hgap : gap height i after = gap height i after')
    {ts : List T} (h : Linked height f link i after ts) :
    Linked height f link i after' ts := by
  induction ts with
  | nil => trivial
  | cons t ts ih =>
    refine ⟨fun ht => ?_, ih h.2⟩
    rw [h.1 ht, gap_append_congr hgap]

theorem Linked.congr_link {ts : List T} (h : Linked height f link i after ts)
    (hsame : ∀ t ∈ ts, link' t = link t) : Linked height f link' i after ts := by
  induction ts with
  | nil => trivial
  | cons t ts ih =>
    refine ⟨fun ht => ?_, ih h.2 fun s hs => hsame s (List.mem_cons_of_mem _ hs)⟩
    rw [hsame t (List.mem_cons_self ..), h.1 ht]

theorem linked_low {ts : List T} (hts : Low height i ts) : Linked height f link i after ts := by
  induction ts with
  | nil => trivial
  | cons t ts ih =>
    obtain ⟨ht, hts⟩ := low_cons.1 hts
    exact ⟨fun h => absurd h (Nat.not_lt.2 ht), ih hts⟩

/-- A row cut behind `y`, the last element in front of `B` that reaches the
level: what is in front of `y` knows of `y` only, and `y` knows of `B`. -/
theorem linked_split {P C B : List T} {y : T} (hy : i < height y) (hC : Low height i C) :
    Linked height f link i [] (P ++ y :: (C ++ B)) ↔
      Linked height f link i [y] P ∧
        link y = f ((gap height i B).1, C.length + (gap height i B).2) ∧
        Linked height f link i [] B := by
  have hfront : gap height i (y :: (C ++ B) ++ []) = gap height i [y] := by
    rw [List.cons_append, gap_cons_high hy, gap_cons_high hy]
  rw [linked_append]
  simp only [Linked, linked_append, List.append_nil, gap_append_low hC]
  constructor
  · rintro ⟨hP, hlink, -, hB⟩
    rw [← List.append_nil (y :: (C ++ B))] at hP
    exact ⟨hP.congr_after hfront, hlink hy, hB⟩
  · rintro ⟨hP, hlink, hB⟩
    have hP := hP.congr_after hfront.symm
    rw [List.append_nil] at hP
    exact ⟨hP, fun _ => hlink, linked_low hC, hB⟩

end RediGo.Lib
