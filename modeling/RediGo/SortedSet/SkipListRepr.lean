/-
RediGo.SortedSet.SkipListRepr — the row of towers a skip list stands for,
and what the single steps of its loops do to it.

A `Tower` is a node as it appears in the row: its reference, its entry and
its height. `Placed sl ts` says that the heap has these towers, at distinct
references. The levels are described one at a time by `Linked` of the
library: `sl.LinkedAt i ts`.

The loops of `insert` and `deleteNode` write at one level per iteration and
to nothing but levels (`Relinks`). `walk_spec` and `descend_spec` say where a
search ends up at each level; `link_spec`, `widen_spec` and `unlink_spec` say
what an iteration makes of its level, as a change of the row, and
`forRange_sets` lifts that to the loops.
-/
import Mathlib.Data.List.Infix
import Mathlib.Data.List.Perm.Subperm
import RediGo.Lib.SkipLevel
import RediGo.SortedSet.SkipListIndex

namespace RediGo.SortedSet

open RediGo.Lib RediGo.Go

structure Tower (S : Type) where
  ref : Ref
  score : S
  ele : Bytes
  height : Nat

/-- A gap as it is stored. -/
def Tower.render {S : Type} (g : Option (Tower S) × Nat) : SkiplistLevel :=
  ⟨g.1.map Tower.ref, UInt32.ofNat g.2⟩

namespace SkipListIndex

variable {S : Type} {sl sl' : SkipListIndex S}

/-! ## Reading and writing a level -/

/-- The level `i` of a node; the default where there is none. -/
def lvl (sl : SkipListIndex S) (r : Ref) (i : Nat) : SkiplistLevel :=
  (sl.node r).levels[i]?.getD default

/-- How many levels a node has. -/
def height (sl : SkipListIndex S) (r : Ref) : Nat := (sl.node r).levels.length

/-- The effect of `setLevel`. -/
def putLevel (sl : SkipListIndex S) (r : Ref) (i : Nat) (l : SkiplistLevel) : SkipListIndex S :=
  sl.setNode r { sl.node r with levels := (sl.node r).levels.set i l }

theorem levelAt_eq {r : Ref} {i : Nat} (h : i < sl.height r) :
    sl.levelAt r i = .ok (sl.lvl r i) := by
  unfold height at h
  unfold levelAt lvl index
  rw [List.getElem?_eq_getElem h]
  rfl

theorem setLevel_eq {r : Ref} {i : Nat} (h : i < sl.height r) (l : SkiplistLevel) :
    sl.setLevel r i l = .ok (sl.putLevel r i l) := by
  unfold height at h
  unfold setLevel setAt
  rw [if_pos h]
  rfl

theorem node_putLevel (r : Ref) (i : Nat) (l : SkiplistLevel) (r' : Ref) :
    (sl.putLevel r i l).node r' =
      if r' = r then { sl.node r with levels := (sl.node r).levels.set i l } else sl.node r' := rfl

theorem lvl_putLevel {r : Ref} {i : Nat} (h : i < sl.height r) (l : SkiplistLevel) (r' : Ref)
    (j : Nat) : (sl.putLevel r i l).lvl r' j = if r' = r ∧ j = i then l else sl.lvl r' j := by
  unfold height at h
  unfold lvl
  rw [node_putLevel]
  by_cases hr : r' = r
  · subst hr
    by_cases hj : j = i
    · subst hj
      simp [h]
    · simp [hj, Ne.symm hj]
  · simp [hr]

/-- Nothing but levels has changed, and no node has become taller. -/
structure Relinks (sl sl' : SkipListIndex S) : Prop where
  head : sl'.head = sl.head
  tail : sl'.tail = sl.tail
  length : sl'.length = sl.length
  level : sl'.level = sl.level
  next : sl'.nodes.next = sl.nodes.next
  rnd : sl'.rnd = sl.rnd
  ele : ∀ r, (sl'.node r).ele = (sl.node r).ele
  score : ∀ r, (sl'.node r).score = (sl.node r).score
  backward : ∀ r, (sl'.node r).backward = (sl.node r).backward
  height : ∀ r, sl'.height r = sl.height r

theorem Relinks.refl (sl : SkipListIndex S) : Relinks sl sl :=
  ⟨rfl, rfl, rfl, rfl, rfl, rfl, fun _ => rfl, fun _ => rfl, fun _ => rfl, fun _ => rfl⟩

theorem Relinks.trans {sl'' : SkipListIndex S} (h : Relinks sl sl') (h' : Relinks sl' sl'') :
    Relinks sl sl'' where
  head := h'.head.trans h.head
  tail := h'.tail.trans h.tail
  length := h'.length.trans h.length
  level := h'.level.trans h.level
  next := h'.next.trans h.next
  rnd := h'.rnd.trans h.rnd
  ele r := (h'.ele r).trans (h.ele r)
  score r := (h'.score r).trans (h.score r)
  backward r := (h'.backward r).trans (h.backward r)
  height r := (h'.height r).trans (h.height r)

theorem relinks_putLevel (sl : SkipListIndex S) (r : Ref) (i : Nat) (l : SkiplistLevel) :
    Relinks sl (sl.putLevel r i l) where
  head := rfl
  tail := rfl
  length := rfl
  level := rfl
  next := rfl
  rnd := rfl
  ele r' := by by_cases hr : r' = r <;> simp [node_putLevel, hr]
  score r' := by by_cases hr : r' = r <;> simp [node_putLevel, hr]
  backward r' := by by_cases hr : r' = r <;> simp [node_putLevel, hr]
  height r' := by
    unfold SkipListIndex.height
    by_cases hr : r' = r <;> simp [node_putLevel, hr]

/-! ## Towers in the heap -/

/-- The heap has these towers, at distinct references. -/
structure Placed (sl : SkipListIndex S) (ts : List (Tower S)) : Prop where
  ele : ∀ t ∈ ts, (sl.node t.ref).ele = t.ele
  score : ∀ t ∈ ts, (sl.node t.ref).score = t.score
  height : ∀ t ∈ ts, sl.height t.ref = t.height
  fresh : ∀ t ∈ ts, t.ref < sl.nodes.next
  nodup : (ts.map Tower.ref).Nodup

theorem Placed.relinks {ts : List (Tower S)} (h : Placed sl ts) (hr : Relinks sl sl') :
    Placed sl' ts where
  ele t ht := (hr.ele _).trans (h.ele t ht)
  score t ht := (hr.score _).trans (h.score t ht)
  height t ht := (hr.height _).trans (h.height t ht)
  fresh t ht := by
    rw [hr.next]
    exact h.fresh t ht
  nodup := h.nodup

/-- Level `i` of the towers is linked up. -/
def LinkedAt (sl : SkipListIndex S) (i : Nat) (ts : List (Tower S)) : Prop :=
  Linked Tower.height Tower.render (fun t => sl.lvl t.ref i) i [] ts

/-- What a tower in the row knows. -/
theorem LinkedAt.lvl_mid {i : Nat} {F B : List (Tower S)} {x : Tower S}
    (h : sl.LinkedAt i (F ++ x :: B)) (hi : i < x.height) :
    sl.lvl x.ref i = Tower.render (gap Tower.height i B) := by
  have hx := ((linked_append _ _).1 h).2.1 hi
  rwa [List.append_nil] at hx

/-- The other towers have other references. -/
theorem Placed.ne_mid {F B : List (Tower S)} {x : Tower S} (h : Placed sl (F ++ x :: B)) :
    ∀ t ∈ F ++ B, t.ref ≠ x.ref := by
  have hperm : (F ++ x :: B).Perm (x :: (F ++ B)) := List.perm_middle
  have hnodup := (hperm.map Tower.ref).nodup_iff.1 h.nodup
  rw [List.map_cons, List.nodup_cons] at hnodup
  intro t ht heq
  exact hnodup.1 (List.mem_map.2 ⟨t, ht, heq⟩)

/-- A level that only the first tower reaches. -/
theorem linkedAt_cons_low {i : Nat} {o : Tower S} {ts : List (Tower S)}
    (hlow : Low Tower.height i ts) (hlvl : sl.lvl o.ref i = ⟨none, UInt32.ofNat ts.length⟩) :
    sl.LinkedAt i (o :: ts) := by
  refine ⟨fun _ => ?_, linked_low hlow⟩
  rw [List.append_nil, gap_low hlow]
  exact hlvl

/-- Nothing at level `i` has changed. -/
theorem LinkedAt.congr {i : Nat} {ts : List (Tower S)} (h : sl.LinkedAt i ts)
    (hsame : ∀ r, sl'.lvl r i = sl.lvl r i) : sl'.LinkedAt i ts :=
  Linked.congr_link h fun t _ => hsame t.ref

/-- `y` is the last of the towers `ts` to reach level `i`, with `P` in front
of it and `C` behind. -/
structure Cut (i : Nat) (ts P : List (Tower S)) (y : Tower S) (C : List (Tower S)) : Prop where
  eq : ts = P ++ y :: C
  high : i < y.height
  low : Low Tower.height i C

/-! ## Searching -/

/-- `walk` with the number of nodes it passes. -/
def walkCount (sl : SkipListIndex S) (pass : SkiplistNode S → Bool) (i : Nat) :
    Nat → Ref → UInt32 → Except Fault ((Ref × UInt32) × Nat)
  | 0, _, _ => .error .fuel
  | fuel + 1, x, rank => do
      let lvl ← sl.levelAt x i
      match lvl.forward with
      | none => pure ((x, rank), 0)
      | some y =>
        if pass (sl.node y) then do
          let (stop, passed) ← sl.walkCount pass i fuel y (rank + lvl.span)
          pure (stop, passed + 1)
        else pure ((x, rank), 0)

/-- Without the counter it is the loop of the source. -/
theorem walk_of_walkCount {pass : SkiplistNode S → Bool} {i fuel : Nat} {x : Ref} {rank : UInt32}
    {stop : Ref × UInt32} {passed : Nat}
    (h : sl.walkCount pass i fuel x rank = .ok (stop, passed)) :
    sl.walk pass i fuel x rank = .ok stop := by
  induction fuel generalizing x rank passed with
  | zero => cases h
  | succ fuel ih =>
    obtain ⟨lvl, hlvl, h⟩ := bind_eq_ok h
    rw [walk, hlvl]
    show (match lvl.forward with | none => _ | some y => _) = _
    cases hforward : lvl.forward with
    | none =>
      rw [hforward] at h
      cases h
      rfl
    | some y =>
      rw [hforward] at h
      dsimp only at h ⊢
      split at h
      · obtain ⟨⟨stop', passed'⟩, hwalk, h⟩ := bind_eq_ok h
        cases h
        rw [if_pos ‹_›]
        exact ih hwalk
      · cases h
        rw [if_neg ‹_›]
        rfl

theorem walkCount_succ {pass : SkiplistNode S → Bool} {i : Nat} {x : Ref} (h : i < sl.height x)
    (fuel : Nat) (rank : UInt32) : sl.walkCount pass i (fuel + 1) x rank =
      match (sl.lvl x i).forward with
      | none => .ok ((x, rank), 0)
      | some y =>
        if pass (sl.node y) then do
          let (stop, passed) ← sl.walkCount pass i fuel y (rank + (sl.lvl x i).span)
          pure (stop, passed + 1)
        else .ok ((x, rank), 0) := by
  rw [walkCount, levelAt_eq h]
  rfl

theorem countP_low {i : Nat} {ts : List (Tower S)} (h : Low Tower.height i ts) :
    (ts.map Tower.height).countP (i < ·) = 0 := by
  simpa [List.countP_eq_zero, Low] using h

/-- The inner loop stops at the last tower in front of `B` that reaches the
level, and its rank is the position of that tower. It passes the towers that
reach the level. -/
theorem walkCount_spec {pass : SkiplistNode S → Bool} {i : Nat} {F B : List (Tower S)}
    (hplaced : Placed sl (F ++ B)) (hlinked : sl.LinkedAt i (F ++ B))
    (hstop : ∀ b ∈ B, pass (sl.node b.ref) = false) (fuel : Nat) {P C : List (Tower S)}
    {y : Tower S} (hF : F = P ++ y :: C) (hy : i < y.height)
    (hpass : ∀ c ∈ C, pass (sl.node c.ref) = true) (hfuel : C.length < fuel) :
    ∃ P' y' C', Cut i F P' y' C' ∧ C' <:+ C ∧
      sl.walkCount pass i fuel y.ref (UInt32.ofNat P.length) =
        .ok ((y'.ref, UInt32.ofNat P'.length), (C.map Tower.height).countP (i < ·)) := by
  induction fuel generalizing P y C with
  | zero => omega
  | succ fuel ih =>
    have hheight : i < sl.height y.ref := by
      rw [hplaced.height y (by simp [hF])]
      exact hy
    rw [walkCount_succ hheight]
    rcases low_or_high i C with hC | ⟨C₁, z, C₂, rfl, hC₁, hz⟩
    · -- nothing behind `y` reaches the level before `B` does
      have hlink : sl.lvl y.ref i = Tower.render ((gap Tower.height i B).1,
          C.length + (gap Tower.height i B).2) := by
        rw [hF, List.append_assoc, List.cons_append] at hlinked
        exact ((linked_split hy hC).1 hlinked).2.1
      refine ⟨P, y, C, ⟨hF, hy, hC⟩, List.suffix_rfl, ?_⟩
      rw [hlink, countP_low hC]
      unfold Tower.render
      cases hnext : (gap Tower.height i B).1 with
      | none => rfl
      | some z => simp [hstop z (gap_mem hnext)]
    · have hlink : sl.lvl y.ref i = Tower.render (some z, C₁.length + 1) := by
        rw [hF, List.append_assoc, List.cons_append, List.append_assoc, List.cons_append] at hlinked
        have hgap := ((linked_split hy hC₁).1 hlinked).2.1
        rwa [gap_cons_high hz] at hgap
      have hzpass : pass (sl.node z.ref) = true := hpass z (by simp)
      have hcount : ((C₁ ++ z :: C₂).map Tower.height).countP (i < ·) =
          (C₂.map Tower.height).countP (i < ·) + 1 := by
        rw [List.map_append, List.countP_append, countP_low hC₁, List.map_cons, List.countP_cons]
        simp [hz]
      obtain ⟨P', y', C', hcut, hsuffix, hwalk⟩ := ih (P := P ++ y :: C₁) (y := z) (C := C₂)
        (by rw [hF, List.append_assoc, List.cons_append]) hz
        (fun c hc => hpass c (by simp [hc])) (by simp at hfuel; omega)
      refine ⟨P', y', C', hcut, ?_, ?_⟩
      · exact hsuffix.trans ((List.suffix_cons z C₂).trans (List.suffix_append _ _))
      · rw [List.length_append, List.length_cons, UInt32.ofNat_add] at hwalk
        rw [hlink, hcount]
        simp only [Tower.render, Option.map_some, hzpass, if_true, hwalk]
        rfl

/-- The inner loop of the source. -/
theorem walk_spec {pass : SkiplistNode S → Bool} {i : Nat} {F B : List (Tower S)}
    (hplaced : Placed sl (F ++ B)) (hlinked : sl.LinkedAt i (F ++ B))
    (hstop : ∀ b ∈ B, pass (sl.node b.ref) = false) (fuel : Nat) {P C : List (Tower S)}
    {y : Tower S} (hF : F = P ++ y :: C) (hy : i < y.height)
    (hpass : ∀ c ∈ C, pass (sl.node c.ref) = true) (hfuel : C.length < fuel) :
    ∃ P' y' C', Cut i F P' y' C' ∧ C' <:+ C ∧
      sl.walk pass i fuel y.ref (UInt32.ofNat P.length) =
        .ok (y'.ref, UInt32.ofNat P'.length) := by
  obtain ⟨P', y', C', hcut, hsuffix, hwalk⟩ :=
    walkCount_spec hplaced hlinked hstop fuel hF hy hpass hfuel
  exact ⟨P', y', C', hcut, hsuffix, walk_of_walkCount hwalk⟩

/-- There are no more towers than allocated nodes. -/
theorem Placed.length_le {ts : List (Tower S)} (h : Placed sl ts) : ts.length ≤ sl.nodes.next := by
  have hsub : ts.map Tower.ref ⊆ List.range sl.nodes.next := by
    intro r hr
    obtain ⟨t, ht, rfl⟩ := List.mem_map.1 hr
    exact List.mem_range.2 (h.fresh t ht)
  have hle := (List.subperm_of_subset h.nodup hsub).length_le
  rwa [List.length_map, List.length_range] at hle

/-- `update` and `rank` point, at each level, to the last of the towers `ts`
that reaches it. -/
def OnPath (ts : List (Tower S)) (path : List (Ref × UInt32)) : Prop :=
  ∀ i, i < path.length → ∃ P y C, Cut i ts P y C ∧
    index path i = .ok (y.ref, UInt32.ofNat P.length)

theorem OnPath.snoc {ts P C : List (Tower S)} {y : Tower S} {path : List (Ref × UInt32)}
    (h : OnPath ts path) (hcut : Cut path.length ts P y C) :
    OnPath ts (path ++ [(y.ref, UInt32.ofNat P.length)]) := by
  intro i hi
  rw [List.length_append, List.length_singleton] at hi
  by_cases hlast : i = path.length
  · subst hlast
    exact ⟨P, y, C, hcut, index_append _ _ _⟩
  · obtain ⟨P', y', C', hcut', hindex⟩ := h i (by omega)
    refine ⟨P', y', C', hcut', ?_⟩
    unfold index at hindex ⊢
    rwa [List.getElem?_append_left (by omega)]

/-- Levels that only the first tower reaches. -/
theorem OnPath.replicate {o : Tower S} {A : List (Tower S)} {path : List (Ref × UInt32)}
    (h : OnPath (o :: A) path) (n : Nat) (hhigh : path.length + n ≤ o.height)
    (hlow : ∀ i, path.length ≤ i → Low Tower.height i A) :
    OnPath (o :: A) (path ++ List.replicate n (o.ref, 0)) := by
  induction n with
  | zero =>
    rw [List.replicate_zero, List.append_nil]
    exact h
  | succ n ih =>
    rw [List.replicate_succ', ← List.append_assoc]
    refine (ih (by omega)).snoc (P := []) ⟨rfl, ?_, hlow _ ?_⟩
    · rw [List.length_append, List.length_replicate]
      omega
    · rw [List.length_append]
      omega

/-- A search from the top level down. -/
theorem descend_spec {pass : SkiplistNode S → Bool} {F B : List (Tower S)}
    (hplaced : Placed sl (F ++ B)) (hstop : ∀ b ∈ B, pass (sl.node b.ref) = false) (n : Nat)
    (hlinked : ∀ i < n, sl.LinkedAt i (F ++ B)) {P C : List (Tower S)} {y : Tower S}
    (hF : F = P ++ y :: C) (hy : n ≤ y.height) (hpass : ∀ c ∈ C, pass (sl.node c.ref) = true) :
    ∃ path, sl.descend pass n y.ref (UInt32.ofNat P.length) = .ok path ∧ path.length = n ∧
      OnPath F path := by
  induction n generalizing P y C with
  | zero => exact ⟨[], rfl, rfl, fun i hi => absurd hi (Nat.not_lt_zero i)⟩
  | succ n ih =>
    have hfuel : C.length < sl.fuel := by
      have hle := hplaced.length_le
      rw [hF] at hle
      simp only [List.length_append, List.length_cons] at hle
      unfold fuel
      omega
    obtain ⟨P', y', C', hcut, hsuffix, hwalk⟩ :=
      walk_spec hplaced (hlinked n (Nat.lt_succ_self n)) hstop sl.fuel hF hy hpass hfuel
    obtain ⟨below, hbelow, hlength, hpath⟩ := ih (fun i hi => hlinked i (Nat.lt_succ_of_lt hi))
      hcut.eq (Nat.le_of_lt hcut.high) (fun c hc => hpass c (hsuffix.subset hc))
    refine ⟨below ++ [(y'.ref, UInt32.ofNat P'.length)], ?_, by simp [hlength], ?_⟩
    · unfold descend
      rw [hwalk]
      show (sl.descend pass n y'.ref _ >>= _) = _
      rw [hbelow]
      rfl
    · subst hlength
      exact hpath.snoc hcut

/-! ## One iteration of a level loop -/

/-- What an iteration at level `i` does: level `i` of the row is that of
`ts`, and nothing else has changed. -/
structure Sets (sl sl' : SkipListIndex S) (i : Nat) (ts : List (Tower S)) : Prop where
  relinks : Relinks sl sl'
  other : ∀ r j, j ≠ i ∨ r ∉ ts.map Tower.ref → sl'.lvl r j = sl.lvl r j
  linked : sl'.LinkedAt i ts

theorem other_putLevel {t : Tower S} {ts : List (Tower S)} (ht : t ∈ ts) {i : Nat}
    (h : i < sl.height t.ref) (l : SkiplistLevel) {r : Ref} {j : Nat}
    (hother : j ≠ i ∨ r ∉ ts.map Tower.ref) : (sl.putLevel t.ref i l).lvl r j = sl.lvl r j := by
  rw [lvl_putLevel h]
  refine if_neg ?_
  rintro ⟨rfl, rfl⟩
  exact hother.elim (fun h => h rfl) fun h => h (List.mem_map_of_mem ht)

section Iteration

variable {i : Nat} {F B P C : List (Tower S)} {x y : Tower S} {path : List (Ref × UInt32)}

/-- `Linked` at a cut of the towers in front. -/
theorem linkedAt_cut (hcut : Cut i F P y C) : sl.LinkedAt i (F ++ B) ↔
    Linked Tower.height Tower.render (fun t => sl.lvl t.ref i) i [y] P ∧
      sl.lvl y.ref i = Tower.render ((gap Tower.height i B).1,
        C.length + (gap Tower.height i B).2) ∧ sl.LinkedAt i B := by
  unfold LinkedAt
  rw [hcut.eq, List.append_assoc, List.cons_append]
  exact linked_split hcut.high hcut.low

/-- The towers beside `y` have other references. -/
theorem Placed.ne_cut (hplaced : Placed sl (F ++ B)) (hcut : Cut i F P y C) :
    (∀ t ∈ P, t.ref ≠ y.ref) ∧ ∀ t ∈ B, t.ref ≠ y.ref := by
  rw [hcut.eq, List.append_assoc, List.cons_append] at hplaced
  have hne := hplaced.ne_mid
  exact ⟨fun t ht => hne t (by simp [ht]), fun t ht => hne t (by simp [ht])⟩

/-- Only `y` has to learn of a change behind the cut. -/
theorem LinkedAt.replace {B' : List (Tower S)} (hlinked : sl.LinkedAt i (F ++ B))
    (hcut : Cut i F P y C)
    (hsame : ∀ t ∈ P, sl'.lvl t.ref i = sl.lvl t.ref i)
    (hy : sl'.lvl y.ref i = Tower.render ((gap Tower.height i B').1,
      C.length + (gap Tower.height i B').2)) (hB : sl'.LinkedAt i B') :
    sl'.LinkedAt i (F ++ B') := by
  obtain ⟨hP, -, -⟩ := (linkedAt_cut hcut).1 hlinked
  exact (linkedAt_cut hcut).2 ⟨hP.congr_link hsame, hy, hB⟩

/-- Level `i` of `update[i]`, which is the last tower to reach the level. -/
theorem Placed.height_cut (hplaced : Placed sl (F ++ B)) (hcut : Cut i F P y C) :
    i < sl.height y.ref := by
  rw [hplaced.height y (by simp [hcut.eq])]
  exact hcut.high

theorem link_spec (hplaced : Placed sl (F ++ B)) (hx : ∀ t ∈ F ++ B, t.ref ≠ x.ref)
    (hheight : sl.height x.ref = x.height) (hi : i < x.height) (hlinked : sl.LinkedAt i (F ++ B))
    (hpath : OnPath F path) (hlength : i < path.length) {u : Ref}
    (hrank : index path 0 = .ok (u, UInt32.ofNat (F.length - 1))) :
    ∃ sl', link path x.ref sl i = .ok sl' ∧ Sets sl sl' i (F ++ x :: B) := by
  obtain ⟨P, y, C, hcut, hindex⟩ := hpath i hlength
  obtain ⟨hneP, hneB⟩ := hplaced.ne_cut hcut
  have hy := hplaced.height_cut hcut
  have hxy : y.ref ≠ x.ref := hx y (by simp [hcut.eq])
  have hix : i < sl.height x.ref := by rw [hheight]; exact hi
  have hlvl := ((linkedAt_cut hcut).1 hlinked).2.1
  have hdiff : UInt32.ofNat (F.length - 1) - UInt32.ofNat P.length = UInt32.ofNat C.length := by
    have hlen : F.length - 1 = C.length + P.length := by
      rw [hcut.eq, List.length_append, List.length_cons]
      omega
    rw [hlen, UInt32.ofNat_add, UInt32.add_sub_cancel]
  -- the new node takes over what `y` had behind it
  let lx : SkiplistLevel := ⟨(sl.lvl y.ref i).forward, (sl.lvl y.ref i).span - UInt32.ofNat C.length⟩
  let ly : SkiplistLevel := ⟨some x.ref, UInt32.ofNat C.length + 1⟩
  have hlx : lx = Tower.render (gap Tower.height i B) := by
    show (⟨(sl.lvl y.ref i).forward, (sl.lvl y.ref i).span - _⟩ : SkiplistLevel) = _
    rw [hlvl]
    unfold Tower.render
    dsimp only
    rw [Nat.add_comm, UInt32.ofNat_add, UInt32.add_sub_cancel]
  have hy₁ : i < (sl.putLevel x.ref i lx).height y.ref := by
    rw [(relinks_putLevel sl x.ref i lx).height]
    exact hy
  have hlvl₂ : ∀ r, ((sl.putLevel x.ref i lx).putLevel y.ref i ly).lvl r i =
      if r = y.ref then ly else if r = x.ref then lx else sl.lvl r i := by
    intro r
    rw [lvl_putLevel hy₁, lvl_putLevel hix]
    simp
  have hsame : ∀ t ∈ F ++ B, t.ref ≠ y.ref →
      ((sl.putLevel x.ref i lx).putLevel y.ref i ly).lvl t.ref i = sl.lvl t.ref i := by
    intro t ht hty
    rw [hlvl₂, if_neg hty, if_neg (hx t ht)]
  refine ⟨(sl.putLevel x.ref i lx).putLevel y.ref i ly, ?_, ?_, ?_, ?_⟩
  · unfold link
    rw [hrank, hindex]
    show (sl.levelAt y.ref i >>= _) = _
    rw [levelAt_eq hy]
    show (sl.setLevel x.ref i ⟨_, _ - (_ - _)⟩ >>= fun sl => sl.setLevel y.ref i ⟨_, _ - _ + 1⟩) = _
    rw [hdiff, setLevel_eq hix]
    exact setLevel_eq hy₁ ly
  · exact (relinks_putLevel ..).trans (relinks_putLevel ..)
  · intro r j hother
    rw [other_putLevel (by simp [hcut.eq]) hy₁ _ hother, other_putLevel (by simp) hix _ hother]
  · refine LinkedAt.replace hlinked hcut ?_ ?_ ?_
    · exact fun t ht => hsame t (by simp [hcut.eq, ht]) (hneP t ht)
    · rw [hlvl₂, if_pos rfl, gap_cons_high hi]
      unfold Tower.render
      dsimp only
      rw [UInt32.ofNat_add]
      rfl
    · refine ⟨fun _ => ?_, ?_⟩
      · show ((sl.putLevel x.ref i lx).putLevel y.ref i ly).lvl x.ref i = _
        rw [hlvl₂, if_neg hxy.symm, if_pos rfl, hlx, List.append_nil]
      · obtain ⟨-, -, hB⟩ := (linkedAt_cut hcut).1 hlinked
        exact Linked.congr_link hB fun t ht => hsame t (List.mem_append_right _ ht) (hneB t ht)

/-- An iteration that only writes to `update[i]`. -/
theorem sets_putLevel {B' : List (Tower S)} {l : SkiplistLevel} (hplaced : Placed sl (F ++ B))
    (hlinked : sl.LinkedAt i (F ++ B)) (hcut : Cut i F P y C)
    (hl : l = Tower.render ((gap Tower.height i B').1, C.length + (gap Tower.height i B').2))
    (hB : sl.LinkedAt i B') (hneB : ∀ t ∈ B', t.ref ≠ y.ref) :
    Sets sl (sl.putLevel y.ref i l) i (F ++ B') := by
  have hy := hplaced.height_cut hcut
  have hsame : ∀ r, r ≠ y.ref → (sl.putLevel y.ref i l).lvl r i = sl.lvl r i := by
    intro r hr
    rw [lvl_putLevel hy, if_neg fun h => hr h.1]
  refine ⟨relinks_putLevel .., fun r j => other_putLevel (by simp [hcut.eq]) hy l, ?_⟩
  refine LinkedAt.replace hlinked hcut ?_ ?_ ?_
  · exact fun t ht => hsame t.ref ((hplaced.ne_cut hcut).1 t ht)
  · rw [lvl_putLevel hy, if_pos ⟨rfl, rfl⟩, hl]
  · exact Linked.congr_link hB fun t ht => hsame t.ref (hneB t ht)

theorem widen_spec (hplaced : Placed sl (F ++ B)) (hx : ∀ t ∈ F ++ B, t.ref ≠ x.ref)
    (hi : x.height ≤ i) (hlinked : sl.LinkedAt i (F ++ B)) (hpath : OnPath F path)
    (hlength : i < path.length) :
    ∃ sl', widen path sl i = .ok sl' ∧ Sets sl sl' i (F ++ x :: B) := by
  obtain ⟨P, y, C, hcut, hindex⟩ := hpath i hlength
  have hy := hplaced.height_cut hcut
  obtain ⟨-, hlvl, hB⟩ := (linkedAt_cut hcut).1 hlinked
  have hgap : gap Tower.height i (x :: B) =
      ((gap Tower.height i B).1, (gap Tower.height i B).2 + 1) := by
    simp [gap, Nat.not_lt.2 hi]
  refine ⟨sl.putLevel y.ref i { sl.lvl y.ref i with span := (sl.lvl y.ref i).span + 1 }, ?_, ?_⟩
  · unfold widen
    rw [hindex]
    show (sl.levelAt y.ref i >>= _) = _
    rw [levelAt_eq hy]
    exact setLevel_eq hy _
  · refine sets_putLevel hplaced hlinked hcut ?_ ?_ ?_
    · rw [hlvl, hgap]
      unfold Tower.render
      dsimp only
      rw [← Nat.add_assoc, UInt32.ofNat_add _ 1]
      rfl
    · exact ⟨fun h => absurd h (Nat.not_lt.2 hi), hB⟩
    · intro t ht
      rcases List.mem_cons.1 ht with rfl | ht
      · exact (hx y (by simp [hcut.eq])).symm
      · exact (hplaced.ne_cut hcut).2 t ht

theorem unlink_spec (hplaced : Placed sl (F ++ x :: B)) (hlinked : sl.LinkedAt i (F ++ x :: B))
    (hpath : OnPath F path) (hlength : i < path.length) :
    ∃ sl', unlink path x.ref sl i = .ok sl' ∧ Sets sl sl' i (F ++ B) := by
  obtain ⟨P, y, C, hcut, hindex⟩ := hpath i hlength
  have hy := hplaced.height_cut hcut
  obtain ⟨-, hlvl, -, hB⟩ := (linkedAt_cut hcut).1 hlinked
  have hneB : ∀ t ∈ B, t.ref ≠ y.ref :=
    fun t ht => (hplaced.ne_cut hcut).2 t (List.mem_cons_of_mem _ ht)
  have hunlink : unlink path x.ref sl i =
      if (sl.lvl y.ref i).forward = some x.ref then do
        let lvlx ← sl.levelAt x.ref i
        sl.setLevel y.ref i ⟨lvlx.forward, (sl.lvl y.ref i).span + (lvlx.span - 1)⟩
      else
        sl.setLevel y.ref i { sl.lvl y.ref i with span := (sl.lvl y.ref i).span - 1 } := by
    unfold unlink
    rw [hindex]
    show (sl.levelAt y.ref i >>= _) = _
    rw [levelAt_eq hy]
    rfl
  rw [hunlink]
  by_cases hi : i < x.height
  · -- `x` reaches the level, so `y` points to it
    have hxi : i < sl.height x.ref := by
      rw [hplaced.height x (by simp)]
      exact hi
    have hlx := hlinked.lvl_mid hi
    rw [gap_cons_high hi] at hlvl
    have hforward : (sl.lvl y.ref i).forward = some x.ref := by
      rw [hlvl]
      rfl
    rw [if_pos hforward, levelAt_eq hxi]
    refine ⟨_, setLevel_eq hy _, sets_putLevel hplaced hlinked hcut ?_ hB hneB⟩
    rw [hlx, hlvl]
    unfold Tower.render
    dsimp only
    have hspan : ∀ a b : UInt32, a + 1 + (b - 1) = a + b := by
      intro a b
      grind
    rw [UInt32.ofNat_add, UInt32.ofNat_add]
    exact congrArg _ (hspan _ _)
  · have hgap : gap Tower.height i (x :: B) =
        ((gap Tower.height i B).1, (gap Tower.height i B).2 + 1) := by
      simp [gap, hi]
    rw [hgap] at hlvl
    have hforward : (sl.lvl y.ref i).forward ≠ some x.ref := by
      -- what `y` points to is behind `x`
      rw [hlvl]
      unfold Tower.render
      dsimp only
      cases hnext : (gap Tower.height i B).1 with
      | none => simp
      | some z =>
        intro heq
        exact hplaced.ne_mid z (by simp [gap_mem hnext]) (Option.some.inj heq)
    rw [if_neg hforward]
    refine ⟨_, setLevel_eq hy _, sets_putLevel hplaced hlinked hcut ?_ hB hneB⟩
    rw [hlvl]
    unfold Tower.render
    dsimp only
    rw [← Nat.add_assoc, UInt32.ofNat_add _ 1]
    exact congrArg _ (UInt32.add_sub_cancel ..)

end Iteration

/-- A level loop: if each iteration gives its level the row `ts`, then so
does the loop with all its levels, and nothing else changes. -/
theorem forRange_sets {body : SkipListIndex S → Nat → Except Fault (SkipListIndex S)}
    {ts : List (Tower S)} (n lo : Nat)
    (hbody : ∀ i s, lo ≤ i → i < lo + n → Relinks sl s → (∀ r, s.lvl r i = sl.lvl r i) →
      ∃ s', body s i = .ok s' ∧ Sets s s' i ts) :
    ∃ sl', forRange body n lo sl = .ok sl' ∧ Relinks sl sl' ∧
      (∀ i, lo ≤ i → i < lo + n → sl'.LinkedAt i ts) ∧
      ∀ r j, j < lo ∨ lo + n ≤ j ∨ r ∉ ts.map Tower.ref → sl'.lvl r j = sl.lvl r j := by
  apply forRange_spec (I := fun k s => Relinks sl s ∧ (∀ i, lo ≤ i → i < k → s.LinkedAt i ts) ∧
    ∀ r j, j < lo ∨ k ≤ j ∨ r ∉ ts.map Tower.ref → s.lvl r j = sl.lvl r j)
  · rintro k s hlo hhi ⟨hrelinks, hlinked, hother⟩
    obtain ⟨s', hrun, hsets⟩ := hbody k s hlo hhi hrelinks
      (fun r => hother r k (.inr (.inl (Nat.le_refl k))))
    refine ⟨s', hrun, hrelinks.trans hsets.relinks, ?_, ?_⟩
    · intro i hi hik
      by_cases hlast : i = k
      · rw [hlast]
        exact hsets.linked
      · exact (hlinked i hi (by omega)).congr fun r => hsets.other r i (.inl hlast)
    · intro r j hj
      rw [hsets.other r j (hj.elim (fun h => .inl (by omega))
        fun h => h.elim (fun h => .inl (by omega)) .inr)]
      exact hother r j (hj.imp_right fun h => h.imp_left Nat.le_of_succ_le)
  · exact ⟨Relinks.refl sl, fun i h h' => absurd h' (Nat.not_lt.2 h), fun _ _ _ => rfl⟩

end SkipListIndex

end RediGo.SortedSet
