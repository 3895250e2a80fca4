/-
RediGo.SortedSet.SkipListCost — how many nodes a search of the skip list
passes, on average over the coins of `randomLevel`.

`descendCount` is `descend` with a counter. The nodes a search passes are
those that no node between them and the target exceeds
(`Represents.descendCount_eq`): at its own level such a node is the next one,
and any other is jumped over on a higher level.

`randomLevel` flips coins until the first tail, and the height it returns does
not depend on the coins behind the first 31. So the coins of a run are 31 for
each call, all outcomes equally likely. Which entries are in the list, and
which call each came from, does not depend on them: a `Register` says it for
any sequence of calls. `search_cost`: after any sequence of insertions and
removals that leaves `n` entries, a search for any entry passes at most
`⌈log₂ n⌉ + 1` nodes on average.
-/
import Mathlib.Data.List.Sort
import Mathlib.Data.Nat.Log
import RediGo.Lib.Records
import RediGo.SortedSet.SkipListShape

namespace RediGo.SortedSet.SkipListIndex

open RediGo.Lib RediGo.Go

variable {S : Type} {sl sl' : SkipListIndex S}

/-! ## Counting -/

/-- `descend` with the number of nodes it passes. -/
def descendCount (sl : SkipListIndex S) (pass : SkiplistNode S → Bool) :
    Nat → Ref → UInt32 → Except Fault (List (Ref × UInt32) × Nat)
  | 0, _, _ => pure ([], 0)
  | i + 1, x, rank => do
      let ((x, rank), passed) ← sl.walkCount pass i sl.fuel x rank
      let (below, rest) ← sl.descendCount pass i x rank
      pure (below ++ [(x, rank)], passed + rest)

section Search

variable {pass : SkiplistNode S → Bool}

/-- Without the counter it is the loop of the source. -/
theorem descend_of_descendCount {i : Nat} {x : Ref} {rank : UInt32} {path : List (Ref × UInt32)}
    {passed : Nat} (h : sl.descendCount pass i x rank = .ok (path, passed)) :
    sl.descend pass i x rank = .ok path := by
  induction i generalizing x rank path passed with
  | zero =>
    cases h
    rfl
  | succ i ih =>
    obtain ⟨⟨⟨y, rank'⟩, n⟩, hwalk, h⟩ := bind_eq_ok h
    obtain ⟨⟨below, rest⟩, hbelow, h⟩ := bind_eq_ok h
    cases h
    rw [descend, walk_of_walkCount hwalk]
    show (sl.descend pass i y rank' >>= _) = _
    rw [ih hbelow]
    rfl

/-- The last tower in front of where the inner loop stops reaches the level. -/
theorem Cut.high_getLast {i : Nat} {F P P' C D : List (Tower S)} {y y' : Tower S}
    (hcut : Cut i F P' y' C) (hF : F = P ++ y :: (D ++ C)) :
    ∀ t ∈ D.getLast?, i < t.height := by
  have hsame : P ++ y :: D = P' ++ [y'] := by
    have hwhole : (P ++ y :: D) ++ C = (P' ++ [y']) ++ C := by
      simpa using hF.symm.trans hcut.eq
    exact List.append_cancel_right hwhole
  intro t ht
  have hlast := congrArg List.getLast? hsame
  rw [List.getLast?_append, List.getLast?_cons, Option.mem_def.1 ht] at hlast
  obtain rfl : t = y' := by simpa using hlast
  exact hcut.high

/-- A search passes the towers that no tower between them and the target
exceeds. -/
theorem descendCount_eq {F B : List (Tower S)} (hplaced : Placed sl (F ++ B))
    (hstop : ∀ b ∈ B, pass (sl.node b.ref) = false) (n : Nat)
    (hlinked : ∀ i < n, sl.LinkedAt i (F ++ B)) {P C : List (Tower S)} {y : Tower S}
    (hF : F = P ++ y :: C) (hy : n ≤ y.height) (hpass : ∀ c ∈ C, pass (sl.node c.ref) = true)
    (hlow : Low Tower.height n C) (hpos : ∀ c ∈ C, 1 ≤ c.height) :
    ∃ path, sl.descendCount pass n y.ref (UInt32.ofNat P.length) =
      .ok (path, records (C.map Tower.height)) := by
  induction n generalizing P y C with
  | zero =>
    have hnil : C = [] := by
      refine List.eq_nil_iff_forall_not_mem.2 fun c hc => ?_
      have := hlow c hc
      have := hpos c hc
      omega
    exact ⟨[], by rw [hnil]; rfl⟩
  | succ n ih =>
    have hfuel : C.length < sl.fuel := by
      have hle := hplaced.length_le
      rw [hF] at hle
      simp only [List.length_append, List.length_cons] at hle
      unfold fuel
      omega
    have hrow := hlinked n (Nat.lt_succ_self n)
    obtain ⟨P', y', C', hcut, ⟨D, rfl⟩, hcount⟩ :=
      walkCount_spec hplaced hrow hstop sl.fuel hF hy hpass hfuel
    obtain ⟨below, hbelow⟩ := ih (fun i hi => hlinked i (Nat.lt_succ_of_lt hi)) hcut.eq
      (Nat.le_of_lt hcut.high) (fun c hc => hpass c (by simp [hc])) hcut.low
      (fun c hc => hpos c (by simp [hc]))
    -- what was passed at this level, and what is left for the levels below
    have hrecords : records ((D ++ C').map Tower.height) =
        ((D ++ C').map Tower.height).countP (n < ·) + records (C'.map Tower.height) := by
      have hlast : ∀ h ∈ (D.map Tower.height).getLast?, n < h := by
        intro h hh
        rw [List.getLast?_map] at hh
        obtain ⟨t, ht, rfl⟩ := Option.map_eq_some_iff.1 hh
        exact hcut.high_getLast hF t ht
      have hlevel := records_append (List.forall_mem_map.2 hcut.low)
        (List.forall_mem_map.2 fun d hd => hlow d (by simp [hd])) hlast
      rw [List.map_append, hlevel, List.countP_append, countP_low hcut.low, Nat.add_zero]
    refine ⟨below ++ [(y'.ref, UInt32.ofNat P'.length)], ?_⟩
    rw [descendCount, hcount]
    show (sl.descendCount pass n y'.ref _ >>= _) = _
    rw [hbelow, hrecords]
    rfl

end Search

theorem Represents.descendCount_eq [Zero S] [LinearOrder S] {A B : List (Tower S)}
    (h : Represents sl (A ++ B)) {score : S} {ele : Bytes}
    (hA : ∀ a ∈ A, a.key < toLex (score, ele)) (hB : ∀ b ∈ B, toLex (score, ele) ≤ b.key) :
    ∃ path, sl.descendCount (before score ele) sl.level sl.head 0 =
      .ok (path, records (A.map Tower.height)) := by
  refine SkipListIndex.descendCount_eq (P := []) (y := sl.origin) (C := A) h.placed ?_ sl.level
    h.linked rfl h.level_le ?_ ?_ fun a ha => (h.heights a (by simp [ha])).1
  · intro b hb
    refine Bool.eq_false_iff.2 fun hbefore => ?_
    exact absurd ((h.placed.before_iff (by simp [hb]) score ele).1 hbefore) (not_lt.2 (hB b hb))
  · exact fun a ha => (h.placed.before_iff (by simp [ha]) score ele).2 (hA a ha)
  · rw [h.level]
    exact fun a ha => low_topLevel (A ++ B) a (by simp [ha])

/-! ## Only `randomLevel` uses the generator -/

theorem rnd_setLevel {r : Ref} {i : Nat} {l : SkiplistLevel} (h : sl.setLevel r i l = .ok sl') :
    sl'.rnd = sl.rnd := by
  obtain ⟨levels, -, h⟩ := bind_eq_ok h
  cases h
  rfl

theorem rnd_forRange {body : SkipListIndex S → Nat → Except Fault (SkipListIndex S)}
    (hbody : ∀ s i s', body s i = .ok s' → s'.rnd = s.rnd) {n lo : Nat}
    (h : forRange body n lo sl = .ok sl') : sl'.rnd = sl.rnd := by
  induction n generalizing lo sl with
  | zero =>
    cases h
    rfl
  | succ n ih =>
    obtain ⟨s, hstep, hrest⟩ := bind_eq_ok h
    exact (ih hrest).trans (hbody _ _ _ hstep)

theorem rnd_enterHead (s : SkipListIndex S) (i : Nat) (s' : SkipListIndex S)
    (h : enterHead s i = .ok s') : s'.rnd = s.rnd := by
  obtain ⟨lvl, -, h⟩ := bind_eq_ok h
  exact rnd_setLevel h

theorem rnd_raise {level : Nat} {path path' : List (Ref × UInt32)}
    (h : sl.raise level path = .ok (path', sl')) : sl'.rnd = sl.rnd := by
  unfold raise at h
  split at h
  · obtain ⟨s, hloop, h⟩ := bind_eq_ok h
    have hloop := rnd_forRange rnd_enterHead hloop
    cases h
    exact hloop
  · cases h
    rfl

theorem rnd_link (path : List (Ref × UInt32)) (x : Ref) (s : SkipListIndex S) (i : Nat)
    (s' : SkipListIndex S) (h : link path x s i = .ok s') : s'.rnd = s.rnd := by
  obtain ⟨first, -, h⟩ := bind_eq_ok h
  obtain ⟨update, -, h⟩ := bind_eq_ok h
  obtain ⟨lvl, -, h⟩ := bind_eq_ok h
  obtain ⟨s₁, hx, h⟩ := bind_eq_ok h
  exact (rnd_setLevel h).trans (rnd_setLevel hx)

theorem rnd_widen (path : List (Ref × UInt32)) (s : SkipListIndex S) (i : Nat)
    (s' : SkipListIndex S) (h : widen path s i = .ok s') : s'.rnd = s.rnd := by
  obtain ⟨update, -, h⟩ := bind_eq_ok h
  obtain ⟨lvl, -, h⟩ := bind_eq_ok h
  exact rnd_setLevel h

theorem rnd_linkBack {x u : Ref} (h : sl.linkBack x u = .ok sl') : sl'.rnd = sl.rnd := by
  obtain ⟨lvl, -, h⟩ := bind_eq_ok h
  split at h <;> cases h <;> rfl

theorem rnd_unlink (path : List (Ref × UInt32)) (x : Ref) (s : SkipListIndex S) (i : Nat)
    (s' : SkipListIndex S) (h : unlink path x s i = .ok s') : s'.rnd = s.rnd := by
  obtain ⟨update, -, h⟩ := bind_eq_ok h
  obtain ⟨lvl, -, h⟩ := bind_eq_ok h
  split at h
  · obtain ⟨lvlx, -, h⟩ := bind_eq_ok h
    exact rnd_setLevel h
  · exact rnd_setLevel h

theorem rnd_deleteNode {x : Ref} {path : List (Ref × UInt32)}
    (h : sl.deleteNode x path = .ok sl') : sl'.rnd = sl.rnd := by
  obtain ⟨s₁, hloop, h⟩ := bind_eq_ok h
  obtain ⟨s₂, hback, h⟩ := bind_eq_ok h
  obtain ⟨level, -, h⟩ := bind_eq_ok h
  cases h
  obtain ⟨lvl, -, hback⟩ := bind_eq_ok hback
  have hloop := rnd_forRange (rnd_unlink path x) hloop
  split at hback <;> cases hback <;> exact hloop

section Order

variable [LinearOrder S]

theorem rnd_insert {score : S} {ele : Bytes} (h : sl.insert score ele = .ok sl') :
    sl'.rnd = fun k => sl.rnd (k + 1) := by
  obtain ⟨path, -, h⟩ := bind_eq_ok h
  obtain ⟨⟨path', s⟩, hraise, h⟩ := bind_eq_ok h
  obtain ⟨s₁, hlink, h⟩ := bind_eq_ok h
  obtain ⟨s₂, hwiden, h⟩ := bind_eq_ok h
  obtain ⟨update, -, h⟩ := bind_eq_ok h
  obtain ⟨s₃, hback, h⟩ := bind_eq_ok h
  cases h
  have hlink := rnd_forRange (rnd_link path' _) hlink
  calc s₃.rnd = s₂.rnd := rnd_linkBack hback
    _ = s₁.rnd := rnd_forRange (rnd_widen path') hwiden
    _ = s.rnd := hlink
    _ = fun k => sl.rnd (k + 1) := rnd_raise hraise

theorem rnd_removeByScore {score : S} {ele : Bytes} {result : Int}
    (h : sl.removeByScore score ele = .ok (result, sl')) : sl'.rnd = sl.rnd := by
  obtain ⟨path, -, h⟩ := bind_eq_ok h
  obtain ⟨update, -, h⟩ := bind_eq_ok h
  obtain ⟨lvl, -, h⟩ := bind_eq_ok h
  split at h
  · cases h
    rfl
  · split at h
    · obtain ⟨s, hdelete, h⟩ := bind_eq_ok h
      cases h
      exact rnd_deleteNode hdelete
    · cases h
      rfl

end Order

/-! ## Coins -/

/-- The coins of one call of `randomLevel`, as far as they matter. -/
abbrev Flips : Type := Fin (SkiplistMaxLevel - 1) → Bool

/-- The heads before the first tail. -/
def heads {m : Nat} (flips : Fin m → Bool) : Nat := ((List.ofFn flips).takeWhile id).length

/-- What `randomLevel` returns after that many heads. -/
def levelOf (heads : Nat) : Nat :=
  if 1 + heads > SkiplistMaxLevel then SkiplistMaxLevel else 1 + heads

/-- The generator that shows `coins k` to the `k`-th call. -/
def rndOf {n : Nat} (coins : Fin n → Flips) (k : Nat) : Nat :=
  if h : k < n then heads (coins ⟨k, h⟩) else 0

theorem le_length_takeWhile {l : List Bool} {k : Nat} (hk : k ≤ l.length) :
    k ≤ (l.takeWhile id).length ↔ ∀ j < k, l[j]? = some true := by
  induction l generalizing k with
  | nil => simp at hk; simp [hk]
  | cons b l ih =>
    cases k with
    | zero => simp
    | succ k =>
      have hrest := ih (Nat.le_of_succ_le_succ hk)
      cases b with
      | false => simpa using ⟨0, by simp⟩
      | true =>
        simp only [List.takeWhile_cons, id, if_true, List.length_cons, Nat.add_le_add_iff_right,
          hrest]
        refine ⟨fun h j hj => ?_, fun h j hj => by simpa using h (j + 1) (by omega)⟩
        cases j with
        | zero => rfl
        | succ j => simpa using h j (by omega)

theorem le_heads_iff {m k : Nat} {flips : Fin m → Bool} (hk : k ≤ m) :
    k ≤ heads flips ↔ ∀ j : Fin m, j.val < k → flips j = true := by
  unfold heads
  rw [le_length_takeWhile (by simpa using hk)]
  refine ⟨fun h j hj => ?_, fun h j hj => ?_⟩
  · simpa using h j hj
  · simpa [show j < m by omega] using h ⟨j, by omega⟩ hj

theorem heads_le {m : Nat} (flips : Fin m → Bool) : heads flips ≤ m := by
  have := ((List.ofFn flips).takeWhile_sublist id).length_le
  simpa [heads] using this

theorem levelOf_heads (flips : Flips) : levelOf (heads flips) = heads flips + 1 := by
  have hle := heads_le flips
  have hmax : SkiplistMaxLevel = 32 := rfl
  unfold levelOf
  split <;> omega

theorem lt_heads_iff {m : Nat} {flips : Fin m → Bool} (k : Fin m) :
    k < heads flips ↔ (∀ j < k, flips j = true) ∧ flips k = true := by
  rw [← Nat.succ_le_iff, le_heads_iff k.isLt]
  refine ⟨fun h => ⟨fun j hj => h j (Nat.lt_succ_of_lt hj), h k (Nat.lt_succ_self _)⟩,
    fun ⟨hheads, hk⟩ j hj => ?_⟩
  rcases Nat.lt_succ_iff_lt_or_eq.1 hj with hlt | heq
  · exact hheads j hlt
  · rwa [Fin.ext heq]

theorem heads_eq_iff {m : Nat} {flips : Fin m → Bool} (k : Fin m) :
    heads flips = k ↔ (∀ j < k, flips j = true) ∧ flips k = false := by
  have hle : k ≤ heads flips ↔ ∀ j < k, flips j = true := le_heads_iff k.isLt.le
  have hsplit : heads flips = k ↔ k ≤ heads flips ∧ ¬ k < heads flips := by omega
  rw [hsplit, hle, lt_heads_iff, not_and, Bool.not_eq_true]
  exact ⟨fun h => ⟨h.1, h.2 h.1⟩, fun h => ⟨h.1, fun _ => h.2⟩⟩

/-- Turning the tail that ends the heads into a head, and back. -/
theorem card_heads {m : Nat} (k : Fin m) :
    (Finset.univ.filter fun flips : Fin m → Bool => heads flips = k).card =
      (Finset.univ.filter fun flips : Fin m → Bool => k < heads flips).card := by
  have hfront : ∀ (flips : Fin m → Bool) (b : Bool),
      (∀ j < k, Function.update flips k b j = true) ↔ ∀ j < k, flips j = true := by
    intro flips b
    refine forall₂_congr fun j hj => ?_
    rw [Function.update_of_ne hj.ne]
  simp only [heads_eq_iff, lt_heads_iff]
  refine Finset.card_nbij' (Function.update · k true) (Function.update · k false) ?_ ?_ ?_ ?_
  · intro flips hflips
    simp only [Finset.mem_coe, Finset.mem_filter, Finset.mem_univ, true_and] at hflips ⊢
    exact ⟨(hfront flips true).2 hflips.1, Function.update_self ..⟩
  · intro flips hflips
    simp only [Finset.mem_coe, Finset.mem_filter, Finset.mem_univ, true_and] at hflips ⊢
    exact ⟨(hfront flips false).2 hflips.1, Function.update_self ..⟩
  · intro flips hflips
    simp only [Finset.mem_coe, Finset.mem_filter, Finset.mem_univ, true_and] at hflips
    simp [← hflips.2]
  · intro flips hflips
    simp only [Finset.mem_coe, Finset.mem_filter, Finset.mem_univ, true_and] at hflips
    simp [← hflips.2]

theorem geometric_levelOf :
    Geometric (fun flips : Flips => levelOf (heads flips)) (SkiplistMaxLevel - 1) where
  pos flips := by simp [levelOf_heads]
  half h hpos hM := by
    obtain ⟨k, rfl⟩ : ∃ k, h = k + 1 := ⟨h - 1, by omega⟩
    simp only [levelOf_heads, Nat.add_right_cancel_iff, Nat.add_lt_add_iff_right]
    exact card_heads ⟨k, hM⟩

/-! ## Which entries there are -/

/-- The entries in order, each with the number of the insertion it came from,
and how many insertions there were. -/
structure Register (S : Type) where
  entries : List ((S ×ₗ Bytes) × Nat)
  adds : Nat
  distinct : (entries.map Prod.snd).Nodup
  numbered : ∀ e ∈ entries, e.2 < adds

namespace Register

def empty : Register S := ⟨[], 0, List.nodup_nil, by simp⟩

variable [LinearOrder S]

def add (reg : Register S) (score : S) (ele : Bytes) : Register S where
  entries := reg.entries.orderedInsert (fun a b => a.1 ≤ b.1) (toLex (score, ele), reg.adds)
  adds := reg.adds + 1
  distinct := by
    have hperm := (List.perm_orderedInsert (fun a b : (S ×ₗ Bytes) × Nat => a.1 ≤ b.1)
      (toLex (score, ele), reg.adds) reg.entries).map Prod.snd
    refine hperm.nodup_iff.2 (List.nodup_cons.2 ⟨fun hin => ?_, reg.distinct⟩)
    obtain ⟨e, he, heq⟩ := List.mem_map.1 hin
    exact absurd (reg.numbered e he) (by omega)
  numbered := by
    intro e he
    rcases (List.mem_orderedInsert _).1 he with rfl | he
    · exact Nat.lt_succ_self _
    · exact Nat.lt_succ_of_lt (reg.numbered e he)

def remove (reg : Register S) (score : S) (ele : Bytes) : Register S where
  entries := reg.entries.eraseP fun e => e.1 = toLex (score, ele)
  adds := reg.adds
  distinct := reg.distinct.sublist (List.eraseP_sublist.map _)
  numbered := fun e he => reg.numbered e (List.eraseP_sublist.subset he)

def step (reg : Register S) : Op S → Register S
  | .add score ele => reg.add score ele
  | .removeByScore score ele => reg.remove score ele

def run (reg : Register S) (ops : List (Op S)) : Register S := ops.foldl step reg

theorem adds_run_le (reg : Register S) (ops : List (Op S)) :
    (reg.run ops).adds ≤ reg.adds + ops.length := by
  induction ops generalizing reg with
  | nil => exact Nat.le_refl _
  | cons op ops ih =>
    have hrest := ih (reg.step op)
    have hstep : (reg.step op).adds ≤ reg.adds + 1 := by
      cases op with
      | add score ele => exact Nat.le_refl _
      | removeByScore score ele => exact Nat.le_succ _
    show ((reg.step op).run ops).adds ≤ _
    rw [List.length_cons]
    omega

/-- The entries in front of `(score, ele)`. -/
def front (reg : Register S) (score : S) (ele : Bytes) : List ((S ×ₗ Bytes) × Nat) :=
  reg.entries.filter fun e => e.1 < toLex (score, ele)

end Register

/-! ## Runs -/

section Runs

variable [Zero S] [LinearOrder S] {rnd : Nat → Nat} {reg : Register S} {xs : List (Tower S)}

/-- The towers are the entries of the register, and the height of each is
what the generator gave to its insertion. -/
structure Registered (rnd : Nat → Nat) (reg : Register S) (sl : SkipListIndex S)
    (xs : List (Tower S)) : Prop where
  represents : Represents sl xs
  towers : xs.map (fun t => (t.key, t.height)) = reg.entries.map fun e => (e.1, levelOf (rnd e.2))
  ahead : sl.rnd = fun k => rnd (reg.adds + k)

theorem registered_new (rnd : Nat → Nat) : Registered (S := S) rnd Register.empty (new rnd) [] :=
  ⟨represents_new rnd, rfl, by simp [new, Register.empty]⟩

omit [Zero S] [LinearOrder S] in
/-- Equal pairs of keys and heights: each entry has a tower. -/
theorem exists_tower {E : List ((S ×ₗ Bytes) × Nat)} {A : List (Tower S)}
    (h : E.map (fun e => (e.1, levelOf (rnd e.2))) = A.map fun t => (t.key, t.height))
    {e : (S ×ₗ Bytes) × Nat} (he : e ∈ E) : ∃ a ∈ A, a.key = e.1 := by
  have hmem := List.mem_map_of_mem (f := fun e => (e.1, levelOf (rnd e.2))) he
  rw [h] at hmem
  obtain ⟨a, ha, heq⟩ := List.mem_map.1 hmem
  exact ⟨a, ha, congrArg Prod.fst heq⟩

omit [Zero S] [LinearOrder S] in
theorem orderedInsert_between {K : Type} {r : K → K → Prop} [DecidableRel r] {x : K} {A B : List K}
    (hA : ∀ a ∈ A, ¬ r x a) (hB : ∀ b ∈ B, r x b) :
    (A ++ B).orderedInsert r x = A ++ x :: B := by
  induction A with
  | nil =>
    cases B with
    | nil => rfl
    | cons b B => exact List.orderedInsert_cons_of_le r B (hB b (List.mem_cons_self ..))
  | cons a A ih =>
    rw [List.cons_append, List.orderedInsert_of_not_le r _ (hA a (List.mem_cons_self ..)),
      ih fun b hb => hA b (List.mem_cons_of_mem _ hb)]
    rfl

theorem Registered.add (h : Registered rnd reg sl xs) (score : S) (ele : Bytes) :
    ∃ sl' xs', sl.insert score ele = .ok sl' ∧ Registered rnd (reg.add score ele) sl' xs' := by
  obtain ⟨sl', A, B, x, hinsert, rfl, rfl, rfl, hA, hB, hrep, hheight⟩ :=
    insert_tower h.represents score ele
  refine ⟨sl', A ++ x :: B, hinsert, hrep, ?_, ?_⟩
  · obtain ⟨EA, EB, hentries, hEA, hEB⟩ := List.map_eq_append_iff.1
      (h.towers.symm.trans List.map_append)
    have hnew : levelOf (rnd reg.adds) = x.height := by
      rw [hheight]
      show _ = levelOf (sl.rnd 0)
      rw [h.ahead]
      rfl
    have hfront : ∀ e ∈ EA, ¬ x.key ≤ e.1 := by
      intro e he
      obtain ⟨a, ha, heq⟩ := exists_tower hEA he
      rw [← heq]
      exact not_le.2 (hA a ha)
    have hback : ∀ e ∈ EB, x.key ≤ e.1 := by
      intro e he
      obtain ⟨b, hb, heq⟩ := exists_tower hEB he
      rw [← heq]
      exact hB b hb
    have hadd : (reg.add x.score x.ele).entries = EA ++ (x.key, reg.adds) :: EB := by
      show reg.entries.orderedInsert _ (x.key, reg.adds) = _
      rw [hentries]
      exact orderedInsert_between hfront hback
    rw [hadd, List.map_append, List.map_append, List.map_cons, List.map_cons, hEA, hEB, hnew]
  · rw [rnd_insert hinsert, h.ahead]
    funext k
    show rnd (reg.adds + (k + 1)) = rnd (reg.adds + 1 + k)
    congr 1
    omega

omit [Zero S] [LinearOrder S] in
theorem Tower.key_eq_iff {t : Tower S} {score : S} {ele : Bytes} :
    t.key = toLex (score, ele) ↔ t.score = score ∧ t.ele = ele :=
  toLex.injective.eq_iff.trans Prod.mk_inj

theorem Registered.remove (h : Registered rnd reg sl xs) (score : S) (ele : Bytes) :
    ∃ result sl' xs', sl.removeByScore score ele = .ok (result, sl') ∧
      Registered rnd (reg.remove score ele) sl' xs' := by
  rcases removeByScore_tower h.represents score ele with
    ⟨sl', A, x, B, hremove, rfl, hscore, hele, hrep, hA⟩ | ⟨hremove, hnone⟩
  · refine ⟨1, sl', A ++ B, hremove, hrep, ?_, ?_⟩
    · obtain ⟨EA, E, hentries, hEA, hE⟩ := List.map_eq_append_iff.1
        (h.towers.symm.trans List.map_append)
      obtain ⟨e, EB, rfl, he, hEB⟩ := List.map_eq_cons_iff.1 hE
      have hfirst : ∀ d ∈ EA, ¬ decide (d.1 = toLex (score, ele)) = true := by
        intro d hd
        obtain ⟨a, ha, heq⟩ := exists_tower hEA hd
        rw [← heq, decide_eq_true_eq, Tower.key_eq_iff]
        exact hA a ha
      have hkey : e.1 = toLex (score, ele) := by
        rw [show e.1 = x.key from congrArg Prod.fst he]
        exact Tower.key_eq_iff.2 ⟨hscore, hele⟩
      have hremoved : (reg.remove score ele).entries = EA ++ EB := by
        show reg.entries.eraseP _ = _
        rw [hentries, List.eraseP_append_right _ hfirst,
          List.eraseP_cons_of_pos (by simpa using hkey)]
      rw [hremoved, List.map_append, List.map_append, hEA, hEB]
    · rw [rnd_removeByScore hremove, h.ahead]
      rfl
  · refine ⟨0, sl, xs, hremove, h.represents, ?_, h.ahead⟩
    have hkept : (reg.remove score ele).entries = reg.entries := by
      refine List.eraseP_of_forall_not fun e he => ?_
      obtain ⟨t, ht, heq⟩ := exists_tower h.towers.symm he
      rw [← heq, decide_eq_true_eq, Tower.key_eq_iff]
      exact hnone t ht
    rw [hkept]
    exact h.towers

theorem Registered.step (h : Registered rnd reg sl xs) (op : Op S) :
    ∃ result sl' xs', sl.step op = .ok (result, sl') ∧ Registered rnd (reg.step op) sl' xs' := by
  cases op with
  | add score ele =>
    obtain ⟨sl', xs', hinsert, h'⟩ := h.add score ele
    refine ⟨1, sl', xs', ?_, h'⟩
    show (sl.insert score ele >>= _) = _
    rw [hinsert]
    rfl
  | removeByScore score ele => exact h.remove score ele

theorem Registered.run (h : Registered rnd reg sl xs) (ops : List (Op S)) :
    ∃ sl' xs', sl.run ops = .ok sl' ∧ Registered rnd (reg.run ops) sl' xs' := by
  induction ops generalizing reg sl xs with
  | nil => exact ⟨sl, xs, rfl, h⟩
  | cons op ops ih =>
    obtain ⟨result, sl₁, xs₁, hstep, h₁⟩ := h.step op
    obtain ⟨sl₂, xs₂, hrun, h₂⟩ := ih h₁
    refine ⟨sl₂, xs₂, ?_, h₂⟩
    unfold SkipListIndex.run
    rw [hstep]
    exact hrun

theorem Registered.heights_front {A B : List (Tower S)} (h : Registered rnd reg sl (A ++ B))
    {score : S} {ele : Bytes} (hA : ∀ a ∈ A, a.key < toLex (score, ele))
    (hB : ∀ b ∈ B, toLex (score, ele) ≤ b.key) :
    A.map Tower.height = (reg.front score ele).map fun e => levelOf (rnd e.2) := by
  have hfilter := congrArg (fun l => (l.filter fun q => q.1 < toLex (score, ele)).map Prod.snd)
    h.towers
  simp only [List.filter_map, List.map_map] at hfilter
  have hsplit : (A ++ B).filter
      ((fun q : (S ×ₗ Bytes) × Nat => decide (q.1 < toLex (score, ele))) ∘
        fun t => (t.key, t.height)) = A := by
    rw [List.filter_append, List.filter_eq_self.2 (by simpa using hA),
      List.filter_eq_nil_iff.2 (by simpa using hB), List.append_nil]
  rw [hsplit] at hfilter
  exact hfilter

theorem Registered.length_eq (h : Registered rnd reg sl xs) : xs.length = reg.entries.length := by
  simpa using congrArg List.length h.towers

/-- After any sequence of insertions and removals, the search for any entry
with which `Add` and `RemoveByScore` begin passes at most `⌈log₂ n⌉ + 1` of
the `n` nodes, on average over all coins. -/
theorem search_cost (ops : List (Op S)) (score : S) (ele : Bytes)
    (hsize : (Register.empty.run ops).entries.length ≤ 2 ^ (SkiplistMaxLevel - 1)) :
    ∃ cost : (Fin ops.length → Flips) → Nat,
      (∀ coins, ∃ sl path, (new (rndOf coins)).run ops = .ok sl ∧
        sl.length.toNat = (Register.empty.run ops).entries.length ∧
        sl.descend (before score ele) sl.level sl.head 0 = .ok path ∧
        sl.descendCount (before score ele) sl.level sl.head 0 = .ok (path, cost coins)) ∧
      ∑ coins, cost coins ≤ (Nat.clog 2 (Register.empty.run ops).entries.length + 1) *
        Fintype.card (Fin ops.length → Flips) := by
  let reg := Register.empty.run ops
  have hnumber : ∀ e ∈ reg.front score ele, e.2 < ops.length := by
    intro e he
    have hlt := reg.numbered e (List.mem_of_mem_filter he)
    have hle := Register.empty.adds_run_le ops
    exact Nat.lt_of_lt_of_le hlt (hle.trans (Nat.zero_add _).le)
  -- the insertions that made the entries in front of the target
  let is : List (Fin ops.length) := (reg.front score ele).pmap (fun e he => ⟨e.2, he⟩) hnumber
  have hval : is.map Fin.val = (reg.front score ele).map Prod.snd := by
    rw [List.map_pmap, List.pmap_eq_map]
  have his : is.Nodup := by
    refine List.Nodup.of_map Fin.val ?_
    rw [hval]
    exact reg.distinct.sublist (List.filter_sublist.map _)
  have hlen : is.length ≤ 2 ^ Nat.clog 2 reg.entries.length := by
    rw [List.length_pmap]
    exact (List.length_filter_le ..).trans (Nat.le_pow_clog Nat.one_lt_two _)
  have hclog : Nat.clog 2 reg.entries.length ≤ SkiplistMaxLevel - 1 :=
    (Nat.clog_le_iff_le_pow Nat.one_lt_two).2 hsize
  refine ⟨fun coins => records (is.map fun i => levelOf (heads (coins i))), fun coins => ?_,
    sum_records_le geometric_levelOf hclog his hlen⟩
  obtain ⟨sl, xs, hrun, h⟩ := (registered_new (S := S) (rndOf coins)).run ops
  obtain ⟨A, B, rfl, hA, hB⟩ := exists_split h.represents.sorted (toLex (score, ele))
  obtain ⟨path, hcount⟩ := h.represents.descendCount_eq hA hB
  have hheights : A.map Tower.height = is.map fun i => levelOf (heads (coins i)) := by
    rw [h.heights_front hA hB, List.map_pmap, ← List.pmap_eq_map (H := hnumber)]
    refine List.pmap_congr_left _ fun e _ he _ => ?_
    rw [rndOf, dif_pos he]
  refine ⟨sl, path, hrun, ?_, descend_of_descendCount hcount, ?_⟩
  · have hsmall : (2 : Nat) ^ (SkiplistMaxLevel - 1) < 2 ^ 32 := by decide
    rw [h.represents.length, h.length_eq, UInt32.toNat_ofNat',
      Nat.mod_eq_of_lt (Nat.lt_of_le_of_lt hsize hsmall)]
  · rw [hcount, hheights]

/-- Two entries, one of which is removed again. -/
def threeCalls : List (Op Int) := [.add 1 [97], .add 2 [98], .removeByScore 1 [97]]

theorem search_cost_threeCalls :
    (Register.empty.run threeCalls).entries.length = 1 ∧
    ∃ cost : (Fin threeCalls.length → Flips) → Nat,
      (∀ coins, ∃ sl path, (new (rndOf coins)).run threeCalls = .ok sl ∧ sl.length.toNat = 1 ∧
        sl.descend (before 3 [99]) sl.level sl.head 0 = .ok path ∧
        sl.descendCount (before 3 [99]) sl.level sl.head 0 = .ok (path, cost coins)) ∧
      ∑ coins, cost coins ≤ Fintype.card (Fin threeCalls.length → Flips) := by
  have hlength : (Register.empty.run threeCalls).entries.length = 1 := by decide +kernel
  have hsize : (Register.empty.run threeCalls).entries.length ≤ 2 ^ (SkiplistMaxLevel - 1) := by
    rw [hlength]
    decide
  obtain ⟨cost, hruns, hsum⟩ := search_cost threeCalls 3 [99] hsize
  rw [hlength, Nat.clog_one_right, Nat.zero_add, Nat.one_mul] at hsum
  refine ⟨hlength, cost, fun coins => ?_, hsum⟩
  rw [← hlength]
  exact hruns coins

end Runs

end RediGo.SortedSet.SkipListIndex
