/-
RediGo.SortedSet.SkipListShape — the shape of a skip list in terms of its
pointers, after any run.

`Shape sl nodes` is stated about the heap alone: the chains one gets by
following `forward` from the head, the spans between the positions of the
nodes, and the pointers that lead back. `run_represents` lifts the two
operations to runs, whatever heights the generator chooses, and
`run_skipShape` reads the shape off the representation.

Spans are `uint32`. They are right modulo `2^32` in every run; below `2^32`
nodes they are the distances themselves.
-/
import Mathlib.Algebra.Ring.Int.Defs
import RediGo.SortedSet.SkipListOps

namespace RediGo.SortedSet.SkipListIndex

open RediGo.Lib RediGo.Go

variable {S : Type} {sl : SkipListIndex S}

/-- The nodes on level `i` from a pointer on. -/
def chainFrom (sl : SkipListIndex S) (i : Nat) : Nat → Option Ref → Except Fault (List Ref)
  | _, none => pure []
  | 0, some _ => .error .fuel
  | fuel + 1, some x => do
      let lvl ← sl.levelAt x i
      let rest ← sl.chainFrom i fuel lvl.forward
      pure (x :: rest)

/-- The level-`i` chain from the head. -/
def chain (sl : SkipListIndex S) (i : Nat) : Except Fault (List Ref) := do
  let lvl ← sl.levelAt sl.head i
  sl.chainFrom i sl.fuel lvl.forward

/-- What a node is sorted by. -/
def entry (sl : SkipListIndex S) (r : Ref) : S ×ₗ Bytes :=
  toLex ((sl.node r).score, (sl.node r).ele)

structure Shape [LinearOrder S] (sl : SkipListIndex S) (nodes : List Ref) : Prop where
  bottom : sl.chain 0 = .ok nodes
  distinct : (sl.head :: nodes).Nodup
  length : sl.length.toNat = nodes.length
  sorted : nodes.Pairwise fun a b => sl.entry a ≤ sl.entry b
  heights : ∀ r ∈ nodes, 1 ≤ sl.height r ∧ sl.height r ≤ SkiplistMaxLevel
  chains : ∀ i < sl.level, sl.chain i = .ok (nodes.filter fun r => i < sl.height r)
  /-- the head has position 0 and the nodes have positions 1 to N -/
  spans : ∀ i < sl.level, ∀ p r, (sl.head :: nodes)[p]? = some r → i < sl.height r →
    match (sl.lvl r i).forward with
    | none => (sl.lvl r i).span.toNat = nodes.length - p
    | some y => ∃ q, (sl.head :: nodes)[q]? = some y ∧ p < q ∧ (sl.lvl r i).span.toNat = q - p
  backward : ∀ j r, nodes[j]? = some r →
    (sl.node r).backward = if j = 0 then none else nodes[j - 1]?
  tail : sl.tail = nodes.getLast?
  level : sl.level = (nodes.map sl.height).foldr max 1
  above : ∀ i, sl.level ≤ i → i < SkiplistMaxLevel → ∃ lvl,
    sl.levelAt sl.head i = .ok lvl ∧ lvl.forward = none

/-! ## Reading the pointers off the row -/

theorem chainFrom_eq {i : Nat} {ts : List (Tower S)} (hheight : ∀ t ∈ ts, sl.height t.ref = t.height)
    (hlinked : sl.LinkedAt i ts) (fuel : Nat) (hfuel : ts.length ≤ fuel) :
    sl.chainFrom i fuel ((gap Tower.height i ts).1.map Tower.ref) =
      .ok ((ts.filter fun t => i < t.height).map Tower.ref) := by
  induction ts generalizing fuel with
  | nil => cases fuel <;> rfl
  | cons t ts ih =>
    have hrest := ih (fun s hs => hheight s (List.mem_cons_of_mem _ hs)) hlinked.2
    by_cases ht : i < t.height
    · obtain ⟨fuel, rfl⟩ : ∃ m, fuel = m + 1 := ⟨fuel - 1, by simp at hfuel; omega⟩
      have hlvl : sl.lvl t.ref i = Tower.render (gap Tower.height i ts) :=
        LinkedAt.lvl_mid (F := []) hlinked ht
      have hlevelAt : sl.levelAt t.ref i = .ok (sl.lvl t.ref i) :=
        levelAt_eq (by rw [hheight t (List.mem_cons_self ..)]; exact ht)
      rw [gap_cons_high ht, List.filter_cons_of_pos (by simpa using ht)]
      show (sl.levelAt t.ref i >>= _) = _
      rw [hlevelAt, hlvl]
      show (sl.chainFrom i fuel ((gap Tower.height i ts).1.map Tower.ref) >>= _) = _
      rw [hrest fuel (by simp at hfuel; omega)]
      rfl
    · rw [List.filter_cons_of_neg (by simpa using ht)]
      simp only [gap, ht, if_false]
      exact hrest fuel (by simp at hfuel; omega)

theorem Backs.backward_eq {prev : Option Ref} {ts : List (Tower S)} (h : sl.Backs prev ts)
    {j : Nat} {t : Tower S} (ht : ts[j]? = some t) :
    (sl.node t.ref).backward = if j = 0 then prev else (ts[j - 1]?).map Tower.ref := by
  induction ts generalizing prev j with
  | nil => simp at ht
  | cons s ts ih =>
    match j with
    | 0 =>
      obtain rfl : s = t := by simpa using ht
      exact h.1
    | 1 =>
      rw [ih h.2 (j := 0) (by simpa using ht)]
      rfl
    | j + 2 =>
      rw [ih h.2 (j := j + 1) (by simpa using ht)]
      rfl

/-- A gap leads to a tower at that distance, or to the end. -/
theorem gap_cases (i : Nat) (ts : List (Tower S)) :
    (gap Tower.height i ts = (none, ts.length)) ∨
      ∃ C t D, ts = C ++ t :: D ∧ gap Tower.height i ts = (some t, C.length + 1) := by
  have hcases : Low Tower.height i ts ∨ _ := low_or_high i ts
  rcases hcases with hlow | ⟨C, t, D, rfl, hC, ht⟩
  · exact .inl (gap_low hlow)
  · exact .inr ⟨C, t, D, rfl, gap_append_high hC ht D⟩

variable [Zero S] [LinearOrder S] {xs : List (Tower S)}

theorem Represents.chain_eq (h : Represents sl xs) {i : Nat} (hi : i < sl.level) :
    sl.chain i = .ok ((xs.filter fun t => i < t.height).map Tower.ref) := by
  have hmax : i < SkiplistMaxLevel := Nat.lt_of_lt_of_le hi h.level_le
  have hrow := h.linked i hi
  have hhead : sl.lvl sl.head i = Tower.render (gap Tower.height i xs) :=
    LinkedAt.lvl_mid (F := []) (x := sl.origin) hrow hmax
  have hheight : i < sl.height sl.head := by
    rw [show sl.height sl.head = SkiplistMaxLevel from h.placed.height sl.origin (by simp)]
    exact hmax
  unfold chain
  rw [levelAt_eq hheight, hhead]
  apply chainFrom_eq (fun t ht => h.placed.height t (by simp [ht])) hrow.2
  have hle := h.placed.length_le
  simp only [List.length_cons] at hle
  unfold fuel
  omega

theorem Represents.bottom (h : Represents sl xs) : sl.chain 0 = .ok (xs.map Tower.ref) := by
  rw [h.chain_eq h.level_pos, List.filter_eq_self.2]
  exact fun t ht => decide_eq_true (h.heights t ht).1

theorem exists_split_at {α : Type} {l : List α} {p : Nat} {a : α} (h : l[p]? = some a) :
    ∃ P Q, l = P ++ a :: Q ∧ P.length = p := by
  obtain ⟨hp, rfl⟩ := List.getElem?_eq_some_iff.1 h
  refine ⟨l.take p, l.drop (p + 1), ?_, by simp; omega⟩
  rw [← List.drop_eq_getElem_cons hp, List.take_append_drop]

/-- The span of a node at position `p` is the distance to the next node of
its level, or to the end. -/
theorem Represents.span_eq (h : Represents sl xs) (hsize : xs.length < 2 ^ 32) {i : Nat}
    (hi : i < sl.level) {p : Nat} {t : Tower S} (ht : (sl.origin :: xs)[p]? = some t)
    (hit : i < t.height) :
    match (sl.lvl t.ref i).forward with
    | none => (sl.lvl t.ref i).span.toNat = xs.length - p
    | some y => ∃ q, ((sl.origin :: xs).map Tower.ref)[q]? = some y ∧ p < q ∧
        (sl.lvl t.ref i).span.toNat = q - p := by
  obtain ⟨P, rest, hsplit, rfl⟩ := exists_split_at ht
  have htoNat : ∀ n ≤ xs.length, (UInt32.ofNat n).toNat = n := by
    intro n hn
    rw [UInt32.toNat_ofNat', Nat.mod_eq_of_lt (by omega)]
  have hlen : xs.length = P.length + rest.length := by
    have := congrArg List.length hsplit
    simp only [List.length_cons, List.length_append] at this
    omega
  have hrow := h.linked i hi
  rw [hsplit] at hrow ⊢
  rw [hrow.lvl_mid hit]
  rcases gap_cases i rest with hgap | ⟨C, z, D, rfl, hgap⟩
  · rw [hgap]
    show (UInt32.ofNat rest.length).toNat = _
    rw [htoNat _ (by omega), hlen, Nat.add_sub_cancel_left]
  · rw [hgap]
    refine ⟨P.length + (C.length + 1), ?_, by omega, ?_⟩
    · rw [List.map_append, List.getElem?_append_right (by simp)]
      simp
    · show (UInt32.ofNat (C.length + 1)).toNat = _
      simp only [List.length_append, List.length_cons] at hlen
      rw [htoNat _ (by omega), Nat.add_sub_cancel_left]

theorem Represents.shape (h : Represents sl xs) (hsize : xs.length < 2 ^ 32) :
    Shape sl (xs.map Tower.ref) := by
  have hheight : ∀ t ∈ xs, sl.height t.ref = t.height :=
    fun t ht => h.placed.height t (by simp [ht])
  have htoNat : ∀ n ≤ xs.length, (UInt32.ofNat n).toNat = n := by
    intro n hn
    rw [UInt32.toNat_ofNat', Nat.mod_eq_of_lt (by omega)]
  constructor
  · exact h.bottom
  · exact h.placed.nodup
  · rw [h.length, htoNat _ le_rfl, List.length_map]
  · rw [List.pairwise_map]
    refine h.sorted.imp_of_mem fun {a b} ha hb hab => ?_
    unfold entry
    rw [h.placed.score a (by simp [ha]), h.placed.ele a (by simp [ha]),
      h.placed.score b (by simp [hb]), h.placed.ele b (by simp [hb])]
    exact hab
  · intro r hr
    obtain ⟨t, ht, rfl⟩ := List.mem_map.1 hr
    rw [hheight t ht]
    exact h.heights t ht
  · intro i hi
    rw [h.chain_eq hi, List.filter_map]
    congr 2
    apply List.filter_congr
    intro t ht
    simp [hheight t ht]
  · intro i hi p r hr hir
    have hr : ((sl.origin :: xs).map Tower.ref)[p]? = some r := hr
    rw [List.getElem?_map, Option.map_eq_some_iff] at hr
    obtain ⟨t, ht, rfl⟩ := hr
    rw [h.placed.height t (List.mem_of_getElem? ht)] at hir
    rw [List.length_map]
    exact h.span_eq hsize hi ht hir
  · intro j r hr
    rw [List.getElem?_map, Option.map_eq_some_iff] at hr
    obtain ⟨t, ht, rfl⟩ := hr
    rw [h.backward.backward_eq ht, List.getElem?_map]
  · rw [h.tail, List.getLast?_map]
    rfl
  · rw [h.level, List.map_map]
    unfold topLevel
    congr 1
    exact List.map_congr_left fun t ht => (hheight t ht).symm
  · intro i hi hmax
    refine ⟨sl.lvl sl.head i, levelAt_eq ?_, h.above i hi⟩
    rw [show sl.height sl.head = SkiplistMaxLevel from h.placed.height sl.origin (by simp)]
    exact hmax

/-! ## Runs -/

/-- A call that changes the index. -/
inductive Op (S : Type) where
  | add (score : S) (ele : Bytes)
  | removeByScore (score : S) (ele : Bytes)

def step (sl : SkipListIndex S) : Op S → Except Fault (Int × SkipListIndex S)
  | .add score ele => sl.add score ele
  | .removeByScore score ele => sl.removeByScore score ele

/-- One call after the other. -/
def run : SkipListIndex S → List (Op S) → Except Fault (SkipListIndex S)
  | sl, [] => pure sl
  | sl, op :: ops => do
      let (_, sl) ← sl.step op
      sl.run ops

theorem step_represents (h : Represents sl xs) (op : Op S) :
    ∃ result sl' xs', sl.step op = .ok (result, sl') ∧ Represents sl' xs' := by
  cases op with
  | add score ele =>
    obtain ⟨sl', A, B, x, hinsert, -, -, -, -, -, hrep⟩ := insert_represents h score ele
    refine ⟨1, sl', _, ?_, hrep⟩
    show (sl.insert score ele >>= _) = _
    rw [hinsert]
    rfl
  | removeByScore score ele =>
    rcases removeByScore_represents h score ele with
      ⟨sl', A, x, B, hremove, -, -, -, hrep⟩ | ⟨hremove, -⟩
    · exact ⟨1, sl', _, hremove, hrep⟩
    · exact ⟨0, sl, xs, hremove, h⟩

theorem run_represents (ops : List (Op S)) (h : Represents sl xs) :
    ∃ sl' xs', sl.run ops = .ok sl' ∧ Represents sl' xs' := by
  induction ops generalizing sl xs with
  | nil => exact ⟨sl, xs, rfl, h⟩
  | cons op ops ih =>
    obtain ⟨result, sl₁, xs₁, hstep, h₁⟩ := step_represents h op
    obtain ⟨sl₂, xs₂, hrun, h₂⟩ := ih h₁
    refine ⟨sl₂, xs₂, ?_, h₂⟩
    unfold run
    rw [hstep]
    exact hrun

/-- Every run of insertions and removals, with whatever heights, ends, and
while there are fewer than `2^32` nodes the index has the right shape. -/
theorem run_skipShape (rnd : Nat → Nat) (ops : List (Op S)) :
    ∃ sl nodes, (new rnd).run ops = .ok sl ∧ sl.chain 0 = .ok nodes ∧
      (nodes.length < 2 ^ 32 → Shape sl nodes) := by
  obtain ⟨sl, xs, hrun, h⟩ := run_represents ops (represents_new rnd)
  refine ⟨sl, xs.map Tower.ref, hrun, h.bottom, ?_⟩
  rw [List.length_map]
  exact h.shape

/-- Heights 2, 1 and 32, two equal entries, and a removal. -/
theorem run_skipShape_four : ∃ sl, (new (S := Int) fun k => if k = 0 then 1 else k * k * 30 - 30).run
      [.add 3 [97], .add 1 [98], .add 3 [97], .removeByScore 1 [98]] = .ok sl ∧
    Shape sl [3, 1] := by
  obtain ⟨sl, nodes, hrun, hchain, hshape⟩ := run_skipShape (S := Int)
    (fun k => if k = 0 then 1 else k * k * 30 - 30)
    [.add 3 [97], .add 1 [98], .add 3 [97], .removeByScore 1 [98]]
  have hnodes : nodes = [3, 1] := by
    have heval : ((new (S := Int) fun k => if k = 0 then 1 else k * k * 30 - 30).run
        [.add 3 [97], .add 1 [98], .add 3 [97], .removeByScore 1 [98]] >>= fun sl => sl.chain 0) =
        .ok [3, 1] := by decide +kernel
    rw [hrun] at heval
    exact Except.ok.inj (hchain.symm.trans heval)
  subst hnodes
  exact ⟨sl, hrun, hshape (by decide)⟩

end RediGo.SortedSet.SkipListIndex
