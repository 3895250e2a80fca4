/-
RediGo.Lib.Records — how many of a row of random heights no later one exceeds.

A height is drawn by choosing an element of a finite type, all of them
equally likely, so an average is a sum over all choices and is stated without
division. `Geometric height M` says that up to `M` a height is as likely as
all greater ones together, which is how often a coin shows heads before it
shows tails.

A record of height `h` is followed by nothing higher. Trading it for an entry
above `h` gives a row that was counted for the entries behind it only, so all
records of height `h` together are no more than the choices
(`sum_recordsAt_le`). Heights above `L` are rare (`card_above_mul_le`). A row
of at most `2^L` heights has `L + 1` records on average (`sum_records_le`).
-/
import Mathlib.Algebra.Order.BigOperators.Group.Finset
import Mathlib.Algebra.Order.BigOperators.Ring.Finset
import Mathlib.Data.Fintype.BigOperators
import Mathlib.Data.Fintype.Pi
import Mathlib.Order.Interval.Finset.Nat
import Mathlib.Tactic.Linarith
import Mathlib.Tactic.Ring

namespace RediGo.Lib

open Finset

/-! ## Records of a row -/

/-- How many entries of the row no later entry exceeds. -/
def records : List ℕ → ℕ
  | [] => 0
  | h :: hs => (if ∀ x ∈ hs, x ≤ h then 1 else 0) + records hs

/-- The records of height `h`. -/
def recordsAt (h : ℕ) : List ℕ → ℕ
  | [] => 0
  | x :: xs => (if x = h ∧ ∀ y ∈ xs, y ≤ h then 1 else 0) + recordsAt h xs

theorem records_le (L : ℕ) {hs : List ℕ} (hpos : ∀ h ∈ hs, 1 ≤ h) :
    records hs ≤ ∑ h ∈ Icc 1 L, recordsAt h hs + hs.countP (L < ·) := by
  induction hs with
  | nil => simp [records]
  | cons x xs ih =>
    have htail := ih fun h hh => hpos h (List.mem_cons_of_mem _ hh)
    have hx := hpos x (List.mem_cons_self ..)
    have hhead : (if ∀ y ∈ xs, y ≤ x then 1 else 0) ≤
        (∑ h ∈ Icc 1 L, if x = h ∧ ∀ y ∈ xs, y ≤ h then 1 else 0) + if L < x then 1 else 0 := by
      by_cases hrecord : ∀ y ∈ xs, y ≤ x
      · rw [if_pos hrecord]
        by_cases hL : L < x
        · rw [if_pos hL]
          exact Nat.le_add_left ..
        · have hmem : x ∈ Icc 1 L := mem_Icc.2 ⟨hx, Nat.not_lt.1 hL⟩
          have hone := single_le_sum (f := fun h => if x = h ∧ ∀ y ∈ xs, y ≤ h then 1 else 0)
            (fun _ _ => Nat.zero_le _) hmem
          rw [if_pos ⟨rfl, hrecord⟩] at hone
          exact Nat.le_add_right_of_le hone
      · rw [if_neg hrecord]
        exact Nat.zero_le _
    simp only [records, recordsAt, sum_add_distrib, List.countP_cons, decide_eq_true_eq]
    omega

/-- A row whose entries are at most `i + 1`, cut behind its last entry above
`i`: the records are the entries above `i` and the records behind them. -/
theorem records_append {i : ℕ} {hs rest : List ℕ} (hrest : ∀ h ∈ rest, h ≤ i)
    (hhigh : ∀ h ∈ hs, h ≤ i + 1) (hlast : ∀ h ∈ hs.getLast?, i < h) :
    records (hs ++ rest) = hs.countP (i < ·) + records rest := by
  induction hs with
  | nil => simp
  | cons x xs ih =>
    have hx := hhigh x (List.mem_cons_self ..)
    have htail := ih (fun h hh => hhigh h (List.mem_cons_of_mem _ hh)) (by
      intro h hh
      refine hlast h ?_
      cases xs with
      | nil => simp at hh
      | cons y ys => simpa [List.getLast?_cons_cons] using hh)
    have hhead : (∀ y ∈ xs ++ rest, y ≤ x) ↔ i < x := by
      refine ⟨fun hall => ?_, fun hi y hy => ?_⟩
      · cases hxs : xs.getLast? with
        | none =>
          rw [List.getLast?_eq_none_iff] at hxs
          exact hlast x (by simp [hxs])
        | some z =>
          -- the last entry is above `i`, and `x` is not below it
          have hz : i < z := hlast z (by simp [List.getLast?_cons, hxs])
          have hzx := hall z (by simp [List.mem_of_getLast? hxs])
          omega
      · rcases List.mem_append.1 hy with hy | hy
        · have := hhigh y (List.mem_cons_of_mem _ hy)
          omega
        · have := hrest y hy
          omega
    rw [List.cons_append, records, htail, List.countP_cons]
    simp only [hhead, decide_eq_true_eq]
    omega

/-! ## Random heights -/

variable {ι Ω : Type} [Fintype ι] [DecidableEq ι] [Fintype Ω]

/-- Exchange one of independent choices: what is likelier for it alone is
likelier together with what does not depend on it. -/
theorem card_coordinate_le {P P' : Ω → Prop} [DecidablePred P] [DecidablePred P']
    (hle : (univ.filter P).card ≤ (univ.filter P').card) (i : ι) {Q : (ι → Ω) → Prop}
    [DecidablePred Q] (hQ : ∀ f ω, Q (Function.update f i ω) ↔ Q f) :
    (univ.filter fun f : ι → Ω => P (f i) ∧ Q f).card ≤
      (univ.filter fun f : ι → Ω => P' (f i) ∧ Q f).card := by
  simp only [← Fintype.card_subtype] at hle ⊢
  obtain ⟨e⟩ := Function.Embedding.nonempty_of_card_le hle
  let move (f : {f : ι → Ω // P (f i) ∧ Q f}) : {f : ι → Ω // P' (f i) ∧ Q f} :=
    ⟨Function.update f.1 i (e ⟨f.1 i, f.2.1⟩).1, by
      rw [Function.update_self, hQ]
      exact ⟨(e ⟨f.1 i, f.2.1⟩).2, f.2.2⟩⟩
  refine Fintype.card_le_of_injective move ?_
  rintro ⟨f, hf⟩ ⟨g, hg⟩ hmove
  have hupdate : Function.update f i (e ⟨f i, hf.1⟩).1 = Function.update g i (e ⟨g i, hg.1⟩).1 :=
    congrArg Subtype.val hmove
  have hat : f i = g i := by
    have hi := congrFun hupdate i
    rw [Function.update_self, Function.update_self] at hi
    exact congrArg Subtype.val (e.injective (Subtype.ext hi))
  refine Subtype.ext (funext fun k => ?_)
  by_cases hk : k = i
  · rw [hk]
    exact hat
  · have := congrFun hupdate k
    rwa [Function.update_of_ne hk, Function.update_of_ne hk] at this

/-- Up to `M` a height is as likely as all greater ones together. -/
structure Geometric (height : Ω → ℕ) (M : ℕ) : Prop where
  pos : ∀ ω, 1 ≤ height ω
  half : ∀ h, 1 ≤ h → h ≤ M →
    (univ.filter fun ω => height ω = h).card = (univ.filter fun ω => h < height ω).card

variable {height : Ω → ℕ} {M : ℕ}

theorem sum_recordsAt_le (hgeo : Geometric height M) {h : ℕ} (hpos : 1 ≤ h) (hM : h ≤ M)
    {is : List ι} (his : is.Nodup) :
    (∑ f : ι → Ω, recordsAt h (is.map fun i => height (f i))) +
      (univ.filter fun f : ι → Ω => ∀ i ∈ is, height (f i) ≤ h).card ≤
        Fintype.card (ι → Ω) := by
  induction is with
  | nil => simp [recordsAt]
  | cons i is ih =>
    have htail := ih (List.nodup_cons.1 his).2
    have hi : i ∉ is := (List.nodup_cons.1 his).1
    have hindep : ∀ (f : ι → Ω) (ω : Ω), (∀ k ∈ is, height (Function.update f i ω k) ≤ h) ↔
        ∀ k ∈ is, height (f k) ≤ h := by
      intro f ω
      refine forall₂_congr fun k hk => ?_
      rw [Function.update_of_ne (ne_of_mem_of_not_mem hk hi)]
    -- the records at `i` against the rows with an entry above `h` in its place
    have htrade := card_coordinate_le (Q := fun f => ∀ k ∈ is, height (f k) ≤ h)
      (hgeo.half h hpos hM).le i hindep
    have hsplit : (univ.filter fun f : ι → Ω => h < height (f i) ∧ ∀ k ∈ is, height (f k) ≤ h).card +
        (univ.filter fun f : ι → Ω => ∀ k ∈ i :: is, height (f k) ≤ h).card =
        (univ.filter fun f : ι → Ω => ∀ k ∈ is, height (f k) ≤ h).card := by
      rw [← card_filter_add_card_filter_not (s := univ.filter fun f : ι → Ω =>
        ∀ k ∈ is, height (f k) ≤ h) fun f => h < height (f i), filter_filter, filter_filter]
      simp only [List.forall_mem_cons, not_lt, and_comm]
    have hhead : (∑ f : ι → Ω, if height (f i) = h ∧
        ∀ y ∈ is.map fun k => height (f k), y ≤ h then 1 else 0) =
        (univ.filter fun f : ι → Ω => height (f i) = h ∧ ∀ k ∈ is, height (f k) ≤ h).card := by
      rw [card_filter]
      simp only [List.forall_mem_map]
    simp only [List.map_cons, recordsAt, sum_add_distrib]
    rw [hhead]
    omega

theorem card_above_mul_le (hgeo : Geometric height M) (i : ι) {L : ℕ} (hL : L ≤ M) :
    (univ.filter fun f : ι → Ω => L < height (f i)).card * 2 ^ L ≤ Fintype.card (ι → Ω) := by
  induction L with
  | zero => simpa using card_filter_le univ fun f : ι → Ω => 0 < height (f i)
  | succ L ih =>
    have htrade := card_coordinate_le (Q := fun _ : ι → Ω => True)
      (hgeo.half (L + 1) (by omega) hL).ge i (fun _ _ => Iff.rfl)
    simp only [and_true] at htrade
    -- above `L` is `L + 1` or above that, and the latter is no likelier
    have hsplit : (univ.filter fun f : ι → Ω => height (f i) = L + 1).card +
        (univ.filter fun f : ι → Ω => L + 1 < height (f i)).card =
        (univ.filter fun f : ι → Ω => L < height (f i)).card := by
      rw [← card_filter_add_card_filter_not (s := univ.filter fun f : ι → Ω => L < height (f i))
        fun f => height (f i) = L + 1, filter_filter, filter_filter]
      congr 2 <;> ext f <;> simp <;> omega
    calc (univ.filter fun f : ι → Ω => L + 1 < height (f i)).card * 2 ^ (L + 1)
        = ((univ.filter fun f : ι → Ω => L + 1 < height (f i)).card * 2) * 2 ^ L := by ring
      _ ≤ (univ.filter fun f : ι → Ω => L < height (f i)).card * 2 ^ L :=
          Nat.mul_le_mul_right _ (by omega)
      _ ≤ Fintype.card (ι → Ω) := ih (by omega)

theorem sum_countP_mul_le (hgeo : Geometric height M) {L : ℕ} (hL : L ≤ M) (is : List ι) :
    (∑ f : ι → Ω, (is.map fun i => height (f i)).countP (L < ·)) * 2 ^ L ≤
      is.length * Fintype.card (ι → Ω) := by
  induction is with
  | nil => simp
  | cons i is ih =>
    have habove := card_above_mul_le hgeo i hL
    rw [card_filter] at habove
    simp only [List.map_cons, List.countP_cons, sum_add_distrib, decide_eq_true_eq,
      List.length_cons, add_mul, one_mul]
    exact Nat.add_le_add ih habove

/-- At most `2^L` independent heights have at most `L + 1` records on average. -/
theorem sum_records_le (hgeo : Geometric height M) {L : ℕ} (hL : L ≤ M) {is : List ι}
    (his : is.Nodup) (hsize : is.length ≤ 2 ^ L) :
    ∑ f : ι → Ω, records (is.map fun i => height (f i)) ≤
      (L + 1) * Fintype.card (ι → Ω) := by
  have hlow : ∑ f : ι → Ω, ∑ h ∈ Icc 1 L, recordsAt h (is.map fun i => height (f i)) ≤
      L * Fintype.card (ι → Ω) := by
    rw [sum_comm]
    calc _ ≤ ∑ _h ∈ Icc 1 L, Fintype.card (ι → Ω) := by
          refine sum_le_sum fun h hh => ?_
          obtain ⟨hpos, hhL⟩ := mem_Icc.1 hh
          have := sum_recordsAt_le hgeo hpos (hhL.trans hL) his
          omega
      _ = L * Fintype.card (ι → Ω) := by simp
  have hhigh : ∑ f : ι → Ω, (is.map fun i => height (f i)).countP (L < ·) ≤
      Fintype.card (ι → Ω) := by
    refine Nat.le_of_mul_le_mul_right ?_ (Nat.two_pow_pos L)
    calc _ ≤ is.length * Fintype.card (ι → Ω) := sum_countP_mul_le hgeo hL is
      _ ≤ Fintype.card (ι → Ω) * 2 ^ L := by
          rw [Nat.mul_comm]
          exact Nat.mul_le_mul_left _ hsize
  calc ∑ f : ι → Ω, records (is.map fun i => height (f i))
      ≤ ∑ f : ι → Ω, (∑ h ∈ Icc 1 L, recordsAt h (is.map fun i => height (f i)) +
          (is.map fun i => height (f i)).countP (L < ·)) := by
        refine sum_le_sum fun f _ => records_le L ?_
        simpa using fun i _ => hgeo.pos (f i)
    _ ≤ (L + 1) * Fintype.card (ι → Ω) := by
        rw [sum_add_distrib, add_mul, one_mul]
        exact Nat.add_le_add hlow hhigh

end RediGo.Lib
