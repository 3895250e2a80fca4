/-
RediGo.Lib.UniformHash — tables of counters under a hash drawn at random.

A row of a table is a function from keys to columns. All functions are
equally likely, so a probability is a number of functions over the number of
all functions, and is stated without division. Two keys share a column under
one function in `|β|` (`card_collide_mul`). So what other keys add to a key's
column, its `excess`, is on average a `|β|`-th of all weights
(`sum_excess_mul_le`), and is far above that for few functions
(`card_exceeds_mul_le`, Markov's inequality). Rows are drawn independently:
the tables in which every row is bad are few in the power of the number of
rows (`card_rows_mul_le`).
-/
import Mathlib.Algebra.Order.BigOperators.Ring.Finset
import Mathlib.Data.Fintype.BigOperators
import Mathlib.Data.Fintype.Pi
import Mathlib.Data.Real.Basic
import Mathlib.Tactic.Linarith
import Mathlib.Tactic.Positivity

namespace RediGo.Lib

open Finset

variable {α β ι : Type} [Fintype α] [DecidableEq α] [Fintype β] [DecidableEq β] [Fintype ι]

/-- A function is one under which `a` and `b` collide, together with the
value at `a` that was overwritten. -/
theorem card_collide_mul {a b : α} (h : a ≠ b) :
    (univ.filter fun f : α → β => f a = f b).card * Fintype.card β = Fintype.card (α → β) := by
  rw [← Fintype.card_subtype, ← Fintype.card_prod]
  refine Fintype.card_congr
    { toFun := fun p => Function.update p.1.1 a p.2
      invFun := fun g => ⟨⟨Function.update g a (g b), ?_⟩, g a⟩
      left_inv := ?_
      right_inv := ?_ }
  · rw [Function.update_self, Function.update_of_ne h.symm]
  · rintro ⟨⟨f, hf⟩, v⟩
    simp [Function.update_of_ne h.symm, ← hf]
  · intro g
    simp

/-- What the other keys add to the column of `x`. -/
def excess (key : ι → α) (weight : ι → ℕ) (x : α) (f : α → β) : ℕ :=
  ∑ j, if key j ≠ x ∧ f (key j) = f x then weight j else 0

variable (key : ι → α) (weight : ι → ℕ) (x : α)

omit [Fintype α] [Fintype β] in
theorem excess_le (f : α → β) : excess key weight x f ≤ ∑ j, weight j := by
  refine sum_le_sum fun j _ => ?_
  split
  · exact le_rfl
  · exact Nat.zero_le _

theorem sum_excess_mul_le :
    (∑ f : α → β, excess key weight x f) * Fintype.card β ≤
      (∑ j, weight j) * Fintype.card (α → β) := by
  unfold excess
  rw [sum_comm, sum_mul, sum_mul]
  refine sum_le_sum fun j _ => ?_
  by_cases hj : key j = x
  · simp [hj]
  · have hsum : (∑ f : α → β, if key j ≠ x ∧ f (key j) = f x then weight j else 0) =
        (univ.filter fun f : α → β => f (key j) = f x).card * weight j := by
      simp [hj, sum_ite, sum_const]
    rw [hsum, mul_right_comm, card_collide_mul hj, mul_comm]

/-- Markov's inequality for the excess. -/
theorem card_exceeds_mul_le (ε : ℝ) :
    ((univ.filter fun f : α → β => ε * (∑ j, weight j : ℕ) < excess key weight x f).card : ℝ) *
      (ε * Fintype.card β) ≤ Fintype.card (α → β) := by
  rcases Nat.eq_zero_or_pos (∑ j, weight j) with hzero | hpos
  · -- nothing was added, so nothing is exceeded
    have hempty : (univ.filter fun f : α → β =>
        ε * (∑ j, weight j : ℕ) < excess key weight x f) = ∅ := by
      refine filter_eq_empty_iff.2 fun f _ => ?_
      have hle := excess_le key weight x f
      rw [hzero] at hle ⊢
      rw [Nat.le_zero.1 hle]
      simp
    rw [hempty]
    simp
  · set total := ∑ j, weight j with htotal
    set bad := univ.filter fun f : α → β => ε * (total : ℝ) < excess key weight x f with hbad
    have htotal_pos : (0 : ℝ) < total := by exact_mod_cast hpos
    have hbad_le : (bad.card : ℝ) * (ε * total) ≤ ∑ f : α → β, (excess key weight x f : ℝ) := by
      calc (bad.card : ℝ) * (ε * total) = ∑ _f ∈ bad, ε * (total : ℝ) := by
            rw [sum_const, nsmul_eq_mul]
        _ ≤ ∑ f ∈ bad, (excess key weight x f : ℝ) :=
            sum_le_sum fun f hf => (mem_filter.1 hf).2.le
        _ ≤ ∑ f : α → β, (excess key weight x f : ℝ) :=
            sum_le_sum_of_subset_of_nonneg (filter_subset _ _) fun _ _ _ => Nat.cast_nonneg _
    have hmean : (∑ f : α → β, (excess key weight x f : ℝ)) * Fintype.card β ≤
        total * Fintype.card (α → β) := by
      exact_mod_cast sum_excess_mul_le (β := β) key weight x
    have hcard : (0 : ℝ) ≤ Fintype.card β := Nat.cast_nonneg _
    refine le_of_mul_le_mul_right ?_ htotal_pos
    calc (bad.card : ℝ) * (ε * Fintype.card β) * total
        = bad.card * (ε * total) * Fintype.card β := by ring
      _ ≤ (∑ f : α → β, (excess key weight x f : ℝ)) * Fintype.card β :=
          mul_le_mul_of_nonneg_right hbad_le hcard
      _ ≤ total * Fintype.card (α → β) := hmean
      _ = Fintype.card (α → β) * total := mul_comm _ _

/-- Independent rows that are all bad. -/
theorem card_rows_mul_le (d : ℕ) {F : Type} [Fintype F] (bad : F → Prop) [DecidablePred bad]
    {q : ℝ} (hq : 0 ≤ q) (h : ((univ.filter bad).card : ℝ) * q ≤ Fintype.card F) :
    ((univ.filter fun rows : Fin d → F => ∀ i, bad (rows i)).card : ℝ) * q ^ d ≤
      Fintype.card (Fin d → F) := by
  have hpi : (univ.filter fun rows : Fin d → F => ∀ i, bad (rows i)) =
      Fintype.piFinset fun _ => univ.filter bad := by
    ext rows
    simp [Fintype.mem_piFinset]
  rw [hpi, Fintype.card_piFinset_const, Fintype.card_fun, Fintype.card_fin, Nat.cast_pow,
    Nat.cast_pow, ← mul_pow]
  exact pow_le_pow_left₀ (mul_nonneg (Nat.cast_nonneg _) hq) h d

end RediGo.Lib
