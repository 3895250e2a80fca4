/-
RediGo.Probabilistic.CMSGuarantee — the error rate and the error probability
of `CalcCMSDim`.

`CalcCMSDim` chooses `w = ⌈e/ε⌉` columns and `d = ⌈ln(1/δ)⌉` rows. The purpose
is that `Count` exceeds what was added for an item by more than `ε` times all
that was added with probability at most `δ`. This holds of every sequence of
increments when the rows hash independently and uniformly, which is what
murmur3 with the row's number as seed stands for: among all ways to hash the
items that occur, at most the fraction `δ` overshoots (`overshoot_rare`).

A counter of an item holds what was added for the item and its excess. The
estimate overshoots only if the excess of every row does.
-/
import Mathlib.Analysis.Complex.ExponentialBounds
import Mathlib.Analysis.SpecialFunctions.Log.Basic
import RediGo.Lib.UniformHash
import RediGo.Probabilistic.CMSTheorems

namespace RediGo.Probabilistic.CMS

open RediGo.Go RediGo.Lib

/-- The column of every item in every row. -/
abbrev Rows (w d : UInt64) (items : Finset Bytes) := Fin d.toNat → (items → Fin w.toNat)

open Classical in
/-- The hash that puts the items into these columns. -/
noncomputable def rowsHash {w d : UInt64} {items : Finset Bytes} (rows : Rows w d items) :
    ItemHash := fun item seed =>
  if h : seed.toNat < d.toNat ∧ item ∈ items then
    UInt64.ofNat (rows ⟨seed.toNat, h.1⟩ ⟨item, h.2⟩)
  else 0

/-- After the increments the sketch counts more for `x` than what was added
for it and `ε` times all that was added. -/
def Overshoots (hash : ItemHash) (w d : UInt64) (incrs : List (Bytes × UInt64)) (x : Bytes)
    (ε : ℝ) : Prop :=
  ∃ c m, run hash incrs (fresh w d) = .ok c ∧ c.count hash x = .ok m ∧
    (total (· = x) incrs : ℝ) + ε * total (fun _ => true) incrs < m.toNat

section Rows

variable {w d : UInt64} {items : Finset Bytes}

theorem column_rowsHash (rows : Rows w d items) (hd : d.toNat ≤ 2 ^ 32) (i : Fin d.toNat)
    (y : items) : column (rowsHash rows) w i y = rows i y := by
  have hseed : (UInt32.ofNat i.val).toNat = i.val :=
    UInt32.toNat_ofNat_of_lt' (lt_of_lt_of_le i.isLt hd)
  have hcol : (rows i y).val < w.toNat := (rows i y).isLt
  have hhash : rowsHash rows y (UInt32.ofNat i.val) = UInt64.ofNat (rows i y) := by
    have hin : (UInt32.ofNat i.val).toNat < d.toNat ∧ y.val ∈ items :=
      ⟨lt_of_eq_of_lt hseed i.isLt, y.2⟩
    have hrow : (⟨(UInt32.ofNat i.val).toNat, hin.1⟩ : Fin d.toNat) = i := Fin.ext hseed
    rw [rowsHash, dif_pos hin, hrow]
  rw [column, hhash, UInt64.toNat_mod, UInt64.toNat_ofNat_of_lt' (hcol.trans w.toNat_lt),
    Nat.mod_eq_of_lt hcol]

/-- The value of an increment. -/
def valueAt (incrs : List (Bytes × UInt64)) (j : Fin incrs.length) : Nat := (incrs.get j).2.toNat

/-- A total is a sum over the increments. -/
theorem total_eq_sum (p : Bytes → Bool) (incrs : List (Bytes × UInt64)) :
    total p incrs = ∑ j, if p (incrs.get j).1 then valueAt incrs j else 0 := by
  induction incrs with
  | nil => rfl
  | cons a incrs ih =>
    have hcons : total p (a :: incrs) = (if p a.1 then a.2.toNat else 0) + total p incrs := by
      unfold total
      cases h : p a.1 <;> simp [h]
    rw [hcons, ih]
    exact (Fin.sum_univ_succ fun j : Fin (incrs.length + 1) =>
      if p ((a :: incrs).get j).1 then valueAt (a :: incrs) j else 0).symm

variable {incrs : List (Bytes × UInt64)} (hitems : ∀ a ∈ incrs, a.1 ∈ items)

/-- The item of an increment. -/
def itemAt (j : Fin incrs.length) : items := ⟨(incrs.get j).1, hitems _ (incrs.get_mem j)⟩

/-- The counters of an item hold its own total and the excess. -/
theorem cellTotal_eq (rows : Rows w d items) (hd : d.toNat ≤ 2 ^ 32) (i : Fin d.toNat)
    (x : items) :
    cellTotal (rowsHash rows) w incrs i (column (rowsHash rows) w i x) =
      total (· = x.val) incrs + excess (itemAt hitems) (valueAt incrs) x (rows i) := by
  have hcolumn : ∀ j : Fin incrs.length,
      column (rowsHash rows) w i (incrs.get j).1 = rows i (itemAt hitems j) := fun j =>
    column_rowsHash rows hd i (itemAt hitems j)
  rw [cellTotal, total_eq_sum, total_eq_sum, excess, ← Finset.sum_add_distrib]
  refine Finset.sum_congr rfl fun j _ => ?_
  have hsame : itemAt hitems j = x ↔ (incrs.get j).1 = x.val := Subtype.ext_iff
  simp only [hcolumn, column_rowsHash rows hd i x, Fin.val_inj, decide_eq_true_eq, ← hsame]
  by_cases hitem : itemAt hitems j = x
  · simp [hitem]
  · simp [hitem]

/-- An estimate that overshoots has an excess in every row. -/
theorem Overshoots.excess_lt (h : Fits w d) {rows : Rows w d items} (hd : d.toNat ≤ 2 ^ 32)
    {x : items} {ε : ℝ} (hover : Overshoots (rowsHash rows) w d incrs x ε) (i : Fin d.toNat) :
    ε * (∑ j, valueAt incrs j : ℕ) < excess (itemAt hitems) (valueAt incrs) x (rows i) := by
  obtain ⟨c, m, hrun, hcount, hlt⟩ := hover
  obtain ⟨c', hrun', hc⟩ := h.run_counts (h.counts_fresh (rowsHash rows)) incrs
  cases hrun.symm.trans hrun'
  obtain ⟨m', hcount', hest⟩ := h.count_eq hc x
  cases hcount.symm.trans hcount'
  have hle : m.toNat ≤
      total (· = x.val) incrs + excess (itemAt hitems) (valueAt incrs) x (rows i) := by
    rw [← cellTotal_eq hitems rows hd i x]
    exact (hest.2 ⟨i, i.isLt, rfl⟩).trans (Nat.min_le_right ..)
  have hall : total (fun _ => true) incrs = ∑ j, valueAt incrs j := by
    rw [total_eq_sum]
    exact Finset.sum_congr rfl fun j _ => if_pos rfl
  have hle' : (m.toNat : ℝ) ≤
      total (· = x.val) incrs + excess (itemAt hitems) (valueAt incrs) x (rows i) := by
    exact_mod_cast hle
  rw [hall] at hlt
  linarith

end Rows

open Classical in
/-- With as many columns and rows as the rates ask for, at most the fraction
`δ` of all ways to hash the items overshoots. -/
theorem overshoot_rare (w d : UInt64) (hw : 1 ≤ w.toNat) (hd : 1 ≤ d.toNat ∧ d.toNat ≤ 2 ^ 32)
    (hsize : w.toNat * d.toNat < 2 ^ 64) (ε δ : ℝ) (hδ : 0 < δ)
    (hwidth : Real.exp 1 / ε ≤ w.toNat) (hε : 0 < ε) (hdepth : Real.log (1 / δ) ≤ d.toNat)
    (items : Finset Bytes) (incrs : List (Bytes × UInt64)) (hitems : ∀ a ∈ incrs, a.1 ∈ items)
    (x : Bytes) (hx : x ∈ items) :
    ((Finset.univ.filter fun rows : Rows w d items =>
        Overshoots (rowsHash rows) w d incrs x ε).card : ℝ) ≤
      δ * Fintype.card (Rows w d items) := by
  have hfits : Fits w d := ⟨hw, hd.1, hsize⟩
  set bad : (items → Fin w.toNat) → Prop := fun f =>
    ε * (∑ j, valueAt incrs j : ℕ) < excess (itemAt hitems) (valueAt incrs) ⟨x, hx⟩ f with hbad
  set q : ℝ := ε * w.toNat with hq
  have hexp : Real.exp 1 ≤ q := by
    rw [div_le_iff₀ hε] at hwidth
    linarith
  have hqpos : 0 < q := (Real.exp_pos 1).trans_le hexp
  have hrow : ((Finset.univ.filter bad).card : ℝ) * q ≤ Fintype.card (items → Fin w.toNat) := by
    have hmarkov := card_exceeds_mul_le (β := Fin w.toNat) (itemAt hitems) (valueAt incrs)
      ⟨x, hx⟩ ε
    rwa [Fintype.card_fin] at hmarkov
  have hrows := card_rows_mul_le d.toNat bad hqpos.le hrow
  -- the depth makes up for the probability
  have hpow : 1 ≤ δ * q ^ d.toNat := by
    have hlog : 1 / δ ≤ Real.exp d.toNat := by
      rw [← Real.exp_log (by positivity : (0 : ℝ) < 1 / δ)]
      exact Real.exp_le_exp.2 hdepth
    have hexp_pow : Real.exp d.toNat ≤ q ^ d.toNat := by
      rw [← mul_one (d.toNat : ℝ), Real.exp_nat_mul]
      exact pow_le_pow_left₀ (Real.exp_pos 1).le hexp _
    have hle := hlog.trans hexp_pow
    rw [div_le_iff₀ hδ] at hle
    linarith
  have hsub : (Finset.univ.filter fun rows : Rows w d items =>
      Overshoots (rowsHash rows) w d incrs x ε) ⊆
      Finset.univ.filter fun rows : Rows w d items => ∀ i, bad (rows i) := by
    intro rows hrows
    rw [Finset.mem_filter] at hrows ⊢
    exact ⟨hrows.1, fun i => Overshoots.excess_lt (x := ⟨x, hx⟩) hitems hfits hd.2 hrows.2 i⟩
  have hcard : ((Finset.univ.filter fun rows : Rows w d items =>
      Overshoots (rowsHash rows) w d incrs x ε).card : ℝ) ≤
      (Finset.univ.filter fun rows : Rows w d items => ∀ i, bad (rows i)).card := by
    exact_mod_cast Finset.card_le_card hsub
  set n : ℝ := ((Finset.univ.filter fun rows : Rows w d items => ∀ i, bad (rows i)).card : ℝ)
  have hn : 0 ≤ n := Nat.cast_nonneg _
  calc _ ≤ n := hcard
    _ ≤ n * (δ * q ^ d.toNat) := le_mul_of_one_le_right hn hpow
    _ = δ * (n * q ^ d.toNat) := by ring
    _ ≤ δ * Fintype.card (Rows w d items) := mul_le_mul_of_nonneg_left hrows hδ.le

open Classical in
/-- Six columns and one row for `ε = δ = 1/2`; the sketch overshoots when the
two items share their column. -/
theorem overshoot_rare_half :
    ((Finset.univ.filter fun rows : Rows 6 1 {[1], [2]} =>
        Overshoots (rowsHash rows) 6 1 [([1], 5), ([2], 7)] [1] (1 / 2)).card : ℝ) ≤
      1 / 2 * Fintype.card (Rows 6 1 {[1], [2]}) := by
  have hwidth : Real.exp 1 / (1 / 2) ≤ ((6 : UInt64).toNat : ℝ) := by
    have hexp := Real.exp_one_lt_three
    have hsix : ((6 : UInt64).toNat : ℝ) = 6 := by norm_cast
    rw [hsix]
    linarith
  have hdepth : Real.log (1 / (1 / 2)) ≤ ((1 : UInt64).toNat : ℝ) := by
    have hlog := Real.log_two_lt_d9
    have hone : ((1 : UInt64).toNat : ℝ) = 1 := by norm_cast
    rw [hone, one_div_one_div]
    linarith
  exact overshoot_rare 6 1 (by decide) (by decide) (by decide) (1 / 2) (1 / 2) (by norm_num) hwidth
    (by norm_num) hdepth {[1], [2]} [([1], 5), ([2], 7)] (by decide) [1] (by decide)

end RediGo.Probabilistic.CMS
