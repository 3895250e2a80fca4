/-
RediGo.Probabilistic.CMSTheorems — what a Count-Min sketch estimates.

The counter in row `i` and column `j` is the saturated sum of all values
that were added for items with column `j` in row `i` (`Counts`). Saturated
addition of one value after the other is the saturation of the exact sum
(`addCapped_ofNat`), so the order of the increments is lost. `IncrBy`
updates one row in each iteration: above the current row the table already
counts the new increment, below it does not yet (`rowsDone`).

`Count` and the result of `IncrBy` are the least of the counters on an
item's path through the rows, hence the estimate (`IsEstimate`).
-/
import Mathlib.Algebra.BigOperators.Group.List.Basic
import Mathlib.Algebra.GroupWithZero.Nat
import Mathlib.Algebra.Order.BigOperators.Group.List
import Mathlib.Algebra.Order.Group.Nat
import RediGo.Lib.Table
import RediGo.Probabilistic.CMS

namespace RediGo.Probabilistic.CMS

open RediGo.Go RediGo.Lib

/-! ## What a sketch is for -/

/-- `min(2⁶⁴-1, n)` -/
def saturate (n : Nat) : Nat := min (2 ^ 64 - 1) n

/-- The column of an item in row `i` of a sketch of width `w`. -/
def column (hash : ItemHash) (w : UInt64) (i : Nat) (item : Bytes) : Nat :=
  (hash item (UInt32.ofNat i) % w).toNat

/-- The sum of the values added for the items that `p` selects. -/
def total (p : Bytes → Bool) (incrs : List (Bytes × UInt64)) : Nat :=
  ((incrs.filter fun a => p a.1).map fun a => a.2.toNat).sum

/-- The sum of the values added for items with column `j` in row `i`. -/
def cellTotal (hash : ItemHash) (w : UInt64) (incrs : List (Bytes × UInt64)) (i j : Nat) : Nat :=
  total (fun item => column hash w i item = j) incrs

/-- `m` is the minimum over the rows of the saturated sum of everything
that was added for items which share the row's column with `x`. -/
def IsEstimate (hash : ItemHash) (w d : UInt64) (incrs : List (Bytes × UInt64)) (x : Bytes)
    (m : Nat) : Prop :=
  IsLeast ((fun i => saturate (cellTotal hash w incrs i (column hash w i x))) '' Set.Iio d.toNat) m

theorem saturate_le (n : Nat) : saturate n ≤ 2 ^ 64 - 1 := Nat.min_le_left ..

theorem saturate_mono {m n : Nat} (h : m ≤ n) : saturate m ≤ saturate n :=
  min_le_min_left _ h

theorem total_concat (p : Bytes → Bool) (incrs : List (Bytes × UInt64)) (x : Bytes) (v : UInt64) :
    total p (incrs ++ [(x, v)]) = total p incrs + if p x then v.toNat else 0 := by
  unfold total
  cases h : p x <;> simp [h]

theorem total_perm (p : Bytes → Bool) {incrs incrs' : List (Bytes × UInt64)}
    (h : incrs.Perm incrs') : total p incrs = total p incrs' :=
  ((h.filter _).map _).sum_eq

theorem total_mono {p q : Bytes → Bool} (hpq : ∀ x, p x → q x)
    (incrs : List (Bytes × UInt64)) : total p incrs ≤ total q incrs := by
  have hsub := List.monotone_filter_right incrs fun a => hpq a.1
  exact (hsub.map _).sum_le_sum fun _ _ => Nat.zero_le _

/-! ## Saturating addition -/

theorem toNat_MaxUint64 : MaxUint64.toNat = 2 ^ 64 - 1 := by decide

theorem toNat_ofNat_saturate (n : Nat) : (UInt64.ofNat (saturate n)).toNat = saturate n := by
  have h := saturate_le n
  exact UInt64.toNat_ofNat_of_lt' (show saturate n < 2 ^ 64 by omega)

theorem addCapped_ofNat (n : Nat) (v : UInt64) :
    addCapped (UInt64.ofNat (saturate n)) v = UInt64.ofNat (saturate (n + v.toNat)) := by
  have hcell := toNat_ofNat_saturate n
  have hcap := saturate_le n
  have hv := v.toNat_lt
  have hroom : (MaxUint64 - UInt64.ofNat (saturate n)).toNat = 2 ^ 64 - 1 - saturate n := by
    rw [UInt64.toNat_sub_of_le, hcell, toNat_MaxUint64]
    rw [UInt64.le_iff_toNat_le, hcell, toNat_MaxUint64]
    exact hcap
  apply UInt64.toNat_inj.mp
  rw [toNat_ofNat_saturate]
  unfold addCapped
  split
  next h =>
    rw [UInt64.lt_iff_toNat_lt, hroom] at h
    rw [toNat_MaxUint64]
    unfold saturate at h ⊢
    omega
  next h =>
    rw [UInt64.lt_iff_toNat_lt, hroom] at h
    rw [UInt64.toNat_add, hcell]
    unfold saturate at h hcap ⊢
    omega

theorem toNat_lesser (cell minCount : UInt64) :
    (lesser cell minCount).toNat = min cell.toNat minCount.toNat := by
  unfold lesser
  split
  next h =>
    rw [UInt64.lt_iff_toNat_lt] at h
    omega
  next h =>
    rw [UInt64.lt_iff_toNat_lt] at h
    omega

/-! ## The table of counters -/

section Sketch

variable {hash : ItemHash} {w d : UInt64} {incrs incrs' : List (Bytes × UInt64)} {c : CMS}

/-- The counter of a cell after the increments. -/
def cellCount (hash : ItemHash) (w : UInt64) (incrs : List (Bytes × UInt64)) (i j : Nat) : UInt64 :=
  UInt64.ofNat (saturate (cellTotal hash w incrs i j))

theorem toNat_cellCount (incrs : List (Bytes × UInt64)) (i j : Nat) :
    (cellCount hash w incrs i j).toNat = saturate (cellTotal hash w incrs i j) :=
  toNat_ofNat_saturate _

/-- An increment reaches one cell of each row. -/
theorem cellCount_concat (incrs : List (Bytes × UInt64)) (x : Bytes) (v : UInt64) (i j : Nat) :
    cellCount hash w (incrs ++ [(x, v)]) i j =
      if j = column hash w i x then addCapped (cellCount hash w incrs i j) v
      else cellCount hash w incrs i j := by
  unfold cellCount cellTotal
  rw [total_concat]
  by_cases h : column hash w i x = j
  · simp [h, addCapped_ofNat]
  · simp [h, Ne.symm h]

/-- The sketch counts exactly these increments. -/
structure Counts (hash : ItemHash) (w d : UInt64) (incrs : List (Bytes × UInt64)) (c : CMS) :
    Prop where
  width : c.width = w
  depth : c.depth = d
  table : Tabulates w.toNat d.toNat c.counter (cellCount hash w incrs)

/-- The sizes for which rows do not run into each other. -/
structure Fits (w d : UInt64) : Prop where
  width_pos : 1 ≤ w.toNat
  depth_pos : 1 ≤ d.toNat
  size_lt : w.toNat * d.toNat < 2 ^ 64

theorem Fits.column_lt (h : Fits w d) (hash : ItemHash) (i : Nat) (x : Bytes) :
    column hash w i x < w.toNat := by
  have hw := h.width_pos
  rw [column, UInt64.toNat_mod]
  exact Nat.mod_lt _ (by omega)

theorem Fits.counts_fresh (h : Fits w d) (hash : ItemHash) : Counts hash w d [] (fresh w d) where
  width := rfl
  depth := rfl
  table := by
    have hsize : (w * d).toNat = d.toNat * w.toNat := by
      have hlt := h.size_lt
      rw [UInt64.toNat_mul, Nat.mod_eq_of_lt hlt, Nat.mul_comm]
    show Tabulates _ _ (List.replicate (w * d).toNat 0) _
    rw [hsize]
    exact tabulates_replicate _ _ _

/-- No index wraps around. -/
theorem Fits.cellIndex_eq (h : Fits w d) (hc : c.width = w) (hash : ItemHash) (x : Bytes) {i : Nat}
    (hi : i < d.toNat) : c.cellIndex hash x i = .ok (i * w.toNat + column hash w i x) := by
  have hcol := h.column_lt hash i x
  have hentry := entry_lt hi hcol
  have hsize := h.size_lt
  rw [Nat.mul_comm] at hsize
  have hd := d.toNat_lt
  have hrow : (UInt64.ofNat i).toNat = i := UInt64.toNat_ofNat_of_lt' (show i < 2 ^ 64 by omega)
  have hprod : i * w.toNat < 2 ^ 64 := by omega
  have hwidth : w ≠ 0 := by
    rintro rfl
    exact absurd h.width_pos (by decide)
  have hmod : modulo (hash x (UInt32.ofNat i)) c.width = .ok (hash x (UInt32.ofNat i) % w) := by
    rw [hc, modulo, if_neg hwidth]
  unfold cellIndex
  rw [hmod]
  show Except.ok (c.getIndex _ _).toNat = _
  rw [getIndex, hc, UInt64.toNat_add, UInt64.toNat_mul, hrow, Nat.mod_eq_of_lt hprod,
    ← column, Nat.mod_eq_of_lt (by omega)]

/-! ## `Count` -/

/-- What `Count` returns when the counters are given by a table. -/
theorem Fits.count_eq (h : Fits w d) (hc : Counts hash w d incrs c) (x : Bytes) :
    ∃ m, c.count hash x = .ok m ∧ IsEstimate hash w d incrs x m.toNat := by
  let g : Nat → Nat := fun i => saturate (cellTotal hash w incrs i (column hash w i x))
  let I : Nat → UInt64 → Prop := fun k m =>
    IsLeast (insert (2 ^ 64 - 1) (g '' Set.Iio k)) m.toNat
  have hbody : ∀ i m, 0 ≤ i → i < 0 + c.depth.toNat → I i m →
      ∃ m', c.countRow hash x m i = .ok m' ∧ I (i + 1) m' := by
    intro i m _ hi hm
    rw [Nat.zero_add, hc.depth] at hi
    have hcell : index c.counter (i * w.toNat + column hash w i x) =
        .ok (cellCount hash w incrs i (column hash w i x)) := by
      rw [index, hc.table.get i hi _ (h.column_lt hash i x)]
    refine ⟨lesser (cellCount hash w incrs i (column hash w i x)) m, ?_, ?_⟩
    · unfold countRow
      rw [h.cellIndex_eq hc.width hash x hi]
      show (index _ _ >>= _) = _
      rw [hcell]
      rfl
    · show IsLeast _ _
      rw [toNat_lesser, toNat_cellCount]
      exact isLeast_range_succ hm
  have hinit : I 0 MaxUint64 := by
    show IsLeast _ _
    rw [toNat_MaxUint64]
    exact isLeast_range_zero _ g
  obtain ⟨m, hrun, hleast⟩ := forRange_spec c.depth.toNat 0 hbody hinit
  rw [Nat.zero_add, hc.depth] at hleast
  exact ⟨m, hrun, isLeast_range_of_le hleast h.depth_pos fun i _ => saturate_le _⟩

/-! ## `IncrBy` -/

/-- The table when the first `k` rows count the increment already. -/
def rowsDone (hash : ItemHash) (w : UInt64) (incrs : List (Bytes × UInt64)) (x : Bytes)
    (v : UInt64) (k i j : Nat) : UInt64 :=
  if i < k then cellCount hash w (incrs ++ [(x, v)]) i j else cellCount hash w incrs i j

theorem Fits.incrRow_eq (h : Fits w d) (hc : Counts hash w d incrs c) (x : Bytes) (v : UInt64)
    {i : Nat} (hi : i < d.toNat) {counter : List UInt64} (m : UInt64)
    (htable : Tabulates w.toNat d.toNat counter (rowsDone hash w incrs x v i)) :
    ∃ counter', c.incrRow hash x v (counter, m) i = .ok (counter',
        lesser (cellCount hash w (incrs ++ [(x, v)]) i (column hash w i x)) m) ∧
      Tabulates w.toNat d.toNat counter' (rowsDone hash w incrs x v (i + 1)) := by
  have hcol := h.column_lt hash i x
  let idx := i * w.toNat + column hash w i x
  let cell := cellCount hash w incrs i (column hash w i x)
  have hnew : addCapped cell v = cellCount hash w (incrs ++ [(x, v)]) i (column hash w i x) := by
    rw [cellCount_concat, if_pos rfl]
  have hcell : index counter idx = .ok cell := by
    rw [index, htable.get i hi _ hcol]
    simp [rowsDone, cell]
  have hset : setAt counter idx (addCapped cell v) = .ok (counter.set idx (addCapped cell v)) := by
    rw [setAt, if_pos]
    rw [htable.length]
    exact entry_lt hi hcol
  refine ⟨counter.set idx (addCapped cell v), ?_, ?_⟩
  · unfold incrRow
    rw [h.cellIndex_eq hc.width hash x hi]
    show (index counter idx >>= _) = _
    rw [hcell]
    show (setAt counter idx (addCapped cell v) >>= _) = _
    rw [hset, ← hnew]
    rfl
  · apply (htable.set hi hcol (addCapped cell v)).congr
    intro i' _ j _
    rw [hnew]
    unfold rowsDone
    by_cases hrow : i' = i
    · subst hrow
      rw [if_neg (Nat.lt_irrefl i'), if_pos (Nat.lt_succ_self i')]
      by_cases hj : j = column hash w i' x
      · simp [hj]
      · rw [if_neg (fun hboth => hj hboth.2), cellCount_concat, if_neg hj]
    · have hiff : i' < i + 1 ↔ i' < i := by omega
      simp only [hrow, false_and, if_false, hiff]

/-- `IncrBy` counts its increment and returns the new estimate. -/
theorem Fits.incrBy_eq (h : Fits w d) (hc : Counts hash w d incrs c) (x : Bytes) (v : UInt64) :
    ∃ m c', c.incrBy hash x v = .ok (m, c') ∧ Counts hash w d (incrs ++ [(x, v)]) c' ∧
      IsEstimate hash w d (incrs ++ [(x, v)]) x m.toNat := by
  let g : Nat → Nat := fun i =>
    saturate (cellTotal hash w (incrs ++ [(x, v)]) i (column hash w i x))
  let I : Nat → List UInt64 × UInt64 → Prop := fun k st =>
    Tabulates w.toNat d.toNat st.1 (rowsDone hash w incrs x v k) ∧
      IsLeast (insert (2 ^ 64 - 1) (g '' Set.Iio k)) st.2.toNat
  have hbody : ∀ i st, 0 ≤ i → i < 0 + c.depth.toNat → I i st →
      ∃ st', c.incrRow hash x v st i = .ok st' ∧ I (i + 1) st' := by
    rintro i ⟨counter, m⟩ _ hi ⟨htable, hm⟩
    rw [Nat.zero_add, hc.depth] at hi
    obtain ⟨counter', hrow, htable'⟩ := h.incrRow_eq hc x v hi m htable
    refine ⟨_, hrow, htable', ?_⟩
    rw [toNat_lesser, toNat_cellCount]
    exact isLeast_range_succ hm
  have hinit : I 0 (c.counter, MaxUint64) := by
    constructor
    · exact hc.table.congr fun i _ j _ => by simp [rowsDone]
    · rw [toNat_MaxUint64]
      exact isLeast_range_zero _ g
  obtain ⟨⟨counter, m⟩, hrun, htable, hleast⟩ := forRange_spec c.depth.toNat 0 hbody hinit
  rw [Nat.zero_add, hc.depth] at htable hleast
  refine ⟨m, { c with counter := counter }, ?_, ⟨hc.width, hc.depth, ?_⟩, ?_⟩
  · unfold incrBy
    rw [hrun]
    rfl
  · exact htable.congr fun i hi j _ => by simp [rowsDone, hi]
  · exact isLeast_range_of_le hleast h.depth_pos fun i _ => saturate_le _

/-! ## Runs -/

/-- A run of increments faults nowhere and counts them all. -/
theorem Fits.run_counts (h : Fits w d) (hc : Counts hash w d incrs c)
    (more : List (Bytes × UInt64)) :
    ∃ c', run hash more c = .ok c' ∧ Counts hash w d (incrs ++ more) c' := by
  induction more generalizing incrs c with
  | nil => exact ⟨c, rfl, by rwa [List.append_nil]⟩
  | cons incr more ih =>
    obtain ⟨x, v⟩ := incr
    obtain ⟨m, c₁, hincr, hc₁, _⟩ := h.incrBy_eq hc x v
    obtain ⟨c₂, hrun, hc₂⟩ := ih hc₁
    refine ⟨c₂, ?_, by rwa [List.append_assoc] at hc₂⟩
    unfold run
    rw [hincr]
    exact hrun

/-- What a sketch counts determines it, up to the order of the increments. -/
theorem Counts.unique {c' : CMS} (hc : Counts hash w d incrs c) (hc' : Counts hash w d incrs' c')
    (hperm : incrs'.Perm incrs) : c' = c := by
  have htable : Tabulates w.toNat d.toNat c'.counter (cellCount hash w incrs) :=
    hc'.table.congr fun i _ j _ => by simp only [cellCount, cellTotal, total_perm _ hperm]
  have hwidth : c'.width = c.width := hc'.width.trans hc.width.symm
  have hdepth : c'.depth = c.depth := hc'.depth.trans hc.depth.symm
  have hcounter : c'.counter = c.counter := htable.unique hc.table
  cases c
  cases c'
  simp_all

/-- The estimate is not below what was added for the item. -/
theorem IsEstimate.total_le {x : Bytes} {m : Nat} (h : IsEstimate hash w d incrs x m) :
    saturate (total (· = x) incrs) ≤ m := by
  obtain ⟨i, _, rfl⟩ := h.1
  apply saturate_mono
  apply total_mono
  intro y hy
  rw [of_decide_eq_true hy]
  exact decide_eq_true rfl

/-- The estimate is not above what was added in all. -/
theorem IsEstimate.le_grandTotal {x : Bytes} {m : Nat} (h : IsEstimate hash w d incrs x m) :
    m ≤ saturate (total (fun _ => true) incrs) := by
  obtain ⟨i, _, rfl⟩ := h.1
  exact saturate_mono (total_mono (fun _ _ => rfl) incrs)

/-- After any increments on a fresh sketch, `Count` returns the estimate,
which lies between the saturated total of the item and that of all items;
`IncrBy` returns what `Count` returns after it; and the sketch is the same
for every order of the increments. -/
theorem count_isEstimate (hash : ItemHash) (w d : UInt64) (hw : 1 ≤ w.toNat) (hd : 1 ≤ d.toNat)
    (hsize : w.toNat * d.toNat < 2 ^ 64) (incrs : List (Bytes × UInt64)) :
    ∃ c, run hash incrs (fresh w d) = .ok c ∧
      (∀ x, ∃ m, c.count hash x = .ok m ∧ IsEstimate hash w d incrs x m.toNat ∧
        saturate (total (· = x) incrs) ≤ m.toNat ∧
        m.toNat ≤ saturate (total (fun _ => true) incrs)) ∧
      (∀ x v, ∃ m c', c.incrBy hash x v = .ok (m, c') ∧ c'.count hash x = .ok m) ∧
      ∀ incrs', incrs'.Perm incrs → run hash incrs' (fresh w d) = .ok c := by
  have h : Fits w d := ⟨hw, hd, hsize⟩
  obtain ⟨c, hrun, hc⟩ := h.run_counts (h.counts_fresh hash) incrs
  refine ⟨c, hrun, ?_, ?_, ?_⟩
  · intro x
    obtain ⟨m, hcount, hm⟩ := h.count_eq hc x
    exact ⟨m, hcount, hm, hm.total_le, hm.le_grandTotal⟩
  · intro x v
    obtain ⟨m, c', hincr, hc', hm⟩ := h.incrBy_eq hc x v
    obtain ⟨m', hcount, hm'⟩ := h.count_eq hc' x
    obtain rfl : m' = m := UInt64.toNat_inj.mp (hm'.unique hm)
    exact ⟨m', c', hincr, hcount⟩
  · intro incrs' hperm
    obtain ⟨c', hrun', hc'⟩ := h.run_counts (h.counts_fresh hash) incrs'
    rw [hrun', hc.unique hc' hperm]

/-- Two items of one length share a column of the first row; the second row
tells them apart. -/
theorem count_isEstimate_twoRows :
    let hash : ItemHash := fun item seed => UInt64.ofNat (item.length + seed.toNat * (item.headD 0).toNat)
    ∃ c, run hash [([1], 5), ([2], MaxUint64)] (fresh 2 2) = .ok c ∧
      ∃ m, c.count hash [1] = .ok m ∧
        IsEstimate hash 2 2 [([1], 5), ([2], MaxUint64)] [1] m.toNat := by
  intro hash
  obtain ⟨c, hrun, hcount, _⟩ := count_isEstimate hash 2 2 (by decide) (by decide) (by decide)
    [([1], 5), ([2], MaxUint64)]
  obtain ⟨m, hm, hest, _⟩ := hcount [1]
  exact ⟨c, hrun, m, hm, hest⟩

end Sketch

end RediGo.Probabilistic.CMS
