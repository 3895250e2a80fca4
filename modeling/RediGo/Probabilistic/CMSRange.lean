/-
RediGo.Probabilistic.CMSRange — when every item of a sketch has its
counters, and when an increment leaves them as they were.

`NewCMS` makes `width * depth` counters in `uint64`. If the product wraps
around, the indices of the rows still reach up to the exact product, so some
item of some row has the first index past the end; a width of zero is a
division by zero in the first row. No other size fails (`inRange_iff`).

Counters only grow (`Grown`). So an increment, which writes one counter in
each row, changes nothing exactly if none of its writes does
(`rows_eq_iff`), also where rows overlap.
-/
import RediGo.Probabilistic.CMSTheorems

namespace RediGo.Probabilistic.CMS

open RediGo.Go

/-! ## Indices -/

/-- Under every hash every item has a counter in each row. -/
def InRange (c : CMS) : Prop :=
  ∀ (hash : ItemHash) item i, i < c.depth.toNat →
    ∃ idx, c.cellIndex hash item i = .ok idx ∧ idx < c.counter.length

section Range

variable {c : CMS}

/-- A sketch that answers for all items has all indices in range. -/
theorem inRange_of_count (h : ∀ hash item, ∃ m, c.count hash item = .ok m) : c.InRange := by
  intro hash item i hi
  obtain ⟨m, hm⟩ := h hash item
  obtain ⟨m₁, m₂, hrow⟩ := exists_of_forRange hm (Nat.zero_le i) (by omega)
  obtain ⟨idx, hidx, hrow⟩ := bind_eq_ok hrow
  obtain ⟨cell, hcell, -⟩ := bind_eq_ok hrow
  exact ⟨idx, hidx, (List.getElem?_eq_some_iff.1 (index_eq_ok.1 hcell)).1⟩

theorem InRange.count (h : c.InRange) (hash : ItemHash) (item : Bytes) :
    ∃ m, c.count hash item = .ok m := by
  have hbody : ∀ i m, 0 ≤ i → i < 0 + c.depth.toNat → True →
      ∃ m', c.countRow hash item m i = .ok m' ∧ True := by
    intro i m _ hi _
    obtain ⟨idx, hidx, hlt⟩ := h hash item i (by omega)
    exact ⟨lesser (c.counter.get ⟨idx, hlt⟩) m,
      by simp [countRow, hidx, index, hlt, bind, Except.bind], trivial⟩
  obtain ⟨m, hm, -⟩ := forRange_spec (I := fun _ _ => True) c.depth.toNat 0 (s := MaxUint64) hbody
    trivial
  exact ⟨m, hm⟩

theorem InRange.incrBy (h : c.InRange) (hash : ItemHash) (item : Bytes) (value : UInt64) :
    ∃ r, c.incrBy hash item value = .ok r := by
  -- no row makes or loses a counter
  let I : Nat → List UInt64 × UInt64 → Prop := fun _ st => st.1.length = c.counter.length
  have hbody : ∀ i st, 0 ≤ i → i < 0 + c.depth.toNat → I i st →
      ∃ st', c.incrRow hash item value st i = .ok st' ∧ I (i + 1) st' := by
    rintro i ⟨counter, m⟩ _ hi hlen
    obtain ⟨idx, hidx, hlt⟩ := h hash item i (by omega)
    have hlt' : idx < counter.length := by rw [show counter.length = _ from hlen]; exact hlt
    let cell := addCapped (counter.get ⟨idx, hlt'⟩) value
    exact ⟨(counter.set idx cell, lesser cell m),
      by simp [incrRow, hidx, index, setAt, hlt', cell, bind, Except.bind],
      (List.length_set ..).trans hlen⟩
  obtain ⟨⟨counter, m⟩, hrun, -⟩ := forRange_spec (I := I) c.depth.toNat 0
    (s := (c.counter, MaxUint64)) hbody rfl
  exact ⟨(m, { c with counter := counter }), by simp [CMS.incrBy, hrun, bind, Except.bind]⟩

/-- The index of a column under a hash that always gives it. -/
theorem cellIndex_of_const {j : Nat} (hj : j < c.width.toNat) (item : Bytes) (i : Nat) :
    c.cellIndex (fun _ _ => UInt64.ofNat j) item i =
      .ok ((i * c.width.toNat + j) % 2 ^ 64) := by
  have hwidth := c.width.toNat_lt
  have hne : c.width ≠ 0 := by
    intro hzero
    rw [hzero] at hj
    exact absurd hj (by simp)
  have hcol : UInt64.ofNat j % c.width = UInt64.ofNat j := by
    apply UInt64.toNat_inj.1
    rw [UInt64.toNat_mod, UInt64.toNat_ofNat_of_lt' (show j < 2 ^ 64 by omega), Nat.mod_eq_of_lt hj]
  simp only [cellIndex, modulo, if_neg hne, bind, Except.bind, hcol, getIndex]
  simp [UInt64.toNat_add, UInt64.toNat_mul]

/-- The sizes whose indices are all in range. -/
theorem inRange_iff (hlen : c.counter.length = (c.width * c.depth).toNat) :
    c.InRange ↔
      c.depth = 0 ∨ 0 < c.width.toNat ∧ c.width.toNat * c.depth.toNat < 2 ^ 64 := by
  have hsize : c.counter.length = c.width.toNat * c.depth.toNat % 2 ^ 64 := by
    rw [hlen, UInt64.toNat_mul]
  constructor
  · intro h
    by_cases hdepth : c.depth = 0
    · exact .inl hdepth
    have hpos : 0 < c.depth.toNat := by
      rw [Nat.pos_iff_ne_zero]
      exact fun hzero => hdepth (UInt64.toNat_inj.1 hzero)
    have hwidth : 0 < c.width.toNat := by
      obtain ⟨idx, hidx, -⟩ := h (fun _ _ => 0) [] 0 hpos
      rw [Nat.pos_iff_ne_zero]
      intro hzero
      have hzero' : c.width = 0 := UInt64.toNat_inj.1 hzero
      simp [cellIndex, modulo, hzero', bind, Except.bind] at hidx
    refine .inr ⟨hwidth, ?_⟩
    by_contra hbig
    rw [not_lt] at hbig
    -- the first index past the end has a row and a column
    let len := c.counter.length
    have hlt : len < c.width.toNat * c.depth.toNat := by
      have := Nat.mod_lt (c.width.toNat * c.depth.toNat) (show 0 < 2 ^ 64 by decide)
      show c.counter.length < _
      omega
    have hrow : len / c.width.toNat < c.depth.toNat := Nat.div_lt_of_lt_mul hlt
    obtain ⟨idx, hidx, hidx'⟩ :=
      h (fun _ _ => UInt64.ofNat (len % c.width.toNat)) [] (len / c.width.toNat) hrow
    rw [cellIndex_of_const (Nat.mod_lt _ hwidth)] at hidx
    have hlen' : len % 2 ^ 64 = len := by
      show c.counter.length % 2 ^ 64 = c.counter.length
      rw [hsize, Nat.mod_mod]
    rw [Nat.div_add_mod', hlen'] at hidx
    cases hidx
    exact absurd hidx' (Nat.lt_irrefl _)
  · rintro (hdepth | ⟨hwidth, hlt⟩) hash item i hi
    · rw [hdepth] at hi
      exact absurd hi (by simp)
    · have hfits : Fits c.width c.depth := ⟨hwidth, by omega, hlt⟩
      refine ⟨_, hfits.cellIndex_eq rfl hash item hi, ?_⟩
      rw [hsize, Nat.mod_eq_of_lt hlt, Nat.mul_comm c.width.toNat]
      exact Lib.entry_lt hi (hfits.column_lt hash i item)

end Range

/-! ## Counters that grow -/

section Growth

variable {hash : ItemHash} {c c' : CMS} {item : Bytes} {value : UInt64}

/-- The same number of counters, none of them smaller. -/
structure Grown (a b : List UInt64) : Prop where
  length : b.length = a.length
  le : ∀ (idx : Nat) (cell : UInt64), a[idx]? = some cell → ∃ cell', b[idx]? = some cell' ∧ cell ≤ cell'

theorem Grown.refl (a : List UInt64) : Grown a a :=
  ⟨rfl, fun _ cell h => ⟨cell, h, UInt64.le_refl cell⟩⟩

theorem Grown.trans {a b d : List UInt64} (h : Grown a b) (h' : Grown b d) : Grown a d where
  length := h'.length.trans h.length
  le := by
    intro idx cell hcell
    obtain ⟨cell₁, hcell₁, hle₁⟩ := h.le idx cell hcell
    obtain ⟨cell₂, hcell₂, hle₂⟩ := h'.le idx cell₁ hcell₁
    exact ⟨cell₂, hcell₂, UInt64.le_trans hle₁ hle₂⟩

theorem Grown.antisymm {a b : List UInt64} (h : Grown a b) (h' : Grown b a) : b = a := by
  apply List.ext_getElem?
  intro idx
  cases hb : b[idx]? with
  | none =>
    rw [List.getElem?_eq_none_iff, h.length] at hb
    rw [List.getElem?_eq_none hb]
  | some cell =>
    obtain ⟨cell₁, hcell₁, hle₁⟩ := h'.le idx cell hb
    obtain ⟨cell₂, hcell₂, hle₂⟩ := h.le idx cell₁ hcell₁
    cases hb.symm.trans hcell₂
    rw [hcell₁, UInt64.le_antisymm hle₁ hle₂]

theorem le_MaxUint64 (cell : UInt64) : cell ≤ MaxUint64 := by
  have hcell := cell.toNat_lt
  rw [UInt64.le_iff_toNat_le, toNat_MaxUint64]
  omega

theorem le_addCapped (cell value : UInt64) : cell ≤ addCapped cell value := by
  unfold addCapped
  split
  · exact le_MaxUint64 cell
  · rename_i hroom
    have hcell := cell.toNat_lt
    rw [UInt64.lt_iff_toNat_lt, UInt64.toNat_sub_of_le _ _ (le_MaxUint64 cell),
      toNat_MaxUint64] at hroom
    rw [UInt64.le_iff_toNat_le, UInt64.toNat_add]
    omega

/-- The additions without effect. -/
theorem addCapped_eq_self_iff (cell value : UInt64) :
    addCapped cell value = cell ↔ value = 0 ∨ cell = MaxUint64 := by
  have hcell := cell.toNat_lt
  simp only [← UInt64.toNat_inj, toNat_MaxUint64, UInt64.toNat_zero]
  unfold addCapped
  simp only [UInt64.lt_iff_toNat_lt, UInt64.toNat_sub_of_le _ _ (le_MaxUint64 cell),
    toNat_MaxUint64]
  split
  · rw [toNat_MaxUint64]
    omega
  · rw [UInt64.toNat_add]
    omega

theorem grown_set {a : List UInt64} {idx : Nat} {cell : UInt64} (h : a[idx]? = some cell)
    (value : UInt64) : Grown a (a.set idx (addCapped cell value)) where
  length := List.length_set ..
  le := by
    intro j old hold
    by_cases hj : idx = j
    · subst hj
      obtain rfl : cell = old := Option.some.inj (h.symm.trans hold)
      have hlt := (List.getElem?_eq_some_iff.1 h).1
      exact ⟨addCapped cell value, by simp [hlt], le_addCapped cell value⟩
    · exact ⟨old, by rw [List.getElem?_set_ne hj]; exact hold, UInt64.le_refl old⟩

/-- What one row of an increment does to the counters. -/
theorem incrRow_cases {st st' : List UInt64 × UInt64} {i : Nat}
    (h : c.incrRow hash item value st i = .ok st') :
    ∃ idx cell, c.cellIndex hash item i = .ok idx ∧ st.1[idx]? = some cell ∧
      st'.1 = st.1.set idx (addCapped cell value) := by
  obtain ⟨idx, hidx, h⟩ := bind_eq_ok h
  obtain ⟨cell, hcell, h⟩ := bind_eq_ok h
  obtain ⟨counter, hset, h⟩ := bind_eq_ok h
  cases h
  refine ⟨idx, cell, hidx, index_eq_ok.1 hcell, ?_⟩
  unfold setAt at hset
  split at hset
  · cases hset
    rfl
  · cases hset

theorem grown_rows {n lo : Nat} {st st' : List UInt64 × UInt64}
    (h : forRange (c.incrRow hash item value) n lo st = .ok st') : Grown st.1 st'.1 := by
  induction n generalizing lo st with
  | zero =>
    cases h
    exact Grown.refl _
  | succ n ih =>
    obtain ⟨st₁, hrow, hrest⟩ := bind_eq_ok h
    obtain ⟨idx, cell, -, hcell, hset⟩ := incrRow_cases hrow
    have hfirst := grown_set hcell value
    rw [← hset] at hfirst
    exact hfirst.trans (ih hrest)

/-- A counter that grew in one row is not shrunk by a later one, so no two
rows undo each other. -/
theorem rows_eq_iff {n lo : Nat} {st st' : List UInt64 × UInt64}
    (h : forRange (c.incrRow hash item value) n lo st = .ok st') :
    st'.1 = st.1 ↔ value = 0 ∨ ∀ i, lo ≤ i → i < lo + n → ∀ idx,
      c.cellIndex hash item i = .ok idx → st.1[idx]? = some MaxUint64 := by
  induction n generalizing lo st with
  | zero =>
    cases h
    exact iff_of_true rfl (.inr fun i hlo hhi => by omega)
  | succ n ih =>
    obtain ⟨st₁, hrow, hrest⟩ := bind_eq_ok h
    obtain ⟨idx, cell, hidx, hcell, hset⟩ := incrRow_cases hrow
    obtain ⟨hlt, hget⟩ := List.getElem?_eq_some_iff.1 hcell
    by_cases hsame : addCapped cell value = cell
    · have hst : st₁.1 = st.1 := by
        rw [hset, hsame, ← hget, List.set_getElem_self]
      rw [← hst, ih hrest, hst]
      have hlo := (addCapped_eq_self_iff cell value).1 hsame
      constructor
      · rintro (hzero | hrows)
        · exact .inl hzero
        · refine hlo.imp id fun hmax i hi hi' j hj => ?_
          rcases Nat.eq_or_lt_of_le hi with rfl | hi
          · cases hidx.symm.trans hj
            rw [hcell, hmax]
          · exact hrows i hi (by omega) j hj
      · exact Or.imp id fun hrows i hi hi' => hrows i (by omega) (by omega)
    · -- what this row changed stays changed
      have hne : st'.1 ≠ st.1 := by
        intro heq
        have hback := grown_rows hrest
        rw [heq] at hback
        have hset' := hset.symm.trans ((hset ▸ grown_set hcell value).antisymm hback)
        have hcell' := congrArg (·[idx]?) hset'
        simp [hlt] at hcell'
        exact hsame (hcell'.trans hget)
      have hbusy : ¬ (value = 0 ∨ cell = MaxUint64) := fun hidle =>
        hsame ((addCapped_eq_self_iff cell value).2 hidle)
      refine iff_of_false hne fun hidle => hbusy (hidle.imp id fun hrows => ?_)
      have hmax := hrows lo (Nat.le_refl lo) (by omega) idx hidx
      exact Option.some.inj (hcell.symm.trans hmax)

/-- An increment of zero, or of counters that are all at the limit. -/
def Idle (hash : ItemHash) (c : CMS) (item : Bytes) (value : UInt64) : Prop :=
  value = 0 ∨ ∀ i < c.depth.toNat, ∀ idx, c.cellIndex hash item i = .ok idx →
    c.counter[idx]? = some MaxUint64

/-- A later state of the same sketch. -/
structure Extends (c c' : CMS) : Prop where
  width : c'.width = c.width
  depth : c'.depth = c.depth
  grown : Grown c.counter c'.counter

theorem Extends.refl (c : CMS) : Extends c c := ⟨rfl, rfl, .refl _⟩

theorem Extends.trans {c₁ c₂ c₃ : CMS} (h : Extends c₁ c₂) (h' : Extends c₂ c₃) : Extends c₁ c₃ :=
  ⟨h'.width.trans h.width, h'.depth.trans h.depth, h.grown.trans h'.grown⟩

theorem Extends.antisymm (h : Extends c c') (h' : Extends c' c) : c' = c := by
  have hcounter := h.grown.antisymm h'.grown
  have hwidth := h.width
  have hdepth := h.depth
  cases c
  cases c'
  simp_all

/-- What an increment changes: counters, and only upwards. -/
theorem incrBy_cases {m : UInt64} (h : c.incrBy hash item value = .ok (m, c')) :
    Extends c c' ∧ (c' = c ↔ Idle hash c item value) := by
  obtain ⟨st, hrows, h⟩ := bind_eq_ok h
  cases h
  refine ⟨⟨rfl, rfl, grown_rows hrows⟩, ?_⟩
  have hiff := rows_eq_iff hrows
  have hsame : (⟨c.width, c.depth, st.1⟩ : CMS) = c ↔ st.1 = c.counter := by
    cases c
    simp
  rw [hsame]
  simpa [Idle] using hiff

theorem InRange.extends (h : c.InRange) (hext : Extends c c') : c'.InRange := by
  intro hash item i hi
  rw [hext.depth] at hi
  obtain ⟨idx, hidx, hlt⟩ := h hash item i hi
  refine ⟨idx, ?_, by rwa [hext.grown.length]⟩
  rw [← hidx, cellIndex, cellIndex, hext.width]
  simp only [getIndex, hext.width]

end Growth

end RediGo.Probabilistic.CMS
