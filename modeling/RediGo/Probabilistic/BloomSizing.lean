/-
RediGo.Probabilistic.BloomSizing — for which sizes the filter that
`NewBloomFilter` builds can be used.

The number of bits is cut down to an integer, the number of hashes is
rounded up to one. With less than one bit in all, `entries * bitPerEntry < 1`,
there are no bits and still one probe to make, and the first `Add` or
`Exist` divides by zero. The round-up to words loses the bits a second time
if it passes `2^64`. Everywhere else every probe has its word
(`newBloomFilterExact_serves_iff`).

Here the bits per entry are an exact positive number in place of the
`float64` of `calcBpe`. What Go leaves open, the conversion of a number that
is out of range, is a parameter.
-/
import Mathlib.Data.Rat.Floor
import RediGo.Probabilistic.BloomTheorems

namespace RediGo.Probabilistic.Bloom

open RediGo.Go

/-! ## The filter -/

/-- The results of conversions that are out of range. -/
structure Conversions where
  outOfRange : ℚ → UInt64
  outOfRangeInt : ℚ → Int64

instance : Inhabited Conversions := ⟨⟨fun _ => 0, fun _ => 0⟩⟩

/-- `uint64(x)` -/
def Conversions.toUInt64 (conv : Conversions) (x : ℚ) : UInt64 :=
  if ⌊x⌋₊ < 2 ^ 64 then UInt64.ofNat ⌊x⌋₊ else conv.outOfRange x

/-- `int(math.Ceil(x))` -/
def Conversions.ceilInt (conv : Conversions) (x : ℚ) : Int64 :=
  if ⌈x⌉₊ < 2 ^ 63 then Int64.ofNat ⌈x⌉₊ else conv.outOfRangeInt x

/-- The constant `Ln2` -/
def exactLn2 : ℚ := 693147180559945 / 10 ^ 15

/-- `NewBloomFilter`, where `p` is the value of `calcBpe(errorRate)`. -/
def newBloomFilterExact (conv : Conversions) (entries : UInt64) (errorRate : Float64) (p : ℚ) :
    Except Fault Bloom := do
  let bits := roundUp (conv.toUInt64 (entries.toNat * p))
  let words := bits / 64
  let bf ← makeWords words
  .ok { hashes := conv.ceilInt (exactLn2 * p), entries := entries, error := errorRate,
        bitPerEntry := .ofRat false p.num.natAbs p.den, bf := bf, bits := bits, words := words }

/-! ## Filters that serve -/

/-- There are bits to probe, and after any insertions no operation divides by
zero or looks for a word that is not there. -/
def Serves (b : Bloom) : Prop :=
  (0 < b.hashes.toInt → 0 < b.bits.toNat) ∧
    ∀ calcHash inserted, ∃ b', run calcHash inserted b = .ok b' ∧
      (∀ entry, (∃ b'', b'.add calcHash entry = .ok b'') ∧ ∃ r, b'.exist calcHash entry = .ok r) ∧
      ∀ hv i, i < b'.rounds →
        ∃ hash, b'.probe hv i = .ok hash ∧ (hash >>> 6).toNat < b'.words.toNat

section Serves

variable {b : Bloom}

/-- With words every probe has one. -/
theorem Shaped.serves (h : b.Shaped) (hwords : 1 ≤ b.words.toNat) : b.Serves := by
  refine ⟨fun _ => by rw [h.bits_eq]; omega, ?_⟩
  intro calcHash inserted
  obtain ⟨bf', hrun, hlen, -⟩ := h.run_eq hwords calcHash inserted
  have h' : ({ b with bf := bf' } : Bloom).Shaped := ⟨h.bits_eq, hlen⟩
  refine ⟨_, hrun, ?_, ?_⟩
  · intro entry
    obtain ⟨bf'', hset, -⟩ := h'.setProbes_eq hwords (calcHash entry)
    obtain ⟨r, hexist, -⟩ := h'.exist_eq hwords calcHash entry
    exact ⟨⟨_, hset⟩, r, hexist⟩
  · intro hv i _
    obtain ⟨hash, hprobe, hword, -⟩ := h'.probe_eq hwords hv i
    have hlt := h'.position_lt hwords hv i
    exact ⟨hash, hprobe, by rw [hword]; omega⟩

/-- Without hashes there is nothing to probe. -/
theorem serves_of_no_hashes (hhashes : b.hashes.toInt ≤ 0) : b.Serves := by
  have hrounds : b.rounds = 0 := by
    unfold rounds
    omega
  have hset : ∀ hv, b.setProbes hv = .ok b := by
    intro hv
    simp [setProbes, hrounds, forRange, bind, Except.bind]
  have hrun : ∀ calcHash inserted, run calcHash inserted b = .ok b := by
    intro calcHash inserted
    induction inserted with
    | nil => rfl
    | cons ins more ih => simp [run, step_eq, hset, ih, bind, Except.bind]
  refine ⟨fun hpos => by omega, ?_⟩
  intro calcHash inserted
  refine ⟨b, hrun calcHash inserted, ?_, ?_⟩
  · intro entry
    exact ⟨⟨b, hset _⟩, true, by simp [exist, hrounds, testProbes]⟩
  · intro hv i hi
    omega

end Serves

/-! ## Sizes -/

theorem roundUp_eq_zero_iff (bits : UInt64) :
    roundUp bits = 0 ↔ bits.toNat = 0 ∨ 2 ^ 64 - 64 < bits.toNat := by
  have hlt := bits.toNat_lt
  have hmod : (bits % 64).toNat = bits.toNat % 64 := UInt64.toNat_mod ..
  have hzero : roundUp bits = 0 ↔ (roundUp bits).toNat = 0 := by
    rw [← UInt64.toNat_inj]
    rfl
  rw [hzero]
  unfold roundUp
  split
  · rename_i hne
    have hne' : bits.toNat % 64 ≠ 0 := fun h => hne (UInt64.toNat_inj.1 (hmod.trans h))
    have hval : ((bits / 64 + 1) * 64).toNat = ((bits.toNat / 64 + 1) % 2 ^ 64 * 64) % 2 ^ 64 := by
      simp
    rw [hval]
    omega
  · rename_i heq
    have heq' : bits.toNat % 64 = 0 := by
      rw [← hmod, not_not.1 heq]
      rfl
    omega

/-- How the bits get lost: there were none, or the round-up wraps, or what the
conversion makes of a size out of range is lost in turn. -/
theorem roundUp_toUInt64_eq_zero_iff (conv : Conversions) (x : ℚ) :
    roundUp (conv.toUInt64 x) = 0 ↔ x < 1 ∨ (2 ^ 64 - 63 ≤ x ∧ x < 2 ^ 64) ∨
      (2 ^ 64 ≤ x ∧ roundUp (conv.outOfRange x) = 0) := by
  have hfloor : ⌊x⌋₊ < 2 ^ 64 ↔ x < 2 ^ 64 := by
    rw [Nat.floor_lt' (by norm_num)]
    norm_num
  rw [Conversions.toUInt64]
  by_cases hx : x < 2 ^ 64
  · rw [if_pos (hfloor.2 hx), roundUp_eq_zero_iff,
      UInt64.toNat_ofNat_of_lt' (hfloor.2 hx), Nat.floor_eq_zero]
    have hlarge : 2 ^ 64 - 64 < ⌊x⌋₊ ↔ (2 ^ 64 - 63 : ℚ) ≤ x := by
      rw [show 2 ^ 64 - 64 < ⌊x⌋₊ ↔ 2 ^ 64 - 63 ≤ ⌊x⌋₊ by omega, Nat.le_floor_iff' (by norm_num)]
      norm_num
    rw [hlarge]
    simp [hx, not_le.2 hx]
  · rw [if_neg (mt hfloor.1 hx)]
    have hone : ¬ x < 1 := by linarith
    simp [hx, not_lt.1 hx, hone]

/-- A filter has no hash only if their number is out of range. -/
theorem ceilInt_nonpos_iff (conv : Conversions) {x : ℚ} (hpos : 0 < x) :
    (conv.ceilInt x).toInt ≤ 0 ↔ 2 ^ 63 - 1 < x ∧ (conv.outOfRangeInt x).toInt ≤ 0 := by
  have hceil : ⌈x⌉₊ < 2 ^ 63 ↔ ¬ (2 ^ 63 - 1 : ℚ) < x := by
    rw [show ⌈x⌉₊ < 2 ^ 63 ↔ ⌈x⌉₊ ≤ 2 ^ 63 - 1 by omega, Nat.ceil_le, not_lt]
    norm_num
  rw [Conversions.ceilInt]
  by_cases hx : (2 ^ 63 - 1 : ℚ) < x
  · rw [if_neg (fun h => hceil.1 h hx)]
    simp [hx]
  · have hlt := hceil.2 hx
    have hone : 0 < ⌈x⌉₊ := Nat.ceil_pos.2 hpos
    have hval : (Int64.ofNat ⌈x⌉₊).toInt = ⌈x⌉₊ := Int64.toInt_ofNat_of_lt hlt
    rw [if_pos hlt, hval]
    simp [hx]
    omega

/-- Less than one bit per entry still makes one hash. -/
theorem ceilInt_of_lt_one (conv : Conversions) {p : ℚ} (hpos : 0 < p) (hlt : p < 1) :
    conv.ceilInt (exactLn2 * p) = 1 := by
  have hceil : ⌈exactLn2 * p⌉₊ = 1 := by
    rw [Nat.ceil_eq_iff one_ne_zero]
    have hln : (0 : ℚ) < exactLn2 ∧ exactLn2 < 1 := by
      unfold exactLn2
      norm_num
    constructor
    · simpa using mul_pos hln.1 hpos
    · simpa using (mul_lt_one_of_nonneg_of_lt_one_left hln.1.le hln.2 hlt.le).le
  rw [Conversions.ceilInt, hceil]
  rfl

section Build

variable {conv : Conversions} {entries : UInt64} {errorRate : Float64} {p : ℚ} {b : Bloom}

theorem newBloomFilterExact_ok (h : newBloomFilterExact conv entries errorRate p = .ok b) :
    b.Shaped ∧ b.bits = roundUp (conv.toUInt64 (entries.toNat * p)) ∧
      b.hashes = conv.ceilInt (exactLn2 * p) := by
  obtain ⟨bf, hmake, h⟩ := bind_eq_ok h
  cases h
  refine ⟨⟨roundUp_eq _, ?_⟩, rfl, rfl⟩
  rw [eq_replicate_of_makeWords hmake, List.length_replicate]

/-- A filter without bits is built, and does not serve if it has a hash. -/
theorem not_serves (errorRate : Float64)
    (hbits : roundUp (conv.toUInt64 (entries.toNat * p)) = 0)
    (hhashes : 0 < (conv.ceilInt (exactLn2 * p)).toInt) :
    ∃ b, newBloomFilterExact conv entries errorRate p = .ok b ∧ ¬ b.Serves := by
  refine ⟨⟨conv.ceilInt (exactLn2 * p), entries, errorRate, .ofRat false p.num.natAbs p.den, [], 0, 0⟩,
    ?_, ?_⟩
  · unfold newBloomFilterExact
    rw [hbits]
    rfl
  · intro hserves
    exact absurd (hserves.1 hhashes) (by simp)

/-- The filter serves if it has bits, or no hash to look for them. -/
theorem serves_iff (errorRate : Float64) :
    (∀ b, newBloomFilterExact conv entries errorRate p = .ok b → b.Serves) ↔
      roundUp (conv.toUInt64 (entries.toNat * p)) ≠ 0 ∨
        (conv.ceilInt (exactLn2 * p)).toInt ≤ 0 := by
  constructor
  · intro hserves
    by_contra hbad
    rw [not_or, not_not, not_le] at hbad
    obtain ⟨b, hb, hnot⟩ := not_serves errorRate hbad.1 hbad.2
    exact hnot (hserves b hb)
  · intro hok b hb
    obtain ⟨hshaped, hbits, hhashes⟩ := newBloomFilterExact_ok hb
    rcases hok with hkept | hnone
    · refine hshaped.serves ?_
      have hpos : b.bits.toNat ≠ 0 := by
        intro hzero
        rw [hbits] at hzero
        exact hkept (UInt64.toNat_inj.1 hzero)
      have hwords := hshaped.bits_eq
      omega
    · refine serves_of_no_hashes ?_
      rw [hhashes]
      exact hnone

end Build

/-- The filter serves, exactly if it was meant to have a bit and the round-up
to words does not lose it again. From `2^64 - 63` bits on the round-up wraps
to zero, until the size is out of range and the bits are what the conversion
makes of it; a filter without bits still serves if it has no hash, because the
number of its hashes is out of range too. -/
theorem newBloomFilterExact_serves_iff (conv : Conversions) (entries : UInt64) (errorRate : Float64)
    (p : ℚ) (hp : 0 < p) (hentries : 1 ≤ entries.toNat) :
    (∀ b, newBloomFilterExact conv entries errorRate p = .ok b → b.Serves) ↔
      1 ≤ entries.toNat * p ∧
        (entries.toNat * p < 2 ^ 64 - 63 ∨
          (2 ^ 64 ≤ entries.toNat * p ∧ roundUp (conv.outOfRange (entries.toNat * p)) ≠ 0) ∨
          (2 ^ 63 - 1 < exactLn2 * p ∧ (conv.outOfRangeInt (exactLn2 * p)).toInt ≤ 0)) := by
  have hle : p ≤ entries.toNat * p := le_mul_of_one_le_left hp.le (by exact_mod_cast hentries)
  have hln : exactLn2 < 1 ∧ 0 < exactLn2 * p := by
    unfold exactLn2
    exact ⟨by norm_num, by linarith⟩
  rw [serves_iff, ne_eq, roundUp_toUInt64_eq_zero_iff, ceilInt_nonpos_iff conv hln.2]
  constructor
  · rintro (hbits | hhashes)
    · rw [not_or, not_or, not_and, not_and, not_lt, not_lt] at hbits
      obtain ⟨hone, hwrap, hrange⟩ := hbits
      refine ⟨hone, ?_⟩
      by_cases hsmall : (entries.toNat * p : ℚ) < 2 ^ 64 - 63
      · exact .inl hsmall
      · have hbig := hwrap (not_lt.1 hsmall)
        exact .inr (.inl ⟨hbig, hrange hbig⟩)
    · refine ⟨?_, .inr (.inr hhashes)⟩
      have hless : exactLn2 * p < p := mul_lt_of_lt_one_left hp hln.1
      linarith [hhashes.1]
  · rintro ⟨hone, hsmall | ⟨hbig, hkept⟩ | hhashes⟩
    · refine .inl ?_
      rintro (hlt | hwrap | hrange)
      · linarith
      · linarith [hwrap.1]
      · linarith [hrange.1]
    · refine .inl ?_
      rintro (hlt | hwrap | hrange)
      · linarith
      · linarith [hwrap.2]
      · exact hkept hrange.2
    · exact .inr hhashes

/-- Ten entries of one and a half bits each: one word, two hashes. -/
theorem newBloomFilterExact_serves_ten :
    ∃ b, newBloomFilterExact default 10 .one (3 / 2) = .ok b ∧ b.Serves := by
  have hten : (10 : UInt64).toNat = 10 := rfl
  have hbits : (default : Conversions).toUInt64 ((10 : UInt64).toNat * (3 / 2)) = 15 := by
    norm_num [Conversions.toUInt64, hten]
    rfl
  obtain ⟨b, hb⟩ : ∃ b, newBloomFilterExact default 10 .one (3 / 2) = .ok b := by
    unfold newBloomFilterExact
    rw [hbits]
    exact ⟨_, rfl⟩
  refine ⟨b, hb, (newBloomFilterExact_serves_iff default 10 .one (3 / 2) (by norm_num)
    (by decide)).2 ⟨by norm_num [hten], .inl (by norm_num [hten])⟩ b hb⟩

/-- One entry of half a bit: no bits and one hash, and the first `Exist` and
the first `Add` divide by zero. -/
theorem newBloomFilterExact_divides :
    ∃ b, newBloomFilterExact default 1 .one (1 / 2) = .ok b ∧ b.bits = 0 ∧ b.hashes = 1 ∧
      b.exist (fun _ => ⟨0, 0⟩) (lit "a") = .error .divide ∧
      b.add (fun _ => ⟨0, 0⟩) (lit "a") = .error .divide := by
  have hfloor : ⌊((1 : UInt64).toNat * (1 / 2) : ℚ)⌋₊ = 0 := by
    rw [Nat.floor_eq_zero]
    norm_num [show (1 : UInt64).toNat = 1 from rfl]
  have hbits : (default : Conversions).toUInt64 ((1 : UInt64).toNat * (1 / 2)) = 0 := by
    rw [Conversions.toUInt64, hfloor]
    rfl
  have hhashes : (default : Conversions).ceilInt (exactLn2 * (1 / 2)) = 1 :=
    ceilInt_of_lt_one default (by norm_num) (by norm_num)
  unfold newBloomFilterExact
  rw [hbits, hhashes]
  exact ⟨_, rfl, rfl, rfl, rfl, rfl⟩

end RediGo.Probabilistic.Bloom
