/-
RediGo.Lib.BitArray — sets of numbers as bits of 64-bit words.

Bit `p` of a list of words is bit `p % 64` of word `p / 64`. Word and bit
of a position are computed with a shift and a mask (`toNat_shiftRight_six`,
`toNat_and_mask`); or-ing the bit into its word adds the position to the
set and changes nothing else (`bitAt_set_or`), and masking a word with it
tests for it (`and_bit_eq_zero_iff`).
-/
import Mathlib.Data.Nat.Bitwise

namespace RediGo.Lib

/-- Bit `p` of a list of words; beyond the end there are zeros. -/
def bitAt (ws : List UInt64) (p : Nat) : Bool := (ws.getD (p / 64) 0).toNat.testBit (p % 64)

theorem toNat_shiftRight_six (h : UInt64) : (h >>> 6).toNat = h.toNat / 64 := by
  rw [UInt64.toNat_shiftRight, Nat.shiftRight_eq_div_pow]
  rfl

theorem toNat_and_mask (h : UInt64) : (h &&& 0x3F).toNat = h.toNat % 64 := by
  rw [UInt64.toNat_and]
  exact Nat.and_two_pow_sub_one_eq_mod h.toNat 6

/-- The word with only bit `b`. -/
theorem testBit_one_shiftLeft {b : UInt64} (hb : b.toNat < 64) (k : Nat) :
    ((1 : UInt64) <<< b).toNat.testBit k = decide (k = b.toNat) := by
  have hpow : ((1 : UInt64) <<< b).toNat = 2 ^ b.toNat := by
    have hlt : 2 ^ b.toNat < 2 ^ 64 := Nat.pow_lt_pow_right (by omega) hb
    rw [UInt64.toNat_shiftLeft, Nat.mod_eq_of_lt hb, Nat.shiftLeft_eq]
    exact (congrArg (· % 2 ^ 64) (Nat.one_mul _)).trans (Nat.mod_eq_of_lt hlt)
  rw [hpow, Nat.testBit_two_pow]
  simp [eq_comm]

theorem and_bit_eq_zero_iff {b : UInt64} (hb : b.toNat < 64) (w : UInt64) :
    w &&& (1 <<< b) = 0 ↔ w.toNat.testBit b.toNat = false := by
  rw [← UInt64.toNat_inj, UInt64.toNat_and]
  constructor
  · intro h
    have hbit := congrArg (Nat.testBit · b.toNat) h
    simp only [Nat.testBit_and, testBit_one_shiftLeft hb, decide_true, Bool.and_true] at hbit
    rw [hbit]
    exact Nat.zero_testBit _
  · intro h
    apply Nat.eq_of_testBit_eq
    intro k
    rw [Nat.testBit_and, testBit_one_shiftLeft hb]
    by_cases hk : k = b.toNat
    · simp [hk, h]
    · simp [hk]

theorem bitAt_set_or {ws : List UInt64} {p : Nat} (hp : p / 64 < ws.length) {b : UInt64}
    (hb : b.toNat = p % 64) (q : Nat) :
    bitAt (ws.set (p / 64) (ws.getD (p / 64) 0 ||| (1 <<< b))) q =
      (bitAt ws q || decide (q = p)) := by
  have hlt : b.toNat < 64 := by omega
  unfold bitAt
  by_cases hword : q / 64 = p / 64
  · have hbit : q % 64 = b.toNat ↔ q = p := by omega
    rw [hword, List.getD_eq_getElem _ _ (by rwa [List.length_set]), List.getElem_set_self,
      UInt64.toNat_or, Nat.testBit_or, testBit_one_shiftLeft hlt]
    simp only [hbit]
  · have hne : q ≠ p := by
      rintro rfl
      exact hword rfl
    rw [List.getD_eq_getElem?_getD, List.getElem?_set_ne (Ne.symm hword),
      ← List.getD_eq_getElem?_getD]
    simp [hne]

end RediGo.Lib
