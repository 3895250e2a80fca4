/-
RediGo.Go.Number — the decimal text of integers.

`int64` (and `int`, on the 64-bit platforms the server runs on) is Lean's
`Int64`, whose arithmetic wraps around as Go's does. `formatInt` is the
verb `%d`.

`digits` is the exact value of a numeral. `Int64.ofInt` is a ring
homomorphism, so a reader that wraps after every digit computes
`Int64.ofInt` of that value, and reading back a printed number gives the
number (`digits_decimal`).
-/
import RediGo.Go.Basic

namespace RediGo.Go

/-- The bytes of a Go string literal. -/
def lit (s : String) : Bytes := s.toUTF8.data.toList

/-! ## Decimal numerals -/

/-- The digits of a natural number. -/
def decimal (n : Nat) : Bytes := (Nat.toDigits 10 n).map Char.toUInt8

/-- `fmt.Sprintf("%d", x)` -/
def formatInt (x : Int64) : Bytes :=
  if x.toInt < 0 then lit "-" ++ decimal x.toInt.natAbs else decimal x.toInt.natAbs

/-- The exact value of a digit string, continuing from `res`. A byte that
is no digit counts as `byte - '0'` does in `uint8`. -/
def digits (res : Int) (bs : Bytes) : Int :=
  bs.foldl (fun res b => res * 10 + (b - '0'.toUInt8).toNat) res

theorem decimal_of_lt {n : Nat} (h : n < 10) : decimal n = [UInt8.ofNat (48 + n)] := by
  rw [decimal, Nat.toDigits_of_lt_base h]
  match n, h with
  | 0, _ | 1, _ | 2, _ | 3, _ | 4, _ | 5, _ | 6, _ | 7, _ | 8, _ | 9, _ => rfl
  | n + 10, h => omega

theorem decimal_of_le {n : Nat} (h : 10 ≤ n) :
    decimal n = decimal (n / 10) ++ [UInt8.ofNat (48 + n % 10)] := by
  have hlt : n % 10 < 10 := Nat.mod_lt _ (by omega)
  have hlast := decimal_of_lt hlt
  rw [decimal, Nat.toDigits_of_lt_base hlt] at hlast
  rw [decimal, Nat.toDigits_of_base_le (by omega) h, List.map_append, decimal, hlast]

/-- A digit of a numeral is an ASCII digit. -/
theorem isDigit_of_mem_decimal (n : Nat) : ∀ b ∈ decimal n, 48 ≤ b ∧ b ≤ 57 := by
  have hdigit : ∀ k, k < 10 → 48 ≤ UInt8.ofNat (48 + k) ∧ UInt8.ofNat (48 + k) ≤ 57 := by
    intro k hk
    match k, hk with
    | 0, _ | 1, _ | 2, _ | 3, _ | 4, _ | 5, _ | 6, _ | 7, _ | 8, _ | 9, _ => decide
    | k + 10, h => omega
  induction n using Nat.strongRecOn with
  | _ n ih =>
    intro b hb
    by_cases h : n < 10
    · rw [decimal_of_lt h, List.mem_singleton] at hb
      rw [hb]
      exact hdigit n h
    · rw [decimal_of_le (by omega), List.mem_append, List.mem_singleton] at hb
      rcases hb with hb | rfl
      · exact ih (n / 10) (by omega) b hb
      · exact hdigit _ (Nat.mod_lt _ (by omega))

theorem digits_append (res : Int) (as bs : Bytes) :
    digits res (as ++ bs) = digits (digits res as) bs := List.foldl_append

theorem digits_singleton (res : Int) {k : Nat} (h : k < 10) :
    digits res [UInt8.ofNat (48 + k)] = res * 10 + k := by
  match k, h with
  | 0, _ | 1, _ | 2, _ | 3, _ | 4, _ | 5, _ | 6, _ | 7, _ | 8, _ | 9, _ => rfl
  | k + 10, h => omega

theorem digits_decimal (n : Nat) : digits 0 (decimal n) = n := by
  induction n using Nat.strongRecOn with
  | _ n ih =>
    by_cases h : n < 10
    · rw [decimal_of_lt h, digits_singleton 0 h]
      omega
    · rw [decimal_of_le (by omega), digits_append, ih (n / 10) (by omega),
        digits_singleton _ (Nat.mod_lt _ (by omega))]
      omega

/-! ## `strconv` -/

/-- `strconv.ParseUint(s, 10, 64)` without its bound -/
def parseNat (s : Bytes) : Option Nat :=
  if s = [] ∨ s.any (fun b => b < '0'.toUInt8 || '9'.toUInt8 < b) then none
  else some (s.foldl (fun n b => n * 10 + (b - '0'.toUInt8).toNat) 0)

/-- `strconv.ParseInt(s, 10, 64)`; both its errors are `none`. -/
def parseInt (s : Bytes) : Option Int64 :=
  if s.head? = some '-'.toUInt8 then
    (parseNat s.tail).bind fun n => if n ≤ 2 ^ 63 then some (Int64.ofInt (-n)) else none
  else
    (parseNat (if s.head? = some '+'.toUInt8 then s.tail else s)).bind fun n =>
      if n < 2 ^ 63 then some (Int64.ofInt n) else none

example : parseInt (lit "-9223372036854775808") = some Int64.minValue := by decide

example : parseInt (lit "9223372036854775808") = none ∧ parseInt (lit "+") = none := by decide

end RediGo.Go
