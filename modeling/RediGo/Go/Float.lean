/-
RediGo.Go.Float — `float64`, as far as the commands compute with it:
reading (`strconv.ParseFloat`), printing (`%f`), comparison, products and
quotients, `math.Ceil` and the conversions from and to integers.

A `Float64` is its IEEE 754 word, so every value is a `float64` and the two
zeros and the NaNs are there. Every finite value is a multiple of `2⁻¹⁰⁷⁴`,
and `units` is that multiple. Rounding to nearest, ties to even, needs one
exact division (`roundRat`): a significand of 53 bits and its shift add up
to the word, carries into the exponent included.

What the Go documents leave open is a parameter: `math.Log`, which is only
promised up to rounding, and the value of `uint64(x)` or `int(x)` when `x`
is out of range (`FloatImpl`).

No text that `ParseFloat`, `ParseInt` or `ParseUint` accepts has a control
character or a blank in it (`printable_of_parseFloat` and its kin).
-/
import RediGo.Go.Number

namespace RediGo.Go

/-- A `float64`: one sign bit, 11 exponent bits, 52 fraction bits. -/
structure Float64 where
  bits : UInt64
  deriving DecidableEq, Repr

/-- What Go leaves to the implementation. -/
structure FloatImpl where
  /-- `math.Log` -/
  log : Float64 → Float64
  /-- `uint64(x)` for an `x` that is no number in range -/
  outOfRange : Float64 → UInt64
  /-- `int(x)` for an `x` that is no number in range -/
  outOfRangeInt : Float64 → Int64

instance : Inhabited FloatImpl := ⟨fun _ => ⟨0⟩, fun _ => 0, fun _ => 0⟩

/-- The quotient, rounded to the nearest integer and to the even one of two. -/
def divEven (n d : Nat) : Nat :=
  n / d + if d < 2 * (n % d) ∨ 2 * (n % d) = d ∧ n / d % 2 = 1 then 1 else 0

namespace Float64

/-! ## The word -/

def neg (x : Float64) : Bool := 2 ^ 63 ≤ x.bits.toNat

/-- The word without its sign. -/
def magnitude (x : Float64) : Nat := x.bits.toNat % 2 ^ 63

def infMagnitude : Nat := 2047 * 2 ^ 52

def isNaN (x : Float64) : Bool := infMagnitude < x.magnitude

def isInf (x : Float64) : Bool := x.magnitude = infMagnitude

def ofMagnitude (neg : Bool) (m : Nat) : Float64 :=
  ⟨UInt64.ofNat (m + if neg then 2 ^ 63 else 0)⟩

/-- `math.NaN()` -/
def nan : Float64 := ⟨0x7FF8000000000001⟩

def inf (neg : Bool) : Float64 := ofMagnitude neg infMagnitude

/-- The absolute value of a finite number, in units of `2⁻¹⁰⁷⁴`. -/
def units (x : Float64) : Nat :=
  let field := x.magnitude / 2 ^ 52
  let fraction := x.magnitude % 2 ^ 52
  if field = 0 then fraction else (2 ^ 52 + fraction) * 2 ^ (field - 1)

/-- The magnitude of the `float64` nearest to `num / den`. -/
def roundRat (num den : Nat) : Nat :=
  let n := num * 2 ^ 1074
  let shift := (n / den).log2 - 52
  min infMagnitude (shift * 2 ^ 52 + divEven n (den * 2 ^ shift))

def ofRat (neg : Bool) (num den : Nat) : Float64 := ofMagnitude neg (roundRat num den)

/-! ## Arithmetic -/

/-- The place of a number in the order of all numbers; both zeros have one
place. -/
def rank (x : Float64) : Int := if x.neg then -x.magnitude else x.magnitude

/-- `x <= y` -/
def le (x y : Float64) : Bool := !x.isNaN && !y.isNaN && x.rank ≤ y.rank

/-- `x < y` -/
def lt (x y : Float64) : Bool := !x.isNaN && !y.isNaN && x.rank < y.rank

/-- `x == y`; a NaN differs from itself, and the two zeros are equal. -/
def eq (x y : Float64) : Bool := !x.isNaN && !y.isNaN && x.rank = y.rank

instance : LE Float64 := ⟨fun x y => x.le y⟩

instance : LT Float64 := ⟨fun x y => x.lt y⟩

instance : BEq Float64 := ⟨eq⟩

instance : DecidableLE Float64 := fun x y => inferInstanceAs (Decidable (x.le y = true))

instance : DecidableLT Float64 := fun x y => inferInstanceAs (Decidable (x.lt y = true))

instance : Inhabited Float64 := ⟨⟨0⟩⟩

/-- `x / y` -/
def div (x y : Float64) : Float64 :=
  let neg := x.neg != y.neg
  if x.isNaN || y.isNaN then nan
  else if x.isInf then (if y.isInf then nan else inf neg)
  else if y.isInf then ofMagnitude neg 0
  else if y.units = 0 then (if x.units = 0 then nan else inf neg)
  else ofRat neg x.units y.units

/-- `x * y` -/
def mul (x y : Float64) : Float64 :=
  let neg := x.neg != y.neg
  if x.isNaN || y.isNaN then nan
  else if x.isInf || y.isInf then (if x.magnitude = 0 ∨ y.magnitude = 0 then nan else inf neg)
  else ofRat neg (x.units * y.units) (2 ^ 1074 * 2 ^ 1074)

/-- `-x` -/
def opp (x : Float64) : Float64 := ofMagnitude (!x.neg) x.magnitude

/-- `math.Abs` -/
def abs (x : Float64) : Float64 := ofMagnitude false x.magnitude

/-- `float64(n)` -/
def ofUInt64 (n : UInt64) : Float64 := ofRat false n.toNat 1

/-- `float64(n)` for a signed `n` -/
def ofInt64 (n : Int64) : Float64 := ofRat (n < 0) n.toInt.natAbs 1

/-- `math.Ceil` -/
def ceil (x : Float64) : Float64 :=
  if x.isNaN || x.isInf then x
  else if x.neg then ofRat true (x.units / 2 ^ 1074) 1
  else ofRat false ((x.units + (2 ^ 1074 - 1)) / 2 ^ 1074) 1

/-- `uint64(x)` -/
def toUInt64 (impl : FloatImpl) (x : Float64) : UInt64 :=
  let n := x.units / 2 ^ 1074
  if x.isNaN || x.isInf || (x.neg && n != 0) || 2 ^ 64 ≤ n then impl.outOfRange x
  else UInt64.ofNat n

/-- `int(x)` -/
def toInt64 (impl : FloatImpl) (x : Float64) : Int64 :=
  let n : Nat := x.units / 2 ^ 1074
  if x.isNaN || x.isInf || (if x.neg then 2 ^ 63 < n else 2 ^ 63 ≤ n) then impl.outOfRangeInt x
  else Int64.ofInt (if x.neg then -n else n)

def one : Float64 := ofRat false 1 1

def zero : Float64 := ⟨0⟩

/-- `math.E` -/
def e : Float64 := ofRat false 271828182845904523536028747135266249775724709369995 (10 ^ 50)

/-! ## Printing -/

/-- `fmt.Sprintf("%f", x)` -/
def format (x : Float64) : Bytes :=
  let sign := if x.neg then lit "-" else []
  if x.isNaN then lit "NaN"
  else if x.isInf then (if x.neg then lit "-Inf" else lit "+Inf")
  else
    let q := divEven (x.units * 10 ^ 6) (2 ^ 1074)
    let frac := decimal (q % 10 ^ 6)
    sign ++ decimal (q / 10 ^ 6) ++ lit "." ++
      (List.replicate (6 - frac.length) '0'.toUInt8 ++ frac)

end Float64

/-! ## `strconv` -/

/-- `strconv.ParseUint(s, 10, 64)`; both its errors are `none`. -/
def parseUint (s : Bytes) : Option UInt64 :=
  (parseNat s).bind fun n => if n < 2 ^ 64 then some (UInt64.ofNat n) else none

def isDigit (c : UInt8) : Bool := '0'.toUInt8 ≤ c && c ≤ '9'.toUInt8

def lower (c : UInt8) : UInt8 := if 'A'.toUInt8 ≤ c ∧ c ≤ 'Z'.toUInt8 then c + 32 else c

/-- An optional sign, and what comes after it. -/
def splitSign (s : Bytes) : Bool × Bytes :=
  match s with
  | [] => (false, [])
  | c :: t =>
    if c = '-'.toUInt8 then (true, t) else if c = '+'.toUInt8 then (false, t) else (false, s)

/-- The infinities and NaN. Only an infinity may have a sign. -/
def special (s : Bytes) : Option Float64 :=
  if s.map lower = lit "nan" then some .nan
  else if (splitSign s).2.map lower = lit "inf" ∨ (splitSign s).2.map lower = lit "infinity" then
    some (.inf (splitSign s).1)
  else none

def digitValue (hex : Bool) (c : UInt8) : Option Nat :=
  if isDigit c then some (c - '0'.toUInt8).toNat
  else if hex && 'a'.toUInt8 ≤ lower c && lower c ≤ 'f'.toUInt8 then
    some (lower c - 'a'.toUInt8 + 10).toNat
  else none

/-- The digits read so far as one number, with the number of them after the
dot. -/
structure Mantissa where
  value : Nat := 0
  frac : Nat := 0
  sawdot : Bool := false
  sawdigits : Bool := false

/-- The digit loop of `readFloat`: the mantissa and the rest. Underscores
are skipped here and checked by `underscoreOK`. -/
def readMantissa (hex : Bool) : Bytes → Mantissa → Mantissa × Bytes
  | [], m => (m, [])
  | c :: t, m =>
    if c = '_'.toUInt8 then readMantissa hex t m
    else if c = '.'.toUInt8 then
      if m.sawdot then (m, c :: t) else readMantissa hex t { m with sawdot := true }
    else
      match digitValue hex c with
      | none => (m, c :: t)
      | some d =>
        readMantissa hex t
          { m with value := m.value * (if hex then 16 else 10) + d,
                   frac := m.frac + m.sawdot.toNat, sawdigits := true }

/-- The digits of an exponent; from five digits on they no longer count. -/
def readExpDigits : Bytes → Nat → Nat × Bytes
  | [], e => (e, [])
  | c :: t, e =>
    if c = '_'.toUInt8 then readExpDigits t e
    else if isDigit c then
      readExpDigits t (if e < 10000 then e * 10 + (c - '0'.toUInt8).toNat else e)
    else (e, c :: t)

/-- What follows the letter of an exponent: its value and the rest. -/
def readExponent (s : Bytes) : Option (Int × Bytes) :=
  let (neg, t) := splitSign s
  if t.head?.any isDigit then
    let (e, rest) := readExpDigits t 0
    some (if neg then -e else e, rest)
  else none

/-- What `underscoreOK` remembers of the character before. -/
inductive Saw where
  | start
  | digit
  | underscore
  | other
  deriving DecidableEq

/-- The loop of `underscoreOK`. -/
def underscoreLoop (hex : Bool) : Bytes → Saw → Bool
  | [], saw => saw != .underscore
  | c :: t, saw =>
    if (digitValue hex c).isSome then underscoreLoop hex t .digit
    else if c = '_'.toUInt8 then saw = .digit && underscoreLoop hex t .underscore
    else saw != .underscore && underscoreLoop hex t .other

/-- `underscoreOK`: an underscore stands between digits, and the letters of
a base count as one. -/
def underscoreOK (s : Bytes) : Bool :=
  let t := (splitSign s).2
  match t with
  | z :: b :: u =>
    if z = '0'.toUInt8 ∧ lower b ∈ [('b').toUInt8, ('o').toUInt8, ('x').toUInt8] then
      underscoreLoop (lower b == 'x'.toUInt8) u .digit
    else underscoreLoop false t .start
  | _ => underscoreLoop false t .start

/-- `0x` with something after it -/
def isHex (t : Bytes) : Bool :=
  match t with
  | z :: x :: _ :: _ => z = '0'.toUInt8 && lower x = 'x'.toUInt8
  | _ => false

/-- The text after the letters of the base. -/
def afterBase (t : Bytes) : Bytes := if isHex t then t.drop 2 else t

def expChar (hex : Bool) : UInt8 := if hex then 'p'.toUInt8 else 'e'.toUInt8

/-- The exponent after a mantissa: a hexadecimal number must have one. -/
def optExponent (hex : Bool) (s : Bytes) : Option (Int × Bytes) :=
  match s with
  | [] => if hex then none else some (0, [])
  | c :: t =>
    if lower c = expChar hex then readExponent t
    else if hex then none
    else some (0, s)

def scale (neg : Bool) (value base : Nat) (exp : Int) : Float64 :=
  if 0 ≤ exp then .ofRat neg (value * base ^ exp.toNat) 1
  else .ofRat neg value (base ^ (-exp).toNat)

/-- `readFloat`, of a text that is a number as a whole. -/
def readFloat (s : Bytes) : Option Float64 :=
  let (neg, t) := splitSign s
  let hex := isHex t
  let (m, rest) := readMantissa hex (afterBase t) {}
  if !m.sawdigits then none
  else
    match optExponent hex rest with
    | some (e, []) =>
      if '_'.toUInt8 ∈ s ∧ underscoreOK s = false then none
      else if hex then some (scale neg m.value 2 (e - 4 * m.frac))
      else some (scale neg m.value 10 (e - m.frac))
    | _ => none

/-- `strconv.ParseFloat(s, 64)`; both its errors are `none`. A number that
rounds to an infinity is out of range. -/
def parseFloat (s : Bytes) : Option Float64 :=
  match special s with
  | some x => some x
  | none => (readFloat s).bind fun x => if x.isInf then none else some x

example : parseFloat (lit "0.1") = some ⟨0x3FB999999999999A⟩ := by decide +kernel

example : parseFloat (lit "-0x1_8p-1") = some ⟨0xC028000000000000⟩ ∧
    parseFloat (lit "1e309") = none ∧ parseFloat (lit "1__0") = none := by decide +kernel

example : Float64.format ⟨0x3FB999999999999A⟩ = lit "0.100000" := by decide +kernel

/-! ## What the parsers accept -/

/-- No control character and no blank. -/
def Printable (s : Bytes) : Prop := ∀ c ∈ s, ' '.toUInt8 < c

instance (s : Bytes) : Decidable (Printable s) :=
  List.decidableBAll (fun c => ' '.toUInt8 < c) s

theorem printable_of_isDigit {c : UInt8} (h : isDigit c = true) : ' '.toUInt8 < c := by
  simp only [isDigit, Bool.and_eq_true, decide_eq_true_eq] at h
  exact lt_of_lt_of_le (by decide) h.1

theorem printable_of_lower {c : UInt8} (h : ' '.toUInt8 < lower c) : ' '.toUInt8 < c := by
  unfold lower at h
  split at h
  next hupper => exact lt_of_lt_of_le (by decide) hupper.1
  next => exact h

theorem printable_of_map_lower {s t : Bytes} (h : s.map lower = t) (ht : Printable t) :
    Printable s := by
  intro c hc
  apply printable_of_lower
  exact ht _ (h ▸ List.mem_map_of_mem hc)

theorem mem_splitSign {s : Bytes} {c : UInt8} (h : c ∈ s) :
    ' '.toUInt8 < c ∨ c ∈ (splitSign s).2 := by
  unfold splitSign
  split
  next => exact absurd h List.not_mem_nil
  next b t =>
    rcases List.mem_cons.mp h with rfl | ht
    · split
      next hminus => exact .inl (by rw [hminus]; decide)
      next =>
        split
        next hplus => exact .inl (by rw [hplus]; decide)
        next => exact .inr h
    · right
      split
      next => exact ht
      next => split <;> simp [ht]

theorem printable_of_splitSign {s : Bytes} (h : Printable (splitSign s).2) : Printable s := by
  intro c hc
  exact (mem_splitSign hc).elim id (h c)

theorem printable_of_digitValue {hex : Bool} {c : UInt8} {d : Nat} (h : digitValue hex c = some d) :
    ' '.toUInt8 < c := by
  unfold digitValue at h
  split at h
  next hdigit => exact printable_of_isDigit hdigit
  next =>
    split at h
    next hletter =>
      simp only [Bool.and_eq_true, decide_eq_true_eq] at hletter
      exact printable_of_lower (lt_of_lt_of_le (by decide) hletter.1.2)
    next => cases h

/-- A reader that stops at the first byte it does not know has read
printable bytes only. -/
theorem mem_readMantissa (hex : Bool) {s : Bytes} (m : Mantissa) {c : UInt8} (h : c ∈ s) :
    ' '.toUInt8 < c ∨ c ∈ (readMantissa hex s m).2 := by
  fun_induction readMantissa hex s m with
  | case1 => exact .inr h
  | case2 t m ih =>
    rcases List.mem_cons.mp h with rfl | ht
    · exact .inl (by decide)
    · exact ih ht
  | case3 => exact .inr h
  | case4 t m _ _ ih =>
    rcases List.mem_cons.mp h with rfl | ht
    · exact .inl (by decide)
    · exact ih ht
  | case5 => exact .inr h
  | case6 b t m _ _ d hd ih =>
    rcases List.mem_cons.mp h with rfl | ht
    · exact .inl (printable_of_digitValue hd)
    · exact ih ht

theorem mem_readExpDigits {s : Bytes} (e : Nat) {c : UInt8} (h : c ∈ s) :
    ' '.toUInt8 < c ∨ c ∈ (readExpDigits s e).2 := by
  fun_induction readExpDigits s e with
  | case1 => exact .inr h
  | case2 t e ih =>
    rcases List.mem_cons.mp h with rfl | ht
    · exact .inl (by decide)
    · exact ih ht
  | case3 b t e _ hdigit ih =>
    rcases List.mem_cons.mp h with rfl | ht
    · exact .inl (printable_of_isDigit hdigit)
    · exact ih ht
  | case4 => exact .inr h

theorem printable_of_readExponent {s : Bytes} {e : Int} (h : readExponent s = some (e, [])) :
    Printable s := by
  unfold readExponent at h
  simp only at h
  split at h
  next =>
    have hrest : (readExpDigits (splitSign s).2 0).2 = [] :=
      congrArg Prod.snd (Option.some.inj h)
    apply printable_of_splitSign
    intro c hc
    exact (mem_readExpDigits 0 hc).elim id fun hmem => by simp [hrest] at hmem
  next => cases h

theorem printable_of_optExponent {hex : Bool} {s : Bytes} {e : Int}
    (h : optExponent hex s = some (e, [])) : Printable s := by
  unfold optExponent at h
  split at h
  next => simp [Printable]
  next c t =>
    split at h
    next hletter =>
      have hc : ' '.toUInt8 < c := by
        apply printable_of_lower
        rw [hletter]
        cases hex <;> decide
      intro b hb
      rcases List.mem_cons.mp hb with rfl | ht
      · exact hc
      · exact printable_of_readExponent h b ht
    next => split at h <;> simp at h

theorem printable_of_afterBase {t : Bytes} (hdrop : Printable (afterBase t)) : Printable t := by
  unfold afterBase at hdrop
  by_cases h : isHex t = true
  case neg => rwa [if_neg h] at hdrop
  rw [if_pos h] at hdrop
  unfold isHex at h
  split at h
  next z x b u =>
    simp only [Bool.and_eq_true, decide_eq_true_eq] at h
    obtain ⟨rfl, hx⟩ := h
    intro c hc
    simp only [List.mem_cons] at hc
    rcases hc with rfl | rfl | hc
    · decide
    · exact printable_of_lower (by rw [hx]; decide)
    · exact hdrop c (by simpa using hc)
  next => cases h

theorem printable_of_readFloat {s : Bytes} {x : Float64} (h : readFloat s = some x) :
    Printable s := by
  unfold readFloat at h
  simp only at h
  split at h
  next => cases h
  next =>
    split at h
    next e hexp =>
      apply printable_of_splitSign
      apply printable_of_afterBase
      intro c hc
      exact (mem_readMantissa _ {} hc).elim id (printable_of_optExponent hexp c)
    next => cases h

theorem printable_of_parseFloat {s : Bytes} {x : Float64} (h : parseFloat s = some x) :
    Printable s := by
  unfold parseFloat at h
  split at h
  next y hspecial =>
    unfold special at hspecial
    split at hspecial
    next hnan => exact printable_of_map_lower hnan (by decide)
    next =>
      split at hspecial
      next hinf =>
        apply printable_of_splitSign
        exact hinf.elim (fun hinf => printable_of_map_lower hinf (by decide))
          fun hinf => printable_of_map_lower hinf (by decide)
      next => cases hspecial
  next =>
    obtain ⟨y, hread, _⟩ := Option.bind_eq_some_iff.mp h
    exact printable_of_readFloat hread

theorem printable_of_parseNat {s : Bytes} {n : Nat} (h : parseNat s = some n) : Printable s := by
  unfold parseNat at h
  split at h
  next => cases h
  next hdigits =>
    intro c hc
    simp only [not_or, List.any_eq_true, not_exists, not_and, Bool.or_eq_true,
      decide_eq_true_eq, not_lt] at hdigits
    exact lt_of_lt_of_le (by decide) (hdigits.2 c hc).1

theorem printable_of_parseInt {s : Bytes} {n : Int64} (h : parseInt s = some n) :
    Printable s := by
  have hcons : ∀ {b : UInt8}, ' '.toUInt8 < b → s.head? = some b → Printable s.tail →
      Printable s := by
    intro b hb hhead htail c hc
    obtain ⟨t, rfl⟩ := List.head?_eq_some_iff.mp hhead
    rcases List.mem_cons.mp hc with rfl | hc
    · exact hb
    · exact htail c hc
  unfold parseInt at h
  split at h
  next hminus =>
    obtain ⟨k, hk, _⟩ := Option.bind_eq_some_iff.mp h
    exact hcons (by decide) hminus (printable_of_parseNat hk)
  next =>
    obtain ⟨k, hk, _⟩ := Option.bind_eq_some_iff.mp h
    split at hk
    next hplus => exact hcons (by decide) hplus (printable_of_parseNat hk)
    next => exact printable_of_parseNat hk

end RediGo.Go
