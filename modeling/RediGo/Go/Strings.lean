/-
RediGo.Go.Strings — UTF-8 and the two functions of Go's `strings` package
the request parser calls, `ToUpper` and `Fields`.

A Go string is any sequence of bytes. `range` over it yields runes; a byte
that starts no valid encoding yields U+FFFD and stands for itself alone.
`toUpper` therefore replaces each invalid byte by the encoding of U+FFFD,
as `strings.Map` does, while `fields` cuts the bytes as they are.

The tables are those of Unicode 15.0.0, the version of the Go toolchain
the module file names.

The one fact the parser's theorems need is about zero bytes: `toUpper`
keeps their number (`count_zero_toUpper`).
-/
import RediGo.Go.Number

namespace RediGo.Go

/-! ## Runes -/

/-- `unicode.CaseRange`, restricted to the upper-case column: every
`step`-th rune from `lo` to `hi` is moved by `delta`. -/
structure CaseRange where
  lo : Nat
  hi : Nat
  step : Nat
  delta : Int
  deriving DecidableEq, Repr

/-- `unicode.CaseRanges` -/
def caseRanges : List CaseRange :=
  [⟨97, 122, 1, -32⟩, ⟨181, 181, 1, 743⟩, ⟨224, 246, 1, -32⟩, ⟨248, 254, 1, -32⟩,
   ⟨255, 255, 1, 121⟩, ⟨257, 303, 2, -1⟩, ⟨305, 305, 1, -232⟩, ⟨307, 311, 2, -1⟩,
   ⟨314, 328, 2, -1⟩, ⟨331, 375, 2, -1⟩, ⟨378, 382, 2, -1⟩, ⟨383, 383, 1, -300⟩,
   ⟨384, 384, 1, 195⟩, ⟨387, 389, 2, -1⟩, ⟨392, 392, 1, -1⟩, ⟨396, 396, 1, -1⟩,
   ⟨402, 402, 1, -1⟩, ⟨405, 405, 1, 97⟩, ⟨409, 409, 1, -1⟩, ⟨410, 410, 1, 163⟩,
   ⟨414, 414, 1, 130⟩, ⟨417, 421, 2, -1⟩, ⟨424, 424, 1, -1⟩, ⟨429, 429, 1, -1⟩,
   ⟨432, 432, 1, -1⟩, ⟨436, 438, 2, -1⟩, ⟨441, 441, 1, -1⟩, ⟨445, 445, 1, -1⟩, ⟨447, 447, 1, 56⟩,
   ⟨453, 453, 1, -1⟩, ⟨454, 454, 1, -2⟩, ⟨456, 456, 1, -1⟩, ⟨457, 457, 1, -2⟩, ⟨459, 459, 1, -1⟩,
   ⟨460, 460, 1, -2⟩, ⟨462, 476, 2, -1⟩, ⟨477, 477, 1, -79⟩, ⟨479, 495, 2, -1⟩,
   ⟨498, 498, 1, -1⟩, ⟨499, 499, 1, -2⟩, ⟨501, 501, 1, -1⟩, ⟨505, 543, 2, -1⟩, ⟨547, 563, 2, -1⟩,
   ⟨572, 572, 1, -1⟩, ⟨575, 576, 1, 10815⟩, ⟨578, 578, 1, -1⟩, ⟨583, 591, 2, -1⟩,
   ⟨592, 592, 1, 10783⟩, ⟨593, 593, 1, 10780⟩, ⟨594, 594, 1, 10782⟩, ⟨595, 595, 1, -210⟩,
   ⟨596, 596, 1, -206⟩, ⟨598, 599, 1, -205⟩, ⟨601, 601, 1, -202⟩, ⟨603, 603, 1, -203⟩,
   ⟨604, 604, 1, 42319⟩, ⟨608, 608, 1, -205⟩, ⟨609, 609, 1, 42315⟩, ⟨611, 611, 1, -207⟩,
   ⟨613, 613, 1, 42280⟩, ⟨614, 614, 1, 42308⟩, ⟨616, 616, 1, -209⟩, ⟨617, 617, 1, -211⟩,
   ⟨618, 618, 1, 42308⟩, ⟨619, 619, 1, 10743⟩, ⟨620, 620, 1, 42305⟩, ⟨623, 623, 1, -211⟩,
   ⟨625, 625, 1, 10749⟩, ⟨626, 626, 1, -213⟩, ⟨629, 629, 1, -214⟩, ⟨637, 637, 1, 10727⟩,
   ⟨640, 640, 1, -218⟩, ⟨642, 642, 1, 42307⟩, ⟨643, 643, 1, -218⟩, ⟨647, 647, 1, 42282⟩,
   ⟨648, 648, 1, -218⟩, ⟨649, 649, 1, -69⟩, ⟨650, 651, 1, -217⟩, ⟨652, 652, 1, -71⟩,
   ⟨658, 658, 1, -219⟩, ⟨669, 669, 1, 42261⟩, ⟨670, 670, 1, 42258⟩, ⟨837, 837, 1, 84⟩,
   ⟨881, 883, 2, -1⟩, ⟨887, 887, 1, -1⟩, ⟨891, 893, 1, 130⟩, ⟨940, 940, 1, -38⟩,
   ⟨941, 943, 1, -37⟩, ⟨945, 961, 1, -32⟩, ⟨962, 962, 1, -31⟩, ⟨963, 971, 1, -32⟩,
   ⟨972, 972, 1, -64⟩, ⟨973, 974, 1, -63⟩, ⟨976, 976, 1, -62⟩, ⟨977, 977, 1, -57⟩,
   ⟨981, 981, 1, -47⟩, ⟨982, 982, 1, -54⟩, ⟨983, 983, 1, -8⟩, ⟨985, 1007, 2, -1⟩,
   ⟨1008, 1008, 1, -86⟩, ⟨1009, 1009, 1, -80⟩, ⟨1010, 1010, 1, 7⟩, ⟨1011, 1011, 1, -116⟩,
   ⟨1013, 1013, 1, -96⟩, ⟨1016, 1016, 1, -1⟩, ⟨1019, 1019, 1, -1⟩, ⟨1072, 1103, 1, -32⟩,
   ⟨1104, 1119, 1, -80⟩, ⟨1121, 1153, 2, -1⟩, ⟨1163, 1215, 2, -1⟩, ⟨1218, 1230, 2, -1⟩,
   ⟨1231, 1231, 1, -15⟩, ⟨1233, 1327, 2, -1⟩, ⟨1377, 1414, 1, -48⟩, ⟨4304, 4346, 1, 3008⟩,
   ⟨4349, 4351, 1, 3008⟩, ⟨5112, 5117, 1, -8⟩, ⟨7296, 7296, 1, -6254⟩, ⟨7297, 7297, 1, -6253⟩,
   ⟨7298, 7298, 1, -6244⟩, ⟨7299, 7300, 1, -6242⟩, ⟨7301, 7301, 1, -6243⟩,
   ⟨7302, 7302, 1, -6236⟩, ⟨7303, 7303, 1, -6181⟩, ⟨7304, 7304, 1, 35266⟩,
   ⟨7545, 7545, 1, 35332⟩, ⟨7549, 7549, 1, 3814⟩, ⟨7566, 7566, 1, 35384⟩, ⟨7681, 7829, 2, -1⟩,
   ⟨7835, 7835, 1, -59⟩, ⟨7841, 7935, 2, -1⟩, ⟨7936, 7943, 1, 8⟩, ⟨7952, 7957, 1, 8⟩,
   ⟨7968, 7975, 1, 8⟩, ⟨7984, 7991, 1, 8⟩, ⟨8000, 8005, 1, 8⟩, ⟨8017, 8023, 2, 8⟩,
   ⟨8032, 8039, 1, 8⟩, ⟨8048, 8049, 1, 74⟩, ⟨8050, 8053, 1, 86⟩, ⟨8054, 8055, 1, 100⟩,
   ⟨8056, 8057, 1, 128⟩, ⟨8058, 8059, 1, 112⟩, ⟨8060, 8061, 1, 126⟩, ⟨8064, 8071, 1, 8⟩,
   ⟨8080, 8087, 1, 8⟩, ⟨8096, 8103, 1, 8⟩, ⟨8112, 8113, 1, 8⟩, ⟨8115, 8115, 1, 9⟩,
   ⟨8126, 8126, 1, -7205⟩, ⟨8131, 8131, 1, 9⟩, ⟨8144, 8145, 1, 8⟩, ⟨8160, 8161, 1, 8⟩,
   ⟨8165, 8165, 1, 7⟩, ⟨8179, 8179, 1, 9⟩, ⟨8526, 8526, 1, -28⟩, ⟨8560, 8575, 1, -16⟩,
   ⟨8580, 8580, 1, -1⟩, ⟨9424, 9449, 1, -26⟩, ⟨11312, 11359, 1, -48⟩, ⟨11361, 11361, 1, -1⟩,
   ⟨11365, 11365, 1, -10795⟩, ⟨11366, 11366, 1, -10792⟩, ⟨11368, 11372, 2, -1⟩,
   ⟨11379, 11379, 1, -1⟩, ⟨11382, 11382, 1, -1⟩, ⟨11393, 11491, 2, -1⟩, ⟨11500, 11502, 2, -1⟩,
   ⟨11507, 11507, 1, -1⟩, ⟨11520, 11557, 1, -7264⟩, ⟨11559, 11559, 1, -7264⟩,
   ⟨11565, 11565, 1, -7264⟩, ⟨42561, 42605, 2, -1⟩, ⟨42625, 42651, 2, -1⟩, ⟨42787, 42799, 2, -1⟩,
   ⟨42803, 42863, 2, -1⟩, ⟨42874, 42876, 2, -1⟩, ⟨42879, 42887, 2, -1⟩, ⟨42892, 42892, 1, -1⟩,
   ⟨42897, 42899, 2, -1⟩, ⟨42900, 42900, 1, 48⟩, ⟨42903, 42921, 2, -1⟩, ⟨42933, 42947, 2, -1⟩,
   ⟨42952, 42954, 2, -1⟩, ⟨42961, 42961, 1, -1⟩, ⟨42967, 42969, 2, -1⟩, ⟨42998, 42998, 1, -1⟩,
   ⟨43859, 43859, 1, -928⟩, ⟨43888, 43967, 1, -38864⟩, ⟨65345, 65370, 1, -32⟩,
   ⟨66600, 66639, 1, -40⟩, ⟨66776, 66811, 1, -40⟩, ⟨66967, 66977, 1, -39⟩,
   ⟨66979, 66993, 1, -39⟩, ⟨66995, 67001, 1, -39⟩, ⟨67003, 67004, 1, -39⟩,
   ⟨68800, 68850, 1, -64⟩, ⟨71872, 71903, 1, -32⟩, ⟨93792, 93823, 1, -32⟩,
   ⟨125218, 125251, 1, -34⟩]

/-- `unicode.ToUpper` -/
def upperRune (r : Nat) : Nat :=
  match caseRanges.find? fun c => c.lo ≤ r && r ≤ c.hi && (r - c.lo) % c.step == 0 with
  | some c => (r + c.delta).toNat
  | none => r

/-- `unicode.IsSpace` -/
def isSpace (r : Nat) : Bool :=
  (9 ≤ r && r ≤ 13) || r == 0x20 || r == 0x85 || r == 0xA0 || r == 0x1680 ||
    (0x2000 ≤ r && r ≤ 0x200A) || r == 0x2028 || r == 0x2029 || r == 0x202F || r == 0x205F ||
    r == 0x3000

/-- `utf8.RuneError` -/
def runeError : Nat := 0xFFFD

/-- The bytes of a valid rune. -/
def encodeValid (r : Nat) : Bytes :=
  if r < 0x80 then [UInt8.ofNat r]
  else if r < 0x800 then [UInt8.ofNat (0xC0 + r / 64), UInt8.ofNat (0x80 + r % 64)]
  else if r < 0x10000 then
    [UInt8.ofNat (0xE0 + r / 4096), UInt8.ofNat (0x80 + r / 64 % 64), UInt8.ofNat (0x80 + r % 64)]
  else
    [UInt8.ofNat (0xF0 + r / 262144), UInt8.ofNat (0x80 + r / 4096 % 64),
      UInt8.ofNat (0x80 + r / 64 % 64), UInt8.ofNat (0x80 + r % 64)]

/-- `utf8.AppendRune`: a surrogate or a number past the last rune is
encoded as `runeError`. -/
def encodeRune (r : Nat) : Bytes :=
  encodeValid (if (0xD800 ≤ r ∧ r ≤ 0xDFFF) ∨ 0x10FFFF < r then runeError else r)

/-- A byte of the form `10xxxxxx`. -/
def isCont (b : UInt8) : Bool := 0x80 ≤ b && b ≤ 0xBF

/-- The least second byte after `s0`: a smaller one would make an overlong
encoding. -/
def acceptLo (s0 : UInt8) : UInt8 := if s0 = 0xE0 then 0xA0 else if s0 = 0xF0 then 0x90 else 0x80

/-- The greatest second byte after `s0`: a greater one would make a
surrogate or a number past the last rune. -/
def acceptHi (s0 : UInt8) : UInt8 := if s0 = 0xED then 0x9F else if s0 = 0xF4 then 0x8F else 0xBF

/-- A rune of two bytes, the first being `s0`. -/
def decodeTwo (s0 : UInt8) : Bytes → Nat × Nat
  | s1 :: _ =>
    if acceptLo s0 ≤ s1 ∧ s1 ≤ acceptHi s0 then
      ((s0.toNat - 0xC0) * 64 + (s1.toNat - 0x80), 2)
    else (runeError, 1)
  | _ => (runeError, 1)

/-- A rune of three bytes. -/
def decodeThree (s0 : UInt8) : Bytes → Nat × Nat
  | s1 :: s2 :: _ =>
    if acceptLo s0 ≤ s1 ∧ s1 ≤ acceptHi s0 ∧ isCont s2 then
      ((s0.toNat - 0xE0) * 4096 + (s1.toNat - 0x80) * 64 + (s2.toNat - 0x80), 3)
    else (runeError, 1)
  | _ => (runeError, 1)

/-- A rune of four bytes. -/
def decodeFour (s0 : UInt8) : Bytes → Nat × Nat
  | s1 :: s2 :: s3 :: _ =>
    if acceptLo s0 ≤ s1 ∧ s1 ≤ acceptHi s0 ∧ isCont s2 ∧ isCont s3 then
      ((s0.toNat - 0xF0) * 262144 + (s1.toNat - 0x80) * 4096 + (s2.toNat - 0x80) * 64 +
        (s3.toNat - 0x80), 4)
    else (runeError, 1)
  | _ => (runeError, 1)

/-- `utf8.DecodeRuneInString`: the first rune and its width. -/
def decodeRune : Bytes → Nat × Nat
  | [] => (runeError, 0)
  | s0 :: rest =>
    if s0 < 0x80 then (s0.toNat, 1)
    else if 0xC2 ≤ s0 ∧ s0 ≤ 0xDF then decodeTwo s0 rest
    else if 0xE0 ≤ s0 ∧ s0 ≤ 0xEF then decodeThree s0 rest
    else if 0xF0 ≤ s0 ∧ s0 ≤ 0xF4 then decodeFour s0 rest
    else (runeError, 1)

/-- The runes of a string, each with the bytes it was read from. The first
argument counts the bytes that still belong to the rune before. -/
def runesFrom : Nat → Bytes → List (Nat × Bytes)
  | _, [] => []
  | k + 1, _ :: s => runesFrom k s
  | 0, b :: s =>
    let (r, width) := decodeRune (b :: s)
    (r, (b :: s).take width) :: runesFrom (width - 1) s

/-- `for _, r := range s` -/
def runes (s : Bytes) : List (Nat × Bytes) := runesFrom 0 s

/-! ## `ToUpper` and `Fields` -/

/-- `strings.ToUpper` -/
def toUpper (s : Bytes) : Bytes := (runes s).flatMap fun r => encodeRune (upperRune r.1)

/-- `strings.Fields` -/
def fields (s : Bytes) : List Bytes :=
  (((runes s).splitOnP fun r => isSpace r.1).filter fun f => !f.isEmpty).map fun f =>
    f.flatMap (·.2)

example : fields (lit " set  k v\t") = [lit "set", lit "k", lit "v"] := by decide

/-! ## Zero bytes -/

theorem upperRune_pos {r : Nat} (hr : 0 < r) : 0 < upperRune r := by
  have htable : ∀ c ∈ caseRanges, 0 < c.lo + c.delta := by decide +kernel
  unfold upperRune
  split
  case h_1 c hc =>
    have hpos := htable c (List.mem_of_find?_eq_some hc)
    have hlo := List.find?_some hc
    simp only [Bool.and_eq_true, decide_eq_true_eq] at hlo
    omega
  case h_2 => exact hr

theorem ofNat_ne_zero {n : Nat} (h : n % 256 ≠ 0) : UInt8.ofNat n ≠ 0 := by
  intro h0
  apply h
  have := congrArg UInt8.toNat h0
  simpa using this

theorem ne_zero_of_mem_encodeValid {r : Nat} (hr : 0 < r) (hmax : r ≤ 0x10FFFF) :
    ∀ b ∈ encodeValid r, b ≠ 0 := by
  intro b hb
  unfold encodeValid at hb
  split_ifs at hb <;> simp only [List.mem_cons, List.not_mem_nil, or_false] at hb <;>
    rcases hb with rfl | rfl | rfl | rfl <;> apply ofNat_ne_zero <;> omega

theorem count_zero_encodeRune {r : Nat} (hr : 0 < r) : (encodeRune r).count 0 = 0 := by
  rw [List.count_eq_zero]
  intro hmem
  unfold encodeRune at hmem
  split at hmem
  · exact ne_zero_of_mem_encodeValid (by decide) (by decide) 0 hmem rfl
  · exact ne_zero_of_mem_encodeValid hr (by omega) 0 hmem rfl

/-- A decoded rune that is not zero and was read from bytes none of which
is zero. -/
def Clean (s : Bytes) (p : Nat × Nat) : Prop :=
  0 < p.1 ∧ 0 < p.2 ∧ (s.take p.2).count 0 = 0

theorem ne_zero_of_le {b c : UInt8} (h : c ≤ b) (hc : 0 < c.toNat) : b ≠ 0 := by
  rintro rfl
  have := UInt8.le_iff_toNat_le.1 h
  simp at this
  omega

theorem isCont_ne_zero {b : UInt8} (h : isCont b = true) : b ≠ 0 := by
  rw [isCont, Bool.and_eq_true, decide_eq_true_eq] at h
  exact ne_zero_of_le h.1 (by decide)

theorem clean_runeError {b : UInt8} (hb : b ≠ 0) (s : Bytes) : Clean (b :: s) (runeError, 1) := by
  simp [Clean, hb, runeError]

theorem acceptLo_ne_zero {s0 s1 : UInt8} (h : acceptLo s0 ≤ s1) : s1 ≠ 0 := by
  apply ne_zero_of_le h
  unfold acceptLo
  split_ifs <;> decide

theorem clean_decodeTwo {s0 : UInt8} (h : 0xC2 ≤ s0) (s : Bytes) :
    Clean (s0 :: s) (decodeTwo s0 s) := by
  have h0 : s0 ≠ 0 := ne_zero_of_le h (by decide)
  have hle := UInt8.le_iff_toNat_le.1 h
  simp only [UInt8.reduceToNat] at hle
  unfold decodeTwo
  split
  · split
    · rename_i s1 _ hc
      refine ⟨?_, Nat.two_pos, by simp [h0, acceptLo_ne_zero hc.1]⟩
      show 0 < (s0.toNat - 0xC0) * 64 + (s1.toNat - 0x80)
      omega
    · exact clean_runeError h0 _
  · exact clean_runeError h0 _

theorem clean_decodeThree {s0 : UInt8} (h : 0xE0 ≤ s0) (s : Bytes) :
    Clean (s0 :: s) (decodeThree s0 s) := by
  have h0 : s0 ≠ 0 := ne_zero_of_le h (by decide)
  have hle := UInt8.le_iff_toNat_le.1 h
  simp only [UInt8.reduceToNat] at hle
  unfold decodeThree
  split
  · split
    · rename_i s1 s2 _ hc
      obtain ⟨hlo, -, hc2⟩ := hc
      refine ⟨?_, Nat.succ_pos _, by simp [h0, acceptLo_ne_zero hlo, isCont_ne_zero hc2]⟩
      show 0 < (s0.toNat - 0xE0) * 4096 + (s1.toNat - 0x80) * 64 + (s2.toNat - 0x80)
      -- an `E0` demands a second byte with a payload, any other first byte has one
      by_cases hE : s0 = 0xE0
      · have hlo' := UInt8.le_iff_toNat_le.1 hlo
        rw [acceptLo, if_pos hE] at hlo'
        simp only [UInt8.reduceToNat] at hlo'
        omega
      · have : s0.toNat ≠ 0xE0 := fun h => hE (UInt8.toNat_inj.1 h)
        omega
    · exact clean_runeError h0 _
  · exact clean_runeError h0 _

theorem clean_decodeFour {s0 : UInt8} (h : 0xF0 ≤ s0) (s : Bytes) :
    Clean (s0 :: s) (decodeFour s0 s) := by
  have h0 : s0 ≠ 0 := ne_zero_of_le h (by decide)
  have hle := UInt8.le_iff_toNat_le.1 h
  simp only [UInt8.reduceToNat] at hle
  unfold decodeFour
  split
  · split
    · rename_i s1 s2 s3 _ hc
      obtain ⟨hlo, -, hc2, hc3⟩ := hc
      refine ⟨?_, Nat.succ_pos _, by
        simp [h0, acceptLo_ne_zero hlo, isCont_ne_zero hc2, isCont_ne_zero hc3]⟩
      show 0 < (s0.toNat - 0xF0) * 262144 + (s1.toNat - 0x80) * 4096 + (s2.toNat - 0x80) * 64 +
        (s3.toNat - 0x80)
      by_cases hF : s0 = 0xF0
      · have hlo' := UInt8.le_iff_toNat_le.1 hlo
        rw [hF] at hlo'
        simp only [acceptLo] at hlo'
        have : (144 : Nat) ≤ s1.toNat := hlo'
        omega
      · have : s0.toNat ≠ 0xF0 := fun h => hF (UInt8.toNat_inj.1 h)
        omega
    · exact clean_runeError h0 _
  · exact clean_runeError h0 _

theorem clean_decodeRune {b : UInt8} (hb : b ≠ 0) (s : Bytes) :
    Clean (b :: s) (decodeRune (b :: s)) := by
  rw [decodeRune]
  split_ifs with hascii htwo hthree hfour
  · refine ⟨?_, Nat.one_pos, by simp [hb]⟩
    exact Nat.pos_of_ne_zero fun h0 => hb (UInt8.toNat_inj.1 h0)
  · exact clean_decodeTwo htwo.1 s
  · exact clean_decodeThree hthree.1 s
  · exact clean_decodeFour hfour.1 s
  · exact clean_runeError hb s

theorem count_zero_runesFrom : ∀ (s : Bytes) (k : Nat),
    ((runesFrom k s).flatMap fun r => encodeRune (upperRune r.1)).count 0 = (s.drop k).count 0
  | [], k => by simp [runesFrom]
  | _ :: s, k + 1 => by
    rw [runesFrom, count_zero_runesFrom s k, List.drop_succ_cons]
  | b :: s, 0 => by
    rw [runesFrom, List.flatMap_cons, List.count_append, count_zero_runesFrom s]
    by_cases hb : b = 0
    · subst hb
      show ([0] : Bytes).count 0 + (s.drop 0).count 0 = _
      simp [Nat.add_comm]
    · obtain ⟨hrune, hwidth, hcount⟩ := clean_decodeRune hb s
      rw [count_zero_encodeRune (upperRune_pos hrune), Nat.zero_add]
      -- the bytes of the rune itself hold no zero
      have hcut := congrArg (List.count 0) (List.take_append_drop (decodeRune (b :: s)).2 (b :: s))
      rw [List.count_append, hcount, Nat.zero_add] at hcut
      obtain ⟨w, hw⟩ := Nat.exists_eq_add_of_lt hwidth
      rw [Nat.zero_add] at hw
      rw [hw, List.drop_succ_cons] at hcut
      rw [hw]
      exact hcut

/-- `ToUpper` keeps the number of zero bytes. -/
theorem count_zero_toUpper (s : Bytes) : (toUpper s).count 0 = s.count 0 :=
  count_zero_runesFrom s 0

end RediGo.Go
