/-
RediGo.Core.RespRoundTrip — what is encoded is decoded again.

`Decodes e w` says that a slice which begins with the bytes `e` decodes to
`w` and that exactly `e` is consumed, whatever follows and whatever the
capacity. There is one lemma for each shape the encoder writes: a bulk
string, an integer, and an array of parts that decode themselves. The
encoder's three list types are instances of the last.

A payload may contain anything, since it is cut by its length; a header is
a printed number and contains no carriage return (`lineValue_formatInt`,
`line_formatInt`).
-/
import RediGo.Core.RespReaders

namespace RediGo.Core

open RediGo.Go

/-! ## Printed numbers -/

theorem line_formatInt (x : Int64) (t : Bytes) :
    Line (formatInt x) (formatInt x ++ (lit "\r\n" ++ t)) := by
  have hdigits : ∀ n, '\r'.toUInt8 ∉ decimal n := by
    intro n h
    exact absurd (isDigit_of_mem_decimal n _ h) (by decide)
  constructor
  · unfold formatInt
    split
    · rw [List.mem_append, not_or]
      exact ⟨by decide, hdigits _⟩
    · exact hdigits _
  · exact ⟨'\n'.toUInt8 :: t, rfl⟩

theorem line_formatLen {α : Type} (l : List α) (t : Bytes) :
    Line (formatLen l) (formatLen l ++ (lit "\r\n" ++ t)) := line_formatInt _ t

/-- A numeral begins with a digit, hence with no sign. -/
theorem stripSign_decimal {c : UInt8} (hc : ¬ (48 ≤ c ∧ c ≤ 57)) (s sign : Int) (n : Nat) :
    stripSign c s (sign, decimal n) = (sign, decimal n) := by
  unfold stripSign
  rw [if_neg]
  intro h
  exact hc (isDigit_of_mem_decimal n c (List.mem_of_mem_head? h))

theorem signOf_formatInt (x : Int64) :
    signOf (formatInt x) = (if x.toInt < 0 then -1 else 1, decimal x.toInt.natAbs) := by
  unfold signOf formatInt
  split
  · have hminus : stripSign '-'.toUInt8 (-1) (1, lit "-" ++ decimal x.toInt.natAbs) =
        (-1, decimal x.toInt.natAbs) := rfl
    rw [hminus, stripSign_decimal (by decide)]
  · rw [stripSign_decimal (by decide), stripSign_decimal (by decide)]

/-- Reading back a printed number gives the number. -/
theorem lineValue_formatInt (x : Int64) : lineValue (formatInt x) = x := by
  have hnum : numeral (formatInt x) = x.toInt := by
    rw [numeral, signOf_formatInt, digits_decimal]
    split <;> omega
  rw [lineValue, hnum, Int64.ofInt_toInt]

theorem toInt_lineValue_formatLen {α : Type} {l : List α} (h : l.length < 2 ^ 63) :
    (lineValue (formatLen l)).toInt = l.length := by
  rw [formatLen, lineValue_formatInt, Int64.toInt_ofNat_of_lt h]

/-! ## One value at the head of a slice -/

/-- A slice that begins with `e` decodes to `w` and consumes `e`. -/
def Decodes (e : Bytes) (w : Value) : Prop :=
  ∀ (fuel : Nat) (d : Slice) (rest : Bytes), d.len < fuel → d.vis = e ++ rest →
    decodeFuel fuel d = .ok (.ok (w, e.length))

theorem decodes_of_decodeWith {e : Bytes} {w : Value}
    (h : ∀ (fuel : Nat) (d : Slice) (rest : Bytes), d.len ≤ fuel → d.vis = e ++ rest →
      decodeWith (decodeFuel fuel) d = .ok (.ok (w, e.length))) : Decodes e w := by
  intro fuel d rest hlt hd
  obtain ⟨f, rfl⟩ := Nat.exists_eq_add_of_lt (Nat.zero_lt_of_lt hlt)
  rw [Nat.zero_add] at hlt ⊢
  exact h f d rest (by omega) hd

theorem decodes_int (x : Int64) : Decodes (lit ":" ++ formatInt x ++ lit "\r\n") (.int x) := by
  apply decodes_of_decodeWith
  intro fuel d rest _ hd
  simp only [List.append_assoc] at hd
  change d.vis = ':'.toUInt8 :: (formatInt x ++ (lit "\r\n" ++ rest)) at hd
  rw [decodeWith_int _ hd (line_formatInt x rest), lineValue_formatInt]
  congr 3
  simp only [List.length_append]
  show _ = 1 + (formatInt x).length + 2
  omega

theorem take_drop_arr {d : Slice} {lo n : Nat} (h : lo + n ≤ d.len) :
    (d.arr.drop lo).take n = (d.vis.drop lo).take n := by
  rw [Slice.vis, List.drop_take, List.take_take, Nat.min_eq_left (by omega)]

/-- What follows a header line. -/
theorem drop_header {d : Slice} {p : UInt8} {hdr t : Bytes}
    (hd : d.vis = p :: (hdr ++ (CRLF ++ t))) : d.vis.drop (hdr.length + 3) = t := by
  rw [hd, List.drop_succ_cons, ← List.drop_drop, List.drop_left]
  rfl

/-- The payload that follows a header line. -/
theorem take_payload {d : Slice} {p : UInt8} {hdr s t : Bytes}
    (hd : d.vis = p :: (hdr ++ (CRLF ++ (s ++ t)))) :
    (d.arr.drop (hdr.length + 3)).take s.length = s := by
  have hlen := d.vis_length
  rw [hd] at hlen
  simp only [List.length_cons, List.length_append] at hlen
  change hdr.length + (2 + (s.length + t.length)) + 1 = d.len at hlen
  rw [take_drop_arr (by omega), drop_header hd, List.take_left]

theorem length_encodeString (s : Bytes) :
    (encodeString s).length = (formatLen s).length + 3 + s.length + 2 := by
  unfold encodeString
  simp only [List.length_append]
  show 1 + (formatLen s).length + 2 + s.length + 2 = _
  omega

/-- A bulk string whose header is there: what is cut out is decided by the
capacity. -/
theorem decodeWith_header (dec : Decoder) {d : Slice} {w s : Bytes} (hs : s.length < 2 ^ 63)
    (hd : d.vis = '$'.toUInt8 :: w) (hl : Line (formatLen s) w) :
    decodeWith dec d =
      if (formatLen s).length + 3 + s.length ≤ d.arr.length then
        .ok (.ok (.str ((d.arr.drop ((formatLen s).length + 3)).take s.length),
          (encodeString s).length))
      else .error .slice := by
  have hvalue : (lineValue (formatLen s)).toInt = s.length := toInt_lineValue_formatLen hs
  have hne : lineValue (formatLen s) ≠ -1 := by
    intro h
    rw [h] at hvalue
    have : (-1 : Int) = s.length := hvalue
    omega
  rw [decodeWith_bulk dec hd hl hne, hvalue, length_encodeString, Int.toNat_natCast]
  by_cases hfit : (formatLen s).length + 3 + s.length ≤ d.arr.length
  · rw [if_pos hfit, if_pos (by omega)]
  · rw [if_neg hfit, if_neg (by omega)]

theorem decodes_string (s : Bytes) : Decodes (encodeString s) (.str s) := by
  apply decodes_of_decodeWith
  intro fuel d rest _ hd
  have hvis := d.vis_length
  have hlen := d.len_le
  have hcap := d.cap_le
  rw [hd, List.length_append, length_encodeString] at hvis
  unfold encodeString at hd
  simp only [List.append_assoc] at hd
  change d.vis = '$'.toUInt8 :: (formatLen s ++ (lit "\r\n" ++ (s ++ (lit "\r\n" ++ rest)))) at hd
  rw [decodeWith_header _ (by omega) hd (line_formatLen _ _), if_pos (by omega), take_payload hd]

/-! ## Arrays -/

/-- Parts that decode by themselves are read one after the other. -/
theorem readElems_flatMap {α : Type} {enc : α → Bytes} {val : α → Value} {fuel : Nat} {d : Slice}
    (hfuel : d.len ≤ fuel) (l : List α) (hl : ∀ x ∈ l, Decodes (enc x) (val x)) (pos : Nat)
    (rest : Bytes) (hpos : 0 < pos) (hle : pos ≤ d.len)
    (hd : d.vis.drop pos = l.flatMap enc ++ rest) :
    readElems (decodeFuel fuel) d l.length pos =
      .ok (.ok (l.map val, pos + (l.flatMap enc).length)) := by
  induction l generalizing pos with
  | nil => rfl
  | cons x l ih =>
    rw [List.flatMap_cons, List.append_assoc] at hd
    have hlt : (d.suffix pos hle).len < fuel := by
      rw [d.suffix_len]
      omega
    have hx := hl x (List.mem_cons_self ..) fuel (d.suffix pos hle) (l.flatMap enc ++ rest) hlt
      ((d.suffix_vis pos hle).trans hd)
    have hle' : pos + (enc x).length ≤ d.len := by
      have := congrArg List.length hd
      rw [List.length_drop, d.vis_length, List.length_append] at this
      omega
    have hd' : d.vis.drop (pos + (enc x).length) = l.flatMap enc ++ rest := by
      rw [← List.drop_drop, hd, List.drop_left]
    rw [List.length_cons, readElems_next hle hx,
      ih (fun y hy => hl y (List.mem_cons_of_mem x hy)) _ (by omega) hle' hd', List.flatMap_cons,
      List.length_append]
    show Except.ok (Except.ok (val x :: l.map val, _)) = _
    rw [List.map_cons, Nat.add_assoc]

theorem makeLen_formatLen {α : Type} {l : List α} (hmax : l.length ≤ maxElems) :
    makeLen (lineValue (formatLen l)) = .ok l.length := by
  have hvalue : (lineValue (formatLen l)).toInt = l.length :=
    toInt_lineValue_formatLen (by unfold maxElems at hmax; omega)
  unfold makeLen
  rw [if_pos (by omega), hvalue]
  rfl

theorem decodes_array {α : Type} (enc : α → Bytes) (val : α → Value) {l : List α}
    (hmax : l.length ≤ maxElems) (hl : ∀ x ∈ l, Decodes (enc x) (val x)) :
    Decodes (lit "*" ++ formatLen l ++ lit "\r\n" ++ l.flatMap enc) (.arr (l.map val)) := by
  apply decodes_of_decodeWith
  intro fuel d rest hfuel hd
  have hvis := d.vis_length
  simp only [List.append_assoc] at hd
  rw [hd] at hvis
  simp only [List.length_append] at hvis
  change d.vis = '*'.toUInt8 :: (formatLen l ++ (lit "\r\n" ++ (l.flatMap enc ++ rest))) at hd
  change 1 + ((formatLen l).length + (2 + ((l.flatMap enc).length + rest.length))) = d.len at hvis
  rw [decodeWith_array _ hd (line_formatLen _ _), makeLen_formatLen hmax]
  show wrapRead .arr (readElems (decodeFuel fuel) d l.length ((formatLen l).length + 3)) = _
  rw [readElems_flatMap hfuel l hl _ rest (Nat.succ_pos _) (by omega) (drop_header hd)]
  show Except.ok (Except.ok (Value.arr (l.map val), _)) = _
  congr 3
  simp only [List.length_append]
  show _ = 1 + (formatLen l).length + 2 + (l.flatMap enc).length
  omega

theorem decodes_strings {sa : List Bytes} (hmax : sa.length ≤ maxElems) :
    Decodes (encodeStringArray sa) (.arr (sa.map .str)) :=
  decodes_array encodeString .str hmax fun s _ => decodes_string s

/-! ## Values of the encoder -/

/-- The values that are strings, integers and lists of such values. No
slice has more than `maxElems` elements of 16 bytes. -/
def GoValue.Plain : GoValue → Prop
  | .str _ => True
  | .int _ => True
  | .error _ => False
  | .strs sa => sa.length ≤ maxElems
  | .strs2 saa => saa.length ≤ maxElems ∧ ∀ sa ∈ saa, sa.length ≤ maxElems
  | .anys l => l.length ≤ maxElems ∧ ∀ x ∈ l, x.Plain
  | .other => False

/-- The value as the decoder returns it: every list is an `[]interface{}`.
An error comes back as its text, anything else as the text of a null. -/
def GoValue.decoded : GoValue → Value
  | .str s => .str s
  | .int n => .int n
  | .error text => .str text
  | .strs sa => .arr (sa.map .str)
  | .strs2 saa => .arr (saa.map fun sa => .arr (sa.map .str))
  | .anys l => .arr (l.map decoded)
  | .other => .str (lit "Null value")

theorem encodeElems_eq (l : List GoValue) : encodeElems l = l.flatMap fun x => encode x false := by
  induction l with
  | nil => rfl
  | cons x l ih => rw [encodeElems, ih, List.flatMap_cons]

theorem decodes_encode : ∀ v : GoValue, v.Plain → Decodes (encode v false) v.decoded
  | .str s, _ => by
    rw [encode, GoValue.decoded]
    exact decodes_string s
  | .int n, _ => by
    rw [encode, GoValue.decoded]
    exact decodes_int n
  | .error _, h => by
    rw [GoValue.Plain] at h
    exact h.elim
  | .strs sa, h => by
    rw [GoValue.Plain] at h
    rw [encode, GoValue.decoded]
    exact decodes_strings h
  | .strs2 saa, h => by
    rw [GoValue.Plain] at h
    rw [encode, GoValue.decoded]
    exact decodes_array encodeStringArray _ h.1 fun sa hsa => decodes_strings (h.2 sa hsa)
  | .anys l, h => by
    rw [GoValue.Plain] at h
    rw [encode, encodeElems_eq, GoValue.decoded]
    exact decodes_array (fun x => encode x false) _ h.1 fun x hx => decodes_encode x (h.2 x hx)
  | .other, h => by
    rw [GoValue.Plain] at h
    exact h.elim

theorem tokensOf_strings (sa : List Bytes) : tokensOf (.arr (sa.map .str)) = sa := by
  rw [tokensOf]
  induction sa with
  | nil => rfl
  | cons s sa ih => rw [List.map_cons, sprintAll, sprint, ih]

/-- Whatever follows it in the slice, an encoded value decodes to itself
and consumes its own encoding, and an encoded list of tokens parses to its
command. -/
theorem decode_encode_roundtrip :
    (∀ (v : GoValue) (rest : Bytes) (d : Slice), v.Plain → d.vis = encode v false ++ rest →
      decodeOne d = .ok (.ok (v.decoded, (encode v false).length))) ∧
    (∀ (t : Bytes) (ts : List Bytes) (rest : Bytes) (d : Slice), (t :: ts).length ≤ maxElems →
      d.vis = encode (.strs (t :: ts)) false ++ rest →
      parseCmd d = .ok (.ok { Cmd := toUpper t, Args := ts })) := by
  constructor
  · intro v rest d hv hd
    exact decodes_encode v hv _ d rest (Nat.lt_succ_self _) hd
  · intro t ts rest d hmax hd
    rw [encode] at hd
    have hdec := decodes_strings hmax _ d rest (Nat.lt_succ_self _) hd
    rw [parseCmd_value hdec, commandOf, tokensOf_strings]

/-- A nested value around the least `int64` and a payload with a line break,
and a command, each followed by other bytes. -/
theorem decode_encode_roundtrip_nested :
    decodeOne
        { arr := lit "*2\r\n:-9223372036854775808\r\n*2\r\n*1\r\n$3\r\na\r\n\r\n*0\r\n+OK"
          len := 51, len_le := by decide, cap_le := by decide } =
      .ok (.ok (.arr [.int Int64.minValue, .arr [.arr [.str (lit "a\r\n")], .arr []]], 48)) ∧
    parseCmd
        { arr := lit "*2\r\n$3\r\nget\r\n$2\r\n*1\r\n:5\x00"
          len := 23, len_le := by decide, cap_le := by decide } =
      .ok (.ok { Cmd := lit "GET", Args := [lit "*1"] }) := by
  constructor
  · have h := decode_encode_roundtrip.1
      (.anys [.int Int64.minValue, .strs2 [[lit "a\r\n"], []]]) (lit "+OK")
      { arr := lit "*2\r\n:-9223372036854775808\r\n*2\r\n*1\r\n$3\r\na\r\n\r\n*0\r\n+OK"
        len := 51, len_le := by decide, cap_le := by decide }
      (by simp [GoValue.Plain, maxElems])
      rfl
    simp only [GoValue.decoded, List.map_cons, List.map_nil] at h
    exact h
  · have h := decode_encode_roundtrip.2 (lit "get") [lit "*1"] (lit ":5")
      { arr := lit "*2\r\n$3\r\nget\r\n$2\r\n*1\r\n:5\x00"
        len := 23, len_le := by decide, cap_le := by decide }
      (by decide) rfl
    rw [h]
    rfl

end RediGo.Core
