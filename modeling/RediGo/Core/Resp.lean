/-
RediGo.Core.Resp — the wire format (`internal/core/resp.go`): the five
readers, `DecodeOne`, the encoder and `ParseCmd`.

A reader returns `Except Fault (Outcome α)`: a run-time panic, a Go error
with its text, or a value with the number of bytes it consumed.
Positions are natural numbers; a reader never moves one past the capacity
by more than four, so the `int` of the source does not wrap there. The
lengths read from the wire are `Int64` and do wrap.

The element loop of `readArray` takes the decoder as an argument, and
`decodeOne` ties the knot with a fuel that bounds the nesting. Each nested
slice is shorter than the one around it, so the length is fuel enough.
-/
import RediGo.Go.Slice
import RediGo.Go.Strings

namespace RediGo.Core

open RediGo.Go

/-! ## Values -/

/-- What `DecodeOne` returns as `interface{}`: a `string`, an `int64` or an
`[]interface{}`. -/
inductive Value where
  | str (s : Bytes)
  | int (n : Int64)
  | arr (l : List Value)
  deriving Repr

/-- What `Encode` tells apart by the dynamic type of its argument. The five
integer types print alike, so `int` stands for all of them; `other` is
`nil` and every type without a case of its own. -/
inductive GoValue where
  | str (s : Bytes)
  | int (n : Int64)
  | error (text : Bytes)
  | strs (sa : List Bytes)
  | strs2 (saa : List (List Bytes))
  | anys (l : List GoValue)
  | other
  deriving Repr

/-- `Command` -/
structure Command where
  Cmd : Bytes
  Args : List Bytes
  deriving DecidableEq, Repr

/-- Go's `(value, int, error)`: the text of the error, or the value and the
number of bytes consumed. -/
abbrev Outcome (α : Type) := Except Bytes (α × Nat)

abbrev Decoder := Slice → Except Fault (Outcome Value)

/-! ## The readers -/

/-- The loop `for data[pos] != '\r'` of `readSimpleString`, over the bytes
from `pos` on. -/
def scanLine : Bytes → Nat → Except Fault Nat
  | [], _ => .error .index
  | b :: rest, pos => if b = '\r'.toUInt8 then .ok pos else scanLine rest (pos + 1)

/-- `readSimpleString` -/
def readSimpleString (data : Slice) : Except Fault (Outcome Bytes) := do
  let pos ← scanLine (data.vis.drop 1) 1
  let s ← data.sub 1 (Int64.ofNat pos)
  .ok (.ok (s, pos + 2))

/-- The loop of `readInt64`, over the bytes from `pos` on. -/
def readDigits : Bytes → Int64 → Nat → Except Fault (Int64 × Nat)
  | [], _, _ => .error .index
  | b :: rest, res, pos =>
    if b = '\r'.toUInt8 then .ok (res, pos)
    else readDigits rest (res * 10 + Int64.ofNat (b - '0'.toUInt8).toNat) (pos + 1)

/-- `if data[pos] == c { sign = s; pos += 1 }` -/
def takeSign (data : Slice) (c : UInt8) (s : Int64) (st : Int64 × Nat) :
    Except Fault (Int64 × Nat) := do
  let b ← data.get st.2
  .ok (if b = c then (s, st.2 + 1) else st)

/-- The head of `readInt64`: the sign and the position of the first digit.
The tests come one after the other, so `-+5` is five. -/
def readSign (data : Slice) : Except Fault (Int64 × Nat) := do
  let st ← takeSign data '-'.toUInt8 (-1) (1, 1)
  takeSign data '+'.toUInt8 1 st

/-- `readInt64`, which returns no error -/
def readInt64 (data : Slice) : Except Fault (Int64 × Nat) := do
  let (sign, pos) ← readSign data
  let (res, pos) ← readDigits (data.vis.drop pos) 0 pos
  .ok (res * sign, pos + 2)

/-- `readError` -/
def readError (data : Slice) : Except Fault (Outcome Bytes) := readSimpleString data

/-- `readLen` -/
def readLen (data : Slice) : Except Fault (Int64 × Nat) := readInt64 data

/-- `readBulkString` -/
def readBulkString (data : Slice) : Except Fault (Outcome Bytes) := do
  let (length, pos) ← readLen data
  if length = -1 then
    .ok (.ok (lit "Null value", pos + 2))
  else do
    let s ← data.sub pos (Int64.ofNat pos + length)
    .ok (.ok (s, pos + length.toInt.toNat + 2))

/-- The most elements a slice of 16-byte elements can be made with. -/
def maxElems : Nat := 2 ^ 44

/-- `make([]interface{}, length)`, of which only the length matters. -/
def makeLen (length : Int64) : Except Fault Nat :=
  if 0 ≤ length.toInt ∧ length.toInt ≤ maxElems then .ok length.toInt.toNat
  else .error .makeLen

/-- The loop of `readArray`: `k` elements are still to be read. -/
def readElems (decode : Decoder) (data : Slice) :
    Nat → Nat → Except Fault (Outcome (List Value))
  | 0, pos => .ok (.ok ([], pos))
  | k + 1, pos => do
    let rest ← data.sliceFrom pos
    match ← decode rest with
    | .error err => .ok (.error err)
    | .ok (elem, delta) =>
      match ← readElems decode data k (pos + delta) with
      | .error err => .ok (.error err)
      | .ok (res, pos) => .ok (.ok (elem :: res, pos))

/-- `readArray` -/
def readArray (decode : Decoder) (data : Slice) : Except Fault (Outcome (List Value)) := do
  let (length, pos) ← readLen data
  let k ← makeLen length
  readElems decode data k pos

/-- A reader's result as an `interface{}`. -/
def wrapRead {α : Type} (f : α → Value) (r : Except Fault (Outcome α)) :
    Except Fault (Outcome Value) := do
  match ← r with
  | .error err => .ok (.error err)
  | .ok (a, n) => .ok (.ok (f a, n))

/-- The body of `DecodeOne`, with the decoder for nested elements. -/
def decodeWith (decode : Decoder) (data : Slice) : Except Fault (Outcome Value) :=
  match data.vis with
  | [] => .ok (.error (lit "no data"))
  | b :: _ =>
    if b = '+'.toUInt8 then wrapRead .str (readSimpleString data)
    else if b = ':'.toUInt8 then do
      let (n, pos) ← readInt64 data
      .ok (.ok (.int n, pos))
    else if b = '-'.toUInt8 then wrapRead .str (readError data)
    else if b = '$'.toUInt8 then wrapRead .str (readBulkString data)
    else if b = '*'.toUInt8 then wrapRead .arr (readArray decode data)
    else .ok (.ok (.str (lit "unknown prefix: " ++ encodeRune b.toNat), 0))

def decodeFuel : Nat → Decoder
  | 0, _ => .error .fuel
  | fuel + 1, data => decodeWith (decodeFuel fuel) data

/-- `DecodeOne` -/
def decodeOne : Decoder := fun data => decodeFuel (data.len + 1) data

/-- `Decode` -/
def decode (data : Slice) : Except Fault (Except Bytes Value) := do
  match ← decodeOne data with
  | .error err => .ok (.error err)
  | .ok (v, _) => .ok (.ok v)

/-! ## The encoder -/

def CRLF : Bytes := lit "\r\n"

/-- `RespNil` -/
def RespNil : Bytes := lit "$-1\r\n"

/-- `fmt.Sprintf("%d", len(l))` -/
def formatLen {α : Type} (l : List α) : Bytes := formatInt (Int64.ofNat l.length)

/-- `encodeString` -/
def encodeString (s : Bytes) : Bytes := lit "$" ++ formatLen s ++ lit "\r\n" ++ s ++ lit "\r\n"

/-- `encodeStringArray` -/
def encodeStringArray (sa : List Bytes) : Bytes :=
  lit "*" ++ formatLen sa ++ lit "\r\n" ++ sa.flatMap encodeString

mutual

/-- `Encode` -/
def encode (value : GoValue) (isSimpleString : Bool) : Bytes :=
  match value with
  | .str v =>
    if isSimpleString then lit "+" ++ v ++ CRLF
    else lit "$" ++ formatLen v ++ CRLF ++ v ++ CRLF
  | .int n => lit ":" ++ formatInt n ++ lit "\r\n"
  | .error text => lit "-" ++ text ++ lit "\r\n"
  | .strs sa => encodeStringArray sa
  | .strs2 saa => lit "*" ++ formatLen saa ++ lit "\r\n" ++ saa.flatMap encodeStringArray
  | .anys l => lit "*" ++ formatLen l ++ lit "\r\n" ++ encodeElems l
  | .other => RespNil

/-- The loop of `Encode` over an `[]interface{}`. -/
def encodeElems : List GoValue → Bytes
  | [] => []
  | x :: l => encode x false ++ encodeElems l

end

/-! ## Commands -/

mutual

/-- `fmt.Sprint` of a decoded value. -/
def sprint : Value → Bytes
  | .str s => s
  | .int n => formatInt n
  | .arr l => lit "[" ++ (lit " ").intercalate (sprintAll l) ++ lit "]"

def sprintAll : List Value → List Bytes
  | [] => []
  | v :: l => sprint v :: sprintAll l

end

/-- The tokens of a decoded request. `Decode` returns no `nil` without an
error, so the source's `case nil` has no counterpart. -/
def tokensOf : Value → List Bytes
  | .arr l => sprintAll l
  | .str s => fields s
  | .int n => [formatInt n]

/-- The end of `ParseCmd`: the first token is the command's name. -/
def commandOf (value : Value) : Except Bytes Command :=
  match tokensOf value with
  | [] => .error (lit "no command found")
  | t :: ts => .ok { Cmd := toUpper t, Args := ts }

/-- `ParseCmd` -/
def parseCmd (data : Slice) : Except Fault (Except Bytes Command) := do
  if data.len = 0 then
    .ok (.error (lit "empty data"))
  else
    match ← decode data with
    | .error err => .ok (.error (lit "failed to decode RESP: " ++ err))
    | .ok value => .ok (commandOf value)

end RediGo.Core
