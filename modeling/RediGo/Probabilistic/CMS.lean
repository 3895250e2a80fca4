/-
RediGo.Probabilistic.CMS — the Count-Min sketch
(`internal/data_structure/probabilistic/cms.go`).

The counters of all rows lie in one slice, row after row. Widths, depths,
indices and counters are `uint64` and wrap around as Go's do; only the
addition of an increment saturates. The hash is murmur3 of the item with
the row's number as seed; here it is any function.

`IncrBy` and `Count` are the same loop over the rows, with and without an
update. Nothing keeps a width of zero or a product of width and depth that
wraps around away from them, so both can fault.
-/
import RediGo.Go.Float

namespace RediGo.Probabilistic

open RediGo.Go

/-- `math.MaxUint64` -/
def MaxUint64 : UInt64 := UInt64.ofNat (2 ^ 64 - 1)

/-- The most elements a slice of 8-byte elements can be made with. -/
def maxWords : Nat := 2 ^ 45

/-- `make([]uint64, n)` -/
def makeWords (n : UInt64) : Except Fault (List UInt64) :=
  if n.toNat ≤ maxWords then .ok (List.replicate n.toNat 0) else .error .makeLen

/-- `calcHash`: the hash of an item under a seed. -/
abbrev ItemHash := Bytes → UInt32 → UInt64

structure CMS where
  width : UInt64
  depth : UInt64
  counter : List UInt64
  deriving DecidableEq, Repr

namespace CMS

/-- The sketch `NewCMS` returns. -/
def fresh (w d : UInt64) : CMS := ⟨w, d, List.replicate (w * d).toNat 0⟩

/-- `NewCMS` -/
def newCMS (w d : UInt64) : Except Fault CMS := do
  let counter ← makeWords (w * d)
  .ok ⟨w, d, counter⟩

/-- `CalcCMSDim` -/
def calcCMSDim (impl : FloatImpl) (errRate probRate : Float64) : UInt64 × UInt64 :=
  ((Float64.e.div errRate).ceil.toUInt64 impl,
    (impl.log (Float64.one.div probRate)).ceil.toUInt64 impl)

def getIndex (c : CMS) (row col : UInt64) : UInt64 := row * c.width + col

/-- `if math.MaxUint64-cell < value { MaxUint64 } else { cell + value }` -/
def addCapped (cell value : UInt64) : UInt64 :=
  if MaxUint64 - cell < value then MaxUint64 else cell + value

/-- `if cell < minCount { minCount = cell }` -/
def lesser (cell minCount : UInt64) : UInt64 := if cell < minCount then cell else minCount

/-- The index of an item's counter in row `i`. -/
def cellIndex (hash : ItemHash) (c : CMS) (item : Bytes) (i : Nat) : Except Fault Nat := do
  let j ← modulo (hash item (UInt32.ofNat i)) c.width
  .ok (c.getIndex (UInt64.ofNat i) j).toNat

/-- One row of `IncrBy`, on the counters and the least of them so far. -/
def incrRow (hash : ItemHash) (c : CMS) (item : Bytes) (value : UInt64)
    (st : List UInt64 × UInt64) (i : Nat) : Except Fault (List UInt64 × UInt64) := do
  let idx ← c.cellIndex hash item i
  let cell ← index st.1 idx
  let counter ← setAt st.1 idx (addCapped cell value)
  .ok (counter, lesser (addCapped cell value) st.2)

/-- `IncrBy` -/
def incrBy (hash : ItemHash) (c : CMS) (item : Bytes) (value : UInt64) :
    Except Fault (UInt64 × CMS) := do
  let (counter, minCount) ← forRange (c.incrRow hash item value) c.depth.toNat 0
    (c.counter, MaxUint64)
  .ok (minCount, { c with counter := counter })

/-- One row of `Count`. -/
def countRow (hash : ItemHash) (c : CMS) (item : Bytes) (minCount : UInt64) (i : Nat) :
    Except Fault UInt64 := do
  let idx ← c.cellIndex hash item i
  let cell ← index c.counter idx
  .ok (lesser cell minCount)

/-- `Count` -/
def count (hash : ItemHash) (c : CMS) (item : Bytes) : Except Fault UInt64 :=
  forRange (c.countRow hash item) c.depth.toNat 0 MaxUint64

/-- One increment after the other. -/
def run (hash : ItemHash) : List (Bytes × UInt64) → CMS → Except Fault CMS
  | [], c => .ok c
  | (item, value) :: incrs, c => do
    let (_, c) ← c.incrBy hash item value
    run hash incrs c

end CMS

end RediGo.Probabilistic
