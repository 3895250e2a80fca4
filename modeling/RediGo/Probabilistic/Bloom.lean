/-
RediGo.Probabilistic.Bloom — the Bloom filter
(`internal/data_structure/probabilistic/bloom.go`).

A probe is `(a + b*i) % bits` in `uint64`; its word is found with a shift
and its bit with a mask. `Add` and `AddHash` run one loop over the probes
of a hash pair, `Exist` and `ExistHash` another, which stops at the first
bit that is not set. The hash pair is murmur3 of the entry; here it is any
function.
-/
import RediGo.Go.Float
import RediGo.Probabilistic.CMS

namespace RediGo.Probabilistic

open RediGo.Go

structure HashValue where
  a : UInt64
  b : UInt64
  deriving DecidableEq, Repr

structure Bloom where
  hashes : Int64
  entries : UInt64
  error : Float64
  bitPerEntry : Float64
  bf : List UInt64
  bits : UInt64
  words : UInt64
  deriving DecidableEq, Repr

namespace Bloom

def Ln2 : Float64 := .ofRat false 693147180559945 (10 ^ 15)

def Ln2Square : Float64 := .ofRat false 480453013918201 (10 ^ 15)

/-- `calcBpe` -/
def calcBpe (impl : FloatImpl) (err : Float64) : Float64 :=
  ((impl.log err).div Ln2Square).opp.abs

/-- The bits of as many words as it takes. -/
def roundUp (bits : UInt64) : UInt64 := if bits % 64 ≠ 0 then (bits / 64 + 1) * 64 else bits

/-- The end of `NewBloomFilter`, with the bits rounded up. -/
def ofBits (impl : FloatImpl) (entries : UInt64) (errorRate bitPerEntry : Float64)
    (bits : UInt64) : Except Fault Bloom := do
  let words := bits / 64
  let bf ← makeWords words
  .ok { hashes := (Ln2.mul bitPerEntry).ceil.toInt64 impl, entries := entries, error := errorRate,
        bitPerEntry := bitPerEntry, bf := bf, bits := bits, words := words }

/-- `NewBloomFilter` -/
def newBloomFilter (impl : FloatImpl) (entries : UInt64) (errorRate : Float64) :
    Except Fault Bloom :=
  let bitPerEntry := calcBpe impl errorRate
  let bits := ((Float64.ofUInt64 entries).mul bitPerEntry).toUInt64 impl
  ofBits impl entries errorRate bitPerEntry (roundUp bits)

/-- The number of iterations of `for i := 0; i < b.Hashes; i++`. -/
def rounds (b : Bloom) : Nat := b.hashes.toInt.toNat

/-- `(initHash.a + initHash.b*uint64(i)) % b.bits` -/
def probe (b : Bloom) (initHash : HashValue) (i : Nat) : Except Fault UInt64 :=
  modulo (initHash.a + initHash.b * UInt64.ofNat i) b.bits

/-- One iteration of the loop that sets bits. -/
def setProbe (b : Bloom) (initHash : HashValue) (bf : List UInt64) (i : Nat) :
    Except Fault (List UInt64) := do
  let hash ← b.probe initHash i
  let word := hash >>> 6
  let bit := hash &&& 0x3F
  let w ← index bf word.toNat
  setAt bf word.toNat (w ||| (1 <<< bit))

/-- The loop that sets bits. -/
def setProbes (b : Bloom) (initHash : HashValue) : Except Fault Bloom := do
  let bf ← forRange (b.setProbe initHash) b.rounds 0 b.bf
  .ok { b with bf := bf }

/-- The loop that tests bits, with `n` iterations left. -/
def testProbes (b : Bloom) (initHash : HashValue) : Nat → Nat → Except Fault Bool
  | 0, _ => .ok true
  | n + 1, i => do
    let hash ← b.probe initHash i
    let word := hash >>> 6
    let bit := hash &&& 0x3F
    let w ← index b.bf word.toNat
    if w &&& (1 <<< bit) = 0 then .ok false else b.testProbes initHash n (i + 1)

/-- `Add` -/
def add (calcHash : Bytes → HashValue) (b : Bloom) (entry : Bytes) : Except Fault Bloom :=
  b.setProbes (calcHash entry)

/-- `Exist` -/
def exist (calcHash : Bytes → HashValue) (b : Bloom) (entry : Bytes) : Except Fault Bool :=
  b.testProbes (calcHash entry) b.rounds 0

/-- `AddHash` -/
def addHash (b : Bloom) (initHash : HashValue) : Except Fault Bloom := b.setProbes initHash

/-- `ExistHash` -/
def existHash (b : Bloom) (initHash : HashValue) : Except Fault Bool :=
  b.testProbes initHash b.rounds 0

/-! ## Runs -/

/-- An insertion, on either path. -/
inductive Insertion where
  | add (entry : Bytes)
  | addHash (initHash : HashValue)

/-- The hash pair an insertion adds. -/
def Insertion.hash (calcHash : Bytes → HashValue) : Insertion → HashValue
  | .add entry => calcHash entry
  | .addHash initHash => initHash

def step (calcHash : Bytes → HashValue) (b : Bloom) : Insertion → Except Fault Bloom
  | .add entry => b.add calcHash entry
  | .addHash initHash => b.addHash initHash

/-- One insertion after the other. -/
def run (calcHash : Bytes → HashValue) : List Insertion → Bloom → Except Fault Bloom
  | [], b => .ok b
  | ins :: more, b => do
    let b ← b.step calcHash ins
    run calcHash more b

end Bloom

end RediGo.Probabilistic
