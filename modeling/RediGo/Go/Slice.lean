/-
RediGo.Go.Slice — byte slices with a capacity.

A slice sees the first `len` bytes of its backing array. Indexing is
legal below the length; a slice expression with two explicit bounds is
legal up to the capacity, so it can uncover bytes past the end of the
slice. `clip` is the slice with nothing behind its end: a function that
returns on `d.clip` returned without looking past the end of `d`.

`cap_le` is the size of the address space a Go program can allocate from
on the 64-bit platforms the server runs on.
-/
import RediGo.Go.Number

namespace RediGo.Go

/-- A value of type `[]byte`. -/
structure Slice where
  /-- the backing array, from the first byte of the slice to the capacity -/
  arr : Bytes
  len : Nat
  len_le : len ≤ arr.length
  cap_le : arr.length ≤ 2 ^ 48

namespace Slice

/-- The bytes of the slice. -/
def vis (d : Slice) : Bytes := d.arr.take d.len

/-- `d[:len(d):len(d)]` -/
def clip (d : Slice) : Slice where
  arr := d.vis
  len := d.len
  len_le := by simp [vis, d.len_le]
  cap_le := (List.length_take_le' _ _).trans d.cap_le

/-- `d[i]` -/
def get (d : Slice) (i : Nat) : Except Fault UInt8 :=
  index d.vis i

/-- The slice from a position within `d` on, with the same capacity. -/
def suffix (d : Slice) (pos : Nat) (h : pos ≤ d.len) : Slice where
  arr := d.arr.drop pos
  len := d.len - pos
  len_le := by
    have := d.len_le
    rw [List.length_drop]
    omega
  cap_le := by
    have := d.cap_le
    rw [List.length_drop]
    omega

/-- `d[pos:]` -/
def sliceFrom (d : Slice) (pos : Nat) : Except Fault Slice :=
  if h : pos ≤ d.len then .ok (d.suffix pos h) else .error .slice

/-- `string(d[lo:hi])`, the bounds being computed as `int` -/
def sub (d : Slice) (lo : Nat) (hi : Int64) : Except Fault Bytes :=
  if lo ≤ hi.toInt ∧ hi.toInt ≤ d.arr.length then
    .ok ((d.arr.drop lo).take (hi.toInt.toNat - lo))
  else .error .slice

@[simp] theorem vis_length (d : Slice) : d.vis.length = d.len := by
  simp [vis, d.len_le]

@[simp] theorem clip_vis (d : Slice) : d.clip.vis = d.vis := by
  rw [vis, clip, List.take_of_length_le (Nat.le_of_eq d.vis_length)]

@[simp] theorem suffix_vis (d : Slice) (pos : Nat) (h : pos ≤ d.len) :
    (d.suffix pos h).vis = d.vis.drop pos := by
  rw [vis, vis, suffix, List.drop_take]

@[simp] theorem suffix_len (d : Slice) (pos : Nat) (h : pos ≤ d.len) :
    (d.suffix pos h).len = d.len - pos := rfl

@[simp] theorem suffix_arr (d : Slice) (pos : Nat) (h : pos ≤ d.len) :
    (d.suffix pos h).arr = d.arr.drop pos := rfl

theorem sliceFrom_of_le {d : Slice} {pos : Nat} (h : pos ≤ d.len) :
    d.sliceFrom pos = .ok (d.suffix pos h) := dif_pos h

theorem sliceFrom_of_lt {d : Slice} {pos : Nat} (h : d.len < pos) :
    d.sliceFrom pos = .error .slice := dif_neg (Nat.not_le_of_lt h)

end Slice

end RediGo.Go
