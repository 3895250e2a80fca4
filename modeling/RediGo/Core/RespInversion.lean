/-
RediGo.Core.RespInversion — what it means that the decoder returned a value.

`Reading dec d v n` lists the six ways `DecodeOne` comes to a value `v` and a
number `n` of consumed bytes, `dec` being the decoder for nested elements.
`decodeWith_iff` and `readElems_succ_iff` turn a run into these facts and
back, so that statements about values need no case analysis of the readers.
-/
import RediGo.Core.RespSafety

namespace RediGo.Core

open RediGo.Go

variable {dec : Decoder} {d : Slice}

/-- How a value is read. -/
inductive Reading (dec : Decoder) (d : Slice) : Value → Nat → Prop where
  | unknown {p : UInt8} {w : Bytes} (hd : d.vis = p :: w) (hp : p ∉ prefixes) :
    Reading dec d (.str (lit "unknown prefix: " ++ encodeRune p.toNat)) 0
  | line {p : UInt8} {w body : Bytes} (hd : d.vis = p :: w)
    (hp : p = '+'.toUInt8 ∨ p = '-'.toUInt8) (hl : Line body w) :
    Reading dec d (.str body) (body.length + 3)
  | int {w body : Bytes} (hd : d.vis = ':'.toUInt8 :: w) (hl : Line body w) :
    Reading dec d (.int (lineValue body)) (body.length + 3)
  | null {w body : Bytes} (hd : d.vis = '$'.toUInt8 :: w) (hl : Line body w)
    (hv : lineValue body = -1) : Reading dec d (.str (lit "Null value")) (body.length + 5)
  | bulk {w body : Bytes} {n : Nat} (hd : d.vis = '$'.toUInt8 :: w) (hl : Line body w)
    (hv : (lineValue body).toInt = n) (hfit : body.length + 3 + n ≤ d.arr.length) :
    Reading dec d (.str ((d.arr.drop (body.length + 3)).take n)) (body.length + 3 + n + 2)
  | array {w body : Bytes} {k pos : Nat} {l : List Value} (hd : d.vis = '*'.toUInt8 :: w)
    (hl : Line body w) (hv : (lineValue body).toInt = k) (hk : k ≤ maxElems)
    (helems : readElems dec d k (body.length + 3) = .ok (.ok (l, pos))) :
    Reading dec d (.arr l) pos

theorem lineValue_ne_of_toInt {body : Bytes} {n : Nat} (h : (lineValue body).toInt = n) :
    lineValue body ≠ -1 := by
  intro hv
  rw [hv] at h
  have : (-1 : Int) = n := h
  omega

theorem wrapRead_arr_iff {r : Except Fault (Outcome (List Value))} {v : Value} {n : Nat} :
    wrapRead .arr r = .ok (.ok (v, n)) ↔ ∃ l, v = .arr l ∧ r = .ok (.ok (l, n)) := by
  rcases r with f | err | ⟨l, n'⟩ <;> simp [wrapRead, bind, Except.bind, eq_comm]

/-- An array is read if all its elements are. -/
theorem decodeWith_array_iff {w body : Bytes} {k : Nat} (hd : d.vis = '*'.toUInt8 :: w)
    (hl : Line body w) (hv : (lineValue body).toInt = k) {v : Value} {n : Nat} :
    decodeWith dec d = .ok (.ok (v, n)) ↔ k ≤ maxElems ∧ ∃ l, v = .arr l ∧
      readElems dec d k (body.length + 3) = .ok (.ok (l, n)) := by
  rw [decodeWith_array dec hd hl, makeLen, hv]
  by_cases hk : k ≤ maxElems
  · rw [if_pos (by omega), ← wrapRead_arr_iff]
    simp [hk, bind, Except.bind]
  · rw [if_neg (by omega)]
    simp [hk, bind, Except.bind]

theorem Reading.decodeWith {v : Value} {n : Nat} (h : Reading dec d v n) :
    decodeWith dec d = .ok (.ok (v, n)) := by
  cases h with
  | unknown hd hp => exact decodeWith_unknown dec hd hp
  | line hd hp hl => exact decodeWith_line dec hd hp hl
  | int hd hl => exact decodeWith_int dec hd hl
  | null hd hl hv => exact decodeWith_null dec hd hl hv
  | bulk hd hl hv hfit =>
    rw [decodeWith_bulk dec hd hl (lineValue_ne_of_toInt hv), hv, if_pos (by omega)]
    rfl
  | array hd hl hv hk helems => exact (decodeWith_array_iff hd hl hv).2 ⟨hk, _, rfl, helems⟩

theorem reading_of_decodeWith {v : Value} {n : Nat} (h : decodeWith dec d = .ok (.ok (v, n))) :
    Reading dec d v n := by
  cases hd : d.vis with
  | nil =>
    rw [decodeWith_nil dec hd] at h
    cases h
  | cons p w =>
    by_cases hp : p ∈ prefixes
    case neg =>
      rw [decodeWith_unknown dec hd hp] at h
      cases h
      exact .unknown hd hp
    rcases line_or_not w with ⟨body, hl⟩ | hw
    case inr =>
      rw [decodeWith_noLine dec hd hp hw] at h
      cases h
    simp only [prefixes, List.mem_cons, List.not_mem_nil, or_false] at hp
    rcases hp with rfl | rfl | rfl | rfl | rfl
    · rw [decodeWith_line dec hd (.inl rfl) hl] at h
      cases h
      exact .line hd (.inl rfl) hl
    · rw [decodeWith_int dec hd hl] at h
      cases h
      exact .int hd hl
    · rw [decodeWith_line dec hd (.inr rfl) hl] at h
      cases h
      exact .line hd (.inr rfl) hl
    · by_cases hv : lineValue body = -1
      · rw [decodeWith_null dec hd hl hv] at h
        cases h
        exact .null hd hl hv
      · rw [decodeWith_bulk dec hd hl hv] at h
        split at h
        · cases h
          exact .bulk hd hl (by omega) (by omega)
        · cases h
    · by_cases hneg : (lineValue body).toInt < 0
      · rw [decodeWith_array dec hd hl, makeLen, if_neg (by omega)] at h
        cases h
      · have hv : (lineValue body).toInt = (lineValue body).toInt.toNat := by omega
        obtain ⟨hk, l, rfl, helems⟩ := (decodeWith_array_iff hd hl hv).1 h
        exact .array hd hl hv hk helems

theorem decodeWith_iff {v : Value} {n : Nat} :
    decodeWith dec d = .ok (.ok (v, n)) ↔ Reading dec d v n :=
  ⟨reading_of_decodeWith, Reading.decodeWith⟩

/-- The first element, and the others from where it ends. -/
theorem readElems_succ_iff {k pos e : Nat} {l : List Value} :
    readElems dec d (k + 1) pos = .ok (.ok (l, e)) ↔
      ∃ (h : pos ≤ d.len) (v : Value) (n : Nat) (l' : List Value),
        dec (d.suffix pos h) = .ok (.ok (v, n)) ∧
        readElems dec d k (pos + n) = .ok (.ok (l', e)) ∧ l = v :: l' := by
  constructor
  · intro helems
    by_cases h : pos ≤ d.len
    case neg =>
      rw [readElems_outside (by omega)] at helems
      cases helems
    rcases hval : dec (d.suffix pos h) with f | err | ⟨v, n⟩
    · rw [readElems_fault h hval] at helems
      cases helems
    · rw [readElems_stop h hval] at helems
      cases helems
    · rw [readElems_next h hval] at helems
      rcases hrest : readElems dec d k (pos + n) with f | err | ⟨l', e'⟩ <;>
        rw [hrest] at helems <;> cases helems
      exact ⟨h, v, n, l', hval, hrest, rfl⟩
  · rintro ⟨h, v, n, l', hval, hrest, rfl⟩
    rw [readElems_next h hval, hrest]
    rfl

/-- Once the first element is known the others decide. -/
theorem readElems_cons_iff {k pos n e : Nat} {v : Value} {l : List Value} (h : pos ≤ d.len)
    (hval : dec (d.suffix pos h) = .ok (.ok (v, n))) :
    readElems dec d (k + 1) pos = .ok (.ok (v :: l, e)) ↔
      readElems dec d k (pos + n) = .ok (.ok (l, e)) := by
  rw [readElems_succ_iff]
  constructor
  · rintro ⟨_, v', n', l', hval', hrest, heq⟩
    rw [hval] at hval'
    cases hval'
    cases heq
    exact hrest
  · intro hrest
    exact ⟨h, v, n, l, hval, hrest, rfl⟩

theorem parseCmd_iff {c : Command} :
    parseCmd d = .ok (.ok c) ↔
      ∃ v n, decodeOne d = .ok (.ok (v, n)) ∧ commandOf v = .ok c := by
  constructor
  · intro h
    rcases hval : decodeOne d with f | err | ⟨v, n⟩
    · rw [parseCmd_fault hval] at h
      cases h
    · obtain ⟨err', herr⟩ := parseCmd_error hval
      rw [herr] at h
      cases h
    · rw [parseCmd_value hval] at h
      exact ⟨v, n, rfl, Except.ok.inj h⟩
  · rintro ⟨v, n, hval, hcmd⟩
    rw [parseCmd_value hval, hcmd]

end RediGo.Core
