/-
RediGo.Core.RespReaders — what each reader of the wire format returns.

A reader looks for the first carriage return after the prefix byte.
`Line body w` says that `w` begins with the line `body`; `line_or_not`
says that there is one such line or no carriage return at all. In the
first case every reader is an equation in `body` and the capacity
(`decodeWith_line`, `decodeWith_int`, `decodeWith_bulk`,
`decodeWith_array`), in the second every reader runs off the end of the
slice (`decodeWith_noLine`).

`numeral body` is the length or integer such a line spells, exactly as the
digit loop computes it.
-/
import RediGo.Core.Resp

namespace RediGo.Core

open RediGo.Go

/-! ## Lines -/

/-- `w` begins with the line `body`, ended by its first carriage return. -/
def Line (body w : Bytes) : Prop :=
  '\r'.toUInt8 ∉ body ∧ ∃ t, w = body ++ '\r'.toUInt8 :: t

theorem line_or_not (w : Bytes) : (∃ body, Line body w) ∨ '\r'.toUInt8 ∉ w := by
  by_cases h : '\r'.toUInt8 ∈ w
  · obtain ⟨body, t, rfl, hbody⟩ := List.eq_append_cons_of_mem h
    exact .inl ⟨body, hbody, t, rfl⟩
  · exact .inr h

theorem Line.length_lt {body w : Bytes} (h : Line body w) : body.length < w.length := by
  obtain ⟨-, t, rfl⟩ := h
  simp

/-- One optional sign character: the sign so far and the bytes that follow. -/
def stripSign (c : UInt8) (s : Int) (st : Int × Bytes) : Int × Bytes :=
  if st.2.head? = some c then (s, st.2.tail) else st

/-- The sign of a numeral, as a factor, and its digits: an optional `-` and
an optional `+` that cancels it. -/
def signOf (body : Bytes) : Int × Bytes :=
  stripSign '+'.toUInt8 1 (stripSign '-'.toUInt8 (-1) (1, body))

/-- The number a line spells. -/
def numeral (body : Bytes) : Int := digits 0 (signOf body).2 * (signOf body).1

/-- The number a reader makes of a line. -/
def lineValue (body : Bytes) : Int64 := Int64.ofInt (numeral body)

/-! ## The loops -/

theorem scanLine_line {body : Bytes} (h : '\r'.toUInt8 ∉ body) (t : Bytes) (pos : Nat) :
    scanLine (body ++ '\r'.toUInt8 :: t) pos = .ok (pos + body.length) := by
  induction body generalizing pos with
  | nil => rfl
  | cons b body ih =>
    rw [List.mem_cons, not_or] at h
    rw [List.cons_append, scanLine, if_neg (Ne.symm h.1), ih h.2, List.length_cons]
    congr 1
    omega

theorem scanLine_noLine {w : Bytes} (h : '\r'.toUInt8 ∉ w) (pos : Nat) :
    scanLine w pos = .error .index := by
  induction w generalizing pos with
  | nil => rfl
  | cons b w ih =>
    rw [List.mem_cons, not_or] at h
    rw [scanLine, if_neg (Ne.symm h.1), ih h.2]

/-- Wrapping after every digit is wrapping once at the end. -/
theorem readDigits_line {ds : Bytes} (h : '\r'.toUInt8 ∉ ds) (t : Bytes) (res : Int) (pos : Nat) :
    readDigits (ds ++ '\r'.toUInt8 :: t) (Int64.ofInt res) pos =
      .ok (Int64.ofInt (digits res ds), pos + ds.length) := by
  induction ds generalizing res pos with
  | nil => rfl
  | cons b ds ih =>
    rw [List.mem_cons, not_or] at h
    have hstep : Int64.ofInt res * 10 + Int64.ofNat (b - '0'.toUInt8).toNat =
        Int64.ofInt (res * 10 + (b - '0'.toUInt8).toNat) := by
      rw [Int64.ofInt_add, Int64.ofInt_mul, Int64.ofInt_eq_ofNat]
      rfl
    rw [List.cons_append, readDigits, if_neg (Ne.symm h.1), hstep, ih h.2, List.length_cons]
    congr 2
    omega

theorem readDigits_noLine {w : Bytes} (h : '\r'.toUInt8 ∉ w) (res : Int64) (pos : Nat) :
    readDigits w res pos = .error .index := by
  induction w generalizing res pos with
  | nil => rfl
  | cons b w ih =>
    rw [List.mem_cons, not_or] at h
    rw [readDigits, if_neg (Ne.symm h.1), ih h.2]

/-! ## Integers -/

theorem get_of_drop {d : Slice} {i : Nat} {b : UInt8} {t : Bytes}
    (h : d.vis.drop i = b :: t) : d.get i = .ok b := by
  have hb : d.vis[i]? = some b := by
    rw [← List.head?_drop, h]
    rfl
  rw [Slice.get, index, hb]

theorem takeSign_line {d : Slice} {c : UInt8} (hc : c ≠ '\r'.toUInt8) (s sign : Int) {pos : Nat}
    {ds t : Bytes} (hd : d.vis.drop pos = ds ++ '\r'.toUInt8 :: t) :
    ∃ pos', takeSign d c (Int64.ofInt s) (Int64.ofInt sign, pos) =
        .ok (Int64.ofInt (stripSign c s (sign, ds)).1, pos') ∧
      pos' + (stripSign c s (sign, ds)).2.length = pos + ds.length ∧
      d.vis.drop pos' = (stripSign c s (sign, ds)).2 ++ '\r'.toUInt8 :: t := by
  unfold takeSign stripSign
  cases ds with
  | nil =>
    rw [List.nil_append] at hd
    rw [get_of_drop hd]
    exact ⟨pos, by simp [bind, Except.bind, Ne.symm hc], rfl, hd⟩
  | cons b ds =>
    rw [List.cons_append] at hd
    rw [get_of_drop hd]
    by_cases hb : b = c
    · refine ⟨pos + 1, by simp [bind, Except.bind, hb], by simp [hb]; omega, ?_⟩
      rw [← List.drop_drop, hd]
      simp [hb]
    · exact ⟨pos, by simp [bind, Except.bind, hb], by simp [hb], by simp [hb, hd]⟩

theorem readSign_line {d : Slice} {body t : Bytes}
    (hd : d.vis.drop 1 = body ++ '\r'.toUInt8 :: t) :
    ∃ pos, readSign d = .ok (Int64.ofInt (signOf body).1, pos) ∧
      pos + (signOf body).2.length = 1 + body.length ∧
      d.vis.drop pos = (signOf body).2 ++ '\r'.toUInt8 :: t := by
  obtain ⟨pos, hminus, hlen, hdrop⟩ := takeSign_line (c := '-'.toUInt8) (by decide) (-1) 1 hd
  obtain ⟨pos', hplus, hlen', hdrop'⟩ :=
    takeSign_line (c := '+'.toUInt8) (by decide) 1 (stripSign '-'.toUInt8 (-1) (1, body)).1 hdrop
  refine ⟨pos', ?_, hlen'.trans hlen, hdrop'⟩
  unfold readSign
  show (takeSign d '-'.toUInt8 (Int64.ofInt (-1)) (Int64.ofInt 1, 1) >>= _) = _
  rw [hminus]
  exact hplus

theorem stripSign_subset (c : UInt8) (s : Int) (st : Int × Bytes) :
    (stripSign c s st).2 ⊆ st.2 := by
  unfold stripSign
  split
  · exact fun _ h => List.mem_of_mem_tail h
  · exact List.Subset.refl _

theorem readInt64_line {d : Slice} {p : UInt8} {body w : Bytes} (hd : d.vis = p :: w)
    (hl : Line body w) : readInt64 d = .ok (lineValue body, body.length + 3) := by
  obtain ⟨hbody, t, rfl⟩ := hl
  have hdrop1 : d.vis.drop 1 = body ++ '\r'.toUInt8 :: t := by rw [hd]; rfl
  obtain ⟨pos, hsign, hlen, hdrop⟩ := readSign_line hdrop1
  have hdigits : '\r'.toUInt8 ∉ (signOf body).2 := fun h =>
    hbody (stripSign_subset _ _ _ (stripSign_subset _ _ _ h))
  unfold readInt64
  rw [hsign]
  show (readDigits (d.vis.drop pos) (Int64.ofInt 0) pos >>= _) = _
  rw [hdrop, readDigits_line hdigits]
  show Except.ok (Int64.ofInt _ * Int64.ofInt _, _) = _
  rw [← Int64.ofInt_mul, hlen, lineValue, numeral]
  congr 2
  omega

/-- A test for a sign moves forward or runs off the end. -/
theorem takeSign_noLine (d : Slice) (c : UInt8) (s : Int64) (st : Int64 × Nat) :
    takeSign d c s st = .error .index ∨ ∃ st', takeSign d c s st = .ok st' ∧ st.2 ≤ st'.2 := by
  unfold takeSign Slice.get index
  cases d.vis[st.2]? with
  | none => exact .inl rfl
  | some b =>
    refine .inr ⟨_, rfl, ?_⟩
    split
    · exact Nat.le_succ _
    · exact Nat.le_refl _

theorem readInt64_noLine {d : Slice} {p : UInt8} {w : Bytes} (hd : d.vis = p :: w)
    (hw : '\r'.toUInt8 ∉ w) : readInt64 d = .error .index := by
  unfold readInt64 readSign
  rcases takeSign_noLine d '-'.toUInt8 (-1) (1, 1) with h | ⟨st, h, hst⟩
  · rw [h]
    rfl
  rcases takeSign_noLine d '+'.toUInt8 1 st with h' | ⟨st', h', hst'⟩
  · rw [h]
    show (takeSign d '+'.toUInt8 1 st >>= _) = _
    rw [h']
    rfl
  have hpos : 1 ≤ st'.2 := Nat.le_trans hst hst'
  have hrest : '\r'.toUInt8 ∉ d.vis.drop st'.2 := by
    obtain ⟨k, hk⟩ := Nat.exists_eq_add_of_le' hpos
    rw [hd, hk, List.drop_succ_cons]
    exact fun h => hw (List.mem_of_mem_drop h)
  rw [h]
  show (takeSign d '+'.toUInt8 1 st >>= _) = _
  rw [h']
  show (readDigits (d.vis.drop st'.2) 0 st'.2 >>= _) = _
  rw [readDigits_noLine hrest]
  rfl

/-! ## One value -/

/-- The bytes a reader expects after its prefix byte. -/
def prefixes : List UInt8 :=
  ['+'.toUInt8, ':'.toUInt8, '-'.toUInt8, '$'.toUInt8, '*'.toUInt8]

section One

variable {d : Slice} {p : UInt8} {body w : Bytes}

theorem sub_vis {lo hi : Nat} (hlo : lo ≤ hi) (hhi : hi ≤ d.len) :
    d.sub lo (Int64.ofNat hi) = .ok ((d.vis.drop lo).take (hi - lo)) := by
  have hlen := d.len_le
  have hcap := d.cap_le
  have hint : (Int64.ofNat hi).toInt = hi := Int64.toInt_ofNat_of_lt (by omega)
  unfold Slice.sub Slice.vis
  rw [if_pos (by omega), hint, Int.toNat_natCast, List.drop_take, List.take_take,
    Nat.min_eq_left (by omega)]

theorem readSimpleString_line (hd : d.vis = p :: w) (hl : Line body w) :
    readSimpleString d = .ok (.ok (body, body.length + 3)) := by
  have hlt := hl.length_lt
  obtain ⟨hbody, t, rfl⟩ := hl
  have hlen : 1 + body.length ≤ d.len := by
    rw [← d.vis_length, hd, List.length_cons]
    omega
  unfold readSimpleString
  rw [hd]
  show (scanLine (body ++ '\r'.toUInt8 :: t) 1 >>= _) = _
  rw [scanLine_line hbody]
  show (d.sub 1 (Int64.ofNat (1 + body.length)) >>= _) = _
  rw [sub_vis (by omega) hlen, hd]
  show Except.ok (Except.ok ((body ++ '\r'.toUInt8 :: t).take (1 + body.length - 1), _)) = _
  rw [Nat.add_sub_cancel_left, List.take_left]
  congr 3
  omega

theorem readSimpleString_noLine (hd : d.vis = p :: w) (hw : '\r'.toUInt8 ∉ w) :
    readSimpleString d = .error .index := by
  unfold readSimpleString
  rw [hd]
  show (scanLine w 1 >>= _) = _
  rw [scanLine_noLine hw]
  rfl

/-- A payload whose length comes from the wire: neither a negative length
nor one that wraps around gets past the bounds check. -/
theorem sub_add {lo : Nat} (hlo : lo ≤ 2 ^ 62) (v : Int64) :
    d.sub lo (Int64.ofNat lo + v) =
      if 0 ≤ v.toInt ∧ lo + v.toInt ≤ d.arr.length then
        .ok ((d.arr.drop lo).take v.toInt.toNat)
      else .error .slice := by
  have hcap := d.cap_le
  have hmin := v.le_toInt
  have hmax := v.toInt_lt
  have hlo' : (Int64.ofNat lo).toInt = lo := Int64.toInt_ofNat_of_lt (by omega)
  have hsum : (Int64.ofNat lo + v).toInt = (lo + v.toInt).bmod (2 ^ 64) := by
    rw [Int64.toInt_add, hlo']
  unfold Slice.sub
  rw [hsum]
  by_cases hover : lo + v.toInt < 2 ^ 63
  · rw [Int.bmod_eq_of_le (by omega) (by omega)]
    by_cases hok : 0 ≤ v.toInt ∧ lo + v.toInt ≤ d.arr.length
    · rw [if_pos (by omega), if_pos hok]
      congr 2
      omega
    · rw [if_neg (by omega), if_neg hok]
  · rw [Int.bmod_def, if_neg (by omega), if_neg (by omega)]

variable (dec : Decoder)

theorem decodeWith_nil (hd : d.vis = []) :
    decodeWith dec d = .ok (.error (lit "no data")) := by
  unfold decodeWith
  rw [hd]

theorem decodeWith_unknown (hd : d.vis = p :: w) (hp : p ∉ prefixes) :
    decodeWith dec d = .ok (.ok (.str (lit "unknown prefix: " ++ encodeRune p.toNat), 0)) := by
  simp only [prefixes, List.mem_cons, List.not_mem_nil, or_false, not_or] at hp
  unfold decodeWith
  rw [hd]
  simp only [hp, if_false]

theorem decodeWith_line (hd : d.vis = p :: w) (hp : p = '+'.toUInt8 ∨ p = '-'.toUInt8)
    (hl : Line body w) : decodeWith dec d = .ok (.ok (.str body, body.length + 3)) := by
  have hread := readSimpleString_line hd hl
  unfold decodeWith
  rw [hd]
  rcases hp with rfl | rfl
  · show wrapRead .str (readSimpleString d) = _
    rw [hread]
    rfl
  · show wrapRead .str (readSimpleString d) = _
    rw [hread]
    rfl

theorem decodeWith_int (hd : d.vis = ':'.toUInt8 :: w) (hl : Line body w) :
    decodeWith dec d = .ok (.ok (.int (lineValue body), body.length + 3)) := by
  unfold decodeWith
  rw [hd]
  show (readInt64 d >>= _) = _
  rw [readInt64_line hd hl]
  rfl

theorem decodeWith_null (hd : d.vis = '$'.toUInt8 :: w) (hl : Line body w)
    (hv : lineValue body = -1) :
    decodeWith dec d = .ok (.ok (.str (lit "Null value"), body.length + 5)) := by
  unfold decodeWith
  rw [hd]
  show wrapRead .str (readInt64 d >>= _) = _
  rw [readInt64_line hd hl, hv]
  rfl

theorem decodeWith_bulk (hd : d.vis = '$'.toUInt8 :: w) (hl : Line body w)
    (hv : lineValue body ≠ -1) :
    decodeWith dec d =
      if 0 ≤ (lineValue body).toInt ∧
          (body.length + 3 : Nat) + (lineValue body).toInt ≤ d.arr.length then
        .ok (.ok (.str ((d.arr.drop (body.length + 3)).take (lineValue body).toInt.toNat),
          body.length + 3 + (lineValue body).toInt.toNat + 2))
      else .error .slice := by
  have hpos : body.length + 3 ≤ 2 ^ 62 := by
    have hlt := hl.length_lt
    have hvis := d.vis_length
    have hlen := d.len_le
    have hcap := d.cap_le
    rw [hd, List.length_cons] at hvis
    omega
  unfold decodeWith readBulkString readLen
  rw [hd]
  show wrapRead .str (readInt64 d >>= _) = _
  rw [readInt64_line hd hl]
  show wrapRead .str (if lineValue body = -1 then _ else d.sub _ _ >>= _) = _
  rw [if_neg hv, sub_add hpos]
  split <;> rfl

theorem decodeWith_array (hd : d.vis = '*'.toUInt8 :: w) (hl : Line body w) :
    decodeWith dec d =
      (makeLen (lineValue body) >>= fun k => wrapRead .arr (readElems dec d k (body.length + 3))) := by
  unfold decodeWith
  rw [hd]
  show wrapRead .arr (readInt64 d >>= _) = _
  rw [readInt64_line hd hl]
  show wrapRead .arr (makeLen (lineValue body) >>= _) = _
  cases makeLen (lineValue body) <;> rfl

theorem decodeWith_noLine (hd : d.vis = p :: w) (hp : p ∈ prefixes) (hw : '\r'.toUInt8 ∉ w) :
    decodeWith dec d = .error .index := by
  have hint := readInt64_noLine hd hw
  have hstr := readSimpleString_noLine hd hw
  unfold decodeWith readArray readBulkString readError readLen
  rw [hd, hint, hstr]
  simp only [prefixes, List.mem_cons, List.not_mem_nil, or_false] at hp
  rcases hp with rfl | rfl | rfl | rfl | rfl <;> rfl

end One

/-! ## The elements of an array -/

section Elements

variable {dec : Decoder} {d : Slice} {k pos : Nat}

/-- One element in front of the others. -/
def consElem (v : Value) : Outcome (List Value) → Outcome (List Value)
  | .error err => .error err
  | .ok (res, pos) => .ok (v :: res, pos)

theorem readElems_outside (h : d.len < pos) : readElems dec d (k + 1) pos = .error .slice := by
  rw [readElems, Slice.sliceFrom_of_lt h]
  rfl

theorem readElems_fault (h : pos ≤ d.len) {f : Fault} (hdec : dec (d.suffix pos h) = .error f) :
    readElems dec d (k + 1) pos = .error f := by
  rw [readElems, Slice.sliceFrom_of_le h]
  show (dec (d.suffix pos h) >>= _) = _
  rw [hdec]
  rfl

theorem readElems_stop (h : pos ≤ d.len) {err : Bytes}
    (hdec : dec (d.suffix pos h) = .ok (.error err)) :
    readElems dec d (k + 1) pos = .ok (.error err) := by
  rw [readElems, Slice.sliceFrom_of_le h]
  show (dec (d.suffix pos h) >>= _) = _
  rw [hdec]
  rfl

theorem readElems_next (h : pos ≤ d.len) {v : Value} {n : Nat}
    (hdec : dec (d.suffix pos h) = .ok (.ok (v, n))) :
    readElems dec d (k + 1) pos = (readElems dec d k (pos + n)).map (consElem v) := by
  rw [readElems, Slice.sliceFrom_of_le h]
  show (dec (d.suffix pos h) >>= _) = _
  rw [hdec]
  show (readElems dec d k (pos + n) >>= _) = _
  rcases readElems dec d k (pos + n) with f | err | ⟨res, pos⟩ <;> rfl

end Elements

/-! ## The parser -/

theorem decodeOne_empty {d : Slice} (h : d.len = 0) :
    decodeOne d = .ok (.error (lit "no data")) := by
  have hnil : d.vis = [] := List.eq_nil_of_length_eq_zero (d.vis_length.trans h)
  exact decodeWith_nil _ hnil

theorem parseCmd_fault {d : Slice} {f : Fault} (h : decodeOne d = .error f) :
    parseCmd d = .error f := by
  have hlen : d.len ≠ 0 := by
    intro h0
    rw [decodeOne_empty h0] at h
    cases h
  unfold parseCmd decode
  rw [if_neg hlen, h]
  rfl

theorem parseCmd_error {d : Slice} {err : Bytes} (h : decodeOne d = .ok (.error err)) :
    ∃ err', parseCmd d = .ok (.error err') := by
  unfold parseCmd decode
  rw [h]
  split <;> exact ⟨_, rfl⟩

theorem parseCmd_value {d : Slice} {v : Value} {n : Nat} (h : decodeOne d = .ok (.ok (v, n))) :
    parseCmd d = .ok (commandOf v) := by
  have hlen : d.len ≠ 0 := by
    intro h0
    rw [decodeOne_empty h0] at h
    cases h
  unfold parseCmd decode
  rw [if_neg hlen, h]
  rfl

end RediGo.Core
