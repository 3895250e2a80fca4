/-
RediGo.Cmd.CheckedInt — the checked integer reader of `cmd/test/main.go`
beside the one of `internal/core/resp.go`.

The checked reader refuses what the other one computes on: a byte that is
no digit, a number outside `int64`, a line without its CRLF. What is left
are the integers of the protocol (`IsInteger`), and on these the other
reader returns the same (`readInt64_agrees`).

`readInt64Exact` is core's reader with a stop at the first operation whose
result in the machine differs from the exact one. It coming to its end is
how "no wrap-around at any step" is said.
-/
import Mathlib.Data.List.TakeWhile
import RediGo.Core.RespReaders

namespace RediGo.Cmd

open RediGo.Go RediGo.Core

/-! ## The checked reader -/

def MaxInt64 : Int64 := Int64.maxValue

/-- `ch >= '0' && ch <= '9'` -/
def isDigit (ch : UInt8) : Bool := '0'.toUInt8 ≤ ch && ch ≤ '9'.toUInt8

/-- `int64(ch-'0')` -/
def digit (ch : UInt8) : Int64 := Int64.ofNat (ch - '0'.toUInt8).toNat

/-- The loop over the digits: `res`, `pos` and `digitCount` at its end, or
the error it returns. -/
def readDigits : Bytes → Int64 → Nat → Nat → Except Bytes (Int64 × Nat × Nat)
  | [], res, pos, digitCount => .ok (res, pos, digitCount)
  | ch :: rest, res, pos, digitCount =>
    if isDigit ch then
      if res > (MaxInt64 - digit ch) / 10 then .error (lit "integer overflow")
      else readDigits rest (res * 10 + digit ch) (pos + 1) (digitCount + 1)
    else .ok (res, pos, digitCount)

/-- `pos+1 >= len(data) || data[pos] != '\r' || data[pos+1] != '\n'` -/
def unterminated (data : Slice) (pos : Nat) : Except Fault Bool := do
  if pos + 1 ≥ data.len then .ok true
  else if (← data.get pos) ≠ '\r'.toUInt8 then .ok true
  else .ok ((← data.get (pos + 1)) ≠ '\n'.toUInt8)

/-- The part of `readInt64` behind the sign. -/
def readMagnitude (data : Slice) (sign : Int64) (pos : Nat) : Except Fault (Outcome Int64) :=
  match readDigits (data.vis.drop pos) 0 pos 0 with
  | .error err => .ok (.error err)
  | .ok (res, pos, digitCount) => do
    if digitCount = 0 then .ok (.error (lit "no digits found"))
    else if ← unterminated data pos then .ok (.error (lit "invalid terminator"))
    else .ok (.ok (res * sign, pos + 2))

/-- `readInt64` -/
def readInt64 (data : Slice) : Except Fault (Outcome Int64) := do
  if data.len < 4 then
    .ok (.error (lit "input data too short"))
  else if (← data.get 0) ≠ ':'.toUInt8 then
    .ok (.error (lit "invalid prefix: must start with ':'"))
  else
    let b ← data.get 1
    if b = '-'.toUInt8 then readMagnitude data (-1) 2
    else if b = '+'.toUInt8 then readMagnitude data 1 2
    else readMagnitude data 1 1

/-! ## Core's reader, with exact steps only -/

/-- The result `x` of an operation, if it is the exact result `n`. -/
def exactly (x : Int64) (n : Int) : Except Fault Int64 :=
  if x.toInt = n then .ok x else .error .monitor

def readDigitsExact : Bytes → Int64 → Nat → Except Fault (Int64 × Nat)
  | [], _, _ => .error .index
  | b :: rest, res, pos =>
    if b = '\r'.toUInt8 then .ok (res, pos)
    else if b < '0'.toUInt8 then .error .monitor
    else do
      let tenfold ← exactly (res * 10) (res.toInt * 10)
      let res ← exactly (tenfold + digit b) (tenfold.toInt + (b - '0'.toUInt8).toNat)
      readDigitsExact rest res (pos + 1)

def readInt64Exact (data : Slice) : Except Fault (Int64 × Nat) := do
  let (sign, pos) ← readSign data
  let (res, pos) ← readDigitsExact (data.vis.drop pos) 0 pos
  let value ← exactly (res * sign) (res.toInt * sign.toInt)
  .ok (value, pos + 2)

theorem exactly_of_eq {x : Int64} {n : Int} (h : x.toInt = n) : exactly x n = .ok x := if_pos h

theorem eq_of_exactly {x y : Int64} {n : Int} (h : exactly x n = .ok y) : y = x := by
  unfold exactly at h
  split at h
  · cases h
    rfl
  · cases h

theorem readDigits_of_exact {w : Bytes} {res : Int64} {pos : Nat} {r : Int64 × Nat}
    (h : readDigitsExact w res pos = .ok r) : Core.readDigits w res pos = .ok r := by
  induction w generalizing res pos with
  | nil => cases h
  | cons b w ih =>
    unfold readDigitsExact at h
    unfold Core.readDigits
    by_cases hcr : b = '\r'.toUInt8
    · simpa [hcr] using h
    · rw [if_neg hcr] at h ⊢
      split at h
      · cases h
      · obtain ⟨_, htenfold, h⟩ := bind_eq_ok h
        obtain ⟨_, hres, h⟩ := bind_eq_ok h
        cases eq_of_exactly htenfold
        cases eq_of_exactly hres
        exact ih h

/-- A run with exact steps only is a run of the reader. -/
theorem readInt64_of_exact {data : Slice} {r : Int64 × Nat}
    (h : readInt64Exact data = .ok r) : Core.readInt64 data = .ok r := by
  obtain ⟨⟨sign, pos⟩, hsign, h⟩ := bind_eq_ok h
  obtain ⟨⟨res, pos'⟩, hdigits, h⟩ := bind_eq_ok h
  obtain ⟨value, hvalue, h⟩ := bind_eq_ok h
  cases eq_of_exactly hvalue
  cases h
  have hcore : Core.readDigits (data.vis.drop pos) 0 pos = .ok (res, pos') :=
    readDigits_of_exact hdigits
  simp [Core.readInt64, hsign, hcore, bind, Except.bind]

/-! ## Digits -/

theorem digit_lt {b : UInt8} (h : isDigit b = true) :
    (b - '0'.toUInt8).toNat < 10 ∧ 48 ≤ b.toNat ∧ b.toNat ≤ 57 := by
  have hrange : 48 ≤ b.toNat ∧ b.toNat ≤ 57 := by
    simp only [isDigit, Bool.and_eq_true, decide_eq_true_eq, UInt8.le_iff_toNat_le] at h
    exact h
  have hsub : (b - '0'.toUInt8).toNat = b.toNat - 48 :=
    UInt8.toNat_sub_of_le _ _ (UInt8.le_iff_toNat_le.2 hrange.1)
  omega

/-- A digit is none of the other bytes the readers look for. -/
theorem digit_ne {b c : UInt8} (h : isDigit b = true) (hc : isDigit c = false) : b ≠ c := by
  rintro rfl
  rw [h] at hc
  cases hc

theorem toInt_digit (b : UInt8) : (digit b).toInt = (b - '0'.toUInt8).toNat := by
  have hlt := (b - '0'.toUInt8).toNat_lt
  exact Int64.toInt_ofNat_of_lt (by omega)

theorem le_digits {r : Int} (hres : 0 ≤ r) (ds : Bytes) : r ≤ digits r ds := by
  induction ds generalizing r with
  | nil => exact le_refl _
  | cons b ds ih =>
    have hstep := ih (r := r * 10 + (b - '0'.toUInt8).toNat) (by omega)
    exact le_trans (by omega) hstep

/-- The guard is exact: it holds if the next digit leads out of `int64`. -/
theorem guard_iff (res : Int64) {b : UInt8} (hb : isDigit b = true) :
    res > (MaxInt64 - digit b) / 10 ↔
      2 ^ 63 ≤ res.toInt * 10 + (b - '0'.toUInt8).toNat := by
  obtain ⟨hlt, -, -⟩ := digit_lt hb
  have hsub : (MaxInt64 - digit b).toInt = 2 ^ 63 - 1 - (b - '0'.toUInt8).toNat := by
    rw [Int64.toInt_sub, toInt_digit]
    show (2 ^ 63 - 1 - ((b - '0'.toUInt8).toNat : Int)).bmod (2 ^ 64) = _
    exact Int.bmod_eq_of_le (by omega) (by omega)
  have hdiv : ((MaxInt64 - digit b) / 10).toInt =
      (2 ^ 63 - 1 - ((b - '0'.toUInt8).toNat : Int)) / 10 := by
    rw [Int64.toInt_div, hsub]
    show ((2 ^ 63 - 1 - ((b - '0'.toUInt8).toNat : Int)).tdiv 10).bmod (2 ^ 64) = _
    rw [Int.tdiv_eq_ediv_of_nonneg (by omega)]
    exact Int.bmod_eq_of_le (by omega) (by omega)
  rw [gt_iff_lt, Int64.lt_iff_toInt_lt, hdiv]
  omega

/-- The next value, if it stays within `int64`. -/
theorem toInt_next {res : Int64} {b : UInt8} (hres : 0 ≤ res.toInt)
    (hfits : res.toInt * 10 + (b - '0'.toUInt8).toNat < 2 ^ 63) :
    (res * 10).toInt = res.toInt * 10 ∧
      (res * 10 + digit b).toInt = res.toInt * 10 + (b - '0'.toUInt8).toNat := by
  have hmul : (res * 10).toInt = res.toInt * 10 := by
    rw [Int64.toInt_mul]
    show (res.toInt * 10).bmod (2 ^ 64) = _
    exact Int.bmod_eq_of_le (by omega) (by omega)
  refine ⟨hmul, ?_⟩
  rw [Int64.toInt_add, hmul, toInt_digit]
  exact Int.bmod_eq_of_le (by omega) (by omega)

/-- The checked loop over digits, up to the first other byte. -/
theorem readDigits_eq {ds t : Bytes} (hds : ∀ b ∈ ds, isDigit b = true)
    (ht : ∀ b ∈ t.head?, isDigit b = false) {r : Int64} (hres : 0 ≤ r.toInt)
    (pos digitCount : Nat) :
    readDigits (ds ++ t) r pos digitCount =
      if digits r.toInt ds < 2 ^ 63 then
        .ok (Int64.ofInt (digits r.toInt ds), pos + ds.length, digitCount + ds.length)
      else .error (lit "integer overflow") := by
  induction ds generalizing r pos digitCount with
  | nil =>
    have hlt : digits r.toInt [] < 2 ^ 63 := r.toInt_lt
    have hself : Int64.ofInt (digits r.toInt []) = r := Int64.ofInt_toInt r
    rw [if_pos hlt, hself]
    cases t with
    | nil => rfl
    | cons b t => simp [readDigits, ht b rfl]
  | cons b ds ih =>
    have hb := hds b List.mem_cons_self
    have hcons : digits r.toInt (b :: ds) =
        digits (r.toInt * 10 + (b - '0'.toUInt8).toNat) ds := rfl
    rw [List.cons_append, readDigits, if_pos hb, hcons]
    by_cases hover : 2 ^ 63 ≤ r.toInt * 10 + (b - '0'.toUInt8).toNat
    · have hbig := le_digits (r := r.toInt * 10 + (b - '0'.toUInt8).toNat) (by omega) ds
      rw [if_pos ((guard_iff r hb).2 hover), if_neg (by omega)]
    · obtain ⟨-, hnext⟩ := toInt_next (b := b) hres (by omega)
      rw [if_neg (fun h => hover ((guard_iff r hb).1 h)),
        ih (fun c hc => hds c (List.mem_cons_of_mem _ hc)) (by omega), hnext]
      simp [Nat.add_comm, Nat.add_left_comm]

/-- Core's loop takes exact steps to a value within `int64`. -/
theorem readDigitsExact_eq {ds : Bytes} (t : Bytes) (hds : ∀ b ∈ ds, isDigit b = true)
    {r : Int64} (hres : 0 ≤ r.toInt) (hfits : digits r.toInt ds < 2 ^ 63) (pos : Nat) :
    readDigitsExact (ds ++ '\r'.toUInt8 :: t) r pos =
      .ok (Int64.ofInt (digits r.toInt ds), pos + ds.length) := by
  induction ds generalizing r pos with
  | nil =>
    have hself : Int64.ofInt (digits r.toInt []) = r := Int64.ofInt_toInt r
    rw [hself]
    rfl
  | cons b ds ih =>
    have hb := hds b List.mem_cons_self
    have hcons : digits r.toInt (b :: ds) =
        digits (r.toInt * 10 + (b - '0'.toUInt8).toNat) ds := rfl
    have hle := le_digits (r := r.toInt * 10 + (b - '0'.toUInt8).toNat) (by omega) ds
    obtain ⟨hmul, hnext⟩ := toInt_next (b := b) hres (by omega)
    have hcr : b ≠ '\r'.toUInt8 := digit_ne hb (by decide)
    have hlow : ¬ b < '0'.toUInt8 :=
      UInt8.not_lt.2 (UInt8.le_iff_toNat_le.2 (digit_lt hb).2.1)
    rw [hcons, ← hnext] at hfits ⊢
    rw [← hmul] at hnext
    rw [List.cons_append, readDigitsExact, if_neg hcr, if_neg hlow, exactly_of_eq hmul]
    simp only [bind, Except.bind, exactly_of_eq hnext]
    rw [ih (fun c hc => hds c (List.mem_cons_of_mem _ hc)) (by omega) hfits]
    simp [Nat.add_comm, Nat.add_left_comm]

/-! ## What is accepted -/

/-- `:`, an optional sign, digits that spell a number of at most
`2^63 - 1`, CRLF, and whatever follows. -/
structure Spells (data sign ds rest : Bytes) : Prop where
  bytes : data = ':'.toUInt8 :: (sign ++ (ds ++ '\r'.toUInt8 :: '\n'.toUInt8 :: rest))
  sign : sign = [] ∨ sign = ['-'.toUInt8] ∨ sign = ['+'.toUInt8]
  nonempty : ds ≠ []
  isDigit : ∀ b ∈ ds, isDigit b = true
  fits : digits 0 ds ≤ 2 ^ 63 - 1

/-- The data start with an integer of the protocol. -/
def IsInteger (data : Bytes) : Prop := ∃ sign ds rest, Spells data sign ds rest

/-- The factor a sign stands for. -/
def factor (sign : Bytes) : Int64 := if sign = ['-'.toUInt8] then -1 else 1

theorem toInt_factor (sign : Bytes) : (factor sign).toInt = 1 ∨ (factor sign).toInt = -1 := by
  unfold factor
  split
  · exact .inr rfl
  · exact .inl rfl

theorem unterminated_eq {data : Slice} {pos : Nat} {t : Bytes} (h : data.vis.drop pos = t) :
    unterminated data pos = .ok true ∧ (∀ rest, t ≠ '\r'.toUInt8 :: '\n'.toUInt8 :: rest) ∨
      unterminated data pos = .ok false ∧ ∃ rest, t = '\r'.toUInt8 :: '\n'.toUInt8 :: rest := by
  have hlen : data.len - pos = t.length := by rw [← h, List.length_drop, Slice.vis_length]
  unfold unterminated
  match t with
  | [] =>
    simp only [List.length_nil] at hlen
    exact .inl ⟨if_pos (by omega), by simp⟩
  | [a] =>
    simp only [List.length_cons, List.length_nil] at hlen
    exact .inl ⟨if_pos (by omega), by simp⟩
  | a :: b :: rest =>
    simp only [List.length_cons] at hlen
    have hnext : data.vis.drop (pos + 1) = b :: rest := by
      rw [← List.drop_drop, h]
      rfl
    rw [if_neg (by omega), get_of_drop h, get_of_drop hnext]
    by_cases ha : a = '\r'.toUInt8
    · by_cases hb : b = '\n'.toUInt8
      · exact .inr ⟨by simp [ha, hb, bind, Except.bind], rest, by rw [ha, hb]⟩
      · exact .inl ⟨by simp [ha, hb, bind, Except.bind], by simp [hb]⟩
    · exact .inl ⟨by simp [ha, bind, Except.bind], by simp [ha]⟩

theorem readMagnitude_ok_iff {data : Slice} {sign v : Int64} {pos n : Nat} {ds t : Bytes}
    (hdata : data.vis.drop pos = ds ++ t) (hds : ∀ b ∈ ds, isDigit b = true)
    (ht : ∀ b ∈ t.head?, isDigit b = false) :
    readMagnitude data sign pos = .ok (.ok (v, n)) ↔
      ds ≠ [] ∧ digits 0 ds ≤ 2 ^ 63 - 1 ∧ (∃ rest, t = '\r'.toUInt8 :: '\n'.toUInt8 :: rest) ∧
        v = Int64.ofInt (digits 0 ds) * sign ∧ n = pos + ds.length + 2 := by
  have hloop : readDigits (ds ++ t) 0 pos 0 = _ :=
    readDigits_eq hds ht (r := 0) (le_refl _) pos 0
  have hzero : (0 : Int64).toInt = 0 := rfl
  have hend : data.vis.drop (pos + ds.length) = t := by
    rw [← List.drop_drop, hdata, List.drop_left]
  unfold readMagnitude
  rw [hdata, hloop, hzero]
  by_cases hfits : digits 0 ds < 2 ^ 63
  · rw [if_pos hfits]
    by_cases hnil : ds = []
    · simp [hnil]
    · have hle : digits 0 ds ≤ 2 ^ 63 - 1 ↔ True := iff_true_intro (by omega)
      rw [hle]
      rcases unterminated_eq hend with ⟨hbad, hno⟩ | ⟨hgood, hyes⟩
      · simp [hnil, hbad, hno, bind, Except.bind]
      · simp [hnil, hgood, hyes, bind, Except.bind, eq_comm]
  · have hbig : digits 0 ds ≤ 2 ^ 63 - 1 ↔ False := iff_false_intro (by omega)
    rw [if_neg hfits, hbig]
    simp

/-- Whatever the reader accepts begins with a colon. -/
theorem exists_of_readInt64_ok {data : Slice} {v : Int64} {n : Nat}
    (h : readInt64 data = .ok (.ok (v, n))) :
    4 ≤ data.len ∧ ∃ w, data.vis = ':'.toUInt8 :: w := by
  unfold readInt64 at h
  split at h
  · cases h
  rename_i hlen
  have hlength := data.vis_length
  match hvis : data.vis with
  | [] =>
    rw [hvis, List.length_nil] at hlength
    omega
  | a :: w =>
    have ha : data.get 0 = .ok a := get_of_drop (t := w) hvis
    rw [ha] at h
    by_cases hcolon : a = ':'.toUInt8
    · exact ⟨by omega, w, by rw [hcolon]⟩
    · simp [hcolon, bind, Except.bind] at h

/-- A sign, and behind it no second one where it is empty. -/
def Signed (sign w : Bytes) : Prop :=
  sign = [] ∧ w.head? ≠ some '-'.toUInt8 ∧ w.head? ≠ some '+'.toUInt8 ∨
    sign = ['-'.toUInt8] ∨ sign = ['+'.toUInt8]

theorem exists_signed (w : Bytes) : ∃ sign w', w = sign ++ w' ∧ Signed sign w' := by
  by_cases hminus : w.head? = some '-'.toUInt8
  · obtain ⟨w', rfl⟩ := List.head?_eq_some_iff.1 hminus
    exact ⟨['-'.toUInt8], w', rfl, .inr (.inl rfl)⟩
  · by_cases hplus : w.head? = some '+'.toUInt8
    · obtain ⟨w', rfl⟩ := List.head?_eq_some_iff.1 hplus
      exact ⟨['+'.toUInt8], w', rfl, .inr (.inr rfl)⟩
    · exact ⟨[], w, rfl, .inl ⟨rfl, hminus, hplus⟩⟩

theorem readInt64_signed {data : Slice} {sign w : Bytes}
    (hdata : data.vis = ':'.toUInt8 :: (sign ++ w)) (hlen : 4 ≤ data.len) (hsign : Signed sign w) :
    readInt64 data = readMagnitude data (factor sign) (1 + sign.length) := by
  have hcolon : data.get 0 = .ok ':'.toUInt8 := get_of_drop (t := sign ++ w) hdata
  have hlength := data.vis_length
  unfold readInt64
  rw [if_neg (by omega), hcolon]
  rcases hsign with ⟨rfl, hminus, hplus⟩ | rfl | rfl
  · cases w with
    | nil =>
      rw [hdata] at hlength
      simp at hlength
      omega
    | cons b w =>
      have hb : data.get 1 = .ok b := get_of_drop (t := w) (by rw [hdata]; rfl)
      simp only [List.head?_cons, ne_eq, Option.some.injEq] at hminus hplus
      simp [hb, hminus, hplus, factor, bind, Except.bind]
  · have hb : data.get 1 = .ok '-'.toUInt8 := get_of_drop (t := w) (by rw [hdata]; rfl)
    simp [hb, factor, bind, Except.bind]
  · have hb : data.get 1 = .ok '+'.toUInt8 := get_of_drop (t := w) (by rw [hdata]; rfl)
    have hne : '+'.toUInt8 ≠ '-'.toUInt8 := by decide
    simp [hb, hne, factor, bind, Except.bind]

section Spells

variable {data sign ds rest : Bytes} (h : Spells data sign ds rest)

include h

theorem Spells.drop_sign :
    data.drop (1 + sign.length) = ds ++ '\r'.toUInt8 :: '\n'.toUInt8 :: rest := by
  rw [h.bytes, Nat.add_comm, List.drop_succ_cons, List.drop_left]

/-- The first digit is no sign. -/
theorem Spells.exists_head : ∃ b ds', ds = b :: ds' ∧ b ≠ '-'.toUInt8 ∧ b ≠ '+'.toUInt8 := by
  obtain ⟨b, ds', rfl⟩ := List.exists_cons_of_ne_nil h.nonempty
  have hb := h.isDigit b List.mem_cons_self
  exact ⟨b, ds', rfl, digit_ne hb (by decide), digit_ne hb (by decide)⟩

theorem Spells.signed (t : Bytes) : Signed sign (ds ++ t) := by
  rcases h.sign with hsign | hsign | hsign
  · obtain ⟨b, ds', rfl, hminus, hplus⟩ := h.exists_head
    exact .inl ⟨hsign, by simpa using hminus, by simpa using hplus⟩
  · exact .inr (.inl hsign)
  · exact .inr (.inr hsign)

end Spells

/-- The checked reader returns exactly on the integers of the protocol. -/
theorem readInt64_ok_iff (data : Slice) (v : Int64) (n : Nat) :
    readInt64 data = .ok (.ok (v, n)) ↔
      ∃ sign ds rest, Spells data.vis sign ds rest ∧
        v = Int64.ofInt (digits 0 ds) * factor sign ∧ n = 1 + sign.length + ds.length + 2 := by
  constructor
  · intro h
    obtain ⟨hlen, w, hdata⟩ := exists_of_readInt64_ok h
    obtain ⟨sign, w, rfl, hsigned⟩ := exists_signed w
    rw [readInt64_signed hdata hlen hsigned] at h
    have hdrop : data.vis.drop (1 + sign.length) = w.takeWhile isDigit ++ w.dropWhile isDigit := by
      rw [List.takeWhile_append_dropWhile, hdata, Nat.add_comm, List.drop_succ_cons, List.drop_left]
    have hdigits : ∀ b ∈ w.takeWhile isDigit, isDigit b = true :=
      fun _ hb => List.mem_takeWhile_imp hb
    have hend : ∀ b ∈ (w.dropWhile isDigit).head?, isDigit b = false := by
      intro b hb
      have hhead := List.head?_dropWhile_not isDigit w
      rw [Option.mem_def.1 hb] at hhead
      simpa using hhead
    obtain ⟨hne, hfits, ⟨rest, hrest⟩, hv, hn⟩ := (readMagnitude_ok_iff hdrop hdigits hend).1 h
    refine ⟨sign, w.takeWhile isDigit, rest, ⟨?_, ?_, hne, hdigits, hfits⟩, hv, hn⟩
    · rw [hdata, ← hrest, List.takeWhile_append_dropWhile]
    · exact hsigned.imp_left And.left
  · rintro ⟨sign, ds, rest, hspells, rfl, rfl⟩
    have hlength := data.vis_length
    have hpos := List.length_pos_iff.2 hspells.nonempty
    rw [hspells.bytes] at hlength
    simp only [List.length_cons, List.length_append] at hlength
    rw [readInt64_signed hspells.bytes (by omega) (hspells.signed _)]
    refine (readMagnitude_ok_iff hspells.drop_sign hspells.isDigit ?_).2
      ⟨hspells.nonempty, hspells.fits, ⟨rest, rfl⟩, rfl, rfl⟩
    intro b hb
    cases hb
    decide

/-! ## The two readers -/

theorem Spells.readSign {data : Slice} {sign ds rest : Bytes}
    (h : Spells data.vis sign ds rest) : Core.readSign data = .ok (factor sign, 1 + sign.length) := by
  obtain ⟨b, ds, rfl, hminus, hplus⟩ := h.exists_head
  have hbytes := h.bytes
  unfold Core.readSign takeSign
  rcases h.sign with rfl | rfl | rfl
  · have hone : data.get 1 = .ok b := get_of_drop (t := ds ++ _) (by rw [hbytes]; rfl)
    simp [hone, hminus, hplus, factor, bind, Except.bind]
  · have hone : data.get 1 = .ok '-'.toUInt8 :=
      get_of_drop (t := b :: (ds ++ _)) (by rw [hbytes]; rfl)
    have htwo : data.get 2 = .ok b := get_of_drop (t := ds ++ _) (by rw [hbytes]; rfl)
    simp [hone, htwo, hplus, factor, bind, Except.bind]
  · have hone : data.get 1 = .ok '+'.toUInt8 :=
      get_of_drop (t := b :: (ds ++ _)) (by rw [hbytes]; rfl)
    have hne : '+'.toUInt8 ≠ '-'.toUInt8 := by decide
    simp [hone, hne, factor, bind, Except.bind]

/-- Core's reader takes exact steps on an integer of the protocol. -/
theorem Spells.readInt64Exact {data : Slice} {sign ds rest : Bytes}
    (h : Spells data.vis sign ds rest) :
    readInt64Exact data =
      .ok (Int64.ofInt (digits 0 ds) * factor sign, 1 + sign.length + ds.length + 2) := by
  have hnonneg : 0 ≤ digits 0 ds := le_digits (le_refl 0) ds
  have hfits := h.fits
  have hloop : readDigitsExact (data.vis.drop (1 + sign.length)) 0 (1 + sign.length) =
      .ok (Int64.ofInt (digits 0 ds), 1 + sign.length + ds.length) := by
    rw [h.drop_sign]
    exact readDigitsExact_eq _ h.isDigit (r := 0) (le_refl _) (by simpa using by omega) _
  have hvalue : (Int64.ofInt (digits 0 ds)).toInt = digits 0 ds :=
    Int64.toInt_ofInt_of_le (by omega) (by omega)
  have hfactor : (Int64.ofInt (digits 0 ds) * factor sign).toInt =
      (Int64.ofInt (digits 0 ds)).toInt * (factor sign).toInt := by
    rw [Int64.toInt_mul, hvalue]
    rcases toInt_factor sign with hone | hone
    · rw [hone]
      exact Int.bmod_eq_of_le (by omega) (by omega)
    · rw [hone]
      exact Int.bmod_eq_of_le (by omega) (by omega)
  simp only [Cmd.readInt64Exact, h.readSign, hloop, exactly_of_eq hfactor, bind, Except.bind]

/-- Where the checked reader returns a value, core's reader returns the same
in exact steps, and it returns one exactly on the integers of the protocol. -/
theorem readInt64_agrees (data : Slice) :
    (∀ v n, readInt64 data = .ok (.ok (v, n)) →
        readInt64Exact data = .ok (v, n) ∧ Core.readInt64 data = .ok (v, n)) ∧
      ((∃ v n, readInt64 data = .ok (.ok (v, n))) ↔ IsInteger data.vis) := by
  refine ⟨?_, ?_⟩
  · intro v n h
    obtain ⟨sign, ds, rest, hspells, rfl, rfl⟩ := (readInt64_ok_iff data v n).1 h
    exact ⟨hspells.readInt64Exact, readInt64_of_exact hspells.readInt64Exact⟩
  · simp [readInt64_ok_iff, IsInteger]

/-- The smallest magnitude that is too large by one is refused; one less is
read alike by both. -/
theorem readInt64_agrees_limit :
    readInt64 ⟨lit ":-9223372036854775808\r\n", 23, by decide, by decide⟩ =
        .ok (.error (lit "integer overflow")) ∧
      Core.readInt64 ⟨lit ":-9223372036854775807\r\n", 23, by decide, by decide⟩ =
        .ok (-9223372036854775807, 23) :=
  ⟨by decide +kernel, ((readInt64_agrees _).1 _ _ (by decide +kernel)).2⟩

end RediGo.Cmd
