/-
RediGo.Core.DecoderSoundness — when what the decoder returns is what the
bytes mean.

`Denotes` is the grammar of `docs/3. Resp.md` as a client may write it: a
number has an optional sign and may have leading zeros, and stays within
`int64`; every header and every payload ends with CRLF; an array has as many
elements as it announces. A null is a frame too, but what it denotes is
neither a string, an integer nor a list, so no value of the decoder.

A frame at the beginning of the data is read as what it denotes, and exactly
its bytes are consumed (`faithful_decodeFuel`). Everything else the decoder
returns a value for is an error it does not see: a byte that is no digit, a
second sign, a number that wraps around, a CR without its LF, a payload
without its CRLF, an unknown prefix byte, a null. So the decoder is sound on
the data that begin with a frame and on those it returns no value for
(`decoder_sound_iff`).
-/
import RediGo.Core.Frames
import RediGo.Core.RespInversion

namespace RediGo.Core

open RediGo.Go

/-! ## The grammar -/

/-- What a frame means. -/
inductive Datum where
  | null
  | str (s : Bytes)
  | int (n : Int64)
  | arr (l : List Datum)

/-- What a value of the decoder means. -/
def Value.datum : Value → Datum
  | .str s => .str s
  | .int n => .int n
  | .arr l => .arr (l.map datum)

/-- An optional single sign and at least one digit, which spell a number
within `int64`. -/
structure Spelling (hdr sign ds : Bytes) (n : Int) : Prop where
  bytes : hdr = sign ++ ds
  signed : sign = [] ∨ sign = ['-'.toUInt8] ∨ sign = ['+'.toUInt8]
  nonempty : ds ≠ []
  isDigit : ∀ b ∈ ds, 48 ≤ b ∧ b ≤ 57
  value : n = digits 0 ds * if sign = ['-'.toUInt8] then -1 else 1
  fits : -2 ^ 63 ≤ n ∧ n < 2 ^ 63

def IsNumeral (hdr : Bytes) (n : Int) : Prop := ∃ sign ds, Spelling hdr sign ds n

/-- The bytes are one frame, and this is what it means. -/
inductive Denotes : Bytes → Datum → Prop where
  | simple {s : Bytes} (h : OneLine s) : Denotes ('+'.toUInt8 :: (s ++ CRLF)) (.str s)
  | error {s : Bytes} (h : OneLine s) : Denotes ('-'.toUInt8 :: (s ++ CRLF)) (.str s)
  | int {hdr : Bytes} {n : Int64} (h : IsNumeral hdr n.toInt) :
    Denotes (':'.toUInt8 :: (hdr ++ CRLF)) (.int n)
  | bulk {hdr s : Bytes} (h : IsNumeral hdr s.length) :
    Denotes ('$'.toUInt8 :: (hdr ++ (CRLF ++ (s ++ CRLF)))) (.str s)
  | null : Denotes (lit "$-1\r\n") .null
  | nullArray : Denotes (lit "*-1\r\n") .null
  | array {hdr : Bytes} {l : List (Bytes × Datum)} (h : IsNumeral hdr l.length)
    (hl : ∀ f ∈ l, Denotes f.1 f.2) :
    Denotes ('*'.toUInt8 :: (hdr ++ (CRLF ++ (l.map Prod.fst).flatten))) (.arr (l.map Prod.snd))

theorem Denotes.length_pos {b : Bytes} {x : Datum} (h : Denotes b x) : 1 ≤ b.length := by
  cases h with
  | null | nullArray => decide
  | _ => simp

/-! ## Numbers -/

theorem stripSign_digits {c : UInt8} (hc : ¬ (48 ≤ c ∧ c ≤ 57)) (s sign : Int) {ds : Bytes}
    (hds : ∀ b ∈ ds, 48 ≤ b ∧ b ≤ 57) : stripSign c s (sign, ds) = (sign, ds) := by
  unfold stripSign
  rw [if_neg]
  intro h
  exact hc (hds c (List.mem_of_mem_head? h))

theorem Spelling.signOf_eq {hdr sign ds : Bytes} {n : Int} (h : Spelling hdr sign ds n) :
    signOf hdr = (if sign = ['-'.toUInt8] then -1 else 1, ds) := by
  rw [h.bytes, signOf]
  rcases h.signed with hs | hs | hs
  · rw [hs, List.nil_append, stripSign_digits (by decide) _ _ h.isDigit,
      stripSign_digits (by decide) _ _ h.isDigit]
    rfl
  · have hminus : stripSign '-'.toUInt8 (-1) (1, sign ++ ds) = (-1, ds) := by
      rw [hs]
      rfl
    rw [hminus, stripSign_digits (by decide) _ _ h.isDigit, if_pos hs]
  · rw [hs]
    rfl

theorem IsNumeral.mem {hdr : Bytes} {n : Int} (h : IsNumeral hdr n) {b : UInt8} (hb : b ∈ hdr) :
    b = '-'.toUInt8 ∨ b = '+'.toUInt8 ∨ 48 ≤ b ∧ b ≤ 57 := by
  obtain ⟨sign, ds, h⟩ := h
  rw [h.bytes, List.mem_append] at hb
  rcases hb with hb | hb
  · rcases h.signed with hs | hs | hs <;> rw [hs] at hb <;> simp at hb <;> simp [hb]
  · exact .inr (.inr (h.isDigit b hb))

/-- The readers compute the number a header spells. -/
theorem IsNumeral.line {hdr : Bytes} {n : Int} (h : IsNumeral hdr n) (t : Bytes) :
    Line hdr (hdr ++ (CRLF ++ t)) ∧ (lineValue hdr).toInt = n := by
  refine ⟨⟨fun hcr => absurd (h.mem hcr) (by decide), '\n'.toUInt8 :: t, rfl⟩, ?_⟩
  obtain ⟨sign, ds, h⟩ := h
  have hvalue := h.value
  obtain ⟨hlo, hhi⟩ := h.fits
  rw [lineValue, numeral, h.signOf_eq, ← hvalue]
  exact Int64.toInt_ofInt_of_le hlo hhi

theorem OneLine.line {s : Bytes} (h : OneLine s) (t : Bytes) : Line s (s ++ (CRLF ++ t)) :=
  ⟨h.1, '\n'.toUInt8 :: t, rfl⟩

/-! ## Frames are read as what they denote -/

theorem datum_eq_str {v : Value} {s : Bytes} : v.datum = .str s ↔ v = .str s := by
  cases v <;> simp [Value.datum]

theorem datum_eq_int {v : Value} {n : Int64} : v.datum = .int n ↔ v = .int n := by
  cases v <;> simp [Value.datum]

theorem datum_eq_arr {v : Value} {l : List Datum} :
    v.datum = .arr l ↔ ∃ vs, v = .arr vs ∧ vs.map Value.datum = l := by
  cases v <;> simp [Value.datum]

theorem datum_ne_null (v : Value) : v.datum ≠ .null := by
  cases v <;> simp [Value.datum]

/-- A value that is returned for data that begin with a frame is what the
frame denotes, and its bytes are consumed. -/
def Faithful (dec : Decoder) : Prop :=
  ∀ (d : Slice) (b rest : Bytes) (v v' : Value) (n : Nat), d.vis = b ++ rest →
    Denotes b v.datum → dec d = .ok (.ok (v', n)) → v' = v ∧ n = b.length

theorem Faithful.readElems {dec : Decoder} (hdec : Faithful dec) {d : Slice}
    {l : List (Bytes × Datum)} (hl : ∀ f ∈ l, Denotes f.1 f.2) {vs vs' : List Value}
    (hvs : vs.map Value.datum = l.map Prod.snd) {pos e : Nat} {rest : Bytes}
    (hd : d.vis.drop pos = (l.map Prod.fst).flatten ++ rest)
    (h : readElems dec d l.length pos = .ok (.ok (vs', e))) :
    vs' = vs ∧ e = pos + (l.map Prod.fst).flatten.length := by
  induction l generalizing pos vs vs' with
  | nil =>
    cases h
    obtain rfl : vs = [] := List.map_eq_nil_iff.1 hvs
    exact ⟨rfl, rfl⟩
  | cons f l ih =>
    obtain ⟨v, vs, rfl, hv, htail⟩ := List.map_eq_cons_iff.1 hvs
    obtain ⟨hle, v', n, vs', hval, hrest, rfl⟩ := readElems_succ_iff.1 h
    rw [List.map_cons, List.flatten_cons, List.append_assoc] at hd
    obtain ⟨rfl, rfl⟩ := hdec _ f.1 _ v v' n ((d.suffix_vis pos hle).trans hd)
      (hv ▸ hl f List.mem_cons_self) hval
    have hd' : d.vis.drop (pos + f.1.length) = (l.map Prod.fst).flatten ++ rest := by
      rw [← List.drop_drop, hd, List.drop_left]
    obtain ⟨rfl, rfl⟩ := ih (fun g hg => hl g (List.mem_cons_of_mem f hg)) htail hd' hrest
    exact ⟨rfl, by rw [List.map_cons, List.flatten_cons, List.length_append, Nat.add_assoc]⟩

theorem Faithful.decodeWith {dec : Decoder} (hdec : Faithful dec) : Faithful (decodeWith dec) := by
  intro d b rest v v' n hd hden hval
  generalize hx : v.datum = x at hden
  cases hden with
  | simple h | error h =>
    rename_i s
    obtain rfl := datum_eq_str.1 hx
    rw [List.cons_append, List.append_assoc] at hd
    rw [decodeWith_line dec hd (by decide) (h.line rest)] at hval
    cases hval
    exact ⟨rfl, by rw [List.length_cons, List.length_append]; rfl⟩
  | int h =>
    obtain rfl := datum_eq_int.1 hx
    rw [List.cons_append, List.append_assoc] at hd
    obtain ⟨hline, hvalue⟩ := h.line rest
    rw [decodeWith_int dec hd hline, Int64.toInt_inj.1 hvalue] at hval
    cases hval
    exact ⟨rfl, by rw [List.length_cons, List.length_append]; rfl⟩
  | bulk h =>
    rename_i hdr s
    obtain rfl := datum_eq_str.1 hx
    simp only [List.cons_append, List.append_assoc] at hd
    obtain ⟨hline, hvalue⟩ := h.line (s ++ (CRLF ++ rest))
    rw [decodeWith_bulk dec hd hline (lineValue_ne_of_toInt hvalue), hvalue, Int.toNat_natCast,
      take_payload hd] at hval
    split at hval
    · cases hval
      refine ⟨rfl, ?_⟩
      simp only [List.length_cons, List.length_append]
      show _ = hdr.length + (2 + (s.length + 2)) + 1
      omega
    · cases hval
  | null => exact absurd hx (datum_ne_null v)
  | nullArray => exact absurd hx (datum_ne_null v)
  | array h hl =>
    rename_i hdr l
    obtain ⟨vs, rfl, hvs⟩ := datum_eq_arr.1 hx
    simp only [List.cons_append, List.append_assoc] at hd
    obtain ⟨hline, hvalue⟩ := h.line ((l.map Prod.fst).flatten ++ rest)
    obtain ⟨-, vs', rfl, helems⟩ := (decodeWith_array_iff hd hline hvalue).1 hval
    obtain ⟨rfl, rfl⟩ := hdec.readElems hl hvs (drop_header hd) helems
    refine ⟨rfl, ?_⟩
    simp only [List.length_cons, List.length_append]
    show _ = hdr.length + (2 + _) + 1
    omega

theorem faithful_decodeFuel (fuel : Nat) : Faithful (decodeFuel fuel) := by
  induction fuel with
  | zero =>
    intro d b rest v v' n _ _ hval
    cases hval
  | succ fuel ih => exact ih.decodeWith

/-! ## Soundness -/

/-- A value the decoder returns comes from a frame at the beginning of the
data, of the length it reports, that denotes the value. -/
def SoundOn (d : Slice) : Prop :=
  ∀ v n, decodeOne d = .ok (.ok (v, n)) → 1 ≤ n ∧ n ≤ d.len ∧ Denotes (d.vis.take n) v.datum

/-- The data begin with a frame of a value, or no value can be read from them
at all. -/
def Conforms (data : Bytes) : Prop :=
  (∃ b rest v, data = b ++ rest ∧ Denotes b (Value.datum v)) ∨ ∀ n, ¬ Readable data (some n)

/-- The decoder is sound on exactly these data. -/
theorem decoder_sound_iff (d : Slice) (ht : Tight d) : SoundOn d ↔ Conforms d.vis := by
  constructor
  · intro h
    by_cases hread : ∃ n, Readable d.vis (some n)
    · obtain ⟨n, hread⟩ := hread
      obtain ⟨o, hval, hend⟩ := reads_decodeFuel _ d _ (Nat.lt_succ_self _) hread
      cases o with
      | error err => cases hend
      | ok r =>
        obtain ⟨-, -, hden⟩ := h r.1 r.2 hval
        exact .inl ⟨_, d.vis.drop r.2, r.1, (List.take_append_drop r.2 d.vis).symm, hden⟩
    · exact .inr (not_exists.1 hread)
  · rintro (⟨b, rest, v, hd, hden⟩ | hnone) v' n hval
    · obtain ⟨rfl, rfl⟩ := faithful_decodeFuel _ d b rest v v' n hd hden hval
      have hlen := congrArg List.length hd
      rw [d.vis_length, List.length_append] at hlen
      refine ⟨hden.length_pos, by omega, ?_⟩
      rwa [hd, List.take_left]
    · exact absurd (refuses_decodeFuel _ d _ (Nat.lt_succ_self _) ht hval) (hnone n)

/-- `["a"]`, with `+01` for the length of the string -/
def signedLength : Slice := ⟨lit "*1\r\n$+01\r\na\r\n", 13, by decide, by decide⟩

theorem decoder_sound_signed : SoundOn signedLength := by
  have hone : IsNumeral (lit "1") 1 :=
    ⟨[], lit "1", rfl, .inl rfl, by decide, by decide +kernel, by decide, by decide, by decide⟩
  have hsigned : IsNumeral (lit "+01") 1 :=
    ⟨lit "+", lit "01", rfl, .inr (.inr rfl), by decide, by decide +kernel, by decide, by decide,
      by decide⟩
  have hbulk : Denotes (lit "$+01\r\na\r\n") (.str (lit "a")) := .bulk (s := lit "a") hsigned
  have harray : Denotes (lit "*1\r\n$+01\r\na\r\n") (.arr [.str (lit "a")]) :=
    .array (l := [(lit "$+01\r\na\r\n", .str (lit "a"))]) hone (by simpa using hbulk)
  refine (decoder_sound_iff signedLength rfl).2
    (.inl ⟨lit "*1\r\n$+01\r\na\r\n", [], .arr [.str (lit "a")], rfl, ?_⟩)
  simpa [Value.datum] using harray

def letterDigit : Slice := ⟨lit ":1x\r\n", 5, by decide, by decide⟩

def unknownByte : Slice := ⟨lit "?", 1, by decide, by decide⟩

/-- A letter is taken for a digit, and an unknown byte for a value of no
bytes. -/
theorem decoder_accepts_garbage : ¬ SoundOn letterDigit ∧ ¬ SoundOn unknownByte := by
  refine ⟨fun h => ?_, fun h => ?_⟩
  · obtain ⟨-, -, hden⟩ := h (.int 82) 5 rfl
    rw [Value.datum] at hden
    generalize hb : letterDigit.vis.take 5 = b at hden
    cases hden with
    | int h =>
      rename_i hdr
      have hhdr : hdr = lit "1x" :=
        (List.append_inj' (show lit "1x" ++ CRLF = hdr ++ CRLF from (List.cons.inj hb).2) rfl).1.symm
      rw [hhdr] at h
      exact absurd (h.mem (show 'x'.toUInt8 ∈ lit "1x" by decide)) (by decide)
  · exact absurd (h _ 0 rfl).1 (by decide)

end RediGo.Core
