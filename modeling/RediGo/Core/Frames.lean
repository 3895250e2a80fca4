/-
RediGo.Core.Frames — the grammar of replies, and what the encoder writes.

`Frame` is the grammar of `docs/3. Resp.md`: a simple string or an error is
one line, a bulk string and an array are announced by their length. Every
frame begins with a type byte and a header line, so no frame is the
beginning of another one (`Frame.eq_of_append_eq`): a reply that is a frame
is read as one value, whatever the client sends next.

The encoder writes a frame for every value whose errors, and whose string if
it is to be simple, are one line (`Safe`, `frame_encode`). It writes lengths
as `int`, so the bytes it writes must fit in a slice.
-/
import RediGo.Core.RespRoundTrip

namespace RediGo.Core

open RediGo.Go

/-! ## The grammar -/

/-- No CR and no LF. -/
def OneLine (s : Bytes) : Prop := '\r'.toUInt8 ∉ s ∧ '\n'.toUInt8 ∉ s

instance (s : Bytes) : Decidable (OneLine s) :=
  inferInstanceAs (Decidable (_ ∧ _))

theorem oneLine_append {s t : Bytes} : OneLine (s ++ t) ↔ OneLine s ∧ OneLine t := by
  simp only [OneLine, List.mem_append]
  tauto

/-- One RESP value. -/
inductive Frame : Bytes → Prop where
  | simple {s : Bytes} (h : OneLine s) : Frame (lit "+" ++ (s ++ CRLF))
  | error {s : Bytes} (h : OneLine s) : Frame (lit "-" ++ (s ++ CRLF))
  | int (n : Int64) : Frame (lit ":" ++ (formatInt n ++ CRLF))
  | bulk (s : Bytes) : Frame (lit "$" ++ (decimal s.length ++ (CRLF ++ (s ++ CRLF))))
  | null : Frame (lit "$" ++ (lit "-1" ++ CRLF))
  | array (fs : List Bytes) (h : ∀ f ∈ fs, Frame f) :
      Frame (lit "*" ++ (decimal fs.length ++ (CRLF ++ fs.flatten)))

/-! ## Frames are read in one way -/

theorem cr_notMem_decimal (n : Nat) : '\r'.toUInt8 ∉ decimal n := fun h =>
  absurd (isDigit_of_mem_decimal n _ h) (by decide)

theorem cr_notMem_formatInt (n : Int64) : '\r'.toUInt8 ∉ formatInt n :=
  (line_formatInt n []).1

theorem decimal_inj {m n : Nat} (h : decimal m = decimal n) : m = n := by
  have hdigits := congrArg (digits 0) h
  rw [digits_decimal, digits_decimal] at hdigits
  exact Int.ofNat.inj hdigits

theorem decimal_ne_minusOne (n : Nat) : decimal n ≠ lit "-1" := by
  intro h
  have hminus : '-'.toUInt8 ∈ decimal n := by
    rw [h]
    decide
  exact absurd (isDigit_of_mem_decimal n _ hminus) (by decide)

/-- A line ends at its first CR. -/
theorem line_inj {s t x y : Bytes} (hs : '\r'.toUInt8 ∉ s) (ht : '\r'.toUInt8 ∉ t)
    (h : s ++ (CRLF ++ x) = t ++ (CRLF ++ y)) : s = t ∧ x = y := by
  have hcrlf : ∀ z, CRLF ++ z = '\r'.toUInt8 :: '\n'.toUInt8 :: z := fun _ => rfl
  simp only [hcrlf] at h
  induction s generalizing t with
  | nil =>
    cases t with
    | nil => simpa using h
    | cons b t =>
      have hb : '\r'.toUInt8 = b := (List.cons.inj h).1
      exact absurd (by simp [hb]) ht
  | cons a s ih =>
    cases t with
    | nil =>
      have ha : a = '\r'.toUInt8 := (List.cons.inj h).1
      exact absurd (by simp [ha]) hs
    | cons b t =>
      obtain ⟨rfl, hrest⟩ := List.cons.inj h
      obtain ⟨rfl, hxy⟩ := ih (fun hm => hs (List.mem_cons_of_mem a hm))
        (fun hm => ht (List.mem_cons_of_mem a hm)) hrest
      exact ⟨rfl, hxy⟩

inductive Kind where
  | simple
  | error
  | int
  | bulk
  | array
  deriving DecidableEq

def Kind.byte : Kind → UInt8
  | .simple => '+'.toUInt8
  | .error => '-'.toUInt8
  | .int => ':'.toUInt8
  | .bulk => '$'.toUInt8
  | .array => '*'.toUInt8

theorem Kind.byte_inj {k k' : Kind} (h : k.byte = k'.byte) : k = k' := by
  revert h
  cases k <;> cases k' <;> decide

/-- The header line and the rest of a frame of each kind. -/
inductive Headed : Kind → Bytes → Bytes → Prop where
  | simple {s : Bytes} (h : OneLine s) : Headed .simple s []
  | error {s : Bytes} (h : OneLine s) : Headed .error s []
  | int (n : Int64) : Headed .int (formatInt n) []
  | bulk (s : Bytes) : Headed .bulk (decimal s.length) (s ++ CRLF)
  | null : Headed .bulk (lit "-1") []
  | array (fs : List Bytes) (h : ∀ f ∈ fs, Frame f) :
      Headed .array (decimal fs.length) fs.flatten

theorem Headed.cr_notMem {k : Kind} {hdr body : Bytes} (h : Headed k hdr body) :
    '\r'.toUInt8 ∉ hdr := by
  cases h with
  | simple h | error h => exact h.1
  | int n => exact cr_notMem_formatInt n
  | bulk | array => exact cr_notMem_decimal _
  | null => decide

theorem Frame.headed {f : Bytes} (h : Frame f) :
    ∃ k hdr body, f = k.byte :: (hdr ++ (CRLF ++ body)) ∧ Headed k hdr body := by
  cases h with
  | simple h => exact ⟨.simple, _, _, rfl, .simple h⟩
  | error h => exact ⟨.error, _, _, rfl, .error h⟩
  | int n => exact ⟨.int, _, _, rfl, .int n⟩
  | bulk s => exact ⟨.bulk, _, _, rfl, .bulk s⟩
  | null => exact ⟨.bulk, _, _, rfl, .null⟩
  | array fs h => exact ⟨.array, _, _, rfl, .array fs h⟩

/-- Two frames at the beginning of one text have the same header. -/
theorem Frame.header_eq {hdr g x y : Bytes} (hg : Frame g) (k : Kind) (body : Bytes)
    (hhdr : '\r'.toUInt8 ∉ hdr) (h : k.byte :: (hdr ++ (CRLF ++ body)) ++ x = g ++ y) :
    ∃ body', g = k.byte :: (hdr ++ (CRLF ++ body')) ∧ Headed k hdr body' ∧
      body ++ x = body' ++ y := by
  obtain ⟨k', hdr', body', rfl, hheaded⟩ := hg.headed
  simp only [List.cons_append, List.append_assoc, List.cons.injEq] at h
  obtain ⟨hbyte, hline⟩ := h
  obtain rfl := Kind.byte_inj hbyte
  obtain ⟨rfl, hrest⟩ := line_inj hhdr hheaded.cr_notMem hline
  exact ⟨body', rfl, hheaded, hrest⟩

/-- No frame is the beginning of another one. -/
theorem Frame.eq_of_append_eq {f g x y : Bytes} (hf : Frame f) (hg : Frame g)
    (h : f ++ x = g ++ y) : f = g := by
  induction hf generalizing g x y with
  | simple hs =>
    obtain ⟨body', rfl, hheaded, _⟩ := hg.header_eq .simple [] hs.1 h
    cases hheaded
    rfl
  | error hs =>
    obtain ⟨body', rfl, hheaded, _⟩ := hg.header_eq .error [] hs.1 h
    cases hheaded
    rfl
  | int n =>
    obtain ⟨body', rfl, hheaded, _⟩ :=
      hg.header_eq .int [] (cr_notMem_formatInt n) h
    generalize formatInt n = hdr at hheaded
    cases hheaded
    rfl
  | null =>
    obtain ⟨body', rfl, hheaded, _⟩ := hg.header_eq .bulk [] (by decide) h
    generalize hhdr : lit "-1" = hdr at hheaded
    cases hheaded with
    | bulk s => exact absurd hhdr.symm (decimal_ne_minusOne _)
    | null => rfl
  | bulk s =>
    obtain ⟨body', rfl, hheaded, hrest⟩ :=
      hg.header_eq .bulk (s ++ CRLF) (cr_notMem_decimal _) h
    generalize hhdr : decimal s.length = hdr at hheaded
    cases hheaded with
    | bulk t =>
      simp only [List.append_assoc] at hrest
      obtain ⟨rfl, _⟩ := List.append_inj hrest (decimal_inj hhdr)
      rfl
    | null => exact absurd hhdr (decimal_ne_minusOne _)
  | array fs hfs ih =>
    obtain ⟨body', rfl, hheaded, hrest⟩ :=
      hg.header_eq .array fs.flatten (cr_notMem_decimal _) h
    generalize hhdr : decimal fs.length = hdr at hheaded
    cases hheaded with
    | array gs hgs =>
      have hlen := decimal_inj hhdr
      have hall : fs = gs := by
        clear h hg hhdr hfs
        induction fs generalizing gs with
        | nil => exact (List.eq_nil_of_length_eq_zero hlen.symm).symm
        | cons f fs ihfs =>
          cases gs with
          | nil => simp at hlen
          | cons g gs =>
            simp only [List.flatten_cons, List.append_assoc] at hrest
            obtain rfl := ih f List.mem_cons_self (hgs g List.mem_cons_self) hrest
            congr 1
            exact ihfs (fun f' hf' => ih f' (List.mem_cons_of_mem _ hf')) gs
              (fun g' hg' => hgs g' (List.mem_cons_of_mem _ hg'))
              (List.append_cancel_left hrest) (by simpa using hlen)
      rw [hall]
      rfl

/-! ## What the encoder writes -/

/-- The values whose lines are one line each. -/
inductive Safe : GoValue → Bool → Prop where
  | str (s : Bytes) : Safe (.str s) false
  | simple {s : Bytes} (h : OneLine s) : Safe (.str s) true
  | int (n : Int64) (b : Bool) : Safe (.int n) b
  | error {text : Bytes} (h : OneLine text) (b : Bool) : Safe (.error text) b
  | strs (sa : List Bytes) (b : Bool) : Safe (.strs sa) b
  | strs2 (saa : List (List Bytes)) (b : Bool) : Safe (.strs2 saa) b
  | anys {l : List GoValue} (h : ∀ x ∈ l, Safe x false) (b : Bool) : Safe (.anys l) b
  | other (b : Bool) : Safe .other b

theorem formatLen_eq {α : Type} {l : List α} (h : l.length < 2 ^ 63) :
    formatLen l = decimal l.length := by
  have hint : (Int64.ofNat l.length).toInt = l.length := Int64.toInt_ofNat_of_lt h
  rw [formatLen, formatInt, hint, if_neg (by omega), Int.natAbs_natCast]

theorem frame_encodeString {s : Bytes} (h : (encodeString s).length < 2 ^ 63) :
    Frame (encodeString s) := by
  rw [length_encodeString] at h
  rw [encodeString, formatLen_eq (by omega)]
  simp only [List.append_assoc]
  exact .bulk s

theorem Frame.ne_nil {f : Bytes} (h : Frame f) : f ≠ [] := by
  obtain ⟨k, hdr, body, rfl, _⟩ := h.headed
  exact List.cons_ne_nil _ _

theorem length_le_length_flatMap {α : Type} {f : α → Bytes} {l : List α}
    (h : ∀ x ∈ l, f x ≠ []) : l.length ≤ (l.flatMap f).length := by
  induction l with
  | nil => exact Nat.le_refl 0
  | cons x l ih =>
    have hx : 0 < (f x).length := List.length_pos_of_ne_nil (h x List.mem_cons_self)
    have hl := ih fun y hy => h y (List.mem_cons_of_mem x hy)
    rw [List.length_cons, List.flatMap_cons, List.length_append]
    omega

/-- An array whose parts are frames, with the header the encoder writes. -/
theorem frame_array {α : Type} (f : α → Bytes) (l : List α)
    (hlen : (lit "*" ++ formatLen l ++ lit "\r\n" ++ l.flatMap f).length < 2 ^ 63)
    (h : ∀ x ∈ l, (f x).length < 2 ^ 63 → Frame (f x)) :
    Frame (lit "*" ++ formatLen l ++ lit "\r\n" ++ l.flatMap f) := by
  simp only [List.length_append] at hlen
  have hparts : ∀ x ∈ l, Frame (f x) := by
    intro x hx
    have hle := (List.sublist_flatten_of_mem (List.mem_map_of_mem (f := f) hx)).length_le
    rw [← List.flatMap_def] at hle
    exact h x hx (by omega)
  have hcount := length_le_length_flatMap fun x hx => (hparts x hx).ne_nil
  have hframe := Frame.array (l.map f) (List.forall_mem_map.mpr hparts)
  rw [List.length_map, ← List.flatMap_def] at hframe
  rw [formatLen_eq (by omega)]
  simp only [List.append_assoc]
  exact hframe

theorem frame_encodeStringArray {sa : List Bytes} (h : (encodeStringArray sa).length < 2 ^ 63) :
    Frame (encodeStringArray sa) :=
  frame_array encodeString sa h fun _ _ hs => frame_encodeString hs

theorem frame_encode {v : GoValue} {b : Bool} (hsafe : Safe v b)
    (hlen : (encode v b).length < 2 ^ 63) : Frame (encode v b) := by
  induction hsafe with
  | str s =>
    rw [encode] at hlen ⊢
    exact frame_encodeString hlen
  | simple h =>
    rw [encode, if_pos rfl, List.append_assoc]
    exact .simple h
  | int n b =>
    rw [encode, List.append_assoc]
    exact .int n
  | error h b =>
    rw [encode, List.append_assoc]
    exact .error h
  | strs sa b =>
    rw [encode] at hlen ⊢
    exact frame_encodeStringArray hlen
  | strs2 saa b =>
    rw [encode] at hlen ⊢
    exact frame_array encodeStringArray saa hlen fun _ _ hsa => frame_encodeStringArray hsa
  | anys h b ih =>
    rw [encode, encodeElems_eq] at hlen ⊢
    exact frame_array (fun x => encode x false) _ hlen ih
  | other b =>
    rw [encode]
    exact .null

/-- An error is a frame if and only if its text is one line. -/
theorem frame_error_iff {text : Bytes} {b : Bool} :
    Frame (encode (.error text) b) ↔ OneLine text := by
  rw [encode, List.append_assoc]
  constructor
  · intro h
    obtain ⟨k, hdr, body, heq, hheaded⟩ := h.headed
    obtain ⟨hbyte, hline⟩ := List.cons.inj heq
    obtain rfl : k = .error := Kind.byte_inj hbyte.symm
    cases hheaded with
    | error hs =>
      have htext : text = hdr := List.append_cancel_right (hline.trans (by rw [List.append_nil]; rfl))
      rwa [htext]
  · exact .error

end RediGo.Core
