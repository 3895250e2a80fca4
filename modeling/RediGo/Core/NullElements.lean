/-
RediGo.Core.NullElements — what a null does to the elements behind it.

A null is written in five bytes, and the decoder takes it for seven. The next
element is then read from its third byte on, which is a digit or a carriage
return. That is no prefix byte, so the decoder returns the text `unknown
prefix: …` with nothing consumed, and stays there for all elements that are
still to come, also those of the lists around it.

An encoding is the encodings of its tokens in preorder, where a list counts as
its header (`encode_eq`). So the place of the first null is a place in the list
of tokens, and what follows must be read as the text of the byte at which the
decoder is stuck. There is one string which is read as itself there: its length
is 17, so that its third byte is `7`, and it is `unknown prefix: 7`
(`header_third`). `nulls_undisturbed_iff` says that nothing else goes well.
-/
import RediGo.Core.RespInversion
import RediGo.Core.RespRoundTrip

namespace RediGo.Core

open RediGo.Go

/-! ## Tokens -/

/-- Nested lists of strings, integers and nils. No slice has more than
`maxElems` elements of 16 bytes. -/
def GoValue.Nested : GoValue → Prop
  | .str _ => True
  | .int _ => True
  | .anys l => l.length ≤ maxElems ∧ ∀ x ∈ l, x.Nested
  | .other => True
  | _ => False

/-- A value and all its elements, the list before its elements. -/
def GoValue.preorder : GoValue → List GoValue
  | .anys l => .anys l :: l.flatMap preorder
  | x => [x]

/-- What the encoder writes for a value before it comes to its elements. -/
def header : GoValue → Bytes
  | .anys l => lit "*" ++ formatLen l ++ lit "\r\n"
  | x => encode x false

theorem encode_eq : ∀ v : GoValue, encode v false = v.preorder.flatMap header
  | .anys l => by
    have hl : ∀ x ∈ l, encode x false = x.preorder.flatMap header := fun x _ => encode_eq x
    rw [encode, encodeElems_eq, GoValue.preorder, List.flatMap_cons, header, List.flatMap_assoc,
      List.flatMap_congr hl]
  | .str _ | .int _ | .error _ | .strs _ | .strs2 _ | .other => by
    simp [GoValue.preorder, header]

theorem preorder_head (v : GoValue) : ∃ t, v.preorder = v :: t := by
  cases v <;> simp [GoValue.preorder]

theorem nested_of_mem_preorder : ∀ {v : GoValue}, v.Nested → ∀ y ∈ v.preorder, y.Nested
  | .anys l, hv, y, hy => by
    rw [GoValue.preorder, List.mem_cons, List.mem_flatMap] at hy
    rcases hy with rfl | ⟨x, hx, hy⟩
    · exact hv
    · rw [GoValue.Nested] at hv
      exact nested_of_mem_preorder (hv.2 x hx) y hy
  | .str _, hv, y, hy | .int _, hv, y, hy | .error _, hv, y, hy | .strs _, hv, y, hy
  | .strs2 _, hv, y, hy | .other, hv, y, hy => by
    simp only [GoValue.preorder, List.mem_singleton] at hy
    rwa [hy]

theorem plain_of_notMem : ∀ {v : GoValue}, v.Nested → .other ∉ v.preorder → v.Plain
  | .anys l, hv, h => by
    rw [GoValue.Nested] at hv
    rw [GoValue.preorder, List.mem_cons, List.mem_flatMap, not_or, not_exists] at h
    rw [GoValue.Plain]
    exact ⟨hv.1, fun x hx => plain_of_notMem (hv.2 x hx) fun hmem => h.2 x ⟨hx, hmem⟩⟩
  | .str _, _, _ | .int _, _, _ => by simp [GoValue.Plain]
  | .error _, hv, _ | .strs _, hv, _ | .strs2 _, hv, _ => by simp [GoValue.Nested] at hv
  | .other, _, h => by simp [GoValue.preorder] at h

/-! ## The third byte -/

theorem decimal_ne_nil (n : Nat) : decimal n ≠ [] := by
  by_cases h : n < 10
  · simp [decimal_of_lt h]
  · simp [decimal_of_le (Nat.le_of_not_lt h)]

/-- A printed number has digits behind its first byte. -/
theorem formatInt_cons (n : Int64) :
    ∃ b ds, formatInt n = b :: ds ∧ ∀ c ∈ ds, 48 ≤ c ∧ c ≤ 57 := by
  unfold formatInt
  split
  · exact ⟨'-'.toUInt8, decimal n.toInt.natAbs, rfl, isDigit_of_mem_decimal _⟩
  · cases h : decimal n.toInt.natAbs with
    | nil => exact absurd h (decimal_ne_nil _)
    | cons b ds =>
      refine ⟨b, ds, rfl, fun c hc => isDigit_of_mem_decimal n.toInt.natAbs c ?_⟩
      rw [h]
      exact List.mem_cons_of_mem b hc

/-- The third byte of a header with a printed number. -/
theorem third_formatInt (a : UInt8) (n : Int64) (t : Bytes) :
    ∃ b c t', a :: (formatInt n ++ (lit "\r\n" ++ t)) = a :: b :: c :: t' ∧
      (c = '\r'.toUInt8 ∨ 48 ≤ c ∧ c ≤ 57) := by
  obtain ⟨b, ds, hn, hds⟩ := formatInt_cons n
  rw [hn]
  cases ds with
  | nil => exact ⟨b, '\r'.toUInt8, '\n'.toUInt8 :: t, rfl, .inl rfl⟩
  | cons c ds => exact ⟨b, c, ds ++ (lit "\r\n" ++ t), rfl, .inr (hds c List.mem_cons_self)⟩

/-- The text the decoder returns for a byte that is no prefix byte. -/
def unknownText (c : UInt8) : Bytes := lit "unknown prefix: " ++ encodeRune c.toNat

/-- The one string that is read as itself from its third byte on. -/
def stuck : Bytes := lit "unknown prefix: 7"

theorem unknownText_seven : unknownText '7'.toUInt8 = stuck := by decide

/-- Such a byte is no prefix byte, and its text has 17 bytes. -/
theorem third_cases {c : UInt8} (h : c = '\r'.toUInt8 ∨ 48 ≤ c ∧ c ≤ 57) :
    c ∉ prefixes ∧ (unknownText c).length = 17 := by
  have hall : ∀ n : Fin 256, UInt8.ofNat n = '\r'.toUInt8 ∨
      48 ≤ UInt8.ofNat n ∧ UInt8.ofNat n ≤ 57 →
      UInt8.ofNat n ∉ prefixes ∧ (unknownText (UInt8.ofNat n)).length = 17 := by decide +kernel
  have hc := hall ⟨c.toNat, c.toNat_lt⟩
  rw [show UInt8.ofNat (Fin.val ⟨c.toNat, c.toNat_lt⟩) = c from UInt8.ofNat_toNat] at hc
  exact hc h

theorem header_str (s : Bytes) :
    header (.str s) = '$'.toUInt8 :: (formatLen s ++ (lit "\r\n" ++ (s ++ lit "\r\n"))) := by
  simp only [header, encode, CRLF]
  simp only [List.append_assoc]
  rfl

/-- A value is read as itself from the third byte of its header on only if it
is the string for that. -/
theorem header_third {x : GoValue} (hx : x.Nested) :
    ∃ a b c t, header x = a :: b :: c :: t ∧ c ∉ prefixes ∧
      (x.decoded = .str (unknownText c) ↔ x = .str stuck) ∧ (x = .str stuck → c = '7'.toUInt8) := by
  match x with
  | .str s =>
    obtain ⟨b, c, t, hthird, hc⟩ := third_formatInt '$'.toUInt8 (Int64.ofNat s.length)
      (s ++ lit "\r\n")
    obtain ⟨hunknown, hlen⟩ := third_cases hc
    have hheader : header (.str s) = '$'.toUInt8 :: b :: c :: t := (header_str s).trans hthird
    have hseven : s.length = 17 → c = '7'.toUInt8 := by
      intro hs
      rw [hs] at hthird
      have hprinted : formatInt (Int64.ofNat 17) = lit "17" := by decide
      rw [hprinted] at hthird
      injection hthird with _ hthird
      injection hthird with _ hthird
      injection hthird with hthird _
      exact hthird.symm
    refine ⟨_, b, c, t, hheader, hunknown, ?_, ?_⟩
    · simp only [GoValue.decoded, Value.str.injEq, GoValue.str.injEq]
      constructor
      · intro hs
        rw [hs, hseven (by rw [hs, hlen]), unknownText_seven]
      · intro hs
        rw [hseven (by rw [hs]; decide), unknownText_seven, hs]
    · intro hs
      cases hs
      exact hseven (by decide)
  | .int n =>
    obtain ⟨b, c, t, hthird, hc⟩ := third_formatInt ':'.toUInt8 n []
    refine ⟨':'.toUInt8, b, c, t, ?_, (third_cases hc).1, by simp [GoValue.decoded], by simp⟩
    rw [← hthird, List.append_nil, header, encode, List.append_assoc]
    · rfl
    · simp
  | .anys l =>
    obtain ⟨b, c, t, hthird, hc⟩ := third_formatInt '*'.toUInt8 (Int64.ofNat l.length) []
    refine ⟨'*'.toUInt8, b, c, t, ?_, (third_cases hc).1, by simp [GoValue.decoded], by simp⟩
    rw [← hthird, List.append_nil, header, List.append_assoc]
    rfl
  | .other =>
    refine ⟨'$'.toUInt8, '-'.toUInt8, '1'.toUInt8, lit "\r\n", ?_, by decide, ?_, by simp⟩
    · rw [header, encode]
      · rfl
      · simp
    · rw [GoValue.decoded]
      refine iff_of_false ?_ (by simp)
      intro h
      injection h with h
      exact absurd h (by decide)
  | .error _ | .strs _ | .strs2 _ => simp [GoValue.Nested] at hx

/-! ## Behind a null -/

section Behind

variable {fuel : Nat} {d : Slice}

/-- A byte that is no prefix byte is read again and again. -/
theorem readElems_stuck (hfuel : 0 < fuel) {pos : Nat} {c : UInt8} {t : Bytes}
    (hle : pos ≤ d.len) (hd : d.vis.drop pos = c :: t) (hc : c ∉ prefixes) (k : Nat) :
    readElems (decodeFuel fuel) d k pos =
      .ok (.ok (List.replicate k (.str (unknownText c)), pos)) := by
  induction k with
  | zero => rfl
  | succ k ih =>
    obtain ⟨f, rfl⟩ := Nat.exists_eq_add_of_lt hfuel
    have hval : decodeFuel (0 + f + 1) (d.suffix pos hle) = .ok (.ok (.str (unknownText c), 0)) :=
      decodeWith_unknown _ ((d.suffix_vis pos hle).trans hd) hc
    exact readElems_succ_iff.2 ⟨hle, _, 0, _, hval, ih, rfl⟩

theorem forall_preorder_eq_stuck {x : GoValue} :
    (∀ y ∈ x.preorder, y = .str stuck) ↔ x = .str stuck := by
  constructor
  · intro h
    obtain ⟨t, ht⟩ := preorder_head x
    exact h x (by rw [ht]; exact List.mem_cons_self)
  · rintro rfl y hy
    simpa [GoValue.preorder] using hy

theorem decoded_eq_stuck_iff {x : GoValue} (hx : x.Nested) :
    x.decoded = .str stuck ↔ x = .str stuck := by
  cases x with
  | str s => simp [GoValue.decoded]
  | int n => simp [GoValue.decoded]
  | anys l => simp [GoValue.decoded]
  | other =>
    have hne : lit "Null value" ≠ stuck := by decide
    simp [GoValue.decoded, hne]
  | error | strs | strs2 => simp [GoValue.Nested] at hx

/-- The elements that are read behind a null, `post` being the tokens of the
elements before them. The decoder is at the third byte of the first token. -/
theorem readElems_behind (hfuel : 0 < fuel) {l post : List GoValue} (hl : ∀ x ∈ l, x.Nested)
    (hpost : ∀ y ∈ post, y = .str stuck) {pos : Nat} {rest : Bytes} (hle : pos ≤ d.len)
    (hd : d.vis.drop pos = (post ++ l.flatMap GoValue.preorder).flatMap header ++ rest) (e : Nat) :
    readElems (decodeFuel fuel) d l.length (pos + 2) = .ok (.ok (l.map GoValue.decoded, e)) ↔
      (∀ x ∈ l, x = .str stuck) ∧ e = pos + 2 := by
  match l with
  | [] => simp [readElems, eq_comm]
  | x :: l =>
    obtain ⟨t, ht⟩ := preorder_head x
    -- the first token decides what all elements are read as
    obtain ⟨y, tokens, hy, hyx⟩ : ∃ y tokens,
        post ++ (x :: l).flatMap GoValue.preorder = y :: tokens ∧ (y = .str stuck ∨ y = x) := by
      cases post with
      | nil => exact ⟨x, _, by rw [List.flatMap_cons, ht]; rfl, .inr rfl⟩
      | cons y post => exact ⟨y, _, rfl, .inl (hpost y List.mem_cons_self)⟩
    have hnested : y.Nested := by
      rcases hyx with rfl | rfl
      · simp [GoValue.Nested]
      · exact hl y List.mem_cons_self
    obtain ⟨a, b, c, t', hheader, hc, hself, hseven⟩ := header_third hnested
    have hdrop : d.vis.drop pos = a :: b :: c :: (t' ++ (tokens.flatMap header ++ rest)) := by
      rw [hd, hy, List.flatMap_cons, hheader]
      simp
    have hlen := congrArg List.length hdrop
    simp only [List.length_drop, d.vis_length, List.length_cons] at hlen
    have hthird : d.vis.drop (pos + 2) = c :: (t' ++ (tokens.flatMap header ++ rest)) := by
      rw [← List.drop_drop, hdrop]
      rfl
    rw [readElems_stuck hfuel (by omega) hthird hc]
    have hmap : List.replicate (x :: l).length (.str (unknownText c)) =
        (x :: l).map GoValue.decoded ↔ ∀ z ∈ x :: l, z.decoded = .str (unknownText c) := by
      rw [eq_comm, List.eq_replicate_iff, List.length_map, List.forall_mem_map]
      simp only [true_and]
    have htext : y = .str stuck → unknownText c = stuck := fun h => by
      rw [hseven h, unknownText_seven]
    simp only [Except.ok.injEq, Prod.mk.injEq, hmap, @eq_comm _ (pos + 2)]
    refine and_congr_left fun _ => ⟨fun hall z hz => ?_, fun hall z hz => ?_⟩
    · have hystuck : y = .str stuck := hyx.elim id fun h =>
        hself.1 (h ▸ hall x List.mem_cons_self)
      rw [← decoded_eq_stuck_iff (hl z hz), hall z hz, htext hystuck]
    · have hystuck : y = .str stuck := hyx.elim id fun h => h ▸ hall x List.mem_cons_self
      rw [htext hystuck, decoded_eq_stuck_iff (hl z hz), hall z hz]

end Behind

/-! ## From the first null on -/

/-- The value with its first null after the tokens `pre`: it is read as itself
exactly if the tokens behind the null are, and then the decoder stops two
bytes behind the null. -/
def Skews (x : GoValue) : Prop :=
  ∀ (pre post : List GoValue), x.preorder = pre ++ .other :: post → .other ∉ pre →
    ∀ (fuel : Nat) (d : Slice) (rest : Bytes) (n : Nat), d.len < fuel →
      d.vis = encode x false ++ rest →
      (decodeFuel fuel d = .ok (.ok (x.decoded, n)) ↔
        (∀ y ∈ post, y = .str stuck) ∧ n = (pre.flatMap header).length + 7)

theorem header_other : header .other = lit "$-1\r\n" := by
  rw [header, encode]
  · rfl
  · simp

/-- An element lies before another one, or in the first or the second of two
lists. -/
theorem split_append {α : Type} {A B pre post : List α} {o : α}
    (h : A ++ B = pre ++ o :: post) :
    (∃ pre', pre = A ++ pre' ∧ B = pre' ++ o :: post) ∨
      ∃ post', A = pre ++ o :: post' ∧ post = post' ++ B := by
  rcases List.append_eq_append_iff.1 h with ⟨pre', hpre, hB⟩ | ⟨C, hA, hB⟩
  · exact .inl ⟨pre', hpre, hB⟩
  · cases C with
    | nil => exact .inl ⟨[], by simpa using hA.symm, hB.symm⟩
    | cons c C =>
      obtain ⟨rfl, rfl⟩ := List.cons.inj hB
      exact .inr ⟨C, hA, rfl⟩

section Skewed

variable {fuel : Nat} {d : Slice} {x : GoValue} {l pre post : List GoValue} {pos : Nat}
  {rest : Bytes}

/-- The first element at its position. -/
theorem suffix_encode (hle : pos ≤ d.len)
    (hd : d.vis.drop pos = ((x :: l).flatMap GoValue.preorder).flatMap header ++ rest) :
    (d.suffix pos hle).vis =
      encode x false ++ ((l.flatMap GoValue.preorder).flatMap header ++ rest) := by
  rw [d.suffix_vis, hd, encode_eq, List.flatMap_cons, List.flatMap_append, List.append_assoc]

/-- The first null lies in the first element. -/
theorem readElems_null_inside (hskews : Skews x) (hl : ∀ y ∈ l, y.Nested)
    (hsplit : x.preorder = pre ++ .other :: post) (hpre : .other ∉ pre) (hle : pos ≤ d.len)
    (hlt : (d.suffix pos hle).len < fuel)
    (hd : d.vis.drop pos = ((x :: l).flatMap GoValue.preorder).flatMap header ++ rest) (e : Nat) :
    readElems (decodeFuel fuel) d (x :: l).length pos =
        .ok (.ok ((x :: l).map GoValue.decoded, e)) ↔
      (∀ y ∈ post ++ l.flatMap GoValue.preorder, y = .str stuck) ∧
        e = pos + ((pre.flatMap header).length + 7) := by
  have hval : ∀ n, decodeFuel fuel (d.suffix pos hle) = .ok (.ok (x.decoded, n)) ↔ _ :=
    fun n => hskews pre post hsplit hpre fuel _ _ n hlt (suffix_encode hle hd)
  have htokens : (∀ y ∈ post ++ l.flatMap GoValue.preorder, y = .str stuck) ↔
      (∀ y ∈ post, y = .str stuck) ∧ ∀ y ∈ l, y = .str stuck := by
    simp only [List.forall_mem_append, List.forall_mem_flatMap, forall_preorder_eq_stuck]
  have hdrop : d.vis.drop pos = pre.flatMap header ++ (lit "$-1\r\n" ++
      ((post ++ l.flatMap GoValue.preorder).flatMap header ++ rest)) := by
    rw [hd, List.flatMap_cons, hsplit]
    simp [header_other]
  have hbehind : d.vis.drop (pos + (pre.flatMap header).length + 5) =
      (post ++ l.flatMap GoValue.preorder).flatMap header ++ rest := by
    rw [Nat.add_assoc, ← List.drop_drop, hdrop, ← List.drop_drop, List.drop_left]
    rfl
  have hlen := congrArg List.length hdrop
  simp only [List.length_drop, d.vis_length, List.length_append] at hlen
  have hfive : (lit "$-1\r\n").length = 5 := rfl
  have hread := fun (hpost : ∀ y ∈ post, y = .str stuck) (e : Nat) =>
    readElems_behind (Nat.zero_lt_of_lt hlt) hl hpost (by omega) hbehind e
  rw [List.length_cons, List.map_cons, readElems_succ_iff]
  constructor
  · rintro ⟨h, v, n, l', hv, helems, heq⟩
    cases heq
    obtain ⟨hpost, rfl⟩ := (hval n).1 hv
    obtain ⟨hall, rfl⟩ := (hread hpost e).1 helems
    exact ⟨htokens.2 ⟨hpost, hall⟩, rfl⟩
  · rintro ⟨hall, rfl⟩
    obtain ⟨hpost, hall⟩ := htokens.1 hall
    exact ⟨hle, _, _, _, (hval _).2 ⟨hpost, rfl⟩, (hread hpost _).2 ⟨hall, rfl⟩, rfl⟩

theorem readElems_skewed (hfuel : d.len ≤ fuel) (hl : ∀ x ∈ l, x.Nested ∧ Skews x)
    (hsplit : l.flatMap GoValue.preorder = pre ++ .other :: post) (hpre : .other ∉ pre)
    (hpos : 0 < pos) (hle : pos ≤ d.len)
    (hd : d.vis.drop pos = (l.flatMap GoValue.preorder).flatMap header ++ rest) (e : Nat) :
    readElems (decodeFuel fuel) d l.length pos = .ok (.ok (l.map GoValue.decoded, e)) ↔
      (∀ y ∈ post, y = .str stuck) ∧ e = pos + ((pre.flatMap header).length + 7) := by
  induction l generalizing pre pos with
  | nil => simp at hsplit
  | cons x l ih =>
    obtain ⟨hx, hskews⟩ := hl x List.mem_cons_self
    have hl' : ∀ y ∈ l, y.Nested ∧ Skews y := fun y hy => hl y (List.mem_cons_of_mem x hy)
    have hlt : (d.suffix pos hle).len < fuel := by
      rw [d.suffix_len]
      omega
    have hsuffix := suffix_encode hle hd
    have hlen := congrArg List.length hsuffix
    rw [Slice.vis_length, d.suffix_len, List.length_append] at hlen
    rw [List.flatMap_cons] at hsplit
    rcases split_append hsplit with ⟨pre', rfl, hsplit'⟩ | ⟨post', hsplit', rfl⟩
    · -- the first null lies behind this element, which decodes as itself
      rw [List.mem_append, not_or] at hpre
      have hval := decodes_encode x (plain_of_notMem hx hpre.1) fuel _ _ hlt hsuffix
      have hd' : d.vis.drop (pos + (encode x false).length) =
          (l.flatMap GoValue.preorder).flatMap header ++ rest := by
        rw [← List.drop_drop, ← d.suffix_vis pos hle, hsuffix, List.drop_left]
      have hrest := ih hl' hsplit' hpre.2 (by omega) (by omega) hd'
      rw [List.flatMap_append, List.length_append, ← encode_eq, ← Nat.add_assoc, ← Nat.add_assoc,
        Nat.add_assoc (pos + _), ← hrest]
      exact readElems_cons_iff hle hval
    · exact readElems_null_inside hskews (fun y hy => (hl' y hy).1) hsplit' hpre hle hlt hd e

end Skewed

theorem skews : ∀ {x : GoValue}, x.Nested → Skews x
  | .anys l, hx => by
    rw [GoValue.Nested] at hx
    have hl : ∀ y ∈ l, y.Nested ∧ Skews y := fun y hy => ⟨hx.2 y hy, skews (hx.2 y hy)⟩
    intro pre post hsplit hpre fuel d rest n hlt hd
    rw [GoValue.preorder] at hsplit
    cases pre with
    | nil => cases (List.cons.inj hsplit).1
    | cons y pre =>
      obtain ⟨rfl, htail⟩ := List.cons.inj hsplit
      obtain ⟨f, rfl⟩ := Nat.exists_eq_add_of_lt (Nat.zero_lt_of_lt hlt)
      rw [encode_eq, GoValue.preorder, List.flatMap_cons, header] at hd
      simp only [List.append_assoc] at hd
      change d.vis = '*'.toUInt8 :: (formatLen l ++ (lit "\r\n" ++
        ((l.flatMap GoValue.preorder).flatMap header ++ rest))) at hd
      have hlen := d.vis_length
      rw [hd, List.length_cons, List.length_append, List.length_append] at hlen
      change (formatLen l).length + (2 + _) + 1 = d.len at hlen
      have hheader : (header (.anys l)).length = (formatLen l).length + 3 := by
        rw [header, List.length_append, List.length_append]
        show 1 + _ + 2 = _
        omega
      have hvalue : (lineValue (formatLen l)).toInt = l.length :=
        toInt_lineValue_formatLen (hx.1.trans_lt (by decide))
      show decodeWith (decodeFuel (0 + f)) d = _ ↔ _
      rw [decodeWith_array_iff hd (line_formatLen _ _) hvalue, GoValue.decoded]
      simp only [hx.1, true_and, Value.arr.injEq, exists_eq_left']
      rw [readElems_skewed (by omega) hl htail (fun h => hpre (List.mem_cons_of_mem _ h)) (by omega)
        (by omega) (drop_header hd), List.flatMap_cons, List.length_append, hheader,
        Nat.add_assoc (_ + 3)]
  | .other, _ => by
    intro pre post hsplit hpre fuel d rest n hlt hd
    simp only [GoValue.preorder] at hsplit
    obtain ⟨rfl, rfl⟩ : pre = [] ∧ post = [] := by
      cases pre with
      | nil => exact ⟨rfl, (List.cons.inj hsplit).2.symm⟩
      | cons y pre => simp at hsplit
    obtain ⟨f, rfl⟩ := Nat.exists_eq_add_of_lt (Nat.zero_lt_of_lt hlt)
    rw [encode] at hd
    have hline : Line (lit "-1") (lit "-1\r\n" ++ rest) := ⟨by decide, '\n'.toUInt8 :: rest, rfl⟩
    have hnull : decodeFuel (0 + f + 1) d = .ok (.ok (.str (lit "Null value"), 7)) :=
      decodeWith_null _ hd hline (by decide)
    rw [hnull, GoValue.decoded]
    simp [eq_comm]
  | .str _, _ | .int _, _ | .error _, _ | .strs _, _ | .strs2 _, _ => by
    intro pre post hsplit
    simp only [GoValue.preorder] at hsplit
    cases pre <;> simp at hsplit

/-! ## Encoded lists -/

/-- All tokens behind a null are the one string that is read as itself
there. In particular nothing may follow the last null but this string. -/
def Undisturbed (v : GoValue) : Prop :=
  ∀ pre post, v.preorder = pre ++ .other :: post → ∀ y ∈ post, y = .str stuck

/-- The first null comes before all others. -/
theorem undisturbed_iff_of_split {v : GoValue} {pre post : List GoValue}
    (hsplit : v.preorder = pre ++ .other :: post) (hpre : .other ∉ pre) :
    Undisturbed v ↔ ∀ y ∈ post, y = .str stuck := by
  refine ⟨fun h => h pre post hsplit, fun h pre' post' hsplit' y hy => h y ?_⟩
  rw [hsplit] at hsplit'
  rcases split_append hsplit' with ⟨pre₁, -, hpost⟩ | ⟨post₁, hpre₁, -⟩
  · cases pre₁ with
    | nil => rwa [(List.cons.inj hpost).2]
    | cons z pre₁ => simp [(List.cons.inj hpost).2, hy]
  · exact absurd (by simp [hpre₁]) hpre

/-- What was encoded is decoded, with the nulls at their places, exactly if no
null is followed by anything but that string. -/
theorem nulls_undisturbed_iff (v : GoValue) (hv : v.Nested) (d : Slice)
    (hd : d.vis = encode v false) : decode d = .ok (.ok v.decoded) ↔ Undisturbed v := by
  have hdecode : decode d = .ok (.ok v.decoded) ↔ ∃ n, decodeOne d = .ok (.ok (v.decoded, n)) := by
    unfold decode
    rcases decodeOne d with f | err | ⟨w, n⟩ <;> simp [bind, Except.bind]
  have hd' : d.vis = encode v false ++ [] := by rw [hd, List.append_nil]
  rw [hdecode]
  by_cases hnil : .other ∈ v.preorder
  · obtain ⟨pre, post, hsplit, hpre⟩ := List.eq_append_cons_of_mem hnil
    have hiff : ∀ n, decodeOne d = .ok (.ok (v.decoded, n)) ↔ _ := fun n =>
      skews hv pre post hsplit hpre _ d [] n (Nat.lt_succ_self _) hd'
    simp only [hiff, undisturbed_iff_of_split hsplit hpre, exists_and_left, exists_eq, and_true]
  · have hval := decodes_encode v (plain_of_notMem hv hnil) _ d [] (Nat.lt_succ_self _) hd'
    refine iff_of_true ⟨_, hval⟩ fun pre post hsplit => ?_
    exact absurd (by simp [hsplit]) hnil

/-- `[7, ["a", nil]]` -/
theorem nulls_undisturbed_last :
    decode ⟨lit "*2\r\n:7\r\n*2\r\n$1\r\na\r\n$-1\r\n", 24, by decide, by decide⟩ =
      .ok (.ok (.arr [.int 7, .arr [.str (lit "a"), .str (lit "Null value")]])) := by
  let v : GoValue := .anys [.int 7, .anys [.str (lit "a"), .other]]
  have htokens : v.preorder =
      [v, .int 7, .anys [.str (lit "a"), .other], .str (lit "a")] ++ .other :: [] := by
    simp [v, GoValue.preorder]
  have hundisturbed : Undisturbed v :=
    (undisturbed_iff_of_split htokens (by simp [v])).2 (by simp)
  have h := (nulls_undisturbed_iff v (by simp [v, GoValue.Nested, maxElems])
    ⟨lit "*2\r\n:7\r\n*2\r\n$1\r\na\r\n$-1\r\n", 24, by decide, by decide⟩ rfl).2 hundisturbed
  simpa [v, GoValue.decoded] using h

/-- The encoding of `[nil, "a"]`. -/
def nilThenString : Slice :=
  ⟨lit "*2\r\n$-1\r\n$1\r\na\r\n", 16, by decide, by decide⟩

/-- The string behind the null is lost. -/
theorem null_disturbs_string :
    nilThenString.vis = encode (.anys [.other, .str (lit "a")]) false ∧
      decode nilThenString =
        .ok (.ok (.arr [.str (lit "Null value"), .str (lit "unknown prefix: \r")])) :=
  ⟨rfl, rfl⟩

end RediGo.Core
