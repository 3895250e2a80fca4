/-
RediGo.Go.Trim — `strings.TrimSpace`, and what it does to the fields of a
text.

The left end is trimmed rune by rune in reading order. The right end is
trimmed backwards: `DecodeLastRuneInString` looks for the last byte that can
start a rune, at most four bytes before the end, and falls back to U+FFFD
when the rune that starts there does not end where the string does.

Reading backwards and reading forwards agree on spaces, also in strings that
are not valid UTF-8: the first byte of an encoded space is never the
continuation of what stands before it (`runes_append`). So `TrimSpace`
removes spaces and nothing else, and `Fields` does not see the difference
(`fields_trimSpace`).

No field has a space in it, so in particular no line break
(`isSpace_of_mem_fields`).
-/
import RediGo.Go.Strings

namespace RediGo.Go

/-! ## The model -/

/-- `utf8.RuneStart` -/
def runeStart (b : UInt8) : Bool := !isCont b

/-- The loop of `DecodeLastRuneInString`. The argument is `start + 1`; where
no byte down to `lim` can start a rune, `start` is left one below `lim`, or
at 0. -/
def lastStart (s : Bytes) (lim : Nat) : Nat → Nat
  | 0 => 0
  | start + 1 =>
    if start < lim then start
    else if s[start]?.any runeStart then start
    else lastStart s lim start

/-- `utf8.DecodeLastRuneInString`: the last rune and its width. -/
def decodeLastRune (s : Bytes) : Nat × Nat :=
  match s.getLast? with
  | none => (runeError, 0)
  | some b =>
    if b < 0x80 then (b.toNat, 1)
    else
      let start := lastStart s (s.length - 4) (s.length - 1)
      let (r, size) := decodeRune (s.drop start)
      if start + size ≠ s.length then (runeError, 1) else (r, size)

/-- `lastIndexFunc`: where the last rune starts that is no space. -/
def lastNonSpace : Nat → Bytes → Option Nat
  | 0, _ => none
  | fuel + 1, s =>
    if s = [] then none
    else
      let (r, size) := decodeLastRune s
      let i := s.length - size
      if isSpace r then lastNonSpace fuel (s.take i) else some i

/-- `TrimRightFunc(s, unicode.IsSpace)` -/
def trimRight (s : Bytes) : Bytes :=
  match lastNonSpace s.length s with
  | some i => s.take (i + (decodeRune (s.drop i)).2)
  | none => []

/-- `TrimLeftFunc(s, unicode.IsSpace)` -/
def trimLeft (s : Bytes) : Bytes :=
  ((runes s).dropWhile fun r => isSpace r.1).flatMap (·.2)

/-- `strings.TrimSpace` -/
def trimSpace (s : Bytes) : Bytes := trimRight (trimLeft s)

example : trimSpace (lit "  a b\t") = lit "a b" := by decide

/-- A cut-off rune stays, the no-break space behind it goes. -/
example : trimSpace [0xE2, 0xC2, 0xA0] = [0xE2] := by decide

/-! ## Reading one rune -/

theorem isCont_of_accept {s0 c : UInt8} (h : acceptLo s0 ≤ c ∧ c ≤ acceptHi s0) :
    isCont c = true := by
  have hlo : 0x80 ≤ acceptLo s0 := by
    unfold acceptLo
    split_ifs <;> decide
  have hhi : acceptHi s0 ≤ 0xBF := by
    unfold acceptHi
    split_ifs <;> decide
  simp only [isCont, Bool.and_eq_true, decide_eq_true_eq]
  exact ⟨UInt8.le_trans hlo h.1, UInt8.le_trans h.2 hhi⟩

/-- What a reading `r` of the bytes after a first byte can be: the first byte
alone, as invalid, or the first byte with the continuations that belong to it. -/
def ReadsRune (r : Nat × Nat) (s : Bytes) : Prop :=
  r = (runeError, 1) ∨
  ∃ conts rest, s = conts ++ rest ∧ (∀ c ∈ conts, isCont c = true) ∧ r.2 = conts.length + 1

theorem readsRune_decodeTwo (s0 : UInt8) (s : Bytes) : ReadsRune (decodeTwo s0 s) s := by
  rcases s with _ | ⟨s1, s⟩
  · exact .inl rfl
  rw [decodeTwo]
  split_ifs with haccept
  · exact .inr ⟨[s1], s, rfl, by simp [isCont_of_accept haccept], rfl⟩
  · exact .inl rfl

theorem readsRune_decodeThree (s0 : UInt8) (s : Bytes) : ReadsRune (decodeThree s0 s) s := by
  rcases s with _ | ⟨s1, _ | ⟨s2, s⟩⟩
  · exact .inl rfl
  · exact .inl rfl
  rw [decodeThree]
  split_ifs with haccept
  · have hs1 := isCont_of_accept ⟨haccept.1, haccept.2.1⟩
    exact .inr ⟨[s1, s2], s, rfl, by simp [hs1, haccept.2.2], rfl⟩
  · exact .inl rfl

theorem readsRune_decodeFour (s0 : UInt8) (s : Bytes) : ReadsRune (decodeFour s0 s) s := by
  rcases s with _ | ⟨s1, _ | ⟨s2, _ | ⟨s3, s⟩⟩⟩
  · exact .inl rfl
  · exact .inl rfl
  · exact .inl rfl
  rw [decodeFour]
  split_ifs with haccept
  · have hs1 := isCont_of_accept ⟨haccept.1, haccept.2.1⟩
    exact .inr ⟨[s1, s2, s3], s, rfl, by simp [hs1, haccept.2.2], rfl⟩
  · exact .inl rfl

/-- What can be read from a string that is not empty: an ASCII byte, an
invalid byte, or a first byte with the continuations that belong to it. -/
theorem decodeRune_cases (b : UInt8) (s : Bytes) :
    (b < 0x80 ∧ decodeRune (b :: s) = (b.toNat, 1)) ∨
    (0x80 ≤ b ∧ decodeRune (b :: s) = (runeError, 1)) ∨
    ∃ conts rest, s = conts ++ rest ∧ 0xC2 ≤ b ∧ (∀ c ∈ conts, isCont c = true) ∧
      (decodeRune (b :: s)).2 = conts.length + 1 := by
  by_cases hascii : b < 0x80
  · exact .inl ⟨hascii, by rw [decodeRune, if_pos hascii]⟩
  have hhigh : 0x80 ≤ b := UInt8.not_lt.1 hascii
  have hreads : ∀ r, 0xC2 ≤ b → ReadsRune r s →
      (0x80 ≤ b ∧ r = (runeError, 1)) ∨
      ∃ conts rest, s = conts ++ rest ∧ 0xC2 ≤ b ∧ (∀ c ∈ conts, isCont c = true) ∧
        r.2 = conts.length + 1 := by
    rintro r hb (herror | ⟨conts, rest, hs, hconts, hwidth⟩)
    · exact .inl ⟨hhigh, herror⟩
    · exact .inr ⟨conts, rest, hs, hb, hconts, hwidth⟩
  rw [decodeRune, if_neg hascii]
  right
  split_ifs with htwo hthree hfour
  · exact hreads _ htwo.1 (readsRune_decodeTwo b s)
  · exact hreads _ (UInt8.le_trans (by decide) hthree.1) (readsRune_decodeThree b s)
  · exact hreads _ (UInt8.le_trans (by decide) hfour.1) (readsRune_decodeFour b s)
  · exact .inl ⟨hhigh, rfl⟩

theorem decodeRune_width (b : UInt8) (s : Bytes) :
    1 ≤ (decodeRune (b :: s)).2 ∧ (decodeRune (b :: s)).2 ≤ (b :: s).length := by
  rcases decodeRune_cases b s with ⟨-, h⟩ | ⟨-, h⟩ | ⟨conts, rest, rfl, -, -, h⟩
  · simp [h]
  · simp [h]
  · simp [h]

/-- The string does not begin inside a rune. -/
def Aligned (s : Bytes) : Prop := ∀ c ∈ s.head?, isCont c = false

theorem Aligned.isCont {c : UInt8} {t : Bytes} (h : Aligned (c :: t)) : isCont c = false := h c rfl

theorem Aligned.not_accept {s0 c : UInt8} {t : Bytes} (h : Aligned (c :: t)) :
    ¬ (acceptLo s0 ≤ c ∧ c ≤ acceptHi s0) := by
  intro haccept
  have hcont := isCont_of_accept haccept
  rw [h.isCont] at hcont
  cases hcont

theorem decodeTwo_append {t : Bytes} (ht : Aligned t) (s0 : UInt8) (s : Bytes) :
    decodeTwo s0 (s ++ t) = decodeTwo s0 s := by
  match s, t with
  | _ :: _, _ => rfl
  | [], [] => rfl
  | [], c :: t => exact if_neg ht.not_accept

theorem decodeThree_append {t : Bytes} (ht : Aligned t) (s0 : UInt8) (s : Bytes) :
    decodeThree s0 (s ++ t) = decodeThree s0 s := by
  match s, t with
  | _ :: _ :: _, _ => rfl
  | [], [] | [_], [] | [], [_] => rfl
  | [], c :: _ :: t => exact if_neg fun h => ht.not_accept ⟨h.1, h.2.1⟩
  | [_], c :: t => exact if_neg fun h => by simp [ht.isCont] at h

theorem decodeFour_append {t : Bytes} (ht : Aligned t) (s0 : UInt8) (s : Bytes) :
    decodeFour s0 (s ++ t) = decodeFour s0 s := by
  match s, t with
  | _ :: _ :: _ :: _, _ => rfl
  | [], [] | [_], [] | [_, _], [] | [], [_] | [], [_, _] | [_], [_] => rfl
  | [], c :: _ :: _ :: t => exact if_neg fun h => ht.not_accept ⟨h.1, h.2.1⟩
  | [_], c :: _ :: t => exact if_neg fun h => by simp [ht.isCont] at h
  | [_, _], c :: t => exact if_neg fun h => by simp [ht.isCont] at h

/-- A rune that begins in `b :: s` does not reach into what is aligned. -/
theorem decodeRune_append {t : Bytes} (ht : Aligned t) (b : UInt8) (s : Bytes) :
    decodeRune (b :: (s ++ t)) = decodeRune (b :: s) := by
  simp only [decodeRune, decodeTwo_append ht, decodeThree_append ht, decodeFour_append ht]

/-! ## All runes -/

theorem runesFrom_eq : ∀ (s : Bytes) (k : Nat), runesFrom k s = runes (s.drop k)
  | [], k => by simp [runesFrom, runes]
  | _ :: s, k + 1 => by rw [runesFrom, runesFrom_eq s k, List.drop_succ_cons]
  | _ :: _, 0 => rfl

/-- The first rune and the runes behind it. -/
theorem runes_cons (b : UInt8) (s : Bytes) :
    runes (b :: s) = ((decodeRune (b :: s)).1, (b :: s).take (decodeRune (b :: s)).2) ::
      runes ((b :: s).drop (decodeRune (b :: s)).2) := by
  obtain ⟨w, hw⟩ := Nat.exists_eq_add_of_le' (decodeRune_width b s).1
  unfold runes
  rw [runesFrom]
  simp only [runesFrom_eq, hw]
  rfl

/-- A string is empty, or a first rune and a shorter string. -/
theorem runes_induction {P : Bytes → Prop} (nil : P [])
    (cons : ∀ b s, P ((b :: s).drop (decodeRune (b :: s)).2) → P (b :: s)) (s : Bytes) : P s := by
  match s with
  | [] => exact nil
  | b :: s =>
    have hwidth := decodeRune_width b s
    exact cons b s (runes_induction nil cons _)
termination_by s.length
decreasing_by
  rw [List.length_drop]
  simp only [List.length_cons] at hwidth ⊢
  omega

theorem flatMap_runes (s : Bytes) : (runes s).flatMap (·.2) = s := by
  induction s using runes_induction with
  | nil => rfl
  | cons b s ih => rw [runes_cons, List.flatMap_cons, ih, List.take_append_drop]

/-- The runes of the bytes of some last runes are those runes. -/
theorem runes_of_suffix {l : List (Nat × Bytes)} (s : Bytes) (h : l <:+ runes s) :
    runes (l.flatMap (·.2)) = l := by
  induction s using runes_induction with
  | nil =>
    obtain rfl := List.suffix_nil.1 h
    rfl
  | cons b s ih =>
    rw [runes_cons] at h
    rcases List.suffix_cons_iff.1 h with rfl | h
    · rw [← runes_cons, flatMap_runes]
    · exact ih h

theorem runes_append {t : Bytes} (ht : Aligned t) (s : Bytes) :
    runes (s ++ t) = runes s ++ runes t := by
  induction s using runes_induction with
  | nil => rfl
  | cons b s ih =>
    have hwidth := (decodeRune_width b s).2
    rw [List.cons_append, runes_cons, runes_cons, decodeRune_append ht, ← List.cons_append,
      List.take_append_of_le_length hwidth, List.drop_append_of_le_length hwidth, ih]
    rfl

/-- A rune is an ASCII byte, or all its bytes are beyond ASCII. -/
theorem bytes_of_mem_runes {r : Nat} {e : Bytes} (s : Bytes) (h : (r, e) ∈ runes s) :
    (∃ b, e = [b] ∧ r = b.toNat) ∨ ∀ b ∈ e, 0x80 ≤ b := by
  induction s using runes_induction with
  | nil => cases h
  | cons b s ih =>
    rw [runes_cons] at h
    rcases List.mem_cons.1 h with heq | h
    · obtain ⟨rfl, rfl⟩ := Prod.mk.inj heq
      rcases decodeRune_cases b s with ⟨-, hrune⟩ | ⟨hb, hrune⟩ | ⟨conts, rest, rfl, hb, hconts, hrune⟩
      · exact .inl ⟨b, by simp [hrune], by rw [hrune]⟩
      · exact .inr (by simp [hrune, hb])
      · refine .inr fun c hc => ?_
        rw [hrune, List.take_succ_cons, List.take_left] at hc
        rcases List.mem_cons.1 hc with rfl | hc
        · exact UInt8.le_trans (by decide) hb
        · have hcont := hconts c hc
          simp only [isCont, Bool.and_eq_true, decide_eq_true_eq] at hcont
          exact hcont.1
    · exact ih h

/-! ## Fields -/

/-- The fields among some runes. -/
def fieldsOf (l : List (Nat × Bytes)) : List Bytes :=
  ((l.splitOnP fun r => isSpace r.1).filter fun f => !f.isEmpty).map fun f => f.flatMap (·.2)

theorem fields_eq (s : Bytes) : fields s = fieldsOf (runes s) := rfl

theorem fieldsOf_append_space (l m : List (Nat × Bytes)) {r : Nat × Bytes}
    (h : isSpace r.1 = true) : fieldsOf (l ++ r :: m) = fieldsOf l ++ fieldsOf m := by
  have hsplit := List.splitOnP_append_cons (p := fun r : Nat × Bytes => isSpace r.1) l m h
  simp [fieldsOf, hsplit]

/-- Spaces before a text do not change its fields. -/
theorem fieldsOf_spaces_append {l : List (Nat × Bytes)} (m : List (Nat × Bytes))
    (h : ∀ r ∈ l, isSpace r.1 = true) : fieldsOf (l ++ m) = fieldsOf m := by
  induction l with
  | nil => rfl
  | cons r l ih =>
    rw [List.cons_append]
    exact (fieldsOf_append_space [] (l ++ m) (h r List.mem_cons_self)).trans
      (ih fun x hx => h x (List.mem_cons_of_mem r hx))

theorem fieldsOf_spaces {l : List (Nat × Bytes)} (h : ∀ r ∈ l, isSpace r.1 = true) :
    fieldsOf l = [] := by
  have hnil := fieldsOf_spaces_append [] h
  rwa [List.append_nil] at hnil

/-- Nor do spaces behind it. -/
theorem fieldsOf_append_spaces (l : List (Nat × Bytes)) {m : List (Nat × Bytes)}
    (h : ∀ r ∈ m, isSpace r.1 = true) : fieldsOf (l ++ m) = fieldsOf l := by
  cases m with
  | nil => rw [List.append_nil]
  | cons r m =>
    rw [fieldsOf_append_space l m (h r List.mem_cons_self),
      fieldsOf_spaces fun x hx => h x (List.mem_cons_of_mem r hx), List.append_nil]

/-- The parts between separators hold no separator. -/
theorem mem_splitOnP {α : Type} {p : α → Bool} {part : List α} {x : α} (l : List α)
    (hpart : part ∈ l.splitOnP p) (hx : x ∈ part) : x ∈ l ∧ p x = false := by
  induction l generalizing part with
  | nil =>
    simp only [List.splitOnP_nil, List.mem_singleton] at hpart
    subst hpart
    cases hx
  | cons y l ih =>
    rw [List.splitOnP_cons_eq_if_modifyHead] at hpart
    split at hpart
    next => 
      rcases List.mem_cons.1 hpart with rfl | hpart
      · cases hx
      · exact ⟨List.mem_cons_of_mem y (ih hpart hx).1, (ih hpart hx).2⟩
    next hy =>
      cases hsplit : l.splitOnP p with
      | nil => 
        rw [hsplit] at hpart
        cases hpart
      | cons first parts =>
        rw [hsplit] at hpart ih
        rcases List.mem_cons.1 hpart with rfl | hpart
        · rcases List.mem_cons.1 hx with rfl | hx
          · exact ⟨List.mem_cons_self, by simpa using hy⟩
          · have hold := ih List.mem_cons_self hx
            exact ⟨List.mem_cons_of_mem y hold.1, hold.2⟩
        · have hold := ih (List.mem_cons_of_mem first hpart) hx
          exact ⟨List.mem_cons_of_mem y hold.1, hold.2⟩

/-- No byte of a field is an ASCII space. -/
theorem isSpace_of_mem_fields {s f : Bytes} {b : UInt8} (hf : f ∈ fields s) (hb : b ∈ f)
    (hascii : b < 0x80) : isSpace b.toNat = false := by
  simp only [fields, List.mem_map, List.mem_filter] at hf
  obtain ⟨part, ⟨hpart, -⟩, rfl⟩ := hf
  obtain ⟨⟨r, e⟩, hr, hb⟩ := List.mem_flatMap.1 hb
  obtain ⟨hmem, hspace⟩ := mem_splitOnP _ hpart hr
  rcases bytes_of_mem_runes s hmem with ⟨c, rfl, rfl⟩ | hhigh
  · obtain rfl := List.mem_singleton.1 hb
    exact hspace
  · exact absurd hascii (UInt8.not_lt.2 (hhigh b hb))

/-! ## `TrimSpace` -/

theorem fields_trimLeft (s : Bytes) : fields (trimLeft s) = fields s := by
  rw [fields_eq, fields_eq, trimLeft,
    runes_of_suffix s (List.dropWhile_suffix fun r => isSpace r.1)]
  conv_rhs => rw [← List.takeWhile_append_dropWhile (p := fun r => isSpace r.1) (l := runes s)]
  exact (fieldsOf_spaces_append _ (List.all_eq_true.1 List.all_takeWhile)).symm

theorem lastStart_le (s : Bytes) (lim : Nat) : ∀ start, lastStart s lim start ≤ start
  | 0 => Nat.le_refl 0
  | start + 1 => by
    have ih := lastStart_le s lim start
    rw [lastStart]
    split_ifs <;> omega

/-- What is read backwards is as wide as what is read forwards from there;
a space read backwards is the same rune forwards. -/
theorem decodeLastRune_cases {s : Bytes} (hs : s ≠ []) :
    ∃ a b u, s = a ++ b :: u ∧ (decodeLastRune s).2 = u.length + 1 ∧
      (decodeRune (b :: u)).2 = u.length + 1 ∧
      (isSpace (decodeLastRune s).1 = true → (decodeRune (b :: u)).1 = (decodeLastRune s).1) := by
  have hlast := List.dropLast_append_getLast hs
  have hone : ∀ b, (decodeRune [b]).2 = 1 := fun b =>
    Nat.le_antisymm (decodeRune_width b []).2 (decodeRune_width b []).1
  rw [decodeLastRune, List.getLast?_eq_some_getLast hs]
  dsimp only
  split_ifs with hascii hstart
  · refine ⟨_, _, [], hlast.symm, rfl, hone _, fun _ => ?_⟩
    rw [decodeRune, if_pos hascii]
  · exact ⟨_, _, [], hlast.symm, rfl, hone _, fun h => by cases h⟩
  · have hle := lastStart_le s (s.length - 4) (s.length - 1)
    have hpos := List.length_pos_of_ne_nil hs
    generalize lastStart s (s.length - 4) (s.length - 1) = start at *
    rw [not_not] at hstart
    cases hdrop : s.drop start with
    | nil =>
      have := List.drop_eq_nil_iff.1 hdrop
      omega
    | cons b u =>
      have hlen := congrArg List.length hdrop
      rw [List.length_drop, List.length_cons] at hlen
      rw [hdrop] at hstart
      refine ⟨s.take start, b, u, ?_, by omega, by omega, fun _ => rfl⟩
      rw [← hdrop, List.take_append_drop]

theorem decodeRune_cont {c : UInt8} (h : isCont c = true) (s : Bytes) :
    decodeRune (c :: s) = (runeError, 1) := by
  simp only [isCont, Bool.and_eq_true, decide_eq_true_eq, UInt8.le_iff_toNat_le] at h
  have hlo : (0x80 : Nat) ≤ c.toNat := h.1
  have hhi : c.toNat ≤ (0xBF : Nat) := h.2
  simp only [decodeRune, UInt8.lt_iff_toNat_lt, UInt8.le_iff_toNat_le]
  rw [if_neg (by simpa using hlo), if_neg (by simp; omega), if_neg (by simp; omega), if_neg (by simp; omega)]

/-- Nothing but spaces. -/
structure Blank (s : Bytes) : Prop where
  aligned : Aligned s
  spaces : ∀ r ∈ runes s, isSpace r.1 = true

theorem blank_nil : Blank [] := ⟨nofun, nofun⟩

theorem Blank.append {s t : Bytes} (hs : Blank s) (ht : Blank t) : Blank (s ++ t) := by
  constructor
  · cases s with
    | nil => exact ht.aligned
    | cons b s => exact hs.aligned
  · rw [runes_append ht.aligned]
    exact List.forall_mem_append.2 ⟨hs.spaces, ht.spaces⟩

/-- A rune that is a space and takes the whole string. -/
theorem blank_of_decodeRune {b : UInt8} {u : Bytes} (hwidth : (decodeRune (b :: u)).2 = u.length + 1)
    (hspace : isSpace (decodeRune (b :: u)).1 = true) : Blank (b :: u) := by
  constructor
  · rintro c ⟨⟩
    by_contra hcont
    rw [decodeRune_cont (by simpa using hcont)] at hspace
    cases hspace
  · rw [runes_cons, hwidth]
    simpa [runes, runesFrom] using hspace

/-- The loop of `lastIndexFunc`: behind the rune it finds there are only
spaces, and if it finds none there is nothing else. -/
theorem lastNonSpace_spec (fuel : Nat) : ∀ s : Bytes, s.length ≤ fuel →
    match lastNonSpace fuel s with
    | some i => i < s.length ∧ ∃ t, Blank t ∧ s = s.take (i + (decodeRune (s.drop i)).2) ++ t
    | none => Blank s := by
  induction fuel with
  | zero =>
    intro s hlen
    obtain rfl := List.eq_nil_of_length_eq_zero (Nat.le_zero.1 hlen)
    exact blank_nil
  | succ fuel ih =>
    intro s hlen
    rw [lastNonSpace]
    by_cases hs : s = []
    · rw [if_pos hs, hs]
      exact blank_nil
    rw [if_neg hs]
    obtain ⟨a, b, u, rfl, hlast, hwidth, hrune⟩ := decodeLastRune_cases hs
    have hi : (a ++ b :: u).length - (decodeLastRune (a ++ b :: u)).2 = a.length := by
      rw [hlast, List.length_append, List.length_cons]
      omega
    simp only [hi, List.take_left]
    split_ifs with hspace
    · have hblank := blank_of_decodeRune hwidth (by rwa [hrune hspace])
      rw [List.length_append, List.length_cons] at hlen
      have hrest := ih a (by omega)
      generalize lastNonSpace fuel a = found at hrest ⊢
      cases found with
      | none => exact hrest.append hblank
      | some i =>
        obtain ⟨hlt, t, ht, ha⟩ := hrest
        obtain ⟨c, v, hdrop⟩ := List.exists_cons_of_ne_nil
          (mt List.drop_eq_nil_iff.1 (Nat.not_le.2 hlt))
        have hfit := (decodeRune_width c v).2
        rw [← hdrop, List.length_drop] at hfit
        refine ⟨by rw [List.length_append]; omega, t ++ b :: u, ht.append hblank, ?_⟩
        -- what is read at `i` does not reach the spaces behind `a`
        have hsame : decodeRune ((a ++ b :: u).drop i) = decodeRune (a.drop i) := by
          rw [List.drop_append_of_le_length hlt.le, hdrop, List.cons_append,
            decodeRune_append hblank.aligned]
        rw [hsame, List.take_append_of_le_length (by omega), ← List.append_assoc, ← ha]
    · refine ⟨by simp, [], blank_nil, ?_⟩
      rw [List.drop_left, hwidth, List.append_nil]
      exact (List.take_of_length_le (by simp)).symm

/-- `TrimRightFunc` removes spaces at the end. -/
theorem trimRight_append (s : Bytes) : ∃ t, Blank t ∧ s = trimRight s ++ t := by
  have hspec := lastNonSpace_spec s.length s (Nat.le_refl _)
  unfold trimRight
  generalize lastNonSpace s.length s = found at hspec ⊢
  cases found with
  | none => exact ⟨s, hspec, rfl⟩
  | some i => exact hspec.2

theorem fields_trimRight (s : Bytes) : fields (trimRight s) = fields s := by
  obtain ⟨t, ht, hs⟩ := trimRight_append s
  conv_rhs => rw [fields_eq, hs, runes_append ht.aligned, fieldsOf_append_spaces _ ht.spaces]
  rfl

/-- `Fields` finds the same in a text and in the trimmed text. -/
theorem fields_trimSpace (s : Bytes) : fields (trimSpace s) = fields s := by
  rw [trimSpace, fields_trimRight, fields_trimLeft]

end RediGo.Go
