/-
RediGo.Server.ReadCommand — one read of a connection
(`internal/server/server.go`, `readCommand` and `readCommandConn`) and what
becomes of a request that arrives in two pieces.

Both functions read once into a fresh buffer of 512 zero bytes.
`readCommandConn` parses the slice `buf[:n]`, whose capacity is still the
whole buffer. A bulk payload is cut out by a length taken from the wire, and
Go allows that slice expression up to the capacity, so the last token of a
truncated request can be completed with the zeros behind it.

`readElems_cut` computes what the element loop makes of a frame cut after
`n` bytes: it returns only if the header of the last token is there and the
whole payload has room in the buffer. `truncated_iff` reads off when the
command that comes out is not the one that was sent.
-/
import RediGo.Core.RespRoundTrip

namespace RediGo.Server

open RediGo.Go RediGo.Core

/-! ## The model -/

def bufSize : Nat := 512

/-- `buf` after one `Read`: at most `bufSize` bytes of what arrived, the
rest as `make` left it. -/
def readInto (arrived : Bytes) : Bytes :=
  arrived.take bufSize ++ List.replicate (bufSize - (arrived.take bufSize).length) 0

theorem length_readInto (arrived : Bytes) : (readInto arrived).length = bufSize := by
  have := List.length_take_le bufSize arrived
  rw [readInto, List.length_append, List.length_replicate]
  omega

/-- `buf[:n]`, where `n` is the number of bytes read -/
def readBuffer (arrived : Bytes) : Slice where
  arr := readInto arrived
  len := (arrived.take bufSize).length
  len_le := by
    rw [length_readInto]
    exact List.length_take_le ..
  cap_le := by
    rw [length_readInto]
    decide

/-- `readCommandConn`, when the read succeeds -/
def readCommandConn (arrived : Bytes) : Except Fault (Except Bytes Command) :=
  parseCmd (readBuffer arrived)

/-- `readCommand`, when the read succeeds: it parses the whole buffer, zeros
included. -/
def readCommand (arrived : Bytes) : Except Fault (Except Bytes Command) :=
  if (arrived.take bufSize).length = 0 then .ok (.error (lit "EOF"))
  else parseCmd
    { arr := readInto arrived
      len := bufSize
      len_le := by rw [length_readInto]
      cap_le := by
        rw [length_readInto]
        decide }

theorem readBuffer_vis (arrived : Bytes) : (readBuffer arrived).vis = arrived.take bufSize :=
  List.take_left

/-! ## A cut header -/

section Header

variable {α : Type} (p : UInt8) (l : List α) (T : Bytes) {m : Nat}

theorem header_cut_short (h : m < (formatLen l).length + 2) :
    (p :: (formatLen l ++ (lit "\r\n" ++ T))).take m = [] ∨
      ∃ w, (p :: (formatLen l ++ (lit "\r\n" ++ T))).take m = p :: w ∧ '\r'.toUInt8 ∉ w := by
  cases m with
  | zero => exact .inl rfl
  | succ m =>
    refine .inr ⟨_, List.take_succ_cons, ?_⟩
    rw [List.take_append_of_le_length (by omega)]
    exact fun hmem => (line_formatLen l []).1 (List.mem_of_mem_take hmem)

theorem header_cut_long (h : (formatLen l).length + 2 ≤ m) :
    ∃ w, (p :: (formatLen l ++ (lit "\r\n" ++ T))).take m = p :: w ∧ Line (formatLen l) w := by
  obtain ⟨k, rfl⟩ := Nat.exists_eq_add_of_le h
  have hm : (formatLen l).length + 2 + k = (formatLen l).length + (k + 1) + 1 := by omega
  refine ⟨formatLen l ++ '\r'.toUInt8 :: ('\n'.toUInt8 :: T).take k, ?_,
    (line_formatLen l []).1, _, rfl⟩
  rw [hm, List.take_succ_cons, List.take_length_add_append]
  rfl

end Header

/-! ## A cut element -/

/-- The run ends without a value. -/
def NoValue {α : Type} (r : Except Fault (Outcome α)) : Prop := ∀ o, r ≠ .ok (.ok o)

theorem noValue_readElems {dec : Decoder} {d : Slice} {k pos : Nat} (h : pos ≤ d.len)
    (hdec : NoValue (dec (d.suffix pos h))) : NoValue (readElems dec d (k + 1) pos) := by
  intro o ho
  rcases hval : dec (d.suffix pos h) with f | err | v
  · rw [readElems_fault h hval] at ho
    cases ho
  · rw [readElems_stop h hval] at ho
    cases ho
  · exact hdec v hval

theorem noValue_wrapRead {α : Type} {f : α → Value} {r : Except Fault (Outcome α)}
    (h : NoValue r) : NoValue (wrapRead f r) := by
  intro o ho
  rcases r with fault | err | v
  · cases ho
  · cases ho
  · exact h v rfl

theorem encodeString_eq (x : Bytes) :
    encodeString x = '$'.toUInt8 :: (formatLen x ++ (lit "\r\n" ++ (x ++ lit "\r\n"))) := by
  unfold encodeString
  simp only [List.append_assoc]
  rfl

/-- A bulk string of which the first `m` bytes arrived: without its header
there is no value, with its header the payload is cut out of the capacity. -/
theorem decodeFuel_cut (fuel : Nat) {m : Nat} {s : Slice} {x : Bytes} (hx : x.length < 2 ^ 63)
    (hs : s.vis = (encodeString x).take m) (hfuel : s.len < fuel) :
    (m < (formatLen x).length + 2 → NoValue (decodeFuel fuel s)) ∧
    ((formatLen x).length + 2 ≤ m → decodeFuel fuel s =
      if (formatLen x).length + 3 + x.length ≤ s.arr.length then
        .ok (.ok (.str ((s.arr.drop ((formatLen x).length + 3)).take x.length),
          (encodeString x).length))
      else .error .slice) := by
  obtain ⟨f, rfl⟩ := Nat.exists_eq_add_of_lt (Nat.zero_lt_of_lt hfuel)
  rw [Nat.zero_add, decodeFuel]
  rw [encodeString_eq] at hs
  constructor
  · intro hm o ho
    rcases header_cut_short '$'.toUInt8 x (x ++ lit "\r\n") hm with hnil | ⟨w, hw, hcr⟩
    · rw [decodeWith_nil _ (hs.trans hnil)] at ho
      cases ho
    · rw [decodeWith_noLine _ (hs.trans hw) (by decide) hcr] at ho
      cases ho
  · intro hm
    obtain ⟨w, hw, hl⟩ := header_cut_long '$'.toUInt8 x (x ++ lit "\r\n") hm
    exact decodeWith_header _ hx (hs.trans hw) hl

/-! ## A cut frame -/

section Frame

variable {F : Bytes} {n fuel : Nat} {d : Slice}

/-- The bytes that arrived of an element that starts within them. -/
theorem suffix_vis_cut (hvis : d.vis = F.take n) {pre rest : Bytes} (hF : F = pre ++ rest)
    (hle : pre.length ≤ d.len) (hn : pre.length ≤ n) :
    (d.suffix pre.length hle).vis = rest.take (n - pre.length) := by
  rw [d.suffix_vis, hvis, hF, List.take_append, List.take_of_length_le hn, List.drop_left]

/-- The last element. `ps` is the position of its payload. -/
theorem readElems_cut_last (hvis : d.vis = F.take n) (hcap : d.arr.length = bufSize)
    (hlen : d.len = n) (hF : F.length ≤ 2 ^ 48) (hfuel : d.len ≤ fuel) {last pre : Bytes} {ps : Nat}
    (hps : ps + last.length + 2 = F.length) (hpre : 0 < pre.length)
    (hcut : F = pre ++ encodeString last) :
    (ps ≤ n + 1 ∧ F.length ≤ bufSize + 2 →
      readElems (decodeFuel fuel) d 1 pre.length =
        .ok (.ok ([.str ((d.arr.drop ps).take last.length)], F.length))) ∧
    (¬ (ps ≤ n + 1 ∧ F.length ≤ bufSize + 2) →
      NoValue (readElems (decodeFuel fuel) d 1 pre.length)) := by
  have hFlen := congrArg List.length hcut
  rw [List.length_append, length_encodeString] at hFlen
  by_cases hle : pre.length ≤ d.len
  case neg =>
    rw [readElems_outside (by omega)]
    exact ⟨fun h => by omega, fun _ o ho => by cases ho⟩
  have hs := suffix_vis_cut hvis hcut hle (by omega)
  obtain ⟨hshort, hlong⟩ := decodeFuel_cut fuel (by omega) hs (by rw [d.suffix_len]; omega)
  by_cases hm : n - pre.length < (formatLen last).length + 2
  · exact ⟨fun h => by omega, fun _ => noValue_readElems hle (hshort hm)⟩
  have hdec := hlong (by omega)
  rw [d.suffix_arr, List.length_drop, List.drop_drop] at hdec
  by_cases hfit : F.length ≤ bufSize + 2
  · rw [if_pos (by omega)] at hdec
    have hpos : pre.length + ((formatLen last).length + 3) = ps := by omega
    have hend : pre.length + (encodeString last).length = F.length := by
      rw [hcut, List.length_append]
    refine ⟨fun _ => ?_, fun h => absurd ⟨by omega, hfit⟩ h⟩
    rw [readElems_next hle hdec, readElems, hpos, hend]
    rfl
  · rw [if_neg (by omega)] at hdec
    refine ⟨fun h => absurd h.2 hfit, fun _ o ho => ?_⟩
    rw [readElems_fault hle hdec] at ho
    cases ho

/-- An element that did not arrive whole leaves no room for the next. -/
theorem noValue_cut_inner (hvis : d.vis = F.take n) (hlen : d.len = n) (hF : F.length ≤ 2 ^ 48)
    (hfuel : d.len ≤ fuel) {x pre rest : Bytes} (hpre : 0 < pre.length)
    (hcut : F = pre ++ (encodeString x ++ rest)) (hn : n < pre.length + (encodeString x).length)
    (k : Nat) : NoValue (readElems (decodeFuel fuel) d (k + 2) pre.length) := by
  have hFlen := congrArg List.length hcut
  rw [List.length_append, List.length_append, length_encodeString] at hFlen
  by_cases hle : pre.length ≤ d.len
  case neg =>
    rw [readElems_outside (by omega)]
    exact fun o ho => by cases ho
  have hs : (d.suffix pre.length hle).vis = (encodeString x).take (n - pre.length) := by
    rw [suffix_vis_cut hvis hcut hle (by omega), List.take_append_of_le_length (by omega)]
  obtain ⟨hshort, hlong⟩ := decodeFuel_cut fuel (by omega) hs (by rw [d.suffix_len]; omega)
  by_cases hm : n - pre.length < (formatLen x).length + 2
  · exact noValue_readElems hle (hshort hm)
  have hdec := hlong (by omega)
  intro o ho
  split at hdec
  · -- the payload is completed from the buffer, but the next element starts past the data
    rw [readElems_next hle hdec, readElems_outside (by omega)] at ho
    cases ho
  · rw [readElems_fault hle hdec] at ho
    cases ho

/-- The element loop on a frame cut after `n` bytes. -/
theorem readElems_cut (hvis : d.vis = F.take n) (hcap : d.arr.length = bufSize)
    (hlen : d.len = n) (hF : F.length ≤ 2 ^ 48) (hfuel : d.len ≤ fuel) {last : Bytes} {ps : Nat}
    (hps : ps + last.length + 2 = F.length) (init : List Bytes) {pre : Bytes}
    (hpre : 0 < pre.length) (hcut : F = pre ++ (init ++ [last]).flatMap encodeString) :
    (ps ≤ n + 1 ∧ F.length ≤ bufSize + 2 →
      readElems (decodeFuel fuel) d (init.length + 1) pre.length =
        .ok (.ok (init.map .str ++ [.str ((d.arr.drop ps).take last.length)], F.length))) ∧
    (¬ (ps ≤ n + 1 ∧ F.length ≤ bufSize + 2) →
      NoValue (readElems (decodeFuel fuel) d (init.length + 1) pre.length)) := by
  induction init generalizing pre with
  | nil => exact readElems_cut_last hvis hcap hlen hF hfuel hps hpre (by simpa using hcut)
  | cons x init ih =>
    rw [List.cons_append, List.flatMap_cons] at hcut
    have hFlen := congrArg List.length hcut
    rw [List.length_append, List.length_append, List.flatMap_append, List.length_append,
      List.flatMap_singleton, length_encodeString last] at hFlen
    by_cases hn : n < pre.length + (encodeString x).length
    · exact ⟨fun h => by omega,
        fun _ => noValue_cut_inner hvis hlen hF hfuel hpre hcut hn init.length⟩
    · have hle : pre.length ≤ d.len := by omega
      have hs : (d.suffix pre.length hle).vis = encodeString x ++
          ((init ++ [last]).flatMap encodeString).take (n - pre.length - (encodeString x).length) := by
        rw [suffix_vis_cut hvis hcut hle (by omega), List.take_append,
          List.take_of_length_le (by omega)]
      have hdec := decodes_string x fuel _ _ (by rw [d.suffix_len]; omega) hs
      obtain ⟨hyes, hno⟩ := @ih (pre ++ encodeString x)
        (by rw [List.length_append]; omega) (by rw [List.append_assoc, hcut])
      rw [List.length_append] at hyes hno
      rw [List.length_cons, readElems_next hle hdec]
      constructor
      · intro h
        rw [hyes h]
        rfl
      · intro h o ho
        rcases hrest : readElems (decodeFuel fuel) d (init.length + 1)
            (pre.length + (encodeString x).length) with f | err | v
        · rw [hrest] at ho
          cases ho
        · rw [hrest] at ho
          cases ho
        · exact hno h v hrest

theorem length_le_flatMap (l : List Bytes) : l.length ≤ (l.flatMap encodeString).length := by
  induction l with
  | nil => exact Nat.le_refl _
  | cons x l ih =>
    rw [List.flatMap_cons, List.length_append, length_encodeString, List.length_cons]
    omega

theorem encodeStringArray_eq (l : List Bytes) :
    encodeStringArray l =
      '*'.toUInt8 :: (formatLen l ++ (lit "\r\n" ++ l.flatMap encodeString)) := by
  unfold encodeStringArray
  simp only [List.append_assoc]
  rfl

/-- What `DecodeOne` makes of a frame cut after `n` bytes. -/
theorem decodeOne_cut (hvis : d.vis = F.take n) (hcap : d.arr.length = bufSize)
    (hlen : d.len = n) (hF : F.length ≤ 2 ^ 48) {last : Bytes} {ps : Nat}
    (hps : ps + last.length + 2 = F.length) {init : List Bytes}
    (hframe : F = encodeStringArray (init ++ [last])) :
    (ps ≤ n + 1 ∧ F.length ≤ bufSize + 2 →
      decodeOne d =
        .ok (.ok (.arr (init.map .str ++ [.str ((d.arr.drop ps).take last.length)]), F.length))) ∧
    (¬ (ps ≤ n + 1 ∧ F.length ≤ bufSize + 2) → NoValue (decodeOne d)) := by
  have hcut : F = ('*'.toUInt8 :: (formatLen (init ++ [last]) ++ lit "\r\n")) ++
      (init ++ [last]).flatMap encodeString := by
    rw [hframe, encodeStringArray_eq, List.cons_append, List.append_assoc]
  have hprelen : ('*'.toUInt8 :: (formatLen (init ++ [last]) ++ lit "\r\n")).length =
      (formatLen (init ++ [last])).length + 3 := by
    rw [List.length_cons, List.length_append]
    rfl
  have hFlen := congrArg List.length hcut
  have hcount := length_le_flatMap (init ++ [last])
  rw [List.length_append, hprelen] at hFlen
  rw [encodeStringArray_eq] at hframe
  by_cases hm : n < (formatLen (init ++ [last])).length + 2
  · have hinner : (formatLen (init ++ [last])).length + 3 ≤ ps := by
      have := length_encodeString last
      rw [List.flatMap_append, List.length_append, List.flatMap_singleton] at hFlen
      omega
    refine ⟨fun h => by omega, fun _ o ho => ?_⟩
    rw [decodeOne, decodeFuel] at ho
    rcases header_cut_short '*'.toUInt8 (init ++ [last]) _ hm with hnil | ⟨w, hw, hcr⟩
    · rw [decodeWith_nil _ (hvis.trans (hframe ▸ hnil))] at ho
      cases ho
    · rw [decodeWith_noLine _ (hvis.trans (hframe ▸ hw)) (by decide) hcr] at ho
      cases ho
  · obtain ⟨w, hw, hl⟩ := header_cut_long '*'.toUInt8 (init ++ [last])
      ((init ++ [last]).flatMap encodeString) (Nat.le_of_not_lt hm)
    have hvalue : (lineValue (formatLen (init ++ [last]))).toInt = (init ++ [last]).length :=
      toInt_lineValue_formatLen (by omega)
    obtain ⟨hyes, hno⟩ := readElems_cut hvis hcap hlen hF (Nat.le_refl d.len) hps init
      (by rw [hprelen]; omega) hcut
    rw [hprelen] at hyes hno
    rw [decodeOne, decodeFuel, decodeWith_array _ (hvis.trans (hframe ▸ hw)) hl]
    unfold makeLen
    rw [hvalue, Int.toNat_natCast, List.length_append, List.length_singleton]
    by_cases hmax : init.length + 1 ≤ maxElems
    · rw [if_pos (by omega)]
      constructor
      · intro h
        show wrapRead .arr (readElems (decodeFuel d.len) d (init.length + 1) _) = _
        rw [hyes h]
        rfl
      · intro h
        exact noValue_wrapRead (hno h)
    · rw [if_neg (by omega)]
      refine ⟨fun h => ?_, fun _ o ho => by cases ho⟩
      rw [List.length_append, List.length_singleton] at hcount
      unfold maxElems at hmax
      unfold bufSize at h
      omega

end Frame

/-! ## What is put in place of the missing bytes -/

/-- The token with all bytes from position `k` on replaced by zeros. -/
def zeroFrom (k : Nat) (x : Bytes) : Bytes := x.take k ++ List.replicate (x.length - k) 0

/-- The payload as it is cut out of the buffer. -/
theorem payload_cut {F last : Bytes} {n ps : Nat} (hlast : F.drop ps = last ++ lit "\r\n")
    (hn : n < F.length) (hps : ps ≤ n + 1) (hroom : ps + last.length ≤ bufSize) :
    ((F.take n ++ List.replicate (bufSize - n) 0).drop ps).take last.length =
      zeroFrom (n - ps) last := by
  have hsource : ∀ j, j < last.length → F[ps + j]? = last[j]? := by
    intro j hj
    rw [← List.getElem?_drop, hlast, List.getElem?_append_left hj]
  apply List.ext_getElem?
  intro j
  unfold zeroFrom
  by_cases hj : j < last.length
  · rw [List.getElem?_take_of_lt hj, List.getElem?_drop]
    by_cases harrived : ps + j < n
    · rw [List.getElem?_append_left (by rw [List.length_take]; omega),
        List.getElem?_take_of_lt harrived, hsource j hj,
        List.getElem?_append_left (by rw [List.length_take]; omega),
        List.getElem?_take_of_lt (by omega)]
    · rw [List.getElem?_append_right (by rw [List.length_take]; omega),
        List.getElem?_append_right (by rw [List.length_take]; omega),
        List.getElem?_replicate_of_lt (by rw [List.length_take]; omega),
        List.getElem?_replicate_of_lt (by rw [List.length_take]; omega)]
  · rw [List.getElem?_eq_none (by rw [List.length_take]; omega), List.getElem?_eq_none]
    rw [List.length_append, List.length_take, List.length_replicate]
    omega

theorem count_zero_eq_length_iff (x : Bytes) : x.count 0 = x.length ↔ ∀ b ∈ x, b = 0 := by
  rw [List.count_eq_length]
  exact ⟨fun h b hb => (h b hb).symm, fun h b hb => (h b hb).symm⟩

theorem count_zeroFrom (k : Nat) (x : Bytes) :
    (zeroFrom k x).count 0 = x.count 0 ↔ ∀ b ∈ x.drop k, b = 0 := by
  have hcut := congrArg (List.count 0) (List.take_append_drop k x)
  rw [List.count_append] at hcut
  rw [zeroFrom, List.count_append, List.count_replicate_self, ← count_zero_eq_length_iff,
    List.length_drop]
  omega

theorem zeroFrom_eq_iff (k : Nat) (x : Bytes) : zeroFrom k x = x ↔ ∀ b ∈ x.drop k, b = 0 := by
  constructor
  · intro h
    rw [← count_zeroFrom, h]
  · intro h
    have hdrop : x.drop k = List.replicate (x.length - k) 0 := by
      rw [List.eq_replicate_iff, List.length_drop]
      exact ⟨rfl, h⟩
    rw [zeroFrom, ← hdrop, List.take_append_drop]

/-- The name of a command does not hide the zeros: `ToUpper` keeps their
number. -/
theorem toUpper_zeroFrom_eq_iff (k : Nat) (x : Bytes) :
    toUpper (zeroFrom k x) = toUpper x ↔ ∀ b ∈ x.drop k, b = 0 := by
  constructor
  · intro h
    rw [← count_zeroFrom, ← count_zero_toUpper, ← count_zero_toUpper x, h]
  · intro h
    rw [(zeroFrom_eq_iff k x).2 h]

/-! ## A truncated request -/

/-- Where the payload of the last token starts in the frame. -/
def payloadStart (tokens : List Bytes) (h : tokens ≠ []) : Nat :=
  (encodeStringArray tokens).length - 2 - (tokens.getLast h).length

/-- The first `n` bytes of the frame reach the end of the last header, the
last payload has room in the buffer, and one of its missing bytes is not
zero. -/
def ZeroPadded (tokens : List Bytes) (h : tokens ≠ []) (n : Nat) : Prop :=
  payloadStart tokens h ≤ n + 1 ∧ (encodeStringArray tokens).length ≤ bufSize + 2 ∧
    ∃ b ∈ (tokens.getLast h).drop (n - payloadStart tokens h), b ≠ 0

instance (tokens : List Bytes) (h : tokens ≠ []) (n : Nat) : Decidable (ZeroPadded tokens h n) :=
  have : Decidable (∃ b ∈ (tokens.getLast h).drop (n - payloadStart tokens h), b ≠ 0) :=
    List.decidableBEx (· ≠ 0) _
  inferInstanceAs (Decidable (_ ∧ _ ∧ ∃ b ∈ _, _))

theorem commandOf_strings {t : Bytes} {ts : List Bytes} :
    commandOf (.arr ((t :: ts).map .str)) = .ok { Cmd := toUpper t, Args := ts } := by
  rw [commandOf, tokensOf_strings]

/-- Replacing the last token changes the command exactly if it changes the
token. -/
theorem command_zeroFrom_iff {tokens : List Bytes} (h : tokens ≠ []) (k : Nat) (c : Command)
    (hc : commandOf (.arr ((tokens.dropLast ++ [zeroFrom k (tokens.getLast h)]).map .str)) = .ok c) :
    (c.Cmd = toUpper (tokens.head h) ∧ c.Args = tokens.tail) ↔
      ∀ b ∈ (tokens.getLast h).drop k, b = 0 := by
  match tokens, h with
  | [t], h =>
    rw [show [t].dropLast ++ [zeroFrom k ([t].getLast h)] = [zeroFrom k t] from rfl,
      commandOf_strings] at hc
    cases hc
    exact (and_iff_left rfl).trans (toUpper_zeroFrom_eq_iff k t)
  | t :: u :: ts, h =>
    have hshape : (t :: u :: ts).dropLast ++ [zeroFrom k ((t :: u :: ts).getLast h)] =
        t :: ((u :: ts).dropLast ++ [zeroFrom k ((u :: ts).getLast (by simp))]) := rfl
    rw [hshape, commandOf_strings] at hc
    cases hc
    have htail : (t :: u :: ts).tail = (u :: ts).dropLast ++ [(u :: ts).getLast (by simp)] :=
      (List.dropLast_append_getLast (by simp)).symm
    rw [htail, List.head_cons, and_iff_right rfl, List.append_right_inj, List.singleton_inj]
    exact zeroFrom_eq_iff k _

/-- A frame ends with its last payload. -/
theorem drop_payloadStart {tokens : List Bytes} (h : tokens ≠ []) :
    payloadStart tokens h + (tokens.getLast h).length + 2 = (encodeStringArray tokens).length ∧
      (encodeStringArray tokens).drop (payloadStart tokens h) =
        tokens.getLast h ++ lit "\r\n" := by
  obtain ⟨Z, hZ⟩ : ∃ Z, encodeStringArray tokens = Z ++ (tokens.getLast h ++ lit "\r\n") := by
    conv in encodeStringArray tokens => rw [← List.dropLast_append_getLast h]
    rw [encodeStringArray, List.flatMap_append, List.flatMap_singleton, encodeString]
    simp only [← List.append_assoc]
    exact ⟨_, rfl⟩
  have hlen : (encodeStringArray tokens).length = Z.length + ((tokens.getLast h).length + 2) := by
    rw [hZ, List.length_append, List.length_append]
    rfl
  have hstart : payloadStart tokens h = Z.length := by
    unfold payloadStart
    omega
  refine ⟨by omega, ?_⟩
  rw [hstart, hZ, List.drop_left]

/-- A request of which only the first `n` bytes arrived is executed as
another command exactly if its last token was completed with zeros. -/
theorem truncated_iff (tokens : List Bytes) (h : tokens ≠ []) (frame : Slice)
    (hframe : frame.vis = encodeStringArray tokens) (n : Nat) (hn : n < frame.len)
    (hbuf : n ≤ bufSize) :
    (∀ c, readCommandConn (frame.vis.take n) = .ok (.ok c) →
      c.Cmd = toUpper (tokens.head h) ∧ c.Args = tokens.tail) ↔ ¬ ZeroPadded tokens h n := by
  have hF : frame.vis.length ≤ 2 ^ 48 := by
    rw [frame.vis_length]
    exact Nat.le_trans frame.len_le frame.cap_le
  rw [← frame.vis_length] at hn
  have hread : (frame.vis.take n).take bufSize = frame.vis.take n := by
    rw [List.take_take, Nat.min_eq_right hbuf]
  have hlen : (frame.vis.take n).length = n := by
    rw [List.length_take]
    omega
  have hvis : (readBuffer (frame.vis.take n)).vis = frame.vis.take n := by
    rw [readBuffer_vis, hread]
  have harr : (readBuffer (frame.vis.take n)).arr =
      frame.vis.take n ++ List.replicate (bufSize - n) 0 := by
    show readInto _ = _
    rw [readInto, hread, hlen]
  obtain ⟨hps, hdrop⟩ := drop_payloadStart h
  rw [← hframe] at hps hdrop
  obtain ⟨hyes, hno⟩ := decodeOne_cut hvis (length_readInto _)
    (by rw [← Slice.vis_length, hvis, hlen]) hF hps
    (hframe.trans (by rw [List.dropLast_append_getLast h]))
  unfold readCommandConn ZeroPadded
  rw [← hframe]
  by_cases hreturns : payloadStart tokens h ≤ n + 1 ∧ frame.vis.length ≤ bufSize + 2
  · -- the last header arrived and the payload has room: a command comes out
    have hdec := hyes hreturns
    rw [harr, payload_cut hdrop hn hreturns.1 (by omega)] at hdec
    have hstrs : tokens.dropLast.map Value.str ++
        [.str (zeroFrom (n - payloadStart tokens h) (tokens.getLast h))] =
        (tokens.dropLast ++ [zeroFrom (n - payloadStart tokens h) (tokens.getLast h)]).map .str := by
      rw [List.map_append, List.map_singleton]
    rw [hstrs] at hdec
    rw [parseCmd_value hdec]
    have hiff := command_zeroFrom_iff h (n - payloadStart tokens h)
    have hcmd : ∃ c, commandOf (.arr ((tokens.dropLast ++
        [zeroFrom (n - payloadStart tokens h) (tokens.getLast h)]).map .str)) = .ok c := by
      rw [commandOf, tokensOf_strings]
      cases tokens.dropLast <;> exact ⟨_, rfl⟩
    obtain ⟨c, hc⟩ := hcmd
    rw [hc]
    constructor
    · rintro hall ⟨-, -, b, hb, hne⟩
      exact hne ((hiff c hc).1 (hall c rfl) b hb)
    · intro hpad c' hc'
      cases hc'
      apply (hiff c hc).2
      intro b hb
      by_contra hne
      exact hpad ⟨hreturns.1, hreturns.2, b, hb, hne⟩
  · constructor
    · intro _ hpad
      exact hreturns ⟨hpad.1, hpad.2.1⟩
    · intro _ c hc
      rcases hdec : decodeOne (readBuffer (frame.vis.take n)) with f | err | v
      · rw [parseCmd_fault hdec] at hc
        cases hc
      · obtain ⟨err', herr⟩ := parseCmd_error hdec
        rw [herr] at hc
        cases hc
      · exact absurd hdec (hno hreturns v)

/-- A `SET` that loses its last four bytes stores a value padded with zeros. -/
theorem truncated_set :
    lit "*3\r\n$3\r\nSET\r\n$1\r\nk\r\n$5\r\nhel" =
        (encodeStringArray [lit "SET", lit "k", lit "hello"]).take 27 ∧
      readCommandConn (lit "*3\r\n$3\r\nSET\r\n$1\r\nk\r\n$5\r\nhel") =
        .ok (.ok { Cmd := lit "SET", Args := [lit "k", lit "hel\x00\x00"] }) := by
  constructor
  · rfl
  · decide +kernel

/-- Losing the line break at the end changes nothing. -/
theorem truncated_iff_set :
    ¬ ZeroPadded [lit "SET", lit "k", lit "hello"] (by simp) 30 ∧
      ∀ c, readCommandConn (lit "*3\r\n$3\r\nSET\r\n$1\r\nk\r\n$5\r\nhello\r") = .ok (.ok c) →
        c.Cmd = lit "SET" ∧ c.Args = [lit "k", lit "hello"] := by
  have hpad : ¬ ZeroPadded [lit "SET", lit "k", lit "hello"] (by simp) 30 := by decide
  have h := (truncated_iff [lit "SET", lit "k", lit "hello"] (by simp)
    { arr := encodeStringArray [lit "SET", lit "k", lit "hello"]
      len := 31, len_le := by decide, cap_le := by decide } rfl 30 (by decide) (by decide)).2 hpad
  exact ⟨hpad, h⟩

end RediGo.Server
