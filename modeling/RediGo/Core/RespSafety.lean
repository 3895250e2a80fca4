/-
RediGo.Core.RespSafety — on which bytes the request parser returns.

The readers look for a carriage return without a bound and trust the
lengths they read, so `ParseCmd` panics on many inputs: a single `*` is
enough (`parseCmd_star`). `Readable` is the grammar of the inputs it
survives. It is a grammar of bytes and knows nothing of the readers:

* every header has its carriage return within the data,
* a bulk length is -1, or not negative with its payload within the data,
* an array length is not negative and can be allocated,
* every element starts within the data.

`parseCmd_returns_iff` says that the grammar is exact. `data.clip` is the
slice with nothing behind its end, so a run that returns on it neither
indexed nor sliced past the end of the data.
-/
import RediGo.Core.RespReaders

namespace RediGo.Core

open RediGo.Go

/-! ## The grammar -/

mutual

/-- `Readable b r`: the bytes `b` can be read as a value that ends at the
position in `r`, or, with `r = none`, as one that breaks off where an
element should start. -/
inductive Readable : Bytes → Option Nat → Prop
  | nothing : Readable [] none
  | unknown {p : UInt8} {w : Bytes} : p ∉ prefixes → Readable (p :: w) (some 0)
  | line {p : UInt8} {w body : Bytes} :
    p = '+'.toUInt8 ∨ p = '-'.toUInt8 ∨ p = ':'.toUInt8 → Line body w →
    Readable (p :: w) (some (body.length + 3))
  | null {w body : Bytes} :
    Line body w → lineValue body = -1 → Readable ('$'.toUInt8 :: w) (some (body.length + 5))
  | bulk {w body : Bytes} {n : Nat} :
    Line body w → (lineValue body).toInt = n → body.length + 3 + n ≤ w.length + 1 →
    Readable ('$'.toUInt8 :: w) (some (body.length + 3 + n + 2))
  | array {w body : Bytes} {k : Nat} {r : Option Nat} :
    Line body w → (lineValue body).toInt = k → k ≤ maxElems →
    ReadableSeq ('*'.toUInt8 :: w) k (body.length + 3) r → Readable ('*'.toUInt8 :: w) r

/-- `k` elements can be read from position `pos` of `b` on. -/
inductive ReadableSeq : Bytes → Nat → Nat → Option Nat → Prop
  | done {b : Bytes} {pos : Nat} : ReadableSeq b 0 pos (some pos)
  | stop {b : Bytes} {k pos : Nat} :
    pos ≤ b.length → Readable (b.drop pos) none → ReadableSeq b (k + 1) pos none
  | next {b : Bytes} {k pos n : Nat} {r : Option Nat} :
    pos ≤ b.length → Readable (b.drop pos) (some n) → ReadableSeq b k (pos + n) r →
    ReadableSeq b (k + 1) pos r

end

/-- Where a reader's result ends. -/
def endOf {α : Type} : Outcome α → Option Nat
  | .error _ => none
  | .ok (_, n) => some n

/-! ## What can be read is read -/

/-- The decoder returns on every readable slice shorter than `n`. -/
def Reads (dec : Decoder) (n : Nat) : Prop :=
  ∀ (d : Slice) (r : Option Nat), d.len < n → Readable d.vis r →
    ∃ o, dec d = .ok o ∧ endOf o = r

theorem endOf_consElem (v : Value) (o : Outcome (List Value)) : endOf (consElem v o) = endOf o := by
  cases o <;> rfl

theorem Reads.readElems {dec : Decoder} {d : Slice} (hdec : Reads dec d.len) {k pos : Nat}
    {r : Option Nat} (hpos : 0 < pos) (h : ReadableSeq d.vis k pos r) :
    ∃ o, readElems dec d k pos = .ok o ∧ endOf o = r := by
  induction k generalizing pos r with
  | zero =>
    cases h
    exact ⟨_, rfl, rfl⟩
  | succ k ih =>
    -- the element itself lies in a shorter slice
    have hread : ∀ (hle : pos ≤ d.len) (r' : Option Nat), Readable (d.vis.drop pos) r' →
        ∃ o, dec (d.suffix pos hle) = .ok o ∧ endOf o = r' := by
      intro hle r' hr
      exact hdec (d.suffix pos hle) r' (by rw [d.suffix_len]; omega) (by rwa [d.suffix_vis])
    cases h with
    | stop hle hr =>
      rw [d.vis_length] at hle
      obtain ⟨o, ho, hend⟩ := hread hle none hr
      cases o with
      | error err => exact ⟨_, readElems_stop hle ho, rfl⟩
      | ok p => cases hend
    | next hle hr hrest =>
      rw [d.vis_length] at hle
      obtain ⟨o, ho, hend⟩ := hread hle _ hr
      cases o with
      | error err => cases hend
      | ok p =>
        cases hend
        obtain ⟨o', ho', hend'⟩ := ih (by omega) hrest
        refine ⟨consElem p.1 o', ?_, by rw [endOf_consElem, hend']⟩
        rw [readElems_next hle ho, ho']
        rfl

/-- One level of nesting. -/
theorem Reads.decodeWith {dec : Decoder} {d : Slice} (hdec : Reads dec d.len) {r : Option Nat}
    (h : Readable d.vis r) : ∃ o, decodeWith dec d = .ok o ∧ endOf o = r := by
  generalize hd : d.vis = b at h
  have hlen := d.vis_length
  cases h with
  | nothing => exact ⟨_, decodeWith_nil dec hd, rfl⟩
  | unknown hp => exact ⟨_, decodeWith_unknown dec hd hp, rfl⟩
  | line hp hl =>
    rcases hp with hp | hp | rfl
    · exact ⟨_, decodeWith_line dec hd (.inl hp) hl, rfl⟩
    · exact ⟨_, decodeWith_line dec hd (.inr hp) hl, rfl⟩
    · exact ⟨_, decodeWith_int dec hd hl, rfl⟩
  | null hl hv => exact ⟨_, decodeWith_null dec hd hl hv, rfl⟩
  | bulk hl hv hfit =>
    rename_i w body n
    have hne : lineValue body ≠ -1 := by
      intro h
      rw [h] at hv
      have : (-1 : Int) = n := hv
      omega
    have hcap := d.len_le
    rw [hd, List.length_cons] at hlen
    refine ⟨_, (decodeWith_bulk dec hd hl hne).trans (if_pos ?_), ?_⟩
    · rw [hv]
      omega
    · rw [hv]
      rfl
  | array hl hv hk hseq =>
    rename_i w body k
    have hmake : makeLen (lineValue body) = .ok k := by
      unfold makeLen
      rw [if_pos (by omega), hv]
      rfl
    obtain ⟨o, ho, hend⟩ := hdec.readElems (Nat.succ_pos _) (hd ▸ hseq)
    rw [decodeWith_array dec hd hl, hmake]
    show ∃ o', wrapRead .arr (RediGo.Core.readElems dec d k (body.length + 3)) = .ok o' ∧ _
    rw [ho]
    cases o with
    | error err => exact ⟨_, rfl, hend⟩
    | ok p => exact ⟨_, rfl, hend⟩

theorem reads_decodeFuel (fuel : Nat) : Reads (decodeFuel fuel) fuel := by
  induction fuel with
  | zero => intro d r hlt
            omega
  | succ fuel ih =>
    intro d r hlt h
    have hdec : Reads (decodeFuel fuel) d.len := fun d' r' hlt' => ih d' r' (by omega)
    exact hdec.decodeWith h

/-! ## What is read can be read

Only for a slice with nothing behind its end: otherwise a payload may
reach past the data and the decoder still returns. -/

/-- Nothing lies behind the end of the slice. -/
def Tight (d : Slice) : Prop := d.arr.length = d.len

theorem tight_clip (d : Slice) : Tight d.clip := d.vis_length

theorem Tight.suffix {d : Slice} (h : Tight d) {pos : Nat} (hle : pos ≤ d.len) :
    Tight (d.suffix pos hle) := by
  unfold Tight at *
  rw [d.suffix_arr, d.suffix_len, List.length_drop, h]

/-- Every tight slice shorter than `n` on which the decoder returns is
readable. -/
def Refuses (dec : Decoder) (n : Nat) : Prop :=
  ∀ (d : Slice) (o : Outcome Value), d.len < n → Tight d → dec d = .ok o →
    Readable d.vis (endOf o)

theorem Refuses.readElems {dec : Decoder} {d : Slice} (hdec : Refuses dec d.len) (ht : Tight d)
    {k pos : Nat} {o : Outcome (List Value)} (hpos : 0 < pos)
    (h : readElems dec d k pos = .ok o) : ReadableSeq d.vis k pos (endOf o) := by
  induction k generalizing pos o with
  | zero =>
    cases h
    exact .done
  | succ k ih =>
    by_cases hle : pos ≤ d.len
    case neg =>
      rw [readElems_outside (by omega)] at h
      cases h
    have hvis : pos ≤ d.vis.length := by rwa [d.vis_length]
    have hread : ∀ o', dec (d.suffix pos hle) = .ok o' → Readable (d.vis.drop pos) (endOf o') := by
      intro o' ho'
      rw [← d.suffix_vis pos hle]
      exact hdec _ o' (by rw [d.suffix_len]; omega) (ht.suffix hle) ho'
    cases hval : dec (d.suffix pos hle) with
    | error f =>
      rw [readElems_fault hle hval] at h
      cases h
    | ok o' =>
      have hr := hread o' hval
      cases o' with
      | error err =>
        rw [readElems_stop hle hval] at h
        cases h
        exact .stop hvis hr
      | ok p =>
        rw [readElems_next hle hval] at h
        cases hrest : RediGo.Core.readElems dec d k (pos + p.2) with
        | error f =>
          rw [hrest] at h
          cases h
        | ok rest =>
          rw [hrest] at h
          cases h
          rw [endOf_consElem]
          exact .next hvis hr (ih (by omega) hrest)

theorem Refuses.decodeWith {dec : Decoder} {d : Slice} (hdec : Refuses dec d.len) (ht : Tight d)
    {o : Outcome Value} (h : decodeWith dec d = .ok o) : Readable d.vis (endOf o) := by
  cases hd : d.vis with
  | nil =>
    rw [decodeWith_nil dec hd] at h
    cases h
    exact .nothing
  | cons p w =>
    by_cases hp : p ∈ prefixes
    case neg =>
      rw [decodeWith_unknown dec hd hp] at h
      cases h
      exact .unknown hp
    rcases line_or_not w with ⟨body, hl⟩ | hw
    case inr =>
      rw [decodeWith_noLine dec hd hp hw] at h
      cases h
    simp only [prefixes, List.mem_cons, List.not_mem_nil, or_false] at hp
    rcases hp with rfl | rfl | rfl | rfl | rfl
    · rw [decodeWith_line dec hd (.inl rfl) hl] at h
      cases h
      exact .line (.inl rfl) hl
    · rw [decodeWith_int dec hd hl] at h
      cases h
      exact .line (.inr (.inr rfl)) hl
    · rw [decodeWith_line dec hd (.inr rfl) hl] at h
      cases h
      exact .line (.inr (.inl rfl)) hl
    · by_cases hv : lineValue body = -1
      · rw [decodeWith_null dec hd hl hv] at h
        cases h
        exact .null hl hv
      · rw [decodeWith_bulk dec hd hl hv] at h
        split at h
        case isTrue hfit =>
          cases h
          have hlen := d.vis_length
          rw [hd, List.length_cons] at hlen
          unfold Tight at ht
          exact .bulk hl (by omega) (by omega)
        case isFalse => cases h
    · rw [decodeWith_array dec hd hl] at h
      unfold makeLen at h
      split at h
      case isTrue hk =>
        change wrapRead .arr (RediGo.Core.readElems dec d _ (body.length + 3)) = _ at h
        cases helems : RediGo.Core.readElems dec d (lineValue body).toInt.toNat (body.length + 3) with
        | error f =>
          rw [helems] at h
          cases h
        | ok o' =>
          have hseq := hdec.readElems ht (Nat.succ_pos _) helems
          rw [helems] at h
          rw [hd] at hseq
          cases o' <;> cases h <;> exact .array hl (by omega) (by omega) hseq
      case isFalse => cases h

theorem refuses_decodeFuel (fuel : Nat) : Refuses (decodeFuel fuel) fuel := by
  induction fuel with
  | zero => intro d o hlt
            omega
  | succ fuel ih =>
    intro d o hlt ht h
    have hdec : Refuses (decodeFuel fuel) d.len := fun d' o' hlt' => ih d' o' (by omega)
    exact hdec.decodeWith ht h

/-! ## How a run fails

The bound on the nesting is never the reason: a run that does not return
is a run-time panic of the program. -/

def Panic (f : Fault) : Prop := f = .index ∨ f = .slice ∨ f = .makeLen

theorem readElems_panic {dec : Decoder} {d : Slice}
    (hdec : ∀ (d' : Slice) (f : Fault), d'.len < d.len → dec d' = .error f → Panic f) {k pos : Nat}
    {f : Fault} (hpos : 0 < pos) (h : readElems dec d k pos = .error f) : Panic f := by
  induction k generalizing pos with
  | zero => cases h
  | succ k ih =>
    by_cases hle : pos ≤ d.len
    case neg =>
      rw [readElems_outside (by omega)] at h
      cases h
      exact .inr (.inl rfl)
    rcases hval : dec (d.suffix pos hle) with f' | err | ⟨v, n⟩
    · rw [readElems_fault hle hval] at h
      cases h
      exact hdec _ _ (by rw [d.suffix_len]; omega) hval
    · rw [readElems_stop hle hval] at h
      cases h
    · rw [readElems_next hle hval] at h
      cases hrest : readElems dec d k (pos + n) with
      | error f' =>
        rw [hrest] at h
        cases h
        exact ih (by omega) hrest
      | ok o =>
        rw [hrest] at h
        cases h

theorem decodeWith_panic {dec : Decoder} {d : Slice}
    (hdec : ∀ (d' : Slice) (f : Fault), d'.len < d.len → dec d' = .error f → Panic f) {f : Fault}
    (h : decodeWith dec d = .error f) : Panic f := by
  cases hd : d.vis with
  | nil =>
    rw [decodeWith_nil dec hd] at h
    cases h
  | cons p w =>
    by_cases hp : p ∈ prefixes
    case neg =>
      rw [decodeWith_unknown dec hd hp] at h
      cases h
    rcases line_or_not w with ⟨body, hl⟩ | hw
    case inr =>
      rw [decodeWith_noLine dec hd hp hw] at h
      cases h
      exact .inl rfl
    simp only [prefixes, List.mem_cons, List.not_mem_nil, or_false] at hp
    rcases hp with rfl | rfl | rfl | rfl | rfl
    · rw [decodeWith_line dec hd (.inl rfl) hl] at h
      cases h
    · rw [decodeWith_int dec hd hl] at h
      cases h
    · rw [decodeWith_line dec hd (.inr rfl) hl] at h
      cases h
    · by_cases hv : lineValue body = -1
      · rw [decodeWith_null dec hd hl hv] at h
        cases h
      · rw [decodeWith_bulk dec hd hl hv] at h
        split at h <;> cases h
        exact .inr (.inl rfl)
    · rw [decodeWith_array dec hd hl] at h
      unfold makeLen at h
      split at h
      · change wrapRead .arr (readElems dec d _ (body.length + 3)) = _ at h
        rcases helems : readElems dec d (lineValue body).toInt.toNat (body.length + 3) with f' | err | o
        · rw [helems] at h
          cases h
          exact readElems_panic hdec (Nat.succ_pos _) helems
        · rw [helems] at h
          cases h
        · rw [helems] at h
          cases h
      · cases h
        exact .inr (.inr rfl)

theorem decodeFuel_panic {fuel : Nat} {d : Slice} {f : Fault} (hlt : d.len < fuel)
    (h : decodeFuel fuel d = .error f) : Panic f := by
  induction fuel generalizing d f with
  | zero => omega
  | succ fuel ih => exact decodeWith_panic (fun d' f' hd' => ih (by omega)) h

/-! ## The parser -/

/-- `ParseCmd` adds no panic to those of `DecodeOne`. -/
theorem parseCmd_returns_iff_decodeOne (d : Slice) :
    (∃ c, parseCmd d = .ok c) ↔ ∃ o, decodeOne d = .ok o := by
  rcases hdec : decodeOne d with f | err | ⟨v, n⟩
  · rw [parseCmd_fault hdec]
    constructor
    · rintro ⟨c, hc⟩
      cases hc
    · rintro ⟨o, ho⟩
      cases ho
  · obtain ⟨err', h⟩ := parseCmd_error hdec
    exact ⟨fun _ => ⟨_, rfl⟩, fun _ => ⟨_, h⟩⟩
  · exact ⟨fun _ => ⟨_, rfl⟩, fun _ => ⟨_, parseCmd_value hdec⟩⟩

/-- `ParseCmd` returns, and returns without looking past the end of its
input, exactly on the readable inputs. -/
theorem parseCmd_returns_iff (d : Slice) :
    ((∃ c, parseCmd d = .ok c) ∧ ∃ c, parseCmd d.clip = .ok c) ↔ ∃ r, Readable d.vis r := by
  rw [parseCmd_returns_iff_decodeOne, parseCmd_returns_iff_decodeOne]
  constructor
  · rintro ⟨-, o, ho⟩
    have h := refuses_decodeFuel _ d.clip o (Nat.lt_succ_self _) (tight_clip d) ho
    rw [d.clip_vis] at h
    exact ⟨_, h⟩
  · rintro ⟨r, hr⟩
    obtain ⟨o, ho, -⟩ := reads_decodeFuel _ d r (Nat.lt_succ_self _) hr
    obtain ⟨o', ho', -⟩ := reads_decodeFuel _ d.clip r (Nat.lt_succ_self _) (by rwa [d.clip_vis])
    exact ⟨⟨o, ho⟩, ⟨o', ho'⟩⟩

theorem parseCmd_panic {d : Slice} {f : Fault} (h : parseCmd d = .error f) : Panic f := by
  rcases hdec : decodeOne d with f' | err | ⟨v, n⟩
  · rw [parseCmd_fault hdec] at h
    cases h
    exact decodeFuel_panic (Nat.lt_succ_self _) hdec
  · obtain ⟨err', herr⟩ := parseCmd_error hdec
    rw [herr] at h
    cases h
  · rw [parseCmd_value hdec] at h
    cases h

/-- A lone `*` makes `ParseCmd` index past the end of its input. -/
theorem parseCmd_star :
    parseCmd { arr := lit "*", len := 1, len_le := by decide, cap_le := by decide } =
      .error .index := by
  rfl

end RediGo.Core
