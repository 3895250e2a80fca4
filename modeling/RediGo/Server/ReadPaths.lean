/-
RediGo.Server.ReadPaths — bytes behind an accepted request.

A value is read from bytes within the slice, if nothing lies behind its end.
So more bytes change neither the value nor what was consumed, whatever the
bytes before them were (`Prolongs`): a header line ends at its first carriage
return, a payload is there, and an element is never missing. This does not
hold of errors: an element that is missing may come with the next bytes.

`readCommand` parses the whole buffer, `readCommandConn` the part that was
read. On a request that is accepted as it stands both return its command
(`parseCmd_append`).
-/
import RediGo.Core.RespInversion
import RediGo.Server.ReadCommand

namespace RediGo.Server

open RediGo.Go RediGo.Core

/-- Every value the first decoder reads, the second one reads from a slice
with more bytes. -/
def Prolongs (dec dec' : Decoder) : Prop :=
  ∀ (d d' : Slice) (rest : Bytes) (v : Value) (n : Nat), Tight d → d'.vis = d.vis ++ rest →
    dec d = .ok (.ok (v, n)) → dec' d' = .ok (.ok (v, n))

theorem line_append {body w : Bytes} (h : Line body w) (rest : Bytes) : Line body (w ++ rest) := by
  obtain ⟨hbody, t, rfl⟩ := h
  exact ⟨hbody, t ++ rest, by simp⟩

section Prolong

variable {dec dec' : Decoder} {d d' : Slice} {rest : Bytes}

/-- A payload within the first slice. -/
theorem drop_take_prolonged (ht : Tight d) (hvis : d'.vis = d.vis ++ rest) {lo n : Nat}
    (hfit : lo + n ≤ d.arr.length) :
    (d'.arr.drop lo).take n = (d.arr.drop lo).take n ∧ lo + n ≤ d'.arr.length := by
  have hlen := congrArg List.length hvis
  rw [List.length_append, d.vis_length, d'.vis_length] at hlen
  have hcap := d'.len_le
  unfold Tight at ht
  refine ⟨?_, by omega⟩
  rw [take_drop_arr (by omega), take_drop_arr (by omega), hvis,
    List.drop_append_of_le_length (by rw [d.vis_length]; omega),
    List.take_append_of_le_length (by rw [List.length_drop, d.vis_length]; omega)]

theorem Prolongs.readElems (h : Prolongs dec dec') (ht : Tight d) (hvis : d'.vis = d.vis ++ rest)
    {k pos e : Nat} {l : List Value} (helems : readElems dec d k pos = .ok (.ok (l, e))) :
    RediGo.Core.readElems dec' d' k pos = .ok (.ok (l, e)) := by
  have hlen := congrArg List.length hvis
  rw [List.length_append, d.vis_length, d'.vis_length] at hlen
  induction k generalizing pos l with
  | zero => exact helems
  | succ k ih =>
    obtain ⟨hle, v, n, l', hval, hrest, rfl⟩ := readElems_succ_iff.1 helems
    refine readElems_succ_iff.2 ⟨by omega, v, n, l', ?_, ih hrest, rfl⟩
    refine h (d.suffix pos hle) _ rest v n (ht.suffix hle) ?_ hval
    rw [d.suffix_vis, d'.suffix_vis, hvis,
      List.drop_append_of_le_length (by rw [d.vis_length]; omega)]

theorem Prolongs.decodeWith (h : Prolongs dec dec') :
    Prolongs (decodeWith dec) (decodeWith dec') := by
  intro d d' rest v n ht hvis hval
  rw [decodeWith_iff] at hval ⊢
  cases hval with
  | unknown hd hp => exact .unknown (by rw [hvis, hd]; rfl) hp
  | line hd hp hl => exact .line (by rw [hvis, hd]; rfl) hp (line_append hl rest)
  | int hd hl => exact .int (by rw [hvis, hd]; rfl) (line_append hl rest)
  | null hd hl hv => exact .null (by rw [hvis, hd]; rfl) (line_append hl rest) hv
  | bulk hd hl hv hfit =>
    obtain ⟨hpayload, hfit'⟩ := drop_take_prolonged ht hvis hfit
    rw [← hpayload]
    exact .bulk (by rw [hvis, hd]; rfl) (line_append hl rest) hv hfit'
  | array hd hl hv hk helems =>
    exact .array (by rw [hvis, hd]; rfl) (line_append hl rest) hv hk
      (h.readElems ht hvis helems)

/-- More fuel does no harm. -/
theorem prolongs_decodeFuel {f f' : Nat} (h : f ≤ f') : Prolongs (decodeFuel f) (decodeFuel f') := by
  induction f generalizing f' with
  | zero =>
    intro d d' rest v n _ _ hval
    cases hval
  | succ f ih =>
    obtain ⟨f', rfl⟩ := Nat.exists_eq_add_of_le' (Nat.one_le_of_lt h)
    exact (ih (by omega)).decodeWith

theorem parseCmd_prolonged (rest : Bytes) (ht : Tight d) (hvis : d'.vis = d.vis ++ rest) {c : Command}
    (h : parseCmd d = .ok (.ok c)) : parseCmd d' = .ok (.ok c) := by
  obtain ⟨v, n, hval, hcmd⟩ := parseCmd_iff.1 h
  have hlen := congrArg List.length hvis
  rw [List.length_append, d.vis_length, d'.vis_length] at hlen
  have hfuel : d.len + 1 ≤ d'.len + 1 := by omega
  exact parseCmd_iff.2 ⟨v, n, prolongs_decodeFuel hfuel d d' rest v n ht hvis hval, hcmd⟩

end Prolong

/-- What the buffer of `readCommand` holds. -/
theorem readInto_eq (arrived : Bytes) :
    ∃ zeros, readInto arrived = arrived.take bufSize ++ zeros := ⟨_, rfl⟩

/-- A request that is accepted with nothing behind it gives the same command
with any bytes behind it, and on both ways of reading it from a connection. -/
theorem parseCmd_append (d : Slice) (ht : Tight d) (c : Command)
    (h : parseCmd d = .ok (.ok c)) :
    (∀ (rest : Bytes) (d' : Slice), d'.vis = d.vis ++ rest → parseCmd d' = .ok (.ok c)) ∧
      ∀ arrived : Bytes, arrived.take bufSize = d.vis →
        readCommand arrived = .ok (.ok c) ∧ readCommandConn arrived = .ok (.ok c) := by
  refine ⟨fun rest d' hvis => parseCmd_prolonged rest ht hvis h, fun arrived harrived => ⟨?_, ?_⟩⟩
  · have hne : ¬ (arrived.take bufSize).length = 0 := by
      intro hzero
      have hlen : d.len = 0 := by rw [← d.vis_length, ← harrived, hzero]
      unfold parseCmd at h
      rw [if_pos hlen] at h
      cases h
    obtain ⟨zeros, hzeros⟩ := readInto_eq arrived
    unfold readCommand
    rw [if_neg hne]
    refine parseCmd_prolonged zeros ht ?_ h
    rw [← harrived, ← hzeros]
    exact List.take_of_length_le (Nat.le_of_eq (length_readInto arrived))
  · refine parseCmd_prolonged [] ht ?_ h
    rw [readBuffer_vis, harrived, List.append_nil]

/-- A request whose second element is no frame and consumes nothing. -/
theorem parseCmd_append_cut :
    readCommand (lit "*2\r\n+ping\r\n?") =
        .ok (.ok { Cmd := lit "PING", Args := [lit "unknown prefix: ?"] }) ∧
      readCommandConn (lit "*2\r\n+ping\r\n?") =
        .ok (.ok { Cmd := lit "PING", Args := [lit "unknown prefix: ?"] }) := by
  refine (parseCmd_append ⟨lit "*2\r\n+ping\r\n?", 12, by decide, by decide⟩ rfl _ ?_).2 _ ?_
  · decide +kernel
  · decide +kernel

end RediGo.Server
