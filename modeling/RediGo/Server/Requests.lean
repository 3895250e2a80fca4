/-
RediGo.Server.Requests — whole requests.

A request is the encoding of a list of tokens, the first of which names the
command. When it fits the buffer and one read returns all of it, both ways of
reading a connection parse it to its command, whatever lies behind it in the
buffer.
-/
import RediGo.Server.ReadPaths

namespace RediGo.Server

open RediGo.Go RediGo.Core

/-- The bytes are the request for a command. -/
def Asks (bytes : Bytes) (cmd : Command) : Prop :=
  ∃ t ts, bytes = encodeStringArray (t :: ts) ∧ cmd = ⟨toUpper t, ts⟩

theorem Asks.ne_nil {bytes : Bytes} {cmd : Command} (h : Asks bytes cmd) : bytes ≠ [] := by
  obtain ⟨t, ts, rfl, -⟩ := h
  exact List.cons_ne_nil _ _

theorem parseCmd_request {d : Slice} {t : Bytes} {ts : List Bytes} (rest : Bytes)
    (hmax : (t :: ts).length ≤ maxElems) (hvis : d.vis = encodeStringArray (t :: ts) ++ rest) :
    parseCmd d = .ok (.ok ⟨toUpper t, ts⟩) := by
  have hdec : decodeOne d = _ := decodes_strings hmax _ d rest (Nat.lt_succ_self _) hvis
  rw [parseCmd_value hdec, commandOf_strings]

theorem length_tokens_le {l : List Bytes} (h : (encodeStringArray l).length ≤ bufSize) :
    l.length ≤ maxElems := by
  have hle := length_le_flatMap l
  rw [encodeStringArray_eq, List.length_cons, List.length_append, List.length_append] at h
  unfold bufSize at h
  unfold maxElems
  omega

/-- A request that fits the buffer is read as its command. -/
theorem Asks.readCommand {bytes : Bytes} {cmd : Command} (h : Asks bytes cmd)
    (hlen : bytes.length ≤ bufSize) : readCommand bytes = .ok (.ok cmd) := by
  have hne : ¬ (bytes.take bufSize).length = 0 := by
    rw [List.take_of_length_le hlen]
    exact fun hzero => h.ne_nil (List.eq_nil_of_length_eq_zero hzero)
  obtain ⟨t, ts, rfl, rfl⟩ := h
  obtain ⟨zeros, hzeros⟩ := readInto_eq (encodeStringArray (t :: ts))
  rw [List.take_of_length_le hlen] at hzeros
  unfold Server.readCommand
  rw [if_neg hne]
  refine parseCmd_request zeros (length_tokens_le hlen) ?_
  exact (List.take_of_length_le (Nat.le_of_eq (length_readInto _))).trans hzeros

theorem Asks.readCommandConn {bytes : Bytes} {cmd : Command} (h : Asks bytes cmd)
    (hlen : bytes.length ≤ bufSize) : readCommandConn bytes = .ok (.ok cmd) := by
  obtain ⟨t, ts, rfl, rfl⟩ := h
  refine parseCmd_request [] (length_tokens_le hlen) ?_
  rw [readBuffer_vis, List.take_of_length_le hlen, List.append_nil]

end RediGo.Server
