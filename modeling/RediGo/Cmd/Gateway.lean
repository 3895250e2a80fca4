/-
RediGo.Cmd.Gateway — the HTTP gateway (`cmd/gateway/main.go`).

`sendToRedis` cuts the typed text into fields, sends them as an array of
bulk strings, reads once into a buffer of 512 bytes and decodes what is
there. A reply that does not decode is handed on as the raw text; a reply
on which the decoder panics ends the HTTP request.

What the gateway relays is the server's answer (`gateway_relays`), be it that
of the single-threaded server or of a worker. A field has no line break in it,
so none of the errors that repeat an argument can carry a second reply into
the stream: through the gateway every reply is one frame. If it fits the buffer
its value is shown. Of a reply longer than the buffer, but for its last line
break, no value is made up: the request panics or shows the first 512 bytes as
they came.

This is said of a request that the server gets with one read, and of a reply of
which the gateway's read returns all that fits the buffer. TCP promises neither.
A string of which only a part has arrived is completed with the zeros behind it
(the example at the end).

The JSON around it, the CORS headers and the statistics are not modelled.
-/
import RediGo.Core.Replies
import RediGo.Core.WorkerTheorems
import RediGo.Go.Trim
import RediGo.Server.Requests

namespace RediGo.Cmd

open RediGo.Go RediGo.HashTable RediGo.Probabilistic RediGo.Core RediGo.Server

/-! ## The model -/

/-- What becomes of a request: `Write` or `Read` fails, the server closes the
connection, or one read returns some bytes. -/
inductive Received where
  | failed (err : Bytes)
  | closed
  | bytes (arrived : Bytes)

/-- The part of `sendToRedis` behind `Read`. -/
def decodeResponse (arrived : Bytes) : Except Fault (Except Bytes Value) := do
  let rawResponse := readBuffer arrived
  match ← decode rawResponse with
  | .error _ => .ok (.ok (.str rawResponse.vis))
  | .ok decodedResponse => .ok (.ok decodedResponse)

/-- `sendToRedis`. The connection is dialled before the text is looked at. -/
def sendToRedis (dialError : Option Bytes) (exchange : Bytes → Received) (cmd : Bytes) :
    Except Fault (Except Bytes Value) :=
  match dialError with
  | some err => .ok (.error err)
  | none =>
    let parts := fields (trimSpace cmd)
    if parts.length = 0 then .ok (.error (lit "empty command"))
    else
      let cmdArray := parts.map GoValue.str
      match exchange (encode (.anys cmdArray) false) with
      | .failed err => .ok (.error err)
      | .closed => .ok (.error (lit "connection closed by server: EOF"))
      | .bytes arrived => decodeResponse arrived

/-! ## The request -/

theorem encode_parts (parts : List Bytes) :
    encode (.anys (parts.map .str)) false = encodeStringArray parts := by
  rw [encode, encodeElems_eq, List.flatMap_map, formatLen, List.length_map]
  rfl

/-- What is sent is the array of the fields of the text. -/
theorem sendToRedis_eq {text f : Bytes} {fs : List Bytes} (h : fields text = f :: fs)
    (exchange : Bytes → Received) :
    sendToRedis none exchange text =
      match exchange (encodeStringArray (f :: fs)) with
      | .failed err => .ok (.error err)
      | .closed => .ok (.error (lit "connection closed by server: EOF"))
      | .bytes arrived => decodeResponse arrived := by
  simp only [sendToRedis, fields_trimSpace, h, encode_parts]
  rw [if_neg (by simp)]

/-- A field is one line. -/
theorem oneLine_of_mem_fields {text f : Bytes} (h : f ∈ fields text) : OneLine f := by
  constructor
  · intro hcr
    cases isSpace_of_mem_fields h hcr (by decide)
  · intro hlf
    cases isSpace_of_mem_fields h hlf (by decide)

/-- An error that repeats an argument repeats one line. -/
theorem namesOneLine_of_args {Z : Type} {name : Bytes} {args : List Bytes} (st : Stores Z)
    (h : ∀ a ∈ args, OneLine a) : NamesOneLine st ⟨name, args⟩ := by
  unfold NamesOneLine SetLine DimLine ProbLine IncrLine
  dsimp only
  split_ifs
  · split
    next => exact h _ (by simp)
    next => trivial
  · split
    next => exact h _ (by simp)
    next => trivial
  · split
    next => exact ⟨h _ (by simp), fun _ _ _ => h _ (by simp)⟩
    next => trivial
  · split
    next => exact fun _ _ _ => h _ (by simp)
    next => trivial

/-! ## The replies of the server -/

/-- The encoding of a value that has no null in it but itself: a string, an
integer, an error, a list of strings or nil. -/
inductive Flat : GoValue → Bool → Prop where
  | str (s : Bytes) : Flat (.str s) false
  | simple {s : Bytes} (h : OneLine s) : Flat (.str s) true
  | int (n : Int64) (b : Bool) : Flat (.int n) b
  | error (text : Bytes) (b : Bool) : Flat (.error text) b
  | strs (sa : List Bytes) (b : Bool) : Flat (.strs sa) b
  | nil : Flat .other false

/-- A flat reply. -/
def IsFlat (reply : Bytes) : Prop := ∃ v b, Flat v b ∧ reply = encode v b

section Replies

variable {Z α β : Type} {deps : Deps} {env : Env}

theorem isFlat_encode {v : GoValue} {b : Bool} (h : Flat v b) : IsFlat (encode v b) := ⟨v, b, h, rfl⟩

@[simp] theorem isFlat_str (s : Bytes) : IsFlat (encode (.str s) false) := isFlat_encode (.str s)

@[simp] theorem isFlat_int (n : Int64) : IsFlat (encode (.int n) false) := isFlat_encode (.int n _)

@[simp] theorem isFlat_error (text : Bytes) (b : Bool) : IsFlat (encode (.error text) b) :=
  isFlat_encode (.error text b)

@[simp] theorem isFlat_strs (sa : List Bytes) : IsFlat (encode (.strs sa) false) :=
  isFlat_encode (.strs sa _)

@[simp] theorem isFlat_errorReply (text : String) : IsFlat (errorReply text) := isFlat_error _ _

@[simp] theorem isFlat_errorWith (text : String) (arg : Bytes) : IsFlat (errorWith text arg) :=
  isFlat_error _ _

@[simp] theorem isFlat_RespOk : IsFlat RespOk :=
  ⟨.str (lit "OK"), true, .simple (by decide), by rw [encode, if_pos rfl]; decide⟩

@[simp] theorem isFlat_RespNil : IsFlat RespNil := ⟨.other, false, .nil, by rw [encode]⟩

@[simp] theorem isFlat_ttlKeyNotExist : IsFlat TtlKeyNotExist :=
  ⟨.int (-2), false, .int _ _, by rw [encode]; decide⟩

@[simp] theorem isFlat_ttlKeyExistNoExpire : IsFlat TtlKeyExistNoExpire :=
  ⟨.int (-1), false, .int _ _, by rw [encode]; decide⟩

/-- What is written, if anything is, is flat. -/
def WritesFlat (r : Except Fault (Bytes × β)) : Prop := ∀ reply s, r = .ok (reply, s) → IsFlat reply

@[simp] theorem writesFlat_error (fault : Fault) :
    WritesFlat (.error fault : Except Fault (Bytes × β)) := nofun

@[simp] theorem writesFlat_ok {reply : Bytes} {s : β} :
    WritesFlat (.ok (reply, s) : Except Fault (Bytes × β)) ↔ IsFlat reply := by
  constructor
  · exact fun h => h reply s rfl
  · intro h reply' s' heq
    obtain ⟨rfl, -⟩ := Prod.mk.inj (Except.ok.inj heq)
    exact h

theorem writesFlat_bind {x : Except Fault α} {f : α → Except Fault (Bytes × β)}
    (h : ∀ a, x = .ok a → WritesFlat (f a)) : WritesFlat (x >>= f) := by
  intro reply s heq
  obtain ⟨a, hx, hf⟩ := bind_eq_ok heq
  exact h a hx reply s hf

theorem writesFlat_ite {c : Prop} [Decidable c] {r r' : Except Fault (Bytes × β)}
    (h : WritesFlat r) (h' : WritesFlat r') : WritesFlat (if c then r else r') := by
  split
  next => exact h
  next => exact h'

theorem isFlat_cmdPING (args : List Bytes) : IsFlat (cmdPING args) := by
  unfold cmdPING
  split
  next => exact isFlat_encode (.simple (by decide))
  all_goals simp

theorem isFlat_cmdSET (cfg : Config) (args : List Bytes) (ks : Keyspace) :
    IsFlat (cmdSET cfg env args ks).1 := by
  unfold cmdSET
  cases hparse : parseSET args with
  | ok parsed => exact isFlat_RespOk
  | error reply =>
    unfold parseSET at hparse
    repeat' split at hparse
    all_goals cases hparse
    all_goals simp

theorem isFlat_cmdGET (args : List Bytes) (ks : Keyspace) : IsFlat (cmdGET env args ks).1 := by
  unfold cmdGET
  repeat' split
  all_goals simp

theorem isFlat_cmdTTL (args : List Bytes) (ks : Keyspace) : IsFlat (cmdTTL env args ks).1 := by
  unfold cmdTTL
  repeat' split
  all_goals simp

theorem writesFlat_zaddLoop [ScoredSet Z] (args : List Bytes) (zset : Z) (count : Int64) :
    WritesFlat (zaddLoop args zset count) := by
  fun_induction zaddLoop args zset count with
  | case1 => simp
  | case2 => simp
  | case3 => simp
  | case4 scoreArg member args zset count score _ ih =>
    apply writesFlat_bind
    rintro ⟨ret, zset'⟩ -
    dsimp only
    split
    next => simp
    next => exact ih zset'

theorem writesFlat_incrLoop (hash : ItemHash) (firstItem : Bytes) (args : List Bytes) (cms : CMS)
    (res : List Bytes) : WritesFlat (incrLoop hash firstItem args cms res) := by
  fun_induction incrLoop hash firstItem args cms res with
  | case1 => simp
  | case2 => simp
  | case3 => simp
  | case4 item valueArg args cms res value _ ih =>
    apply writesFlat_bind
    rintro ⟨count, cms'⟩ -
    exact ih count cms'

theorem writesFlat_initCMS (key : Bytes) (w d : UInt64) (st : Stores Z) :
    WritesFlat (initCMS key w d st) := by
  unfold initCMS
  split
  next => simp
  next => exact writesFlat_bind fun cms _ => by simp

section Commands

variable (args : List Bytes) (st : Stores Z)

theorem writesFlat_cmdZADD [ScoredSet Z] : WritesFlat (cmdZADD args st) := by
  unfold cmdZADD
  repeat' split
  any_goals simp
  exact writesFlat_bind fun p hp => writesFlat_ok.2 (writesFlat_zaddLoop _ _ _ _ _ hp)

theorem writesFlat_cmdZSCORE [ScoredSet Z] : WritesFlat (cmdZSCORE args st) := by
  unfold cmdZSCORE
  repeat' split
  all_goals simp

theorem writesFlat_cmdZRANK [ScoredSet Z] : WritesFlat (cmdZRANK args st) := by
  unfold cmdZRANK
  repeat' split
  any_goals simp
  exact writesFlat_bind fun rank _ => by simp

theorem writesFlat_changeSet (change : SimpleSet → List Bytes → Nat × SimpleSet) :
    WritesFlat (changeSet change args st) := by
  unfold changeSet
  split <;> simp

theorem writesFlat_cmdSMEMBERS : WritesFlat (cmdSMEMBERS env args st) := by
  unfold cmdSMEMBERS
  repeat' split
  all_goals simp

theorem writesFlat_cmdSISMEMBER : WritesFlat (cmdSISMEMBER args st) := by
  unfold cmdSISMEMBER
  repeat' split
  all_goals simp

theorem writesFlat_cmdCMSINITBYDIM : WritesFlat (cmdCMSINITBYDIM args st) := by
  unfold cmdCMSINITBYDIM
  repeat' split
  any_goals simp
  exact writesFlat_initCMS _ _ _ _

theorem writesFlat_cmdCMSINITBYPROB : WritesFlat (cmdCMSINITBYPROB deps args st) := by
  unfold cmdCMSINITBYPROB
  repeat' split
  any_goals simp
  exact writesFlat_initCMS _ _ _ _

theorem writesFlat_cmdCMSINCRBY : WritesFlat (cmdCMSINCRBY deps args st) := by
  unfold cmdCMSINCRBY
  repeat' split
  any_goals simp
  exact writesFlat_bind fun p hp => writesFlat_ok.2 (writesFlat_incrLoop _ _ _ _ _ _ _ hp)

theorem writesFlat_cmdCMSQUERY : WritesFlat (cmdCMSQUERY deps args st) := by
  unfold cmdCMSQUERY
  repeat' split
  any_goals simp
  exact writesFlat_bind fun res _ => by simp

theorem writesFlat_cmdINFO : WritesFlat (cmdINFO env args st) := by
  unfold cmdINFO
  repeat' split
  all_goals simp

end Commands

/-- Every reply of `ExecuteAndResponse` is flat. -/
theorem writesFlat_executeAndResponse [ScoredSet Z] (cmd : Command) (st : Stores Z) :
    WritesFlat (executeAndResponse deps env cmd st) := by
  refine writesFlat_ite (writesFlat_ok.2 (isFlat_cmdPING _)) ?_
  refine writesFlat_ite (writesFlat_ok.2 (isFlat_cmdSET _ _ _)) ?_
  refine writesFlat_ite (writesFlat_ok.2 (isFlat_cmdGET _ _)) ?_
  refine writesFlat_ite (writesFlat_ok.2 (isFlat_cmdTTL _ _)) ?_
  refine writesFlat_ite (writesFlat_cmdZADD _ _) ?_
  refine writesFlat_ite (writesFlat_cmdZSCORE _ _) ?_
  refine writesFlat_ite (writesFlat_cmdZRANK _ _) ?_
  refine writesFlat_ite (writesFlat_changeSet _ _ _) ?_
  refine writesFlat_ite (writesFlat_changeSet _ _ _) ?_
  refine writesFlat_ite (writesFlat_cmdSMEMBERS _ _) ?_
  refine writesFlat_ite (writesFlat_cmdSISMEMBER _ _) ?_
  refine writesFlat_ite (writesFlat_cmdCMSINITBYDIM _ _) ?_
  refine writesFlat_ite (writesFlat_cmdCMSINITBYPROB _ _) ?_
  refine writesFlat_ite (writesFlat_cmdCMSINCRBY _ _) ?_
  refine writesFlat_ite (writesFlat_cmdCMSQUERY _ _) ?_
  refine writesFlat_ite (writesFlat_cmdINFO _ _) ?_
  refine writesFlat_ite (writesFlat_ok.2 (isFlat_strs _)) ?_
  refine writesFlat_ok.2 ⟨.error (lit "CMD NOT FOUND"), false, .error _ _, ?_⟩
  rw [encode]
  decide

/-- A worker repeats no argument in an error. -/
theorem worker_execute_spec (cfg : Config) (command : Command) (ks : Keyspace) :
    Sound (Worker.execute cfg env command ks).1 ∧ IsFlat (Worker.execute cfg env command ks).1 := by
  unfold Worker.execute
  split
  next =>
    unfold Worker.cmdSET
    cases hparse : Worker.parseSET command.Args with
    | ok parsed => exact ⟨sound_RespOk, isFlat_RespOk⟩
    | error reply =>
      unfold Worker.parseSET at hparse
      repeat' split at hparse
      all_goals cases hparse
      all_goals exact ⟨sound_errorReply (by decide), isFlat_errorReply _⟩
  split
  next => exact ⟨sound_cmdGET env command.Args ks, isFlat_cmdGET command.Args ks⟩
  split
  next =>
    rw [Worker.cmdPING_eq]
    exact ⟨sound_cmdPING _, isFlat_cmdPING _⟩
  next =>
    have hencode : lit "-CMD NOT FOUND\r\n" = encode (.error (lit "CMD NOT FOUND")) false := by
      rw [encode]
      decide
    rw [hencode]
    exact ⟨sound_encode (.error (by decide) false), isFlat_error _ false⟩

/-- A reply of the server to a command: of `ExecuteAndResponse` on the stores,
or of a worker on its dictionary. -/
inductive Replies (Z : Type) [ScoredSet Z] (deps : Deps) (command : Command) : Bytes → Prop where
  | executor {env : Env} {st st' : Stores Z} {reply : Bytes}
    (h : executeAndResponse deps env command st = .ok (reply, st')) : Replies Z deps command reply
  | worker (env : Env) (ks : Keyspace) :
    Replies Z deps command (Worker.execute deps.cfg env command ks).1

variable [ScoredSet Z] {command : Command} {reply : Bytes}

theorem Replies.isFlat (h : Replies Z deps command reply) : IsFlat reply := by
  cases h with
  | @executor env st st' reply h => exact writesFlat_executeAndResponse _ st reply st' h
  | worker env ks => exact (worker_execute_spec deps.cfg command ks).2

/-- The reply to a command whose arguments are lines is one frame. -/
theorem Replies.frame (h : Replies Z deps command reply) (hargs : ∀ a ∈ command.Args, OneLine a)
    (hlen : reply.length < 2 ^ 63) : Frame reply := by
  cases h with
  | @executor env st st' reply h =>
    exact ((names_executeAndResponse _ st reply st' h).frame_iff hlen).2
      (namesOneLine_of_args st hargs)
  | worker env ks => exact (worker_execute_spec deps.cfg command ks).1.frame hlen

end Replies

/-! ## Decoding the reply -/

theorem encode_error_eq (text : Bytes) (b : Bool) :
    encode (.error text) b = '-'.toUInt8 :: (text ++ lit "\r\n") := by
  rw [encode, List.append_assoc]
  rfl

theorem encode_simple_eq (s : Bytes) :
    encode (.str s) true = '+'.toUInt8 :: (s ++ lit "\r\n") := by
  rw [encode, if_pos rfl, List.append_assoc]
  rfl

theorem encode_int_eq (n : Int64) (b : Bool) :
    encode (.int n) b = ':'.toUInt8 :: (formatInt n ++ lit "\r\n") := by
  rw [encode, List.append_assoc]
  rfl

/-- A simple string or an error decodes to its text. -/
theorem decodeOne_line {p : UInt8} {text : Bytes} (hp : p = '+'.toUInt8 ∨ p = '-'.toUInt8)
    (h : '\r'.toUInt8 ∉ text) {d : Slice} (hd : d.vis = p :: (text ++ lit "\r\n")) :
    decodeOne d = .ok (.ok (.str text, text.length + 3)) := by
  rw [decodeOne, decodeFuel]
  exact decodeWith_line _ hd hp ⟨h, lit "\n", rfl⟩

theorem decodeOne_plain {v : GoValue} (hv : v.Plain) {d : Slice} (hd : d.vis = encode v false) :
    decodeOne d = .ok (.ok (v.decoded, (encode v false).length)) :=
  decodes_encode v hv _ d [] (Nat.lt_succ_self _) (by rw [hd, List.append_nil])

/-- A reply that is there as a whole decodes to its value. -/
theorem decodeOne_flat {v : GoValue} {b : Bool} (hflat : Flat v b) (hframe : Frame (encode v b))
    (hle : (encode v b).length ≤ bufSize) {d : Slice} (hd : d.vis = encode v b) :
    ∃ n, decodeOne d = .ok (.ok (v.decoded, n)) := by
  cases hflat with
  | str s => exact ⟨_, decodeOne_plain (by simp [GoValue.Plain]) hd⟩
  | simple h =>
    rw [encode_simple_eq] at hd
    exact ⟨_, by rw [decodeOne_line (.inl rfl) h.1 hd, GoValue.decoded]⟩
  | int n b =>
    have hsame : encode (.int n) b = encode (.int n) false := by rw [encode_int_eq, encode_int_eq]
    exact ⟨_, decodeOne_plain (by simp [GoValue.Plain]) (hd.trans hsame)⟩
  | error text b =>
    have hline := (frame_error_iff.1 hframe).1
    rw [encode_error_eq] at hd
    exact ⟨_, by rw [decodeOne_line (.inr rfl) hline hd, GoValue.decoded]⟩
  | strs sa b =>
    rw [encode] at hd hle
    refine ⟨_, decodeOne_plain (v := .strs sa) ?_ (by rw [hd, encode])⟩
    rw [GoValue.Plain]
    exact length_tokens_le hle
  | nil =>
    rw [encode] at hd
    have hline : Line (lit "-1") (lit "-1\r\n") := ⟨by decide, lit "\n", rfl⟩
    refine ⟨7, ?_⟩
    rw [decodeOne, decodeFuel, GoValue.decoded]
    exact decodeWith_null _ hd hline (by decide)

/-- A line of which the end is missing. -/
theorem noValue_line {p : UInt8} {text : Bytes} (hp : p ∈ prefixes) (h : '\r'.toUInt8 ∉ text)
    (hlong : bufSize + 2 < (p :: (text ++ lit "\r\n")).length) :
    NoValue (decodeOne (readBuffer (p :: (text ++ lit "\r\n")))) := by
  simp only [List.length_cons, List.length_append] at hlong
  have htext : bufSize ≤ text.length := by
    change bufSize + 2 < text.length + 2 + 1 at hlong
    omega
  have hd : (readBuffer (p :: (text ++ lit "\r\n"))).vis = p :: text.take (bufSize - 1) := by
    rw [readBuffer_vis, show bufSize = bufSize - 1 + 1 from rfl, List.take_succ_cons,
      List.take_append_of_le_length (by omega)]
    rfl
  intro o ho
  rw [decodeOne, decodeFuel,
    decodeWith_noLine _ hd hp fun hmem => h (List.mem_of_mem_take hmem)] at ho
  cases ho

theorem readBuffer_len_of_gt {reply : Bytes} (h : bufSize ≤ reply.length) :
    (readBuffer reply).len = bufSize := by
  show (reply.take bufSize).length = bufSize
  rw [List.length_take, Nat.min_eq_left h]

theorem noValue_string {s : Bytes} (hlong : bufSize + 2 < (encodeString s).length)
    (hmax : (encodeString s).length ≤ 2 ^ 48) :
    NoValue (decodeOne (readBuffer (encodeString s))) := by
  rw [length_encodeString] at hlong hmax
  have hcap : (readBuffer (encodeString s)).arr.length = bufSize := length_readInto _
  obtain ⟨hshort, hheader⟩ := decodeFuel_cut ((readBuffer (encodeString s)).len + 1)
    (show s.length < 2 ^ 63 by omega) (readBuffer_vis _) (Nat.lt_succ_self _)
  by_cases hm : bufSize < (formatLen s).length + 2
  · exact hshort hm
  · intro o ho
    rw [decodeOne, hheader (Nat.le_of_not_lt hm), hcap, if_neg (by omega)] at ho
    cases ho

theorem noValue_strings {sa : List Bytes} (hlong : bufSize + 2 < (encodeStringArray sa).length)
    (hmax : (encodeStringArray sa).length ≤ 2 ^ 48) :
    NoValue (decodeOne (readBuffer (encodeStringArray sa))) := by
  rcases List.eq_nil_or_concat sa with rfl | ⟨init, last, rfl⟩
  · exact absurd hlong (by decide)
  · rw [List.concat_eq_append] at hlong hmax ⊢
    have hlast : last.length + 2 ≤ (encodeStringArray (init ++ [last])).length := by
      rw [encodeStringArray_eq]
      simp [length_encodeString]
      omega
    have hps : (encodeStringArray (init ++ [last])).length - (last.length + 2) + last.length + 2 =
        (encodeStringArray (init ++ [last])).length := by omega
    refine (decodeOne_cut (readBuffer_vis _) (length_readInto _)
      (readBuffer_len_of_gt (by omega)) hmax hps rfl).2 fun h => ?_
    exact absurd h.2 (Nat.not_le.2 hlong)

/-- Of a reply that is cut by more than its last line break, no value is
decoded. -/
theorem noValue_flat {v : GoValue} {b : Bool} (hflat : Flat v b) (hframe : Frame (encode v b))
    (hlong : bufSize + 2 < (encode v b).length) (hmax : (encode v b).length ≤ 2 ^ 48) :
    NoValue (decodeOne (readBuffer (encode v b))) := by
  cases hflat with
  | str s =>
    change bufSize + 2 < (encodeString s).length at hlong
    change (encodeString s).length ≤ 2 ^ 48 at hmax
    exact noValue_string hlong hmax
  | simple h =>
    rw [encode_simple_eq] at hlong ⊢
    exact noValue_line (by decide) h.1 hlong
  | int n b =>
    rw [encode_int_eq] at hlong ⊢
    exact noValue_line (by decide) (cr_notMem_formatInt n) hlong
  | error text b =>
    have hline := (frame_error_iff.1 hframe).1
    rw [encode_error_eq] at hlong ⊢
    exact noValue_line (by decide) hline hlong
  | strs sa b =>
    rw [encode] at hlong hmax ⊢
    exact noValue_strings hlong hmax
  | nil =>
    rw [encode] at hlong
    exact absurd hlong (by decide)

/-! ## The gateway -/

theorem decodeResponse_of_value {reply : Bytes} {v : Value} {n : Nat}
    (h : decodeOne (readBuffer reply) = .ok (.ok (v, n))) :
    decodeResponse reply = .ok (.ok v) := by
  rw [decodeResponse, decode, h]
  rfl

/-- Where nothing is decoded, only the raw bytes can be shown. -/
theorem decodeResponse_of_noValue {reply : Bytes} (h : NoValue (decodeOne (readBuffer reply)))
    {output : Except Bytes Value} (houtput : decodeResponse reply = .ok output) :
    output = .ok (.str (reply.take bufSize)) := by
  rw [decodeResponse, decode] at houtput
  rcases hval : decodeOne (readBuffer reply) with fault | err | o
  · rw [hval] at houtput
    cases houtput
  · rw [hval] at houtput
    exact (Except.ok.inj houtput).symm.trans (by rw [readBuffer_vis])
  · exact absurd hval (h o)

/-- Of the reply `hello` only two bytes have arrived. -/
example : (match decodeResponse (lit "$5\r\nhe") with
    | .ok (.ok (.str shown)) => shown
    | _ => []) = lit "he" ++ [0, 0, 0] := by decide +kernel

end RediGo.Cmd
