/-
RediGo.Core.Replies — what `ExecuteAndResponse` writes.

Every reply is the encoding of a value (`Sound`). Most commands answer with
an integer, a bulk string, an array or an error of their own words, and
those are frames. Four commands put an argument into the text of an error:
`SET` the word where `EX` should be, `CMS.INITBYDIM` the width,
`CMS.INITBYPROB` the rate or the probability, and `CMS.INCRBY` the first
item. An argument may hold any bytes, so such a reply is a frame exactly
when the argument is one line (`reply_frame_iff`).

An argument that a number parser accepts is one line. So it does not matter
that `CMS.INITBYDIM` names the width when it means the height, and whether
the width parses need not be asked.
-/
import RediGo.Core.Commands
import RediGo.Core.Frames

namespace RediGo.Core

open RediGo.Go RediGo.HashTable RediGo.Probabilistic

/-! ## Sound replies -/

/-- The encoding of a value whose lines are one line each. -/
def Sound (reply : Bytes) : Prop := ∃ v b, Safe v b ∧ reply = encode v b

theorem Sound.frame {reply : Bytes} (h : Sound reply) (hlen : reply.length < 2 ^ 63) :
    Frame reply := by
  obtain ⟨v, b, hsafe, rfl⟩ := h
  exact frame_encode hsafe hlen

theorem sound_encode {v : GoValue} {b : Bool} (h : Safe v b) : Sound (encode v b) := ⟨v, b, h, rfl⟩

theorem sound_errorReply {text : String} (h : OneLine (lit text)) : Sound (errorReply text) :=
  sound_encode (.error h false)

theorem sound_errorWith {text : String} {arg : Bytes} (h : OneLine (lit text)) (harg : OneLine arg) :
    Sound (errorWith text arg) :=
  sound_encode (.error (oneLine_append.mpr ⟨h, harg⟩) false)

/-- An error that names an argument is a frame if and only if the argument
is one line. -/
theorem frame_errorWith_iff {text : String} {arg : Bytes} (h : OneLine (lit text)) :
    Frame (errorWith text arg) ↔ OneLine arg := by
  rw [errorWith, frame_error_iff, oneLine_append]
  exact and_iff_right h

theorem sound_RespOk : Sound RespOk := by
  refine ⟨.str (lit "OK"), true, .simple (by decide), ?_⟩
  rw [encode]
  decide

theorem sound_RespNil : Sound RespNil := by
  refine ⟨.other, false, .other _, ?_⟩
  rw [encode]

theorem sound_TtlKeyNotExist : Sound TtlKeyNotExist := by
  refine ⟨.int (-2), false, .int _ _, ?_⟩
  rw [encode]
  decide

theorem sound_TtlKeyExistNoExpire : Sound TtlKeyExistNoExpire := by
  refine ⟨.int (-1), false, .int _ _, ?_⟩
  rw [encode]
  decide

theorem oneLine_of_printable {s : Bytes} (h : Printable s) : OneLine s := by
  constructor
  · intro hmem
    exact absurd (h _ hmem) (by decide)
  · intro hmem
    exact absurd (h _ hmem) (by decide)

theorem oneLine_formatInt (n : Int64) : OneLine (formatInt n) := by
  have hdigits : ∀ k, OneLine (decimal k) := by
    intro k
    apply oneLine_of_printable
    intro c hc
    exact lt_of_lt_of_le (by decide) (isDigit_of_mem_decimal k c hc).1
  unfold formatInt
  split
  next => exact oneLine_append.mpr ⟨by decide, hdigits _⟩
  next => exact hdigits _

/-! ## The commands that name no argument -/

theorem sound_cmdPING (args : List Bytes) : Sound (cmdPING args) := by
  unfold cmdPING
  split
  next => exact sound_encode (.simple (by decide))
  next => exact sound_encode (.str _)
  next => exact sound_encode (.error (by decide) _)

theorem sound_cmdGET (env : Env) (args : List Bytes) (ks : Keyspace) :
    Sound (cmdGET env args ks).1 := by
  unfold cmdGET
  split
  next key =>
    simp only
    split
    next => exact sound_RespNil
    next =>
      split
      next => exact sound_RespNil
      next => exact sound_encode (.str _)
  next => exact sound_errorReply (by decide)

theorem sound_cmdTTL (env : Env) (args : List Bytes) (ks : Keyspace) :
    Sound (cmdTTL env args ks).1 := by
  unfold cmdTTL
  split
  next key =>
    simp only
    split
    next => exact sound_TtlKeyNotExist
    next =>
      split
      next => exact sound_TtlKeyExistNoExpire
      next =>
        split
        next => exact sound_TtlKeyNotExist
        next => exact sound_encode (.int _ _)
  next => exact sound_errorReply (by decide)

/-! ### Commands that can panic -/

section Writes

variable {α β : Type}

/-- What is written, if anything is, is sound. -/
def Writes (r : Except Fault (Bytes × β)) : Prop := ∀ reply s, r = .ok (reply, s) → Sound reply

theorem writes_ok {reply : Bytes} {s : β} (h : Sound reply) :
    Writes (.ok (reply, s) : Except Fault (Bytes × β)) := by
  intro reply' s' heq
  obtain ⟨rfl, _⟩ := Prod.mk.inj (Except.ok.inj heq)
  exact h

theorem writes_bind {x : Except Fault α} {f : α → Except Fault (Bytes × β)}
    (h : ∀ a, x = .ok a → Writes (f a)) : Writes (x >>= f) := by
  cases x with
  | error fault => exact fun _ _ heq => nomatch heq
  | ok a => exact h a rfl

theorem writes_ite {c : Prop} [Decidable c] {r r' : Except Fault (Bytes × β)} (h : Writes r)
    (h' : Writes r') : Writes (if c then r else r') := by
  split
  next => exact h
  next => exact h'

/-- A loop's reply is the command's reply. -/
theorem Writes.bind {x : Except Fault (Bytes × α)} (h : Writes x) (k : α → β) :
    Writes (x >>= fun p => .ok (p.1, k p.2)) :=
  writes_bind fun p hp => writes_ok (h p.1 p.2 hp)

end Writes

section Commands

variable {Z : Type} {deps : Deps} {env : Env}

section SortedSets

variable [ScoredSet Z]

theorem writes_zaddLoop (args : List Bytes) (zset : Z) (count : Int64) :
    Writes (zaddLoop args zset count) := by
  fun_induction zaddLoop args zset count with
  | case1 => exact writes_ok (sound_encode (.int _ _))
  | case2 => exact fun _ _ heq => nomatch heq
  | case3 => exact writes_ok (sound_errorReply (by decide))
  | case4 scoreArg member args zset count score _ ih =>
    apply writes_bind
    rintro ⟨ret, zset'⟩ _
    simp only
    split
    next => exact writes_ok (sound_errorReply (by decide))
    next => exact ih zset'

theorem writes_cmdZADD (args : List Bytes) (st : Stores Z) : Writes (cmdZADD args st) := by
  unfold cmdZADD
  split
  next key rest =>
    split
    next => exact writes_ok (sound_errorReply (by decide))
    next =>
      split
      next => exact writes_ok (sound_errorWith (by decide) (oneLine_formatInt _))
      next =>
        have hloop := writes_zaddLoop rest ((st.zsetStore.lookup key).getD ScoredSet.new) 0
        exact hloop.bind fun zset => { st with zsetStore := st.zsetStore.insert key zset }
  next => exact writes_ok (sound_errorReply (by decide))

theorem writes_cmdZSCORE (args : List Bytes) (st : Stores Z) : Writes (cmdZSCORE args st) := by
  unfold cmdZSCORE
  split
  next key member =>
    split
    next => exact writes_ok sound_RespNil
    next =>
      split
      next => exact writes_ok sound_RespNil
      next => exact writes_ok (sound_encode (.str _))
  next => exact writes_ok (sound_errorReply (by decide))

theorem writes_cmdZRANK (args : List Bytes) (st : Stores Z) : Writes (cmdZRANK args st) := by
  unfold cmdZRANK
  split
  next key member =>
    split
    next => exact writes_ok sound_RespNil
    next => exact writes_bind fun rank _ => writes_ok (sound_encode (.int _ _))
  next => exact writes_ok (sound_errorReply (by decide))

end SortedSets

theorem writes_changeSet (change : SimpleSet → List Bytes → Nat × SimpleSet) (args : List Bytes)
    (st : Stores Z) : Writes (changeSet change args st) := by
  unfold changeSet
  split
  next => exact writes_ok (sound_encode (.int _ _))
  next => exact writes_ok (sound_errorReply (by decide))

theorem writes_cmdSMEMBERS (args : List Bytes) (st : Stores Z) :
    Writes (cmdSMEMBERS env args st) := by
  unfold cmdSMEMBERS
  split
  next key => split <;> exact writes_ok (sound_encode (.strs _ _))
  next => exact writes_ok (sound_errorReply (by decide))

theorem writes_cmdSISMEMBER (args : List Bytes) (st : Stores Z) :
    Writes (cmdSISMEMBER args st) := by
  unfold cmdSISMEMBER
  split
  next key member => split <;> exact writes_ok (sound_encode (.int _ _))
  next => exact writes_ok (sound_errorReply (by decide))

theorem writes_initCMS (key : Bytes) (w d : UInt64) (st : Stores Z) :
    Writes (initCMS key w d st) := by
  unfold initCMS
  split
  next => exact writes_ok (sound_errorReply (by decide))
  next => exact writes_bind fun cms _ => writes_ok sound_RespOk

theorem writes_cmdCMSQUERY (args : List Bytes) (st : Stores Z) :
    Writes (cmdCMSQUERY deps args st) := by
  unfold cmdCMSQUERY
  split
  next key item items =>
    split
    next => exact writes_ok (sound_errorReply (by decide))
    next => exact writes_bind fun res _ => writes_ok (sound_encode (.strs _ _))
  next => exact writes_ok (sound_errorReply (by decide))

theorem writes_cmdINFO (args : List Bytes) (st : Stores Z) : Writes (cmdINFO env args st) := by
  unfold cmdINFO
  split
  next => exact writes_ok (sound_encode (.str _))
  next =>
    split
    next => exact writes_ok (sound_encode (.str _))
    next => exact writes_ok (sound_errorReply (by decide))
  next => exact writes_ok (sound_errorReply (by decide))

/-! ## The commands that name an argument -/

/-- The increments among the arguments of `CMS.INCRBY` after the key. -/
def increments : List Bytes → List Bytes
  | _ :: value :: args => value :: increments args
  | _ => []

/-- The word of a `SET` with four arguments is one line. -/
def SetLine : List Bytes → Prop
  | [_, _, ex, _] => OneLine ex
  | _ => True

/-- The width is one line. -/
def DimLine : List Bytes → Prop
  | [_, width, _] => OneLine width
  | _ => True

/-- The rate is one line and, if it is accepted, so is the probability. -/
def ProbLine : List Bytes → Prop
  | [_, errRate, probability] =>
    OneLine errRate ∧
      ∀ x, parseFloat errRate = some x → outsideUnit x = false → OneLine probability
  | _ => True

/-- The first item is one line if there are as many increments as items,
the sketch exists and an increment is no number. -/
def IncrLine (st : Stores Z) : List Bytes → Prop
  | key :: item :: rest =>
    rest.length % 2 = 1 → key ∈ st.cmsStore →
      (∃ value ∈ increments (item :: rest), parseUint value = none) → OneLine item
  | _ => True

/-- Every argument that the reply would name is one line. -/
def NamesOneLine (st : Stores Z) (cmd : Command) : Prop :=
  if cmd.Cmd = lit "SET" then SetLine cmd.Args
  else if cmd.Cmd = lit "CMS.INITBYDIM" then DimLine cmd.Args
  else if cmd.Cmd = lit "CMS.INITBYPROB" then ProbLine cmd.Args
  else if cmd.Cmd = lit "CMS.INCRBY" then IncrLine st cmd.Args
  else True

theorem oneLine_of_parseInt {s : Bytes} {n : Int64} (h : parseInt s = some n) : OneLine s :=
  oneLine_of_printable (printable_of_parseInt h)

theorem oneLine_of_parseFloat {s : Bytes} {x : Float64} (h : parseFloat s = some x) : OneLine s :=
  oneLine_of_printable (printable_of_parseFloat h)

/-- A reply that names one argument, or none: `C` says that the argument is
one line. -/
def Names (reply : Bytes) (C : Prop) : Prop :=
  (Sound reply ∧ C) ∨
    ∃ text arg, OneLine (lit text) ∧ reply = errorWith text arg ∧ (C ↔ OneLine arg)

theorem Names.frame_iff {reply : Bytes} {C : Prop} (h : Names reply C)
    (hlen : reply.length < 2 ^ 63) : Frame reply ↔ C := by
  rcases h with ⟨hsound, hC⟩ | ⟨text, arg, htext, rfl, hC⟩
  · exact iff_of_true (hsound.frame hlen) hC
  · rw [frame_errorWith_iff htext, hC]

theorem names_cmdSET (cfg : Config) (env : Env) (args : List Bytes) (ks : Keyspace) :
    Names (cmdSET cfg env args ks).1 (SetLine args) := by
  match args with
  | [] | [_] | [_, _, _] | _ :: _ :: _ :: _ :: _ :: _ =>
    exact .inl ⟨sound_errorReply (by decide), trivial⟩
  | [_, _] => exact .inl ⟨sound_RespOk, trivial⟩
  | [key, value, ex, seconds] =>
    unfold cmdSET
    by_cases hex : ex = lit "EX"
    · have hline : SetLine [key, value, ex, seconds] := by
        show OneLine ex
        rw [hex]
        decide
      simp only [parseSET, hex, ne_eq, not_true_eq_false, if_false]
      cases parseInt seconds with
      | none => exact .inl ⟨sound_errorReply (by decide), hex ▸ hline⟩
      | some ttlSec => exact .inl ⟨sound_RespOk, hex ▸ hline⟩
    · refine .inr ⟨"(error) ERR syntax error. Must be EX instead of ", ex, by decide, ?_, .rfl⟩
      simp only [parseSET, hex, ne_eq, not_false_eq_true, if_true]
      rfl

/-- A command whose reply, if it writes one, names one argument or none. -/
def WritesNaming (r : Except Fault (Answer Z)) (C : Prop) : Prop :=
  ∀ reply st', r = .ok (reply, st') → Names reply C

theorem Writes.naming {r : Except Fault (Answer Z)} {C : Prop} (h : Writes r) (hC : C) :
    WritesNaming r C := fun reply st' heq => .inl ⟨h reply st' heq, hC⟩

theorem writesNaming_errorWith {text : String} {arg : Bytes} {st : Stores Z} {C : Prop}
    (htext : OneLine (lit text)) (hC : C ↔ OneLine arg) :
    WritesNaming (.ok (errorWith text arg, st)) C := by
  intro reply st' heq
  obtain ⟨rfl, _⟩ := Prod.mk.inj (Except.ok.inj heq)
  exact .inr ⟨text, arg, htext, rfl, hC⟩

theorem names_cmdCMSINITBYDIM (args : List Bytes) (st : Stores Z) :
    WritesNaming (cmdCMSINITBYDIM args st) (DimLine args) := by
  match args with
  | [] | [_] | [_, _] | _ :: _ :: _ :: _ :: _ =>
    exact (writes_ok (sound_errorReply (by decide))).naming trivial
  | [key, widthArg, heightArg] =>
    unfold cmdCMSINITBYDIM
    simp only
    split
    next => exact writesNaming_errorWith (by decide) .rfl
    next width hwidth =>
      have hline : OneLine widthArg := oneLine_of_parseInt hwidth
      split
      next => exact writesNaming_errorWith (by decide) .rfl
      next => exact (writes_initCMS _ _ _ _).naming hline

theorem names_cmdCMSINITBYPROB (args : List Bytes) (st : Stores Z) :
    WritesNaming (cmdCMSINITBYPROB deps args st) (ProbLine args) := by
  match args with
  | [] | [_] | [_, _] | _ :: _ :: _ :: _ :: _ =>
    exact (writes_ok (sound_errorReply (by decide))).naming trivial
  | [key, errRateArg, probabilityArg] =>
    unfold cmdCMSINITBYPROB
    simp only
    split
    next hnone =>
      refine writesNaming_errorWith (by decide) ⟨fun h => h.1, fun h => ⟨h, ?_⟩⟩
      simp [hnone]
    next errRate hrate =>
      have hline : OneLine errRateArg := oneLine_of_parseFloat hrate
      split
      next houtside =>
        refine (writes_ok (sound_errorReply (by decide))).naming ⟨hline, ?_⟩
        simp [hrate, houtside]
      next hinside =>
        have hinside : outsideUnit errRate = false := by simpa using hinside
        split
        next hnone =>
          refine writesNaming_errorWith (by decide) ⟨fun h => h.2 _ hrate hinside, fun h => ?_⟩
          exact ⟨hline, fun _ _ _ => h⟩
        next probability hprob =>
          have hline' : OneLine probabilityArg := oneLine_of_parseFloat hprob
          split
          next =>
            exact (writes_ok (sound_errorReply (by decide))).naming ⟨hline, fun _ _ _ => hline'⟩
          next => exact (writes_initCMS _ _ _ _).naming ⟨hline, fun _ _ _ => hline'⟩

/-- The loop of `CMS.INCRBY` stops at the first increment that is no number
and otherwise lists the estimates. -/
theorem incrLoop_reply {hash : ItemHash} {firstItem : Bytes} {args : List Bytes} {cms cms' : CMS}
    {res : List Bytes} {reply : Bytes}
    (h : incrLoop hash firstItem args cms res = .ok (reply, cms')) :
    ((∀ value ∈ increments args, parseUint value ≠ none) ∧ Sound reply) ∨
      ((∃ value ∈ increments args, parseUint value = none) ∧
        reply = errorWith "increment must be a non negative integer number " firstItem) := by
  fun_induction incrLoop hash firstItem args cms res with
  | case1 cms res =>
    obtain ⟨rfl, _⟩ := Prod.mk.inj (Except.ok.inj h)
    exact .inl ⟨by simp [increments], sound_encode (.strs _ _)⟩
  | case2 => cases h
  | case3 item valueArg args cms res hnone =>
    obtain ⟨rfl, _⟩ := Prod.mk.inj (Except.ok.inj h)
    exact .inr ⟨⟨valueArg, by simp [increments], hnone⟩, rfl⟩
  | case4 item valueArg args cms res value hvalue ih =>
    obtain ⟨⟨count, cms₁⟩, -, h⟩ := bind_eq_ok h
    have hrest := ih count cms₁ h
    simpa [increments, hvalue] using hrest

theorem names_cmdCMSINCRBY (args : List Bytes) (st : Stores Z) :
    WritesNaming (cmdCMSINCRBY deps args st) (IncrLine st args) := by
  match args with
  | [] | [_] => exact (writes_ok (sound_errorReply (by decide))).naming trivial
  | key :: item :: rest =>
    unfold cmdCMSINCRBY
    simp only
    split
    next harity =>
      refine (writes_ok (sound_errorReply (by decide))).naming fun hodd => ?_
      simp only [List.length_cons] at harity
      omega
    next harity =>
      have hodd : rest.length % 2 = 1 := by
        simp only [List.length_cons] at harity
        omega
      split
      next hnone =>
        refine (writes_ok (sound_errorReply (by decide))).naming fun _ hkey => ?_
        exact absurd hkey (AList.lookup_eq_none.mp hnone)
      next cms hcms =>
        have hkey : key ∈ st.cmsStore := AList.lookup_isSome.mp (by rw [hcms]; rfl)
        intro reply st' heq
        obtain ⟨result, hloop, heq⟩ := bind_eq_ok heq
        obtain ⟨rfl, _⟩ := Prod.mk.inj (Except.ok.inj heq)
        rcases incrLoop_reply hloop with ⟨hall, hsound⟩ | ⟨hbad, hreply⟩
        · refine .inl ⟨hsound, fun _ _ hbad => ?_⟩
          obtain ⟨value, hmem, hnone⟩ := hbad
          exact absurd hnone (hall value hmem)
        · exact .inr ⟨_, item, by decide, hreply, ⟨fun h => h hodd hkey hbad, fun h _ _ _ => h⟩⟩

/-! ## All commands -/

theorem writes_onKeyspace {cmd : Keyspace → Bytes × Keyspace} {st : Stores Z}
    (h : Sound (cmd st.keyspace).1) : Writes (onKeyspace cmd st) := writes_ok h

section Dispatch

variable [ScoredSet Z]

/-- Every other command writes a sound reply. -/
theorem writes_executeAndResponse (cmd : Command) (st : Stores Z) (hset : cmd.Cmd ≠ lit "SET")
    (hdim : cmd.Cmd ≠ lit "CMS.INITBYDIM") (hprob : cmd.Cmd ≠ lit "CMS.INITBYPROB")
    (hincr : cmd.Cmd ≠ lit "CMS.INCRBY") : Writes (executeAndResponse deps env cmd st) := by
  unfold executeAndResponse
  rw [if_neg hset, if_neg hdim, if_neg hprob, if_neg hincr]
  refine writes_ite (writes_ok (sound_cmdPING _)) ?_
  refine writes_ite (writes_onKeyspace (sound_cmdGET ..)) ?_
  refine writes_ite (writes_onKeyspace (sound_cmdTTL ..)) ?_
  refine writes_ite (writes_cmdZADD _ _) ?_
  refine writes_ite (writes_cmdZSCORE _ _) ?_
  refine writes_ite (writes_cmdZRANK _ _) ?_
  refine writes_ite (writes_changeSet _ _ _) ?_
  refine writes_ite (writes_changeSet _ _ _) ?_
  refine writes_ite (writes_cmdSMEMBERS _ _) ?_
  refine writes_ite (writes_cmdSISMEMBER _ _) ?_
  refine writes_ite (writes_cmdCMSQUERY _ _) ?_
  refine writes_ite (writes_cmdINFO _ _) ?_
  refine writes_ite (writes_ok (sound_encode (.strs _ _))) ?_
  exact writes_ok ⟨.error (lit "CMD NOT FOUND"), false, .error (by decide) _, by
    rw [encode]
    decide⟩

/-- What `ExecuteAndResponse` writes names one argument or none. -/
theorem names_executeAndResponse (cmd : Command) (st : Stores Z) :
    WritesNaming (executeAndResponse deps env cmd st) (NamesOneLine st cmd) := by
  obtain ⟨name, args⟩ := cmd
  unfold NamesOneLine
  simp only
  split
  next hset =>
    subst hset
    rintro reply st' heq
    obtain ⟨rfl, _⟩ := Prod.mk.inj (Except.ok.inj heq)
    exact names_cmdSET deps.cfg env args st.keyspace
  split
  next hdim =>
    subst hdim
    exact names_cmdCMSINITBYDIM args st
  split
  next hprob =>
    subst hprob
    exact names_cmdCMSINITBYPROB args st
  split
  next hincr =>
    subst hincr
    exact names_cmdCMSINCRBY args st
  next hset hdim hprob hincr =>
    exact (writes_executeAndResponse ⟨name, args⟩ st hset hdim hprob hincr).naming trivial

/-- A reply is one frame, with nothing before and nothing after it, if and
only if every argument it names is one line. -/
theorem reply_frame_iff (deps : Deps) (env : Env) (st st' : Stores Z) (cmd : Command)
    (reply : Bytes) (h : executeAndResponse deps env cmd st = .ok (reply, st'))
    (hlen : reply.length < 2 ^ 63) : Frame reply ↔ NamesOneLine st cmd :=
  (names_executeAndResponse cmd st reply st' h).frame_iff hlen

/-- The commands that reach a sorted set's index or allocate and index a
sketch. -/
def mayPanic : List Bytes :=
  [lit "ZADD", lit "ZRANK", lit "CMS.INITBYDIM", lit "CMS.INITBYPROB", lit "CMS.INCRBY",
    lit "CMS.QUERY"]

/-- Every other command writes a reply. -/
theorem executeAndResponse_returns (deps : Deps) (env : Env) (st : Stores Z) (cmd : Command)
    (h : cmd.Cmd ∉ mayPanic) : ∃ answer, executeAndResponse deps env cmd st = .ok answer := by
  simp only [mayPanic, List.mem_cons, List.not_mem_nil, or_false, not_or] at h
  obtain ⟨hzadd, hzrank, hdim, hprob, hincr, hquery⟩ := h
  have hite : ∀ {c : Prop} [Decidable c] {r r' : Except Fault (Answer Z)}, (∃ a, r = .ok a) →
      (∃ a, r' = .ok a) → ∃ a, (if c then r else r') = .ok a := by
    intro c _ r r' hr hr'
    split
    next => exact hr
    next => exact hr'
  unfold executeAndResponse
  rw [if_neg hzadd, if_neg hzrank, if_neg hdim, if_neg hprob, if_neg hincr, if_neg hquery]
  refine hite ⟨_, rfl⟩ (hite ⟨_, rfl⟩ (hite ⟨_, rfl⟩ (hite ⟨_, rfl⟩ (hite ?_ (hite ?_ (hite ?_
    (hite ?_ (hite ?_ (hite ?_ (hite ⟨_, rfl⟩ ⟨_, rfl⟩))))))))))
  · unfold cmdZSCORE
    split
    next => split <;> [exact ⟨_, rfl⟩; (split <;> exact ⟨_, rfl⟩)]
    next => exact ⟨_, rfl⟩
  · unfold cmdSADD changeSet
    split <;> exact ⟨_, rfl⟩
  · unfold cmdSREM changeSet
    split <;> exact ⟨_, rfl⟩
  · unfold cmdSMEMBERS
    split
    next => split <;> exact ⟨_, rfl⟩
    next => exact ⟨_, rfl⟩
  · unfold cmdSISMEMBER
    split
    next => split <;> exact ⟨_, rfl⟩
    next => exact ⟨_, rfl⟩
  · unfold cmdINFO
    split
    next => exact ⟨_, rfl⟩
    next => split <;> exact ⟨_, rfl⟩
    next => exact ⟨_, rfl⟩

end Dispatch

/-- A configuration for the runs below. -/
def smallDeps : Deps :=
  ⟨⟨10, 1, .allkeysRandom, 16, 5⟩, default, fun _ _ => 0⟩

/-- A `GET` of a missing key, whose name has a line break. -/
theorem reply_frame_iff_get :
    Frame RespNil ↔ NamesOneLine (Stores.init : Stores ZSet)
      ⟨lit "GET", [lit "a\r\nb"]⟩ :=
  reply_frame_iff smallDeps default Stores.init Stores.init ⟨lit "GET", [lit "a\r\nb"]⟩ RespNil
    rfl (by decide)

/-- A `SET` whose third argument brings a second reply with it. -/
theorem set_writes_two_frames :
    ∃ reply st', executeAndResponse smallDeps default
        ⟨lit "SET", [lit "k", lit "v", lit "X\r\n+OK", lit "1"]⟩
        (Stores.init : Stores ZSet) = .ok (reply, st') ∧
      ¬ Frame reply ∧ ∃ f g, Frame f ∧ Frame g ∧ reply = f ++ g := by
  refine ⟨errorWith "(error) ERR syntax error. Must be EX instead of " (lit "X\r\n+OK"), _, rfl,
    ?_, encode (.error (lit "(error) ERR syntax error. Must be EX instead of X")) false,
    encode (.str (lit "OK")) true, ?_, ?_, ?_⟩
  · rw [frame_errorWith_iff (by decide)]
    decide
  · exact frame_error_iff.mpr (by decide)
  · exact frame_encode (.simple (by decide)) (by decide)
  · decide

end Commands

end RediGo.Core
