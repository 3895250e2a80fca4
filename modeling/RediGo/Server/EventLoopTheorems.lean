/-
RediGo.Server.EventLoopTheorems — what the clients of the single-threaded
server get.

In every run, whatever the clients send, the descriptors of the table are the
ones that are monitored, every event that is left is of an open connection,
and the stores are those after the recorded commands and expiry cycles, one
after the other (`loop_books`).

A courteous client sends its next request when it has the reply to the one
before, in one piece of at most 512 bytes that arrives as one (`Courteous`).
Then nothing is dropped: at each time at most the last request of a client
is unread (`Waiting`). So every request is executed once and in order, and
with `RediGo.Core.ServerRefinement` the replies are those of the ideal
server (`courteous_run`). A `Monitor` that fails ends the process, so for that it
is assumed to succeed. `RediGo.Server.EventLoopProgress` adds that the requests
are answered in the end.
-/
import Mathlib.Data.List.ReduceOption
import RediGo.Core.ServerRefinement
import RediGo.Server.EventLoop
import RediGo.Server.Requests

namespace RediGo.Server

open RediGo.Go RediGo.HashTable RediGo.Core RediGo.Lib

/-! ## Steps -/

/-- The call that the event asks for fails, and the loop goes on. -/
def LoopAction.Fails : LoopAction → LoopEvent → Prop
  | .accept .failed, .listener => True
  | .handle .failed _ _, .conn _ => True
  | _, _ => False

/-- The read finds the connection reset or at its end. -/
def LoopAction.Ends : LoopAction → Prop
  | .handle .reset _ _ => True
  | .handle (.bytes 0) _ _ => True
  | _ => False

/-- What a step does, with the conditions under which it does it. -/
inductive LoopTransition (deps : Deps) (s : Loop) : LoopAction → Loop → Prop
  | send {conn : Nat} (bytes : Bytes) (hconn : conn < s.opened) (hopen : s.ended conn = false) :
    LoopTransition deps s (.send conn bytes) (s.sent conn bytes)
  | hangUp {conn : Nat} (hconn : conn < s.opened) :
    LoopTransition deps s (.hangUp conn) (s.hungUp conn)
  | expire (env : Env) (hup : s.crashed = false) (hidle : s.events = []) :
    LoopTransition deps s (.expire env) (s.expire env)
  | wait {ready : List LoopEvent} (hup : s.crashed = false) (hidle : s.events = [])
    (hnodup : ready.Nodup) (hready : ∀ e ∈ ready, s.watches e = true) :
    LoopTransition deps s (.wait ready) (s.pop ready)
  | skip {a : LoopAction} {e : LoopEvent} {rest : List LoopEvent} (hup : s.crashed = false)
    (hevents : s.events = e :: rest) (hfails : a.Fails e) : LoopTransition deps s a (s.pop rest)
  | accept {fd : Nat} {rest : List LoopEvent} (hup : s.crashed = false)
    (hevents : s.events = .listener :: rest) (hfd : s.fds fd = none) :
    LoopTransition deps s (.accept (.conn fd)) ((s.pop rest).accepted fd)
  | die {rest : List LoopEvent} (hup : s.crashed = false) (hevents : s.events = .listener :: rest) :
    LoopTransition deps s (.accept .unmonitored) (s.pop rest).crash
  | close {a : LoopAction} {fd conn : Nat} {rest : List LoopEvent} (hup : s.crashed = false)
    (hevents : s.events = .conn fd :: rest) (hfd : s.fds fd = some conn) (hends : a.Ends) :
    LoopTransition deps s a ((s.pop rest).close fd)
  | receive {fd conn n : Nat} {rest : List LoopEvent} (env : Env) (delivered : Bool)
    (hup : s.crashed = false) (hevents : s.events = .conn fd :: rest)
    (hfd : s.fds fd = some conn) (hn : 0 < n) (hle : n ≤ (s.unread conn).length) :
    LoopTransition deps s (.handle (.bytes n) env delivered)
      ((s.pop rest).receive deps env fd conn n delivered)

variable {deps : Deps} {s s' : Loop} {a : LoopAction}

theorem transition_of_loopStep (h : loopStep deps s a = some s') : LoopTransition deps s a s' := by
  cases a with
  | send conn bytes =>
    simp only [loopStep, Option.ite_none_right_eq_some] at h
    obtain ⟨⟨hconn, hopen⟩, heq⟩ := h
    cases heq
    exact .send bytes hconn hopen
  | hangUp conn =>
    simp only [loopStep, Option.ite_none_right_eq_some] at h
    obtain ⟨hconn, heq⟩ := h
    cases heq
    exact .hangUp hconn
  | expire env =>
    simp only [loopStep, Option.ite_none_right_eq_some] at h
    obtain ⟨⟨hup, hidle⟩, heq⟩ := h
    cases heq
    exact .expire env hup hidle
  | wait ready =>
    simp only [loopStep, Option.ite_none_right_eq_some] at h
    obtain ⟨⟨hup, hidle, hnodup, hready⟩, heq⟩ := h
    cases heq
    exact .wait hup hidle hnodup hready
  | accept result =>
    simp only [loopStep, Option.ite_none_left_eq_some] at h
    obtain ⟨hup, h⟩ := h
    have hup : s.crashed = false := Bool.eq_false_iff.2 hup
    split at h
    · rename_i rest hevents
      cases result with
      | failed =>
        cases h
        exact .skip hup hevents trivial
      | conn fd =>
        simp only [Option.ite_none_right_eq_some] at h
        obtain ⟨hfd, heq⟩ := h
        cases heq
        exact .accept hup hevents hfd
      | unmonitored =>
        cases h
        exact .die hup hevents
    · cases h
  | handle result env delivered =>
    simp only [loopStep, Option.ite_none_left_eq_some] at h
    obtain ⟨hup, h⟩ := h
    have hup : s.crashed = false := Bool.eq_false_iff.2 hup
    split at h
    · rename_i fd rest hevents
      split at h
      · cases h
        exact .skip hup hevents trivial
      · cases h
      · cases h
        exact .close hup hevents ‹_› trivial
      · simp only [Option.ite_none_right_eq_some] at h
        obtain ⟨-, heq⟩ := h
        cases heq
        exact .close hup hevents ‹_› trivial
      · rename_i n conn hfd
        simp only [Option.ite_none_right_eq_some] at h
        obtain ⟨⟨-, hle⟩, heq⟩ := h
        cases heq
        exact .receive env delivered hup hevents hfd (Nat.succ_pos n) hle
    · cases h

/-! ## Descriptors -/

/-- The table, what is monitored and the events that are left agree. -/
structure Loop.Wired (s : Loop) : Prop where
  live : ∀ fd, s.interest fd = true ↔ s.fds fd ≠ none
  inj : ∀ fd fd' conn, s.fds fd = some conn → s.fds fd' = some conn → fd = fd'
  lt : ∀ fd conn, s.fds fd = some conn → conn < s.opened
  nodup : s.events.Nodup
  open_of_mem : ∀ fd, .conn fd ∈ s.events → s.fds fd ≠ none

namespace Loop

/-- The descriptors are as they were. -/
structure SameWires (s s' : Loop) : Prop where
  fds : s'.fds = s.fds
  opened : s'.opened = s.opened
  interest : s'.interest = s.interest
  events : s'.events = s.events

theorem Wired.congr (h : s.Wired) (hs : SameWires s s') : s'.Wired := by
  obtain ⟨hfds, hopened, hinterest, hevents⟩ := hs
  exact ⟨by rw [hfds, hinterest]; exact h.live, by rw [hfds]; exact h.inj,
    by rw [hfds, hopened]; exact h.lt, by rw [hevents]; exact h.nodup,
    by rw [hfds, hevents]; exact h.open_of_mem⟩

theorem Wired.pop {e : LoopEvent} {rest : List LoopEvent} (h : s.Wired)
    (hevents : s.events = e :: rest) : (s.pop rest).Wired where
  live := h.live
  inj := h.inj
  lt := h.lt
  nodup := (List.nodup_cons.1 (hevents ▸ h.nodup)).2
  open_of_mem fd hfd := h.open_of_mem fd (hevents ▸ List.mem_cons_of_mem e hfd)

/-- A descriptor is closed when its event was taken. -/
theorem Wired.close {fd : Nat} (h : s.Wired) (hfd : .conn fd ∉ s.events) : (s.close fd).Wired where
  live fd' := by
    by_cases heq : fd' = fd
    · simp [Loop.close, heq]
    · simpa [Loop.close, heq] using h.live fd'
  inj fd₁ fd₂ conn h₁ h₂ := by
    by_cases heq₁ : fd₁ = fd
    · simp [Loop.close, heq₁] at h₁
    · by_cases heq₂ : fd₂ = fd
      · simp [Loop.close, heq₂] at h₂
      · exact h.inj fd₁ fd₂ conn (by simpa [Loop.close, heq₁] using h₁)
          (by simpa [Loop.close, heq₂] using h₂)
  lt fd' conn h' := by
    by_cases heq : fd' = fd
    · simp [Loop.close, heq] at h'
    · exact h.lt fd' conn (by simpa [Loop.close, heq] using h')
  nodup := h.nodup
  open_of_mem fd' hmem := by
    have hne : fd' ≠ fd := by
      rintro rfl
      exact hfd hmem
    simpa [Loop.close, hne] using h.open_of_mem fd' hmem

theorem Wired.accepted {fd : Nat} (h : s.Wired) (hfd : s.fds fd = none) : (s.accepted fd).Wired where
  live fd' := by
    by_cases heq : fd' = fd
    · simp [Loop.accepted, heq]
    · simpa [Loop.accepted, heq] using h.live fd'
  inj fd₁ fd₂ conn h₁ h₂ := by
    -- the new connection has a number that no other one has
    by_cases heq₁ : fd₁ = fd <;> by_cases heq₂ : fd₂ = fd
    · rw [heq₁, heq₂]
    · simp only [Loop.accepted, heq₁, Function.update_self, Option.some.injEq] at h₁
      simp only [Loop.accepted, Function.update_of_ne heq₂] at h₂
      have := h.lt fd₂ conn h₂
      omega
    · simp only [Loop.accepted, heq₂, Function.update_self, Option.some.injEq] at h₂
      simp only [Loop.accepted, Function.update_of_ne heq₁] at h₁
      have := h.lt fd₁ conn h₁
      omega
    · exact h.inj fd₁ fd₂ conn (by simpa [Loop.accepted, heq₁] using h₁)
        (by simpa [Loop.accepted, heq₂] using h₂)
  lt fd' conn h' := by
    show conn < s.opened + 1
    by_cases heq : fd' = fd
    · simp only [Loop.accepted, heq, Function.update_self, Option.some.injEq] at h'
      omega
    · have := h.lt fd' conn (by simpa [Loop.accepted, heq] using h')
      omega
  nodup := h.nodup
  open_of_mem fd' hmem := by
    have hopen := h.open_of_mem fd' hmem
    have hne : fd' ≠ fd := by
      rintro rfl
      exact hopen hfd
    simpa [Loop.accepted, hne] using hopen

/-- What happens to the stores and the log. -/
theorem answer_cases (deps : Deps) (env : Env) (s : Loop) (fd conn : Nat) (cmd : Command)
    (delivered : Bool) :
    (∃ fault, executeAndResponse deps env cmd s.stores = .error fault ∧
        s.answer deps env fd conn cmd delivered = (s.noted (.command cmd) env).crash) ∨
      ∃ reply stores, executeAndResponse deps env cmd s.stores = .ok (reply, stores) ∧
        s.answer deps env fd conn cmd delivered =
          ((s.noted (.command cmd) env).stored stores).replied fd
            ⟨conn, cmd, reply, delivered⟩ := by
  unfold answer
  rcases executeAndResponse deps env cmd s.stores with fault | ⟨reply, stores⟩
  · exact .inl ⟨fault, rfl, rfl⟩
  · exact .inr ⟨reply, stores, rfl, rfl⟩

theorem expire_cases (env : Env) (s : Loop) :
    (∃ fault, activeDeleteExpiredKeys env s.stores.keyspace = .error fault ∧
        s.expire env = (s.noted .expire env).crash) ∨
      ∃ keyspace, activeDeleteExpiredKeys env s.stores.keyspace = .ok keyspace ∧
        s.expire env = (s.noted .expire env).stored { s.stores with keyspace := keyspace } := by
  unfold expire
  rcases activeDeleteExpiredKeys env s.stores.keyspace with fault | keyspace
  · exact .inl ⟨fault, rfl, rfl⟩
  · exact .inr ⟨keyspace, rfl, rfl⟩

theorem receive_cases (deps : Deps) (env : Env) (s : Loop) (fd conn n : Nat) (delivered : Bool) :
    s.receive deps env fd conn n delivered = (s.drained conn n).crash ∨
      s.receive deps env fd conn n delivered = s.drained conn n ∨
      ∃ cmd, readCommand ((s.unread conn).take n) = .ok (.ok cmd) ∧
        s.receive deps env fd conn n delivered =
          (s.drained conn n).answer deps env fd conn cmd delivered := by
  unfold receive
  rcases readCommand ((s.unread conn).take n) with fault | error | cmd
  · exact .inl rfl
  · exact .inr (.inl rfl)
  · exact .inr (.inr ⟨cmd, rfl, rfl⟩)

theorem Wired.replied {fd : Nat} (h : s.Wired) (hfd : .conn fd ∉ s.events) (e : Exchange) :
    (s.replied fd e).Wired := by
  have hsame : (s.exchanged e).Wired := h.congr ⟨rfl, rfl, rfl, rfl⟩
  unfold Loop.replied
  split
  · exact hsame
  · exact hsame.close hfd

theorem Wired.answer {fd : Nat} (h : s.Wired) (hfd : .conn fd ∉ s.events) (deps : Deps) (env : Env)
    (conn : Nat) (cmd : Command) (delivered : Bool) :
    (s.answer deps env fd conn cmd delivered).Wired := by
  rcases answer_cases deps env s fd conn cmd delivered with ⟨-, -, heq⟩ | ⟨reply, stores, -, heq⟩
  · rw [heq]
    exact h.congr ⟨rfl, rfl, rfl, rfl⟩
  · have hsame : ((s.noted (.command cmd) env).stored stores).Wired := h.congr ⟨rfl, rfl, rfl, rfl⟩
    rw [heq]
    exact hsame.replied hfd _

end Loop

theorem Loop.Wired.step (h : s.Wired) (ht : LoopTransition deps s a s') : s'.Wired := by
  cases ht with
  | send => exact h.congr ⟨rfl, rfl, rfl, rfl⟩
  | hangUp => exact h.congr ⟨rfl, rfl, rfl, rfl⟩
  | expire env hup hidle =>
    rcases Loop.expire_cases env s with ⟨-, -, heq⟩ | ⟨keyspace, -, heq⟩ <;> rw [heq] <;>
      exact h.congr ⟨rfl, rfl, rfl, rfl⟩
  | wait hup hidle hnodup hready =>
    refine ⟨h.live, h.inj, h.lt, hnodup, fun fd hfd => ?_⟩
    exact (h.live fd).1 (hready (.conn fd) hfd)
  | skip hup hevents => exact h.pop hevents
  | accept hup hevents hfd => exact (h.pop hevents).accepted hfd
  | die hup hevents => exact (h.pop hevents).congr ⟨rfl, rfl, rfl, rfl⟩
  | close hup hevents => exact (h.pop hevents).close (List.nodup_cons.1 (hevents ▸ h.nodup)).1
  | @receive fd conn n rest env delivered hup hevents hfd hn hle =>
    have hnext := h.pop hevents
    have hdrained : ((s.pop rest).drained conn n).Wired := hnext.congr ⟨rfl, rfl, rfl, rfl⟩
    rcases Loop.receive_cases deps env (s.pop rest) fd conn n delivered with heq | heq | ⟨cmd, -, heq⟩
    · rw [heq]
      exact hnext.congr ⟨rfl, rfl, rfl, rfl⟩
    · rw [heq]
      exact hdrained
    · rw [heq]
      exact hdrained.answer (List.nodup_cons.1 (hevents ▸ h.nodup)).1 deps env conn cmd delivered

theorem Loop.wired_init : Loop.init.Wired where
  live _ := by simp [Loop.init]
  inj _ _ _ h := by simp [Loop.init] at h
  lt _ _ h := by simp [Loop.init] at h
  nodup := List.nodup_nil
  open_of_mem _ h := by simp [Loop.init] at h

/-! ## Exchanges -/

namespace Loop

def exchangesOf (s : Loop) (conn : Nat) : List Exchange :=
  s.exchanges.filter fun e => e.conn = conn

/-- The commands executed for a connection. -/
def commandsOf (s : Loop) (conn : Nat) : List Command := (s.exchangesOf conn).map (·.command)

/-- Their replies. -/
def repliesOf (s : Loop) (conn : Nat) : List Bytes := (s.exchangesOf conn).map (·.reply)

/-- The replies that the client has got. -/
def answersTo (s : Loop) (conn : Nat) : List Bytes :=
  ((s.exchangesOf conn).filter (·.delivered)).map (·.reply)

theorem exchangesOf_exchanged (s : Loop) (e : Exchange) (conn : Nat) :
    (s.exchanged e).exchangesOf conn =
      s.exchangesOf conn ++ if e.conn = conn then [e] else [] := by
  unfold exchangesOf exchanged
  rw [List.filter_append]
  by_cases h : e.conn = conn <;> simp [h]

theorem exchangesOf_replied (s : Loop) (fd : Nat) (e : Exchange) (conn : Nat) :
    (s.replied fd e).exchangesOf conn =
      s.exchangesOf conn ++ if e.conn = conn then [e] else [] := by
  rw [← exchangesOf_exchanged]
  unfold replied
  split <;> rfl

/-- Every exchange is of a known connection, and a connection whose last
reply could not be written is closed. -/
structure Settled (s : Loop) : Prop where
  known : ∀ e ∈ s.exchanges, e.conn < s.opened
  written : ∀ conn, (∀ e ∈ s.exchangesOf conn, e.delivered = true) ∨
    (∀ fd, s.fds fd ≠ some conn) ∧ ∃ old e, s.exchangesOf conn = old ++ [e] ∧
      ∀ e ∈ old, e.delivered = true

theorem settled_init : Loop.init.Settled where
  known e he := by simp [Loop.init] at he
  written conn := .inl fun e he => by simp [exchangesOf, Loop.init] at he

/-- No connection is opened. -/
theorem Settled.congr (h : s.Settled) (hexchanges : s'.exchanges = s.exchanges)
    (hopened : s'.opened = s.opened) (hfds : ∀ fd conn, s'.fds fd = some conn → s.fds fd = some conn) :
    s'.Settled where
  known := by
    rw [hexchanges, hopened]
    exact h.known
  written conn := by
    have heq : s'.exchangesOf conn = s.exchangesOf conn := by rw [exchangesOf, hexchanges]; rfl
    rw [heq]
    exact (h.written conn).imp_right fun hclosed =>
      ⟨fun fd hfd => hclosed.1 fd (hfds fd conn hfd), hclosed.2⟩

theorem Settled.close (h : s.Settled) (fd : Nat) : (s.close fd).Settled := by
  refine h.congr rfl rfl fun fd' conn hfd' => ?_
  by_cases heq : fd' = fd
  · simp [Loop.close, heq] at hfd'
  · simpa [Loop.close, heq] using hfd'

theorem Settled.accepted (h : s.Settled) (fd : Nat) : (s.accepted fd).Settled where
  known e he := Nat.lt_succ_of_lt (h.known e he)
  written conn := by
    by_cases hconn : conn = s.opened
    · -- nothing was executed for it yet
      refine .inl fun e he => ?_
      obtain ⟨hmem, hof⟩ := List.mem_filter.1 he
      have hlt := h.known e hmem
      have heq : e.conn = conn := of_decide_eq_true hof
      omega
    · refine (h.written conn).imp_right fun hclosed => ⟨fun fd' hfd' => ?_, hclosed.2⟩
      by_cases heq : fd' = fd
      · simp only [Loop.accepted, heq, Function.update_self, Option.some.injEq] at hfd'
        exact hconn hfd'.symm
      · exact hclosed.1 fd' (by simpa [Loop.accepted, heq] using hfd')

theorem Settled.replied (hw : s.Wired) (h : s.Settled) {fd : Nat} {e : Exchange}
    (hfd : s.fds fd = some e.conn) : (s.replied fd e).Settled where
  known e' he' := by
    have hopened : (s.replied fd e).opened = s.opened := by
      unfold Loop.replied
      split <;> rfl
    have hmem : e' ∈ s.exchanges ++ [e] := by
      unfold Loop.replied at he'
      split at he' <;> exact he'
    rw [hopened]
    rcases List.mem_append.1 hmem with hold | hnew
    · exact h.known e' hold
    · rw [List.mem_singleton.1 hnew]
      exact hw.lt fd e.conn hfd
  written conn := by
    rw [exchangesOf_replied]
    by_cases hconn : e.conn = conn
    · subst hconn
      rw [if_pos rfl]
      have hall : ∀ e' ∈ s.exchangesOf e.conn, e'.delivered = true :=
        (h.written e.conn).resolve_right fun hclosed => hclosed.1 fd hfd
      cases hdelivered : e.delivered with
      | true =>
        refine .inl fun e' he' => ?_
        rcases List.mem_append.1 he' with hold | hnew
        · exact hall e' hold
        · rw [List.mem_singleton.1 hnew, hdelivered]
      | false =>
        refine .inr ⟨fun fd' hfd' => ?_, _, e, rfl, hall⟩
        rw [Loop.replied, hdelivered] at hfd'
        by_cases heq : fd' = fd
        · simp [Loop.close, heq] at hfd'
        · have hopen : s.fds fd' = some e.conn := by simpa [Loop.close, Loop.exchanged, heq] using hfd'
          exact heq (hw.inj fd' fd e.conn hopen hfd)
    · rw [if_neg hconn, List.append_nil]
      refine (h.written conn).imp_right fun hclosed => ⟨fun fd' hfd' => ?_, hclosed.2⟩
      have hopen : s.fds fd' = some conn := by
        unfold Loop.replied at hfd'
        split at hfd'
        · exact hfd'
        · by_cases heq : fd' = fd
          · simp [Loop.close, heq] at hfd'
          · simpa [Loop.close, Loop.exchanged, heq] using hfd'
      exact hclosed.1 fd' hopen

theorem Settled.step (hw : s.Wired) (h : s.Settled) (ht : LoopTransition deps s a s') :
    s'.Settled := by
  have hsame : ∀ {s' : Loop}, s'.exchanges = s.exchanges → s'.opened = s.opened →
      s'.fds = s.fds → s'.Settled := fun he ho hf => h.congr he ho fun fd conn hfd => hf ▸ hfd
  cases ht with
  | send => exact hsame rfl rfl rfl
  | hangUp => exact hsame rfl rfl rfl
  | expire env hup hidle =>
    rcases expire_cases env s with ⟨-, -, heq⟩ | ⟨keyspace, -, heq⟩ <;> rw [heq] <;>
      exact hsame rfl rfl rfl
  | wait => exact hsame rfl rfl rfl
  | skip => exact hsame rfl rfl rfl
  | @accept fd rest =>
    have hpop : (s.pop rest).Settled := hsame rfl rfl rfl
    exact hpop.accepted fd
  | die => exact hsame rfl rfl rfl
  | @close _ fd conn rest =>
    have hpop : (s.pop rest).Settled := hsame rfl rfl rfl
    exact hpop.close fd
  | @receive fd conn n rest env delivered hup hevents hfd hn hle =>
    rcases receive_cases deps env (s.pop rest) fd conn n delivered with heq | heq | ⟨cmd, -, heq⟩
    · rw [heq]
      exact hsame rfl rfl rfl
    · rw [heq]
      exact hsame rfl rfl rfl
    · rw [heq]
      rcases answer_cases deps env ((s.pop rest).drained conn n) fd conn cmd delivered with
        ⟨-, -, heq⟩ | ⟨reply, stores, -, heq⟩
      · rw [heq]
        exact hsame rfl rfl rfl
      · rw [heq]
        have hnext : (((s.pop rest).drained conn n).noted (.command cmd) env |>.stored stores).Wired :=
          (hw.pop hevents).congr ⟨rfl, rfl, rfl, rfl⟩
        exact Settled.replied hnext (hsame rfl rfl rfl) hfd

/-! ## Stores -/

end Loop

/-- The commands of a run of the stores. -/
def commandsIn (ops : List (ServerOp × Env)) : List Command :=
  ops.filterMap fun p => match p.1 with
    | .command cmd => some cmd
    | .expire => none

theorem run_concat {st st' : Stores ZSet} {ops : List (ServerOp × Env)}
    {replies : List (Option Bytes)} (h : st.run deps ops = .ok (replies, st')) (op : ServerOp)
    (env : Env) : st.run deps (ops ++ [(op, env)]) =
      (st'.step deps env op).map fun p => (replies ++ [p.1], p.2) := by
  induction ops generalizing st replies with
  | nil =>
    cases h
    rw [List.nil_append, Stores.run]
    rcases st'.step deps env op with fault | ⟨reply, st₁⟩ <;> rfl
  | cons p ops ih =>
    obtain ⟨op₁, env₁⟩ := p
    obtain ⟨⟨reply, st₁⟩, hstep, h⟩ := bind_eq_ok h
    obtain ⟨⟨rest, st₂⟩, hrun, h⟩ := bind_eq_ok h
    cases h
    rw [List.cons_append, Stores.run, hstep]
    show (st₁.run deps (ops ++ [(op, env)]) >>= _) = _
    rw [ih hrun]
    rcases st'.step deps env op with fault | ⟨reply', st₃⟩ <;> rfl

namespace Loop

/-- The stores are those after what was done to them, and the replies those
of the exchanges. -/
def Ran (deps : Deps) (s : Loop) : Prop :=
  ∃ replies, (Stores.init : Stores ZSet).run deps s.ops = .ok (replies, s.stores) ∧
    replies.reduceOption = s.exchanges.map (·.reply) ∧
    commandsIn s.ops = s.exchanges.map (·.command)

/-- The stores could not do what they were asked to. -/
def Faulted (deps : Deps) (s : Loop) : Prop :=
  ∃ fault, (Stores.init : Stores ZSet).run deps s.ops = .error fault

theorem Ran.congr (h : s.Ran deps) (hstores : s'.stores = s.stores) (hops : s'.ops = s.ops)
    (hexchanges : s'.exchanges = s.exchanges) : s'.Ran deps := by
  rw [Ran, hstores, hops, hexchanges]
  exact h

theorem Ran.expire (h : s.Ran deps) (env : Env) :
    ((s.expire env).crashed = true ∧ (s.expire env).Faulted deps) ∨
      (s.expire env).crashed = s.crashed ∧ (s.expire env).Ran deps := by
  obtain ⟨replies, hrun, hreplies, hcommands⟩ := h
  have hconcat := run_concat hrun .expire env
  rcases expire_cases env s with ⟨fault, hfault, heq⟩ | ⟨keyspace, hok, heq⟩
  · rw [Stores.step, hfault] at hconcat
    rw [heq]
    exact .inl ⟨rfl, fault, hconcat⟩
  · rw [Stores.step, hok] at hconcat
    rw [heq]
    refine .inr ⟨rfl, _, hconcat, ?_, ?_⟩
    · simp [noted, stored, List.reduceOption_append, hreplies]
    · simp [commandsIn, noted, stored, ← hcommands]

theorem Ran.replied (h : s.Ran deps) (env : Env) {cmd : Command} {reply : Bytes}
    {stores : Stores ZSet} (hok : executeAndResponse deps env cmd s.stores = .ok (reply, stores))
    (fd conn : Nat) (delivered : Bool) :
    (((s.noted (.command cmd) env).stored stores).replied fd ⟨conn, cmd, reply, delivered⟩).Ran
      deps := by
  obtain ⟨replies, hrun, hreplies, hcommands⟩ := h
  have hconcat := run_concat hrun (.command cmd) env
  rw [Stores.step, hok] at hconcat
  have hran : (((s.noted (.command cmd) env).stored stores).exchanged
      ⟨conn, cmd, reply, delivered⟩).Ran deps := by
    refine ⟨_, hconcat, ?_, ?_⟩
    · simp [noted, stored, exchanged, List.reduceOption_append, hreplies]
    · simp [commandsIn, noted, stored, exchanged, ← hcommands]
  unfold Loop.replied
  split
  · exact hran
  · exact hran.congr rfl rfl rfl

theorem Ran.faulted (h : s.Ran deps) {env : Env} {cmd : Command} {fault : Fault}
    (hfault : executeAndResponse deps env cmd s.stores = .error fault) :
    (s.noted (.command cmd) env).crash.Faulted deps := by
  obtain ⟨replies, hrun, -, -⟩ := h
  have hconcat := run_concat hrun (.command cmd) env
  rw [Stores.step, hfault] at hconcat
  exact ⟨fault, hconcat⟩

theorem Ran.answer (h : s.Ran deps) (env : Env) (fd conn : Nat) (cmd : Command) (delivered : Bool) :
    (s.answer deps env fd conn cmd delivered).crashed = true ∨
      (s.answer deps env fd conn cmd delivered).Ran deps := by
  rcases answer_cases deps env s fd conn cmd delivered with ⟨-, -, heq⟩ | ⟨reply, stores, hok, heq⟩
  · rw [heq]
    exact .inl rfl
  · rw [heq]
    exact .inr (h.replied env hok fd conn delivered)

/-- A step of a loop that is up leaves it up, and then the stores are in
order, or crashes it. -/
theorem Ran.step (h : s.crashed = false → s.Ran deps) (ht : LoopTransition deps s a s') :
    s'.crashed = false → s'.Ran deps := by
  intro hup'
  cases ht with
  | send => exact (h hup').congr rfl rfl rfl
  | hangUp => exact (h hup').congr rfl rfl rfl
  | expire env hup hidle =>
    rcases (h hup).expire env with ⟨hcrash, -⟩ | ⟨-, hran⟩
    · rw [hcrash] at hup'
      cases hup'
    · exact hran
  | wait hnodup hready => exact (h hup').congr rfl rfl rfl
  | skip => exact (h hup').congr rfl rfl rfl
  | accept => exact (h hup').congr rfl rfl rfl
  | die => cases hup'
  | close => exact (h hup').congr rfl rfl rfl
  | @receive fd conn n rest env delivered hup hevents hfd hn hle =>
    have hran : ((s.pop rest).drained conn n).Ran deps := (h hup).congr rfl rfl rfl
    rcases receive_cases deps env (s.pop rest) fd conn n delivered with heq | heq | ⟨cmd, -, heq⟩
    · rw [heq] at hup'
      cases hup'
    · rw [heq]
      exact hran
    · rw [heq] at hup' ⊢
      rcases hran.answer env fd conn cmd delivered with hcrash | hran'
      · rw [hcrash] at hup'
        cases hup'
      · exact hran'

end Loop

/-! ## Any clients -/

abbrev LoopRun (deps : Deps) := Run (loopStep deps) Loop.init

theorem settled_run (r : LoopRun deps) (n : Nat) :
    (r.state n).Wired ∧ (r.state n).Settled ∧ ((r.state n).crashed = false → (r.state n).Ran deps) := by
  refine r.along (I := fun s => s.Wired ∧ s.Settled ∧ (s.crashed = false → s.Ran deps))
    ⟨Loop.wired_init, Loop.settled_init, fun _ => ⟨[], rfl, rfl, rfl⟩⟩ (fun n a _ hstep hI => ?_) n
  have ht := transition_of_loopStep hstep
  exact ⟨hI.1.step ht, hI.2.1.step hI.1 ht, Loop.Ran.step hI.2.2 ht⟩

theorem answers_run (r : LoopRun deps) (n conn : Nat) :
    (r.state n).answersTo conn <+: (r.state n).repliesOf conn ∧
      ((r.state n).repliesOf conn).length ≤ ((r.state n).answersTo conn).length + 1 := by
  unfold Loop.answersTo Loop.repliesOf
  rcases (settled_run r n).2.1.written conn with hall | ⟨-, old, e, hlast, hold⟩
  · rw [List.filter_eq_self.2 hall]
    exact ⟨List.prefix_refl _, Nat.le_succ _⟩
  · rw [hlast, List.filter_append, List.filter_eq_self.2 hold]
    cases hdelivered : e.delivered <;> simp [hdelivered]

/-- Whatever the clients send and the kernel does: descriptors, connections
and events agree; the stores are those after the executed commands and the
expiry cycles in one order; and each client has got the replies to its own
commands in that order, but perhaps the last one. -/
theorem loop_books (deps : Deps) (r : LoopRun deps) (n : Nat) :
    (r.state n).Wired ∧ ((r.state n).crashed = false → (r.state n).Ran deps) ∧
      ∀ conn, (r.state n).answersTo conn <+: (r.state n).repliesOf conn ∧
        ((r.state n).repliesOf conn).length ≤ ((r.state n).answersTo conn).length + 1 := by
  obtain ⟨hwired, -, hran⟩ := settled_run r n
  exact ⟨hwired, hran, answers_run r n⟩

/-! ## Courteous clients -/

/-- The client has the replies to all its requests, sends the next one in one
piece, and it is read in one piece. -/
def Loop.Courteous (s : Loop) : LoopAction → Prop
  | .send conn bytes => (∃ cmd, Asks bytes cmd) ∧ bytes.length ≤ bufSize ∧
      (s.requests conn).length = (s.answersTo conn).length
  | .handle (.bytes n) _ _ => ∀ fd rest conn, s.events = .conn fd :: rest → s.fds fd = some conn →
      n = (s.unread conn).length
  | _ => True

namespace Loop

/-- All requests of a client were executed, or all but the last, which is not
read yet. -/
inductive Waiting (s : Loop) (conn : Nat) : Prop
  | idle (hunread : s.unread conn = [])
    (hdone : List.Forall₂ Asks (s.requests conn) (s.commandsOf conn))
  | asking {old : List Bytes} {last : Bytes} {cmd : Command}
    (hrequests : s.requests conn = old ++ [last]) (hunread : s.unread conn = last)
    (hlen : last.length ≤ bufSize) (hlast : Asks last cmd)
    (hdone : List.Forall₂ Asks old (s.commandsOf conn))

theorem Waiting.congr {conn : Nat} (h : s.Waiting conn) (hunread : s'.unread conn = s.unread conn)
    (hrequests : s'.requests conn = s.requests conn)
    (hexchanges : s'.exchangesOf conn = s.exchangesOf conn) : s'.Waiting conn := by
  have hcommands : s'.commandsOf conn = s.commandsOf conn := by
    rw [commandsOf, hexchanges, commandsOf]
  cases h with
  | idle hu hdone => exact .idle (hunread.trans hu) (by rwa [hrequests, hcommands])
  | asking hr hu hlen hlast hdone =>
    exact .asking (hrequests.trans hr) (hunread.trans hu) hlen hlast (by rwa [hcommands])

theorem length_answersTo_le (s : Loop) (conn : Nat) :
    (s.answersTo conn).length ≤ (s.commandsOf conn).length := by
  rw [answersTo, commandsOf, List.length_map, List.length_map]
  exact List.length_filter_le _ _

/-- A client that has all replies has nothing unread. -/
theorem Waiting.sent {conn : Nat} (h : s.Waiting conn) {bytes : Bytes} {cmd : Command}
    (hasks : Asks bytes cmd) (hlen : bytes.length ≤ bufSize)
    (hanswered : (s.requests conn).length = (s.answersTo conn).length) :
    (s.sent conn bytes).Waiting conn := by
  cases h with
  | idle hunread hdone =>
    exact .asking (by simp [Loop.sent]) (by simp [Loop.sent, hunread]) hlen hasks hdone
  | asking hrequests hunread hlen' hlast hdone =>
    have hle := length_answersTo_le s conn
    have hcount := hdone.length_eq
    rw [hrequests, List.length_append] at hanswered
    simp only [List.length_singleton] at hanswered
    omega

/-- The request is read and answered. -/
theorem Waiting.replied {fd conn : Nat} {e : Exchange} (last : Bytes) (old : List Bytes)
    (hrequests : s.requests conn = old ++ [last]) (hunread : s.unread conn = [])
    (hlast : Asks last e.command) (hdone : List.Forall₂ Asks old (s.commandsOf conn))
    (hconn : e.conn = conn) : (s.replied fd e).Waiting conn := by
  have hsame : (s.replied fd e).unread = s.unread ∧ (s.replied fd e).requests = s.requests := by
    unfold Loop.replied
    split <;> exact ⟨rfl, rfl⟩
  have hcommands : (s.replied fd e).commandsOf conn = s.commandsOf conn ++ [e.command] := by
    rw [commandsOf, exchangesOf_replied, if_pos hconn, List.map_append, commandsOf]
    rfl
  refine .idle (by rw [hsame.1, hunread]) ?_
  rw [hsame.2, hrequests, hcommands]
  exact List.rel_append hdone (.cons hlast .nil)

/-- The loop is up and serves its clients, or the stores could not do what
they were asked to. -/
structure Served (deps : Deps) (s : Loop) : Prop where
  up : s.crashed = false → s.Ran deps ∧ ∀ conn, s.Waiting conn
  down : s.crashed = true → s.Faulted deps

theorem served_init : Loop.init.Served deps where
  up _ := ⟨⟨[], rfl, rfl, rfl⟩, fun _ => .idle rfl .nil⟩
  down h := by cases h

/-- Neither the stores nor the clients are touched. -/
theorem Served.congr (h : s.Served deps) (hcrashed : s'.crashed = s.crashed)
    (hstores : s'.stores = s.stores) (hops : s'.ops = s.ops)
    (hexchanges : s'.exchanges = s.exchanges) (hunread : s'.unread = s.unread)
    (hrequests : s'.requests = s.requests) : s'.Served deps where
  up hup := by
    obtain ⟨hran, hall⟩ := h.up (hcrashed ▸ hup)
    refine ⟨hran.congr hstores hops hexchanges, fun conn => (hall conn).congr ?_ ?_ ?_⟩
    · rw [hunread]
    · rw [hrequests]
    · rw [exchangesOf, hexchanges, exchangesOf]
  down hdown := by
    rw [Faulted, hops]
    exact h.down (hcrashed ▸ hdown)

/-- One request of a courteous client. -/
theorem Served.receive {fd conn n : Nat} (h : s.Served deps) (hup : s.crashed = false)
    (hn : n = (s.unread conn).length) (hpos : 0 < n) (env : Env) (delivered : Bool) :
    (s.receive deps env fd conn n delivered).Served deps := by
  obtain ⟨hran, hall⟩ := h.up hup
  cases hall conn with
  | idle hunread hdone =>
    rw [hunread] at hn
    exact absurd hn (Nat.pos_iff_ne_zero.1 hpos)
  | @asking old last cmd hrequests hunread hlen hlast hdone =>
    have htake : (s.unread conn).take n = last := by rw [hn, List.take_length, hunread]
    have hdrop : (s.unread conn).drop n = [] := by rw [hn, List.drop_length]
    have heq : s.receive deps env fd conn n delivered =
        (s.drained conn n).answer deps env fd conn cmd delivered := by
      unfold Loop.receive
      rw [htake, hlast.readCommand hlen]
    have hran' : (s.drained conn n).Ran deps := hran.congr rfl rfl rfl
    rw [heq]
    rcases answer_cases deps env (s.drained conn n) fd conn cmd delivered with
      ⟨fault, hfault, heq⟩ | ⟨reply, stores, hok, heq⟩
    · rw [heq]
      exact ⟨fun hup' => (by cases hup'), fun _ => hran'.faulted hfault⟩
    · rw [heq]
      refine ⟨fun _ => ⟨hran'.replied env hok fd conn delivered, fun c => ?_⟩, fun hdown => ?_⟩
      · by_cases hc : c = conn
        · subst hc
          exact Waiting.replied last old hrequests (by simp [noted, stored, drained, hdrop]) hlast
            hdone rfl
        · refine (hall c).congr ?_ ?_ ?_
          · unfold Loop.replied
            split <;> simp [close, exchanged, noted, stored, drained, hc]
          · unfold Loop.replied
            split <;> rfl
          · rw [exchangesOf_replied, if_neg (Ne.symm hc), List.append_nil]
            rfl
      · have hsame : (((s.drained conn n).noted (.command cmd) env |>.stored stores).replied fd
            ⟨conn, cmd, reply, delivered⟩).crashed = s.crashed := by
          unfold Loop.replied
          split <;> rfl
        rw [hsame, hup] at hdown
        cases hdown

theorem Served.step (h : s.Served deps) (ht : LoopTransition deps s a s') (hc : s.Courteous a)
    (hmonitored : a ≠ .accept .unmonitored) : s'.Served deps := by
  cases ht with
  | @send conn bytes hconn hopen =>
    obtain ⟨⟨cmd, hasks⟩, hlen, hanswered⟩ := hc
    refine ⟨fun hup => ?_, h.down⟩
    obtain ⟨hran, hall⟩ := h.up hup
    refine ⟨hran.congr rfl rfl rfl, fun c => ?_⟩
    by_cases heq : c = conn
    · subst heq
      exact (hall c).sent hasks hlen hanswered
    · exact (hall c).congr (by simp [Loop.sent, heq]) (by simp [Loop.sent, heq]) rfl
  | hangUp => exact h.congr rfl rfl rfl rfl rfl rfl
  | expire env hup hidle =>
    obtain ⟨hran, hall⟩ := h.up hup
    rcases hran.expire env with ⟨hcrash, hfault⟩ | ⟨hcrash, hran'⟩
    · refine ⟨fun hup' => ?_, fun _ => hfault⟩
      rw [hcrash] at hup'
      cases hup'
    · refine ⟨fun _ => ⟨hran', fun c => ?_⟩, fun hdown => ?_⟩
      · rcases expire_cases env s with ⟨-, -, heq⟩ | ⟨keyspace, -, heq⟩ <;> rw [heq] <;>
          exact (hall c).congr rfl rfl rfl
      · rw [hcrash, hup] at hdown
        cases hdown
  | wait => exact h.congr rfl rfl rfl rfl rfl rfl
  | skip => exact h.congr rfl rfl rfl rfl rfl rfl
  | accept => exact h.congr rfl rfl rfl rfl rfl rfl
  | die => exact absurd rfl hmonitored
  | close => exact h.congr rfl rfl rfl rfl rfl rfl
  | @receive fd conn n rest env delivered hup hevents hfd hn hle =>
    have hwhole : n = (s.unread conn).length := hc fd rest conn hevents hfd
    have hpop : (s.pop rest).Served deps := h.congr rfl rfl rfl rfl rfl rfl
    exact hpop.receive hup hwhole hn env delivered

end Loop

/-- What the courteous clients of a sane run have got at one time. -/
theorem courteous_run (r : LoopRun deps)
    (hcourteous : ∀ n a, r.action n = some a → (r.state n).Courteous a)
    (hmonitored : ∀ n, r.action n ≠ some (.accept .unmonitored)) (n : Nat)
    (hclock : ((0 : Int) :: (r.state n).ops.map fun p => p.2.now.toInt).Pairwise (· ≤ ·))
    (hsane : ∀ p ∈ (r.state n).ops, p.1.Sane deps p.2) :
    (r.state n).crashed = false ∧
      (∃ replies m, Ideal.Runs deps (r.state n).ops .init replies m ∧
        replies.reduceOption = (r.state n).exchanges.map (·.reply) ∧
        commandsIn (r.state n).ops = (r.state n).exchanges.map (·.command)) ∧
      ∀ conn, (r.state n).Waiting conn := by
  have hserved : (r.state n).Served deps := r.along Loop.served_init
    (fun n a haction hstep hI => hI.step (transition_of_loopStep hstep) (hcourteous n a haction)
      fun heq => hmonitored n (heq ▸ haction)) n
  obtain ⟨replies, st, m, hrun, hruns⟩ := run_represents _ (represents_init deps) hclock hsane
  have hup : (r.state n).crashed = false := by
    by_contra hdown
    obtain ⟨fault, hfault⟩ := hserved.down (Bool.eq_true_of_not_eq_false hdown)
    cases hrun.symm.trans hfault
  obtain ⟨⟨replies', hrun', hreplies, hcommands⟩, hall⟩ := hserved.up hup
  cases hrun.symm.trans hrun'
  exact ⟨hup, ⟨replies, m, hruns, hreplies, hcommands⟩, hall⟩

end RediGo.Server
