/-
RediGo.Cmd.TcpServer — the first server (`TcpServer/main.go`), with one
goroutine for each connection.

A goroutine reads from its connection once, answers and closes it. If the
read fails it calls `log.Fatal`, which ends the process. The read fails if the
connection is lost before: the client hangs up and has sent nothing, or resets
the connection. What happens to the connection after the read makes no
difference, since the result of the write is not looked at. `main` ends the
process in the same way if `Accept` fails. The kernel may let it fail at any
time; one reason is that too many connections are open.

Connections are numbered in the order they are accepted. `answered` records
what happened and is read by no step. `server_serves`: no client has to wait
for another, other than in the pool of `RediGo.Cmd.ThreadPool`, but any client
can end the service for all. `net.Listen` is not modelled: before it has
succeeded there are no connections.
-/
import Mathlib.Data.List.Nodup
import Mathlib.Logic.Function.Basic
import RediGo.Lib.Runs

namespace RediGo.Cmd.TcpServer

open RediGo.Lib

/-! ## The model -/

/-- What `Read` would find: nothing yet, some bytes, or a lost connection. -/
inductive Client where
  | silent
  | sent
  | gone
  deriving DecidableEq, Repr

/-- Where the goroutine of a connection is in `handleConnection`. -/
inductive Pc where
  | read
  | write
  | close
  | returned
  deriving DecidableEq, Repr

structure Server where
  accepted : Nat
  client : Nat → Client
  pc : Nat → Pc
  exited : Bool
  answered : List Nat

def Server.init : Server := ⟨0, fun _ => .silent, fun _ => .read, false, []⟩

inductive Event where
  | accept
  | acceptFails
  | send (conn : Nat)
  | lose (conn : Nat)
  | handle (conn : Nat)
  deriving DecidableEq, Repr

def Server.goto (s : Server) (c : Nat) (pc : Pc) : Server :=
  { s with pc := Function.update s.pc c pc }

/-- One operation of `handleConnection`. -/
def Server.handleConnection (s : Server) (c : Nat) : Option Server :=
  match s.pc c with
  | .read =>
    match s.client c with
    | .silent => none
    | .sent => some (s.goto c .write)
    | .gone => some { s with exited := true }
  | .write => some { s.goto c .close with answered := s.answered ++ [c] }
  | .close => some (s.goto c .returned)
  | .returned => none

def step (s : Server) : Event → Option Server
  | .accept => if s.exited then none else some { s with accepted := s.accepted + 1 }
  | .acceptFails => if s.exited then none else some { s with exited := true }
  | .send c =>
    if s.client c = .silent then some { s with client := Function.update s.client c .sent } else none
  | .lose c =>
    if s.pc c = .read then some { s with client := Function.update s.client c .gone } else none
  | .handle c => if s.exited = false ∧ c < s.accepted then s.handleConnection c else none

abbrev ServerRun := Run step Server.init

/-! ## Steps -/

/-- What a step can do. -/
inductive Moves (s : Server) : Event → Server → Prop where
  | accept (h : s.exited = false) : Moves s .accept { s with accepted := s.accepted + 1 }
  | acceptFails (h : s.exited = false) : Moves s .acceptFails { s with exited := true }
  | send {c : Nat} (h : s.client c = .silent) :
    Moves s (.send c) { s with client := Function.update s.client c .sent }
  | lose {c : Nat} (h : s.pc c = .read) :
    Moves s (.lose c) { s with client := Function.update s.client c .gone }
  | read {c : Nat} (hlive : s.exited = false) (hc : c < s.accepted) (hpc : s.pc c = .read)
    (hsent : s.client c = .sent) : Moves s (.handle c) (s.goto c .write)
  | fatal {c : Nat} (hlive : s.exited = false) (hc : c < s.accepted) (hpc : s.pc c = .read)
    (hgone : s.client c = .gone) : Moves s (.handle c) { s with exited := true }
  | write {c : Nat} (hlive : s.exited = false) (hc : c < s.accepted) (hpc : s.pc c = .write) :
    Moves s (.handle c) { s.goto c .close with answered := s.answered ++ [c] }
  | close {c : Nat} (hlive : s.exited = false) (hc : c < s.accepted) (hpc : s.pc c = .close) :
    Moves s (.handle c) (s.goto c .returned)

theorem moves_of_step {s s' : Server} {e : Event} (h : step s e = some s') : Moves s e s' := by
  cases e with
  | accept =>
    simp only [step, Option.ite_none_left_eq_some, Bool.not_eq_true, Option.some.injEq] at h
    obtain ⟨hlive, rfl⟩ := h
    exact .accept hlive
  | acceptFails =>
    simp only [step, Option.ite_none_left_eq_some, Bool.not_eq_true, Option.some.injEq] at h
    obtain ⟨hlive, rfl⟩ := h
    exact .acceptFails hlive
  | send c =>
    simp only [step, Option.ite_none_right_eq_some, Option.some.injEq] at h
    obtain ⟨hsilent, rfl⟩ := h
    exact .send hsilent
  | lose c =>
    simp only [step, Option.ite_none_right_eq_some, Option.some.injEq] at h
    obtain ⟨hread, rfl⟩ := h
    exact .lose hread
  | handle c =>
    simp only [step, Option.ite_none_right_eq_some] at h
    obtain ⟨⟨hlive, hc⟩, h⟩ := h
    unfold Server.handleConnection at h
    cases hpc : s.pc c with
    | read =>
      cases hclient : s.client c with
      | silent => simp [hpc, hclient] at h
      | sent =>
        simp only [hpc, hclient, Option.some.injEq] at h
        exact h ▸ .read hlive hc hpc hclient
      | gone =>
        simp only [hpc, hclient, Option.some.injEq] at h
        exact h ▸ .fatal hlive hc hpc hclient
    | write =>
      simp only [hpc, Option.some.injEq] at h
      exact h ▸ .write hlive hc hpc
    | close =>
      simp only [hpc, Option.some.injEq] at h
      exact h ▸ .close hlive hc hpc
    | returned => simp [hpc] at h

/-- A goroutine that cannot move: the process has ended, the connection is not
there, its client is silent, or it has returned. -/
theorem handle_none {s : Server} {c : Nat} (h : step s (.handle c) = none) :
    s.exited = true ∨ s.accepted ≤ c ∨ s.pc c = .read ∧ s.client c = .silent ∨
      s.pc c = .returned := by
  by_cases hcan : s.exited = false ∧ c < s.accepted
  · simp only [step, hcan, and_self, if_true] at h
    unfold Server.handleConnection at h
    cases hpc : s.pc c with
    | read => cases hclient : s.client c <;> simp [hpc, hclient] at h ⊢
    | write | close => simp [hpc] at h
    | returned => simp
  · rw [not_and_or, Bool.not_eq_false, Nat.not_lt] at hcan
    exact hcan.imp_right .inl

/-! ## The books -/

/-- What was answered has been written, and nothing is read from a client that
has not sent anything. -/
structure Books (s : Server) : Prop where
  answered : ∀ c, c ∈ s.answered ↔ s.pc c = .close ∨ s.pc c = .returned
  once : s.answered.Nodup
  unread : ∀ c, s.client c ≠ .sent → s.pc c = .read

theorem books_init : Books Server.init := by
  constructor <;> simp [Server.init]

@[simp] theorem pc_goto (s : Server) (c : Nat) (pc : Pc) (d : Nat) :
    (s.goto c pc).pc d = if d = c then pc else s.pc d := Function.update_apply ..

@[simp] theorem answered_goto (s : Server) (c : Nat) (pc : Pc) :
    (s.goto c pc).answered = s.answered := rfl

theorem gone_step {s s' : Server} {e : Event} {c : Nat} (h : s.client c = .gone)
    (hstep : step s e = some s') : s'.client c = .gone := by
  cases moves_of_step hstep with
  | @send d hsilent =>
    have hne : c ≠ d := by
      rintro rfl
      simp [h] at hsilent
    simp [hne, h]
  | @lose d => simp [Function.update_apply, h]
  | accept | acceptFails | read | fatal | write | close => exact h

theorem spoken_step {s s' : Server} {e : Event} {c : Nat} (h : s.client c ≠ .silent)
    (hstep : step s e = some s') : s'.client c ≠ .silent := by
  cases moves_of_step hstep with
  | @send d | @lose d =>
    simp only [Function.update_apply]
    split
    · exact nofun
    · exact h
  | accept | acceptFails | read | fatal | write | close => exact h

theorem accepted_step {s s' : Server} {e : Event} {c : Nat} (h : c < s.accepted)
    (hstep : step s e = some s') : c < s'.accepted := by
  cases moves_of_step hstep with
  | accept => exact Nat.lt_succ_of_lt h
  | acceptFails | send | lose | read | fatal | write | close => exact h

theorem Books.step {s s' : Server} {e : Event} (h : Books s) (hstep : step s e = some s') :
    Books s' := by
  cases moves_of_step hstep with
  | accept | acceptFails | fatal => exact ⟨h.answered, h.once, h.unread⟩
  | @send c hsilent =>
    refine ⟨h.answered, h.once, fun d hd => h.unread d ?_⟩
    simp only [Function.update_apply] at hd
    grind
  | @lose c hread =>
    refine ⟨h.answered, h.once, fun d hd => ?_⟩
    have := h.unread d
    simp only [Function.update_apply] at hd
    grind
  | @read c hlive hc hpc hsent =>
    refine ⟨fun d => ?_, h.once, fun d hd => ?_⟩
    · have := h.answered d
      simp only [pc_goto, answered_goto]
      grind
    · have hne : d ≠ c := by
        rintro rfl
        exact hd hsent
      rw [pc_goto, if_neg hne]
      exact h.unread d hd
  | @write c hlive hc hpc =>
    have hnew : c ∉ s.answered := by simp [h.answered, hpc]
    refine ⟨fun d => ?_, ?_, fun d hd => ?_⟩
    · have := h.answered d
      simp only [pc_goto, List.mem_append, List.mem_singleton]
      grind
    · show (s.answered ++ [c]).Nodup
      rw [← List.concat_eq_append]
      exact h.once.concat hnew
    · have hread := h.unread d hd
      have hne : d ≠ c := by
        rintro rfl
        simp [hpc] at hread
      simpa [hne] using hread
  | @close c hlive hc hpc =>
    refine ⟨fun d => ?_, h.once, fun d hd => ?_⟩
    · have := h.answered d
      simp only [pc_goto, answered_goto]
      grind
    · have hread := h.unread d hd
      have hne : d ≠ c := by
        rintro rfl
        simp [hpc] at hread
      simpa [hne] using hread

theorem books_run (r : ServerRun) (n : Nat) : Books (r.state n) :=
  r.invariant (P := fun _ => True) (fun _ => trivial) books_init
    (fun _ _ h hstep => h.step hstep) n

/-! ## Service -/

/-- A goroutine that can move does so some time. -/
def Fair (r : ServerRun) : Prop :=
  ∀ c n, ∃ m, n ≤ m ∧ (r.action m = some (.handle c) ∨ step (r.state m) (.handle c) = none)

/-- How many operations there are up to the answer. -/
def Pc.left : Pc → Nat
  | .read => 2
  | .write => 1
  | .close | .returned => 0

/-- The goroutine of an accepted connection has something to read. -/
structure Waiting (c k : Nat) (s : Server) : Prop where
  live : s.exited = false
  accepted : c < s.accepted
  spoken : s.client c ≠ .silent
  left : (s.pc c).left = k
  pos : 0 < k

/-- An accepted connection is lost, which nobody has seen. -/
structure Doomed (c : Nat) (s : Server) : Prop where
  live : s.exited = false
  accepted : c < s.accepted
  gone : s.client c = .gone

theorem Books.answered_of_left {s : Server} (h : Books s) {c : Nat} (hleft : (s.pc c).left = 0) :
    c ∈ s.answered := by
  rw [h.answered]
  cases hpc : s.pc c <;> simp [hpc, Pc.left] at hleft ⊢

/-- Only the operations of a goroutine move it, each towards its answer. -/
theorem left_step {s s' : Server} {e : Event} (hstep : step s e = some s')
    (hlive : s'.exited = false) (c : Nat) :
    (s'.pc c).left ≤ (s.pc c).left ∧
      (e = .handle c → 0 < (s.pc c).left → (s'.pc c).left < (s.pc c).left) := by
  cases moves_of_step hstep with
  | accept | send | lose => exact ⟨Nat.le_refl _, nofun⟩
  | acceptFails | fatal => cases hlive
  | @read d _ _ hpc | @write d _ _ hpc | @close d _ _ hpc =>
    by_cases hd : c = d
    · subst hd
      simp [Server.goto, hpc, Pc.left]
    · simp [Server.goto, hd, Ne.symm hd]

theorem Waiting.step {c k : Nat} {s s' : Server} {e : Event} (hbooks : Books s)
    (h : Waiting c k s) (hstep : step s e = some s') :
    (c ∈ s'.answered ∨ s'.exited = true) ∨
      ∃ k', k' ≤ k ∧ (e = .handle c → k' < k) ∧ Waiting c k' s' := by
  cases hlive : s'.exited with
  | true => exact .inl (.inr rfl)
  | false =>
    obtain ⟨hle, hlt⟩ := left_step hstep hlive c
    rw [h.left] at hle hlt
    by_cases hdone : (s'.pc c).left = 0
    · exact .inl (.inl ((hbooks.step hstep).answered_of_left hdone))
    · exact .inr ⟨_, hle, fun heq => hlt heq h.pos, hlive, accepted_step h.accepted hstep,
        spoken_step h.spoken hstep, rfl, Nat.pos_of_ne_zero hdone⟩

theorem Doomed.step {c : Nat} {s s' : Server} {e : Event} (hbooks : Books s) (h : Doomed c s)
    (hstep : step s e = some s') : s'.exited = true ∨ e ≠ .handle c ∧ Doomed c s' := by
  cases hlive : s'.exited with
  | true => exact .inl rfl
  | false =>
    refine .inr ⟨?_, hlive, accepted_step h.accepted hstep, gone_step h.gone hstep⟩
    rintro rfl
    -- all that the goroutine can do is to see that the connection is lost
    have hread := hbooks.unread c (by simp [h.gone])
    cases moves_of_step hstep with
    | read _ _ _ hsent => simp [h.gone] at hsent
    | fatal => cases hlive
    | write _ _ hpc | close _ _ hpc => simp [hread] at hpc

theorem Fair.answers {r : ServerRun} (hfair : Fair r) {c k n : Nat}
    (h : Waiting c k (r.state n)) :
    ∃ m, n ≤ m ∧ (c ∈ (r.state m).answered ∨ (r.state m).exited = true) := by
  refine r.leads (books_run r) (Q := Waiting c) (M := (· = .handle c))
    (G := fun s => c ∈ s.answered ∨ s.exited = true) (fun hbooks hQ => hQ.step hbooks) ?_ h
  intro n
  obtain ⟨m, hle, hmove | hnone⟩ := hfair c n
  · exact ⟨m, hle, .inl ⟨_, hmove, rfl⟩⟩
  · refine ⟨m, hle, .inr fun k hQ => ?_⟩
    rcases handle_none hnone with hexited | hc | ⟨-, hsilent⟩ | hpc
    · simp [hQ.live] at hexited
    · exact absurd hQ.accepted (Nat.not_lt.2 hc)
    · exact hQ.spoken hsilent
    · have hpos := hQ.pos
      simp [← hQ.left, hpc, Pc.left] at hpos

theorem Fair.exits {r : ServerRun} (hfair : Fair r) {c n : Nat} (h : Doomed c (r.state n)) :
    ∃ m, n ≤ m ∧ (r.state m).exited = true := by
  refine r.leads (books_run r) (Q := fun k s => k = 1 ∧ Doomed c s) (M := (· = .handle c))
    (G := fun s => s.exited = true) ?_ ?_ ⟨rfl, h⟩
  · rintro k s e s' hbooks ⟨rfl, hQ⟩ hstep
    refine (hQ.step hbooks hstep).imp_right fun ⟨hother, hdoomed⟩ => ?_
    exact ⟨1, Nat.le_refl 1, fun heq => absurd heq hother, rfl, hdoomed⟩
  · intro n
    obtain ⟨m, hle, hmove | hnone⟩ := hfair c n
    · exact ⟨m, hle, .inl ⟨_, hmove, rfl⟩⟩
    · refine ⟨m, hle, .inr fun k ⟨_, hQ⟩ => ?_⟩
      have hread := (books_run r m).unread c (by simp [hQ.gone])
      rcases handle_none hnone with hexited | hc | ⟨-, hsilent⟩ | hpc
      · simp [hQ.live] at hexited
      · exact absurd hQ.accepted (Nat.not_lt.2 hc)
      · simp [hQ.gone] at hsilent
      · simp [hread] at hpc

/-- What ends the process. -/
def Ends (s : Server) (e : Event) : Prop :=
  e = .acceptFails ∨ ∃ c < s.accepted, e = .handle c ∧ s.client c = .gone

theorem ends_of_step {s s' : Server} {e : Event} (h : ¬ s.exited = true) (h' : s'.exited = true)
    (hstep : step s e = some s') : Ends s e := by
  cases moves_of_step hstep with
  | acceptFails => exact .inl rfl
  | @fatal c _ hc _ hgone => exact .inr ⟨c, hc, rfl, hgone⟩
  | accept | send | lose | read | write | close => exact absurd h' h

/-- Once the process has ended nobody is answered. -/
theorem exited_step {answered : List Nat} {s s' : Server} {e : Event}
    (h : s.exited = true ∧ s.answered = answered) (hstep : step s e = some s') :
    s'.exited = true ∧ s'.answered = answered := by
  cases moves_of_step hstep with
  | send | lose => exact h
  | accept hlive | acceptFails hlive | read hlive | fatal hlive | write hlive | close hlive =>
    simp [h.1] at hlive

/-- In a fair run every client that sends something is answered, whatever the
others do, unless the process ends. It ends just when an `Accept` fails or an
accepted connection is lost before it is read, and then nobody is answered any
more. -/
theorem server_serves (r : ServerRun) (hfair : Fair r) :
    (∀ c n, c < (r.state n).accepted → (r.state n).client c = .sent →
      ∃ m, n ≤ m ∧ (c ∈ (r.state m).answered ∨ (r.state m).exited = true)) ∧
    (∀ n, (r.state n).answered.Nodup) ∧
    (∀ n, r.action n = some .acceptFails → (r.state (n + 1)).exited = true) ∧
    (∀ c n, c < (r.state n).accepted → (r.state n).client c = .gone →
      ∃ m, n ≤ m ∧ (r.state m).exited = true) ∧
    (∀ n, (r.state n).exited = true → (∃ k < n, r.action k = some .acceptFails) ∨
      ∃ c < (r.state n).accepted, (r.state n).client c = .gone) ∧
    (∀ n m, n ≤ m → (r.state n).exited = true → (r.state m).answered = (r.state n).answered) := by
  refine ⟨fun c n hc hsent => ?_, fun n => (books_run r n).once, fun n haction => ?_,
    fun c n hc hgone => ?_, fun n hexited => ?_, fun n m hnm hexited => ?_⟩
  · cases hlive : (r.state n).exited with
    | true => exact ⟨n, Nat.le_refl n, .inr hlive⟩
    | false =>
      by_cases hdone : ((r.state n).pc c).left = 0
      · exact ⟨n, Nat.le_refl n, .inl ((books_run r n).answered_of_left hdone)⟩
      · exact hfair.answers ⟨hlive, hc, by simp [hsent], rfl, Nat.pos_of_ne_zero hdone⟩
  · have hstep := r.step_eq haction
    generalize r.state (n + 1) = s' at hstep ⊢
    cases moves_of_step hstep with
    | acceptFails => rfl
  · cases hlive : (r.state n).exited with
    | true => exact ⟨n, Nat.le_refl n, hlive⟩
    | false => exact hfair.exits ⟨hlive, hc, hgone⟩
  · obtain ⟨k, hk, e, haction, rfl | ⟨c, hc, -, hgone⟩⟩ :=
      r.exists_cause (by simp [Server.init]) ends_of_step hexited
    · exact .inl ⟨k, hk, haction⟩
    · have hle := Nat.le_of_lt hk
      exact .inr ⟨c, r.stable accepted_step hc hle, r.stable gone_step hgone hle⟩
  · exact (r.stable (G := fun s => s.exited = true ∧ s.answered = (r.state n).answered) exited_step
      ⟨hexited, rfl⟩ hnm).2

/-- The first client says nothing, the second is served. -/
def secondClient : ServerRun :=
  Run.ofList [.accept, .accept, .send 1, .handle 1, .handle 1, .handle 1] rfl

theorem fair_secondClient : Fair secondClient := by
  have hend : ∀ n, secondClient.state (6 + n) = secondClient.state 6 := by
    intro n
    exact (Run.ofList_state_min _ _ (6 + n)).trans
      (congrArg secondClient.state (Nat.min_eq_right (Nat.le_add_right 6 n)))
  intro c n
  refine ⟨6 + n, by omega, .inr ?_⟩
  rw [hend]
  rcases c with _ | _ | c
  · rfl
  · rfl
  · have hc : ¬ c + 2 < (secondClient.state 6).accepted := by
      show ¬ c + 2 < 2
      omega
    simp [step, hc]

theorem server_serves_second :
    ((secondClient.state 6).client 0 = .silent ∧ (secondClient.state 3).client 1 = .sent) ∧
    ∃ m, 3 ≤ m ∧ (1 ∈ (secondClient.state m).answered ∨ (secondClient.state m).exited = true) :=
  ⟨⟨rfl, rfl⟩, (server_serves secondClient fair_secondClient).1 1 3 (by decide) rfl⟩

end RediGo.Cmd.TcpServer
