/-
RediGo.Cmd.ThreadPool — the thread pool (`ThreadPool/main.go`).

`main` accepts connections and puts each into a channel without buffer, from
which a fixed number of workers take them. A worker reads from its connection
once, answers whatever it read, closes it and takes the next. Sending and
receiving on the channel is one step (`handOver`), so while all workers are
busy `main` waits in `AddJob` and accepts nothing.

Connections are numbered in the order they are accepted. `taken`, `answered`
and `closed` record what happened and are read by no step. The result of
`Read` is not looked at: it returns once the client has sent something or is
gone (`speak`). If `Accept` fails, `log.Fatal` ends the process, whatever the
workers are doing; the kernel may let it fail at any time. `net.Listen` is not
modelled: before it has succeeded there are no connections.

Nothing is lost or served twice, and service is in the order of arrival
(`pool_books`). A connection is served if the clients that came no later than
its own speak and no `Accept` fails (`pool_serves`). This is needed: `Read` has no deadline, and as
many silent clients as there are workers stop the pool (`silent_clients_block`).
-/
import Mathlib.Data.Finset.Card
import Mathlib.Data.Fintype.Card
import RediGo.Lib.Runs

namespace RediGo.Cmd.ThreadPool

open RediGo.Lib

/-! ## The model -/

/-- Where a worker is: at `range w.jobChan`, or in `handleConnection`. -/
inductive Pc where
  | receive
  | read (conn : Nat)
  | write (conn : Nat)
  | close (conn : Nat)
  deriving DecidableEq, Repr

/-- The connection a worker has. -/
def Pc.conn : Pc → Option Nat
  | .receive => none
  | .read c | .write c | .close c => some c

structure Pool (numOfWorker : Nat) where
  /-- the connection in `AddJob`, or none in `Accept` -/
  main : Option Nat
  worker : Fin numOfWorker → Pc
  spoken : Nat → Bool
  accepted : Nat
  taken : List Nat
  answered : List Nat
  closed : List Nat
  exited : Bool

variable {N : Nat}

/-- `NewPool` and `Pool.Start`. -/
def newPool (N : Nat) : Pool N :=
  ⟨none, fun _ => .receive, fun _ => false, 0, [], [], [], false⟩

inductive Event (N : Nat) where
  | accept
  | acceptFails
  | speak (conn : Nat)
  | handOver (w : Fin N)
  | work (w : Fin N)
  deriving DecidableEq, Repr

def Pool.goto (s : Pool N) (w : Fin N) (pc : Pc) : Pool N :=
  { s with worker := Function.update s.worker w pc }

/-- One operation of `handleConnection`. -/
def Pool.handleConnection (s : Pool N) (w : Fin N) : Option (Pool N) :=
  match s.worker w with
  | .receive => none
  | .read c => if s.spoken c then some (s.goto w (.write c)) else none
  | .write c => some { s.goto w (.close c) with answered := s.answered ++ [c] }
  | .close c => some { s.goto w .receive with closed := s.closed ++ [c] }

def step (s : Pool N) : Event N → Option (Pool N)
  | .accept =>
    if s.exited = false ∧ s.main = none then
      some { s with main := some s.accepted, accepted := s.accepted + 1 }
    else none
  | .acceptFails =>
    if s.exited = false ∧ s.main = none then some { s with exited := true } else none
  | .speak c => some { s with spoken := Function.update s.spoken c true }
  | .handOver w =>
    match s.main with
    | none => none
    | some c =>
      if s.exited = false ∧ s.worker w = .receive then
        some { s.goto w (.read c) with main := none, taken := s.taken ++ [c] }
      else none
  | .work w => if s.exited then none else s.handleConnection w

abbrev PoolRun (N : Nat) := Run (step (N := N)) (newPool N)

/-! ## Steps -/

/-- What a step can do. -/
inductive Moves (s : Pool N) : Event N → Pool N → Prop where
  | accept (hlive : s.exited = false) (h : s.main = none) :
    Moves s .accept { s with main := some s.accepted, accepted := s.accepted + 1 }
  | acceptFails (hlive : s.exited = false) (h : s.main = none) :
    Moves s .acceptFails { s with exited := true }
  | speak (c : Nat) : Moves s (.speak c) { s with spoken := Function.update s.spoken c true }
  | handOver {w : Fin N} {c : Nat} (hlive : s.exited = false) (h : s.main = some c)
    (hw : s.worker w = .receive) :
    Moves s (.handOver w) { s.goto w (.read c) with main := none, taken := s.taken ++ [c] }
  | read {w : Fin N} {c : Nat} (hlive : s.exited = false) (hw : s.worker w = .read c)
    (h : s.spoken c = true) : Moves s (.work w) (s.goto w (.write c))
  | write {w : Fin N} {c : Nat} (hlive : s.exited = false) (hw : s.worker w = .write c) :
    Moves s (.work w) { s.goto w (.close c) with answered := s.answered ++ [c] }
  | close {w : Fin N} {c : Nat} (hlive : s.exited = false) (hw : s.worker w = .close c) :
    Moves s (.work w) { s.goto w .receive with closed := s.closed ++ [c] }

theorem moves_of_step {s s' : Pool N} {e : Event N} (h : step s e = some s') : Moves s e s' := by
  cases e with
  | accept =>
    simp only [step, Option.ite_none_right_eq_some, Option.some.injEq] at h
    obtain ⟨⟨hlive, hmain⟩, rfl⟩ := h
    exact .accept hlive hmain
  | acceptFails =>
    simp only [step, Option.ite_none_right_eq_some, Option.some.injEq] at h
    obtain ⟨⟨hlive, hmain⟩, rfl⟩ := h
    exact .acceptFails hlive hmain
  | speak c =>
    cases h
    exact .speak c
  | handOver w =>
    unfold step at h
    cases hmain : s.main with
    | none => simp [hmain] at h
    | some c =>
      simp only [hmain, Option.ite_none_right_eq_some, Option.some.injEq] at h
      obtain ⟨⟨hlive, hw⟩, rfl⟩ := h
      exact .handOver hlive hmain hw
  | work w =>
    simp only [step, Option.ite_none_left_eq_some, Bool.not_eq_true] at h
    obtain ⟨hlive, h⟩ := h
    unfold Pool.handleConnection at h
    cases hw : s.worker w with
    | receive => simp [hw] at h
    | read c =>
      simp only [hw, Option.ite_none_right_eq_some, Option.some.injEq] at h
      obtain ⟨hspoken, rfl⟩ := h
      exact .read hlive hw hspoken
    | write c =>
      simp only [hw, Option.some.injEq] at h
      obtain rfl := h
      exact .write hlive hw
    | close c =>
      simp only [hw, Option.some.injEq] at h
      obtain rfl := h
      exact .close hlive hw

/-! ## The books -/

/-- `taken` is what arrived but for the connection in `AddJob`; what is taken
is closed or with exactly one worker. -/
structure Books (s : Pool N) : Prop where
  order : s.taken = List.range s.taken.length
  main : s.main = none ∧ s.accepted = s.taken.length ∨
    s.main = some s.taken.length ∧ s.accepted = s.taken.length + 1
  held : ∀ w c, (s.worker w).conn = some c → c ∈ s.taken ∧ c ∉ s.closed
  alone : ∀ w w' c, (s.worker w).conn = some c → (s.worker w').conn = some c → w = w'
  kept : ∀ c ∈ s.taken, c ∈ s.closed ∨ ∃ w, (s.worker w).conn = some c
  closed_taken : ∀ c ∈ s.closed, c ∈ s.taken
  closed_once : s.closed.Nodup
  answered : ∀ c, c ∈ s.answered ↔ c ∈ s.closed ∨ ∃ w, s.worker w = .close c
  answered_once : s.answered.Nodup

theorem books_newPool : Books (newPool N) := by
  constructor <;> simp [newPool, Pc.conn]

@[simp] theorem worker_goto (s : Pool N) (w : Fin N) (pc : Pc) (w' : Fin N) :
    (s.goto w pc).worker w' = if w' = w then pc else s.worker w' := Function.update_apply ..

@[simp] theorem closed_goto (s : Pool N) (w : Fin N) (pc : Pc) : (s.goto w pc).closed = s.closed := rfl

@[simp] theorem taken_goto (s : Pool N) (w : Fin N) (pc : Pc) : (s.goto w pc).taken = s.taken := rfl

@[simp] theorem answered_goto (s : Pool N) (w : Fin N) (pc : Pc) :
    (s.goto w pc).answered = s.answered := rfl

theorem Books.not_mem_taken {s : Pool N} (h : Books s) {c : Nat} (hmain : s.main = some c) :
    c = s.taken.length ∧ c ∉ s.taken := by
  have hc : c = s.taken.length := by
    rcases h.main with ⟨hnone, -⟩ | ⟨hsome, -⟩
    · simp [hnone] at hmain
    · exact Option.some.inj (hmain.symm.trans hsome)
  refine ⟨hc, ?_⟩
  rw [h.order]
  simp [hc]

theorem Books.handOver {s : Pool N} (h : Books s) {w : Fin N} {c : Nat} (hmain : s.main = some c)
    (hw : s.worker w = .receive) :
    Books { s.goto w (.read c) with main := none, taken := s.taken ++ [c] } := by
  obtain ⟨hc, hnew⟩ := h.not_mem_taken hmain
  have hopen : c ∉ s.closed := fun hin => hnew (h.closed_taken c hin)
  have hfree : ∀ w', (s.worker w').conn ≠ some c := fun w' hheld => hnew (h.held w' c hheld).1
  constructor
  · show s.taken ++ [c] = List.range (s.taken ++ [c]).length
    rw [List.length_append, List.length_singleton, List.range_succ, ← h.order, hc]
  · refine .inl ⟨rfl, ?_⟩
    show s.accepted = (s.taken ++ [c]).length
    rcases h.main with ⟨hnone, -⟩ | ⟨-, hcount⟩
    · simp [hnone] at hmain
    · simp [hcount]
  · intro w' c' hheld
    simp only [worker_goto, closed_goto, List.mem_append, List.mem_singleton] at hheld ⊢
    have := h.held w' c'
    grind [Pc.conn]
  · intro w' w'' c' hheld hheld'
    simp only [worker_goto] at hheld hheld'
    have := h.alone w' w'' c'
    grind [Pc.conn]
  · intro c' hc'
    simp only [worker_goto, List.mem_append, List.mem_singleton] at hc' ⊢
    rcases hc' with hc' | rfl
    · rcases h.kept c' hc' with hclosed | ⟨w', hheld⟩
      · exact .inl hclosed
      · refine .inr ⟨w', ?_⟩
        rw [if_neg fun heq => by simp [heq, hw, Pc.conn] at hheld]
        exact hheld
    · exact .inr ⟨w, by simp [Pc.conn]⟩
  · exact fun c' hc' => List.mem_append_left _ (h.closed_taken c' hc')
  · exact h.closed_once
  · intro c'
    simp only [worker_goto, closed_goto, answered_goto, h.answered]
    grind
  · exact h.answered_once

/-- A worker goes on with its connection. -/
theorem Books.goOn {s : Pool N} (h : Books s) {w : Fin N} {pc : Pc} {answered : List Nat}
    (hconn : pc.conn = (s.worker w).conn)
    (hanswered : ∀ c, c ∈ answered ↔ c ∈ s.closed ∨ ∃ w', (s.goto w pc).worker w' = .close c)
    (honce : answered.Nodup) : Books { s.goto w pc with answered := answered } := by
  have hsame : ∀ w', ((s.goto w pc).worker w').conn = (s.worker w').conn := by
    intro w'
    rw [worker_goto]
    split
    · next heq => rw [heq, hconn]
    · rfl
  refine ⟨h.order, h.main, fun w' c hheld => h.held w' c (hsame w' ▸ hheld),
    fun w' w'' c hheld hheld' => h.alone w' w'' c (hsame w' ▸ hheld) (hsame w'' ▸ hheld'),
    fun c hc => (h.kept c hc).imp_right fun ⟨w', hheld⟩ => ⟨w', (hsame w').trans hheld⟩,
    h.closed_taken, h.closed_once, hanswered, honce⟩

theorem nodup_snoc {l : List Nat} {a : Nat} (h : l.Nodup) (ha : a ∉ l) : (l ++ [a]).Nodup := by
  rw [← List.concat_eq_append]
  exact h.concat ha

theorem Books.close {s : Pool N} (h : Books s) {w : Fin N} {c : Nat}
    (hw : s.worker w = .close c) :
    Books { s.goto w .receive with closed := s.closed ++ [c] } := by
  have hheld : (s.worker w).conn = some c := by rw [hw]; rfl
  obtain ⟨htaken, hopen⟩ := h.held w c hheld
  constructor
  · exact h.order
  · exact h.main
  · intro w' c' hheld'
    simp only [worker_goto, taken_goto, List.mem_append, List.mem_singleton] at hheld' ⊢
    have := h.held w' c'
    have := h.alone w' w c'
    grind [Pc.conn]
  · intro w' w'' c' hheld' hheld''
    simp only [worker_goto] at hheld' hheld''
    have := h.alone w' w'' c'
    grind [Pc.conn]
  · intro c' hc'
    simp only [worker_goto, List.mem_append, List.mem_singleton]
    rcases h.kept c' hc' with hclosed | ⟨w', hheld'⟩
    · exact .inl (.inl hclosed)
    · by_cases hw' : w' = w
      · rw [hw', hheld] at hheld'
        exact .inl (.inr (Option.some.inj hheld').symm)
      · exact .inr ⟨w', by rwa [if_neg hw']⟩
  · intro c' hc'
    rcases List.mem_append.1 hc' with hc' | hc'
    · exact h.closed_taken c' hc'
    · rw [List.mem_singleton.1 hc']
      exact htaken
  · exact nodup_snoc h.closed_once hopen
  · intro c'
    simp only [worker_goto, answered_goto, List.mem_append, List.mem_singleton, h.answered]
    grind
  · exact h.answered_once

theorem Books.step {s s' : Pool N} {e : Event N} (h : Books s) (hstep : step s e = some s') :
    Books s' := by
  cases moves_of_step hstep with
  | accept _ hmain =>
    refine ⟨h.order, .inr ?_, h.held, h.alone, h.kept, h.closed_taken, h.closed_once, h.answered,
      h.answered_once⟩
    rcases h.main with ⟨-, hcount⟩ | ⟨hsome, -⟩
    · exact ⟨congrArg some hcount, congrArg (· + 1) hcount⟩
    · simp [hmain] at hsome
  | acceptFails | speak => exact ⟨h.order, h.main, h.held, h.alone, h.kept, h.closed_taken,
      h.closed_once, h.answered, h.answered_once⟩
  | handOver _ hmain hw => exact h.handOver hmain hw
  | @read w c _ hw hspoken =>
    refine h.goOn (by rw [hw]; rfl) (fun c' => ?_) h.answered_once
    rw [h.answered]
    simp only [worker_goto]
    grind
  | @write w c _ hw =>
    have hheld : (s.worker w).conn = some c := by rw [hw]; rfl
    have hnew : c ∉ s.answered := by
      rw [h.answered]
      rintro (hclosed | ⟨w', hw'⟩)
      · exact (h.held w c hheld).2 hclosed
      · have := h.alone w' w c (by rw [hw']; rfl) hheld
        grind
    refine h.goOn (by rw [hw]; rfl) (fun c' => ?_) (nodup_snoc h.answered_once hnew)
    rw [List.mem_append, List.mem_singleton, h.answered]
    simp only [worker_goto]
    grind
  | close _ hw => exact h.close hw

theorem books_run (r : PoolRun N) (n : Nat) : Books (r.state n) :=
  r.invariant (P := fun _ => True) (fun _ => trivial) books_newPool
    (fun _ _ h hstep => h.step hstep) n

/-- Whatever the interleaving, connections are taken in the order they were
accepted, each by one worker, and answered once before they are closed. No
more are open than there are workers, but for one that waits. -/
theorem pool_books (r : PoolRun N) (n : Nat) :
    (r.state n).taken = List.range (r.state n).taken.length ∧
    (r.state n).accepted ≤ (r.state n).taken.length + 1 ∧
    (∀ w w' c, ((r.state n).worker w).conn = some c → ((r.state n).worker w').conn = some c →
      w = w') ∧
    (r.state n).answered.Nodup ∧ (∀ c ∈ (r.state n).answered, c ∈ (r.state n).taken) ∧
    (r.state n).closed.Nodup ∧ (∀ c ∈ (r.state n).closed, c ∈ (r.state n).answered) ∧
    (r.state n).accepted ≤ (r.state n).closed.length + N + 1 := by
  have h := books_run r n
  generalize r.state n = s at h
  have haccepted : s.accepted ≤ s.taken.length + 1 := by
    rcases h.main with ⟨-, hcount⟩ | ⟨-, hcount⟩ <;> omega
  -- what is taken and not closed is with a worker of its own
  have hopen : s.taken.length ≤ s.closed.length + N := by
    have hnodup : s.taken.Nodup := by
      rw [h.order]
      exact List.nodup_range
    have hsub : (s.taken.toFinset \ s.closed.toFinset).image some ⊆
        Finset.univ.image fun w => (s.worker w).conn := by
      intro o ho
      obtain ⟨c, hc, rfl⟩ := Finset.mem_image.1 ho
      simp only [Finset.mem_sdiff, List.mem_toFinset] at hc
      rcases h.kept c hc.1 with hclosed | ⟨w, hheld⟩
      · exact absurd hclosed hc.2
      · exact Finset.mem_image.2 ⟨w, Finset.mem_univ w, hheld⟩
    have hcard := (Finset.card_le_card hsub).trans Finset.card_image_le
    rw [Finset.card_image_of_injective _ (Option.some_injective _), Finset.card_univ,
      Fintype.card_fin] at hcard
    have hdiff := Finset.le_card_sdiff s.closed.toFinset s.taken.toFinset
    rw [List.toFinset_card_of_nodup hnodup, List.toFinset_card_of_nodup h.closed_once] at hdiff
    omega
  refine ⟨h.order, haccepted, h.alone, h.answered_once, ?_, h.closed_once,
    fun c hc => (h.answered c).2 (.inl hc), by omega⟩
  intro c hc
  rcases (h.answered c).1 hc with hclosed | ⟨w, hw⟩
  · exact h.closed_taken c hclosed
  · exact (h.held w c (by rw [hw]; rfl)).1

/-! ## Service -/

/-- How many operations of `handleConnection` a worker has before it. -/
def Pc.left : Pc → Nat
  | .receive => 0
  | .read _ => 3
  | .write _ => 2
  | .close _ => 1

/-- What is enabled is done some time: an operation of a worker that can
return, and a hand-over when `main` and a worker wait for each other. -/
structure Fair (r : PoolRun N) : Prop where
  worker : ∀ w n, ∃ m, n ≤ m ∧ (r.action m = some (.work w) ∨ step (r.state m) (.work w) = none)
  channel : ∀ w n, ∃ m, n ≤ m ∧ ((∃ w', r.action m = some (.handOver w')) ∨
    step (r.state m) (.handOver w) = none)

theorem work_none {s : Pool N} {w : Fin N} (hlive : s.exited = false)
    (h : step s (.work w) = none) :
    s.worker w = .receive ∨ ∃ c, s.worker w = .read c ∧ s.spoken c = false := by
  simp only [step, hlive, Bool.false_eq_true, if_false] at h
  unfold Pool.handleConnection at h
  cases hw : s.worker w with
  | receive => exact .inl rfl
  | read c => exact .inr ⟨c, rfl, by simpa [hw] using h⟩
  | write c => simp [hw] at h
  | close c => simp [hw] at h

theorem handOver_none {s : Pool N} {w : Fin N} (hlive : s.exited = false)
    (h : step s (.handOver w) = none) : s.main = none ∨ s.worker w ≠ .receive := by
  unfold step at h
  cases hmain : s.main with
  | none => exact .inl rfl
  | some c => exact .inr (by simpa [hmain, hlive] using h)

theorem spoken_step {s s' : Pool N} {e : Event N} {c : Nat} (h : s.spoken c = true)
    (hstep : step s e = some s') : s'.spoken c = true := by
  cases moves_of_step hstep with
  | speak d => simp [Function.update_apply, h]
  | accept | acceptFails | handOver | read | write | close => exact h

theorem accepted_step {s s' : Pool N} {e : Event N} {c : Nat} (h : c < s.accepted)
    (hstep : step s e = some s') : c < s'.accepted := by
  cases moves_of_step hstep with
  | accept => exact Nat.lt_succ_of_lt h
  | acceptFails | speak | handOver | read | write | close => exact h

/-- What an operation of `handleConnection` changes: the worker has one less
before it, and keeps its connection or has closed it. -/
theorem work_step {s s' : Pool N} {w : Fin N} (hstep : step s (.work w) = some s') :
    s'.exited = false ∧ s'.main = s.main ∧ (∀ w', w' ≠ w → s'.worker w' = s.worker w') ∧
      (s'.worker w).left + 1 = (s.worker w).left ∧
      ((s'.worker w).conn = (s.worker w).conn ∨
        ∀ c, (s.worker w).conn = some c → c ∈ s'.closed) := by
  cases moves_of_step hstep with
  | read hlive hw => simp +contextual [Pool.goto, hlive, hw, Pc.left, Pc.conn]
  | write hlive hw => simp +contextual [Pool.goto, hlive, hw, Pc.left, Pc.conn]
  | close hlive hw => simp +contextual [Pool.goto, hlive, hw, Pc.left, Pc.conn]

/-- `main` waits with `c` and the worker is not free yet. -/
structure Busy (c : Nat) (w : Fin N) (k : Nat) (s : Pool N) : Prop where
  live : s.exited = false
  main : s.main = some c
  left : (s.worker w).left = k
  pos : 0 < k
  spoken : ∀ d ≤ c, s.spoken d = true

/-- `main` and the worker wait for each other. -/
structure Meeting (c : Nat) (w : Fin N) (s : Pool N) : Prop where
  live : s.exited = false
  main : s.main = some c
  free : s.worker w = .receive

/-- The worker has the connection `c`. -/
structure Serving (c : Nat) (w : Fin N) (k : Nat) (s : Pool N) : Prop where
  live : s.exited = false
  conn : (s.worker w).conn = some c
  left : (s.worker w).left = k
  spoken : s.spoken c = true

theorem left_eq_zero {pc : Pc} (h : pc.left = 0) : pc = .receive := by
  cases pc <;> simp [Pc.left] at h ⊢

/-- While `main` waits in `AddJob`, no `Accept` succeeds or fails. -/
theorem step_of_main {c : Nat} {s s' : Pool N} {e : Event N} (hmain : s.main = some c)
    (hstep : step s e = some s') :
    c ∈ s'.taken ∨ (∃ d, e = .speak d ∧ s' = { s with spoken := Function.update s.spoken d true }) ∨
      ∃ w, e = .work w := by
  cases moves_of_step hstep with
  | accept _ hnone | acceptFails _ hnone => simp [hmain] at hnone
  | speak d => exact .inr (.inl ⟨d, rfl, rfl⟩)
  | handOver _ hsome =>
    obtain rfl : _ = c := Option.some.inj (hsome.symm.trans hmain)
    exact .inl (by simp)
  | @read w | @write w | @close w => exact .inr (.inr ⟨w, rfl⟩)

theorem Busy.step {c k : Nat} {w : Fin N} {s s' : Pool N} {e : Event N} (h : Busy c w k s)
    (hstep : step s e = some s') :
    (c ∈ s'.taken ∨ Meeting c w s') ∨ ∃ k', k' ≤ k ∧ (e = .work w → k' < k) ∧ Busy c w k' s' := by
  have hspoken : ∀ d ≤ c, s'.spoken d = true := fun d hd => spoken_step (h.spoken d hd) hstep
  rcases step_of_main h.main hstep with htaken | ⟨d, rfl, rfl⟩ | ⟨w', rfl⟩
  · exact .inl (.inl htaken)
  · exact .inr ⟨k, Nat.le_refl k, nofun, h.live, h.main, h.left, h.pos, hspoken⟩
  · obtain ⟨hlive, hmain, hother, hleft, -⟩ := work_step hstep
    by_cases hw : w' = w
    · subst hw
      rw [h.left] at hleft
      by_cases hfree : (s'.worker w').left = 0
      · exact .inl (.inr ⟨hlive, hmain.trans h.main, left_eq_zero hfree⟩)
      · exact .inr ⟨k - 1, by omega, by omega, hlive, hmain.trans h.main, by omega, by omega,
          hspoken⟩
    · refine .inr ⟨k, Nat.le_refl k, fun heq => absurd (Event.work.inj heq) hw, hlive,
        hmain.trans h.main, ?_, h.pos, hspoken⟩
      rw [hother w (Ne.symm hw)]
      exact h.left

theorem Meeting.step {c : Nat} {w : Fin N} {s s' : Pool N} {e : Event N} (h : Meeting c w s)
    (hstep : step s e = some s') :
    c ∈ s'.taken ∨ (∀ w', e ≠ .handOver w') ∧ Meeting c w s' := by
  rcases step_of_main h.main hstep with htaken | ⟨d, rfl, rfl⟩ | ⟨w', rfl⟩
  · exact .inl htaken
  · exact .inr ⟨nofun, h.live, h.main, h.free⟩
  · obtain ⟨hlive, hmain, hother, hleft, -⟩ := work_step hstep
    have hw : w ≠ w' := by
      rintro rfl
      simp [h.free, Pc.left] at hleft
    exact .inr ⟨nofun, hlive, hmain.trans h.main, (hother w hw).trans h.free⟩

theorem Serving.step {c k : Nat} {w : Fin N} {s s' : Pool N} {e : Event N} (h : Serving c w k s)
    (hstep : step s e = some s') :
    (c ∈ s'.closed ∨ s'.exited = true) ∨
      ∃ k', k' ≤ k ∧ (e = .work w → k' < k) ∧ Serving c w k' s' := by
  have hspoken := spoken_step h.spoken hstep
  cases e with
  | accept =>
    cases moves_of_step hstep with
    | accept => exact .inr ⟨k, Nat.le_refl k, nofun, h.live, h.conn, h.left, hspoken⟩
  | acceptFails =>
    cases moves_of_step hstep with
    | acceptFails => exact .inl (.inr rfl)
  | speak d =>
    cases hstep
    exact .inr ⟨k, Nat.le_refl k, nofun, h.live, h.conn, h.left, hspoken⟩
  | handOver w' =>
    cases moves_of_step hstep with
    | handOver _ hmain hw =>
      have hne : w ≠ w' := by
        rintro rfl
        have hconn := h.conn
        simp [hw, Pc.conn] at hconn
      refine .inr ⟨k, Nat.le_refl k, nofun, h.live, ?_, ?_, hspoken⟩
      · simpa [hne] using h.conn
      · simpa [hne] using h.left
  | work w' =>
    obtain ⟨hlive, -, hother, hleft, hconn⟩ := work_step hstep
    by_cases hw : w' = w
    · subst hw
      rcases hconn with hconn | hclosed
      · rw [h.left] at hleft
        exact .inr ⟨k - 1, by omega, by omega, hlive, hconn.trans h.conn, by omega, hspoken⟩
      · exact .inl (.inl (hclosed c h.conn))
    · have hsame := hother w (Ne.symm hw)
      exact .inr ⟨k, Nat.le_refl k, fun heq => absurd (Event.work.inj heq) hw, hlive,
        hsame ▸ h.conn, hsame ▸ h.left, hspoken⟩

theorem Fair.meets {r : PoolRun N} (hfair : Fair r) {c k n : Nat} {w : Fin N}
    (h : Busy c w k (r.state n)) :
    ∃ m, n ≤ m ∧ (c ∈ (r.state m).taken ∨ Meeting c w (r.state m)) := by
  refine r.leads (books_run r) (Q := Busy c w) (M := (· = .work w)) (fun _ hQ => hQ.step) ?_ h
  intro n
  obtain ⟨m, hle, hmove | hnone⟩ := hfair.worker w n
  · exact ⟨m, hle, .inl ⟨_, hmove, rfl⟩⟩
  · refine ⟨m, hle, .inr fun k hQ => ?_⟩
    rcases work_none hQ.live hnone with hfree | ⟨d, hread, hsilent⟩
    · have hleft := hQ.left
      have hpos := hQ.pos
      simp [hfree, Pc.left] at hleft
      omega
    · -- the worker's connection came before `c`, so its client has spoken
      have hbooks := books_run r m
      have hd := (hbooks.held w d (by rw [hread]; rfl)).1
      rw [hbooks.order, List.mem_range, ← (hbooks.not_mem_taken hQ.main).1] at hd
      rw [hQ.spoken d hd.le] at hsilent
      cases hsilent

theorem Fair.takes {r : PoolRun N} (hfair : Fair r) {c n : Nat} {w : Fin N}
    (h : Meeting c w (r.state n)) : ∃ m, n ≤ m ∧ c ∈ (r.state m).taken := by
  refine r.leads (books_run r) (Q := fun k s => k = 1 ∧ Meeting c w s) (G := fun s => c ∈ s.taken)
    (M := fun e => ∃ w', e = .handOver w') ?_ ?_ ⟨rfl, h⟩
  · rintro k s e s' - ⟨rfl, hQ⟩ hstep
    refine (hQ.step hstep).imp_right fun ⟨hother, hmeeting⟩ => ?_
    exact ⟨1, Nat.le_refl 1, fun ⟨w', heq⟩ => absurd heq (hother w'), rfl, hmeeting⟩
  · intro n
    obtain ⟨m, hle, ⟨w', hmove⟩ | hnone⟩ := hfair.channel w n
    · exact ⟨m, hle, .inl ⟨_, hmove, w', rfl⟩⟩
    · refine ⟨m, hle, .inr fun k ⟨_, hQ⟩ => ?_⟩
      rcases handOver_none hQ.live hnone with hmain | hbusy
      · simp [hQ.main] at hmain
      · exact hbusy hQ.free

theorem Fair.closes {r : PoolRun N} (hfair : Fair r) {c k n : Nat} {w : Fin N}
    (h : Serving c w k (r.state n)) :
    ∃ m, n ≤ m ∧ (c ∈ (r.state m).closed ∨ (r.state m).exited = true) := by
  refine r.leads (books_run r) (Q := Serving c w) (M := (· = .work w))
    (G := fun s => c ∈ s.closed ∨ s.exited = true) (fun _ hQ => hQ.step) ?_ h
  intro n
  obtain ⟨m, hle, hmove | hnone⟩ := hfair.worker w n
  · exact ⟨m, hle, .inl ⟨_, hmove, rfl⟩⟩
  · refine ⟨m, hle, .inr fun k hQ => ?_⟩
    have hconn := hQ.conn
    rcases work_none hQ.live hnone with hfree | ⟨d, hread, hsilent⟩
    · simp [hfree, Pc.conn] at hconn
    · obtain rfl : d = c := by simpa [hread, Pc.conn] using hconn
      rw [hQ.spoken] at hsilent
      cases hsilent

/-- There is a time from which on all of these clients have spoken. -/
theorem exists_spoken {r : PoolRun N} {c : Nat}
    (hspeak : ∀ d ≤ c, ∃ m, (r.state m).spoken d = true) (n : Nat) :
    ∃ m, n ≤ m ∧ ∀ d ≤ c, (r.state m).spoken d = true := by
  have hbelow : ∀ k ≤ c + 1, ∃ m, n ≤ m ∧ ∀ d < k, (r.state m).spoken d = true := by
    intro k
    induction k with
    | zero => exact fun _ => ⟨n, Nat.le_refl n, nofun⟩
    | succ k ih =>
      intro hk
      obtain ⟨m, hle, hm⟩ := ih (by omega)
      obtain ⟨m', hm'⟩ := hspeak k (by omega)
      refine ⟨max m m', by omega, fun d hd => ?_⟩
      rcases Nat.lt_succ_iff_lt_or_eq.1 hd with hlt | rfl
      · exact r.stable spoken_step (hm d hlt) (Nat.le_max_left ..)
      · exact r.stable spoken_step hm' (Nat.le_max_right ..)
  obtain ⟨m, hle, hm⟩ := hbelow (c + 1) (Nat.le_refl _)
  exact ⟨m, hle, fun d hd => hm d (Nat.lt_succ_of_le hd)⟩

/-- A connection that waits in `AddJob` is taken, if the clients up to it have
spoken. -/
theorem Fair.takes_accepted {r : PoolRun N} (hN : 0 < N) (hfair : Fair r) {c n : Nat}
    (hlive : (r.state n).exited = false) (hspoken : ∀ d ≤ c, (r.state n).spoken d = true)
    (hc : c < (r.state n).accepted) : ∃ m, n ≤ m ∧ c ∈ (r.state m).taken := by
  by_cases hin : c ∈ (r.state n).taken
  · exact ⟨n, Nat.le_refl n, hin⟩
  have hbooks := books_run r n
  have hmain : (r.state n).main = some c := by
    rw [hbooks.order, List.mem_range] at hin
    rcases hbooks.main with ⟨-, hcount⟩ | ⟨hmain, hcount⟩
    · omega
    · rw [hmain]
      exact congrArg some (Nat.le_antisymm (Nat.not_lt.1 hin) (by omega))
  by_cases hfree : ((r.state n).worker ⟨0, hN⟩).left = 0
  · exact hfair.takes ⟨hlive, hmain, left_eq_zero hfree⟩
  · obtain ⟨m, hm, htaken | hmeeting⟩ :=
      hfair.meets ⟨hlive, hmain, rfl, Nat.pos_of_ne_zero hfree, hspoken⟩
    · exact ⟨m, hm, htaken⟩
    · obtain ⟨m', hm', htaken⟩ := hfair.takes hmeeting
      exact ⟨m', by omega, htaken⟩

theorem acceptFails_of_step {s s' : Pool N} {e : Event N} (h : ¬ s.exited = true)
    (h' : s'.exited = true) (hstep : step s e = some s') : e = .acceptFails := by
  cases moves_of_step hstep with
  | acceptFails => rfl
  | accept | speak | handOver | read | write | close => exact absurd h' h

/-- Once the process has ended nobody is answered. -/
theorem exited_step {answered : List Nat} {s s' : Pool N} {e : Event N}
    (h : s.exited = true ∧ s.answered = answered) (hstep : step s e = some s') :
    s'.exited = true ∧ s'.answered = answered := by
  cases moves_of_step hstep with
  | speak => exact h
  | accept hlive | acceptFails hlive | handOver hlive | read hlive | write hlive | close hlive =>
    simp [h.1] at hlive

/-- In a fair run an accepted connection is answered and closed, if its client
and those before it send something or hang up, unless the process ends. It ends
just when an `Accept` fails, and then nobody is answered any more. -/
theorem pool_serves (hN : 0 < N) (r : PoolRun N) (hfair : Fair r) :
    (∀ c n, (∀ d ≤ c, ∃ m, (r.state m).spoken d = true) → c < (r.state n).accepted →
      ∃ m, n ≤ m ∧ (c ∈ (r.state m).answered ∧ c ∈ (r.state m).closed ∨
        (r.state m).exited = true)) ∧
    (∀ n, (r.state n).exited = true ↔ ∃ k < n, r.action k = some .acceptFails) ∧
    (∀ n m, n ≤ m → (r.state n).exited = true → (r.state m).answered = (r.state n).answered) := by
  have hstable : ∀ n m, n ≤ m → (r.state n).exited = true →
      (r.state m).exited = true ∧ (r.state m).answered = (r.state n).answered :=
    fun n m hnm hexited => r.stable exited_step ⟨hexited, rfl⟩ hnm
  refine ⟨fun c n hspeak hc => ?_, fun n => ⟨fun hexited => ?_, fun ⟨k, hk, haction⟩ => ?_⟩,
    fun n m hnm hexited => (hstable n m hnm hexited).2⟩
  · obtain ⟨n₁, hn₁, hspoken⟩ := exists_spoken hspeak n
    cases hlive : (r.state n₁).exited with
    | true => exact ⟨n₁, hn₁, .inr hlive⟩
    | false =>
      obtain ⟨n₂, hn₂, htaken⟩ :=
        hfair.takes_accepted hN hlive hspoken (r.stable accepted_step hc hn₁)
      cases hlive₂ : (r.state n₂).exited with
      | true => exact ⟨n₂, by omega, .inr hlive₂⟩
      | false =>
        have hclosed : ∃ m, n₂ ≤ m ∧ (c ∈ (r.state m).closed ∨ (r.state m).exited = true) := by
          rcases (books_run r n₂).kept c htaken with hclosed | ⟨w, hheld⟩
          · exact ⟨n₂, Nat.le_refl n₂, .inl hclosed⟩
          · exact hfair.closes ⟨hlive₂, hheld, rfl,
              r.stable spoken_step (hspoken c (Nat.le_refl c)) hn₂⟩
        obtain ⟨m, hm, hclosed⟩ := hclosed
        exact ⟨m, by omega, hclosed.imp_left fun hclosed =>
          ⟨((books_run r m).answered c).2 (.inl hclosed), hclosed⟩⟩
  · obtain ⟨k, hk, e, haction, rfl⟩ :=
      r.exists_cause (by simp [newPool]) acceptFails_of_step hexited
    exact ⟨k, hk, haction⟩
  · have hexited : (r.state (k + 1)).exited = true := by
      have hstep := r.step_eq haction
      generalize r.state (k + 1) = s' at hstep ⊢
      cases moves_of_step hstep with
      | acceptFails => rfl
    exact (hstable (k + 1) n hk hexited).1

/-- One client comes, is taken by the second of two workers and is served. -/
def oneClient : PoolRun 2 :=
  Run.ofList [.accept, .speak 0, .handOver (Fin.last 1), .work (Fin.last 1), .work (Fin.last 1),
    .work (Fin.last 1)] rfl

theorem fair_oneClient : Fair oneClient := by
  have hend : ∀ n, oneClient.state (6 + n) = oneClient.state 6 := by
    intro n
    exact (Run.ofList_state_min _ _ (6 + n)).trans
      (congrArg oneClient.state (Nat.min_eq_right (Nat.le_add_right 6 n)))
  have hfree : ∀ w, (oneClient.state 6).worker w = .receive := Fin.forall_fin_two.2 ⟨rfl, rfl⟩
  constructor
  · intro w n
    refine ⟨6 + n, by omega, .inr ?_⟩
    rw [hend]
    simp [step, Pool.handleConnection, hfree]
  · intro w n
    refine ⟨6 + n, by omega, .inr ?_⟩
    rw [hend]
    rfl

theorem pool_serves_oneClient : (oneClient.state 1).accepted = 1 ∧ (oneClient.state 1).answered = [] ∧
    ∃ m, 1 ≤ m ∧ (0 ∈ (oneClient.state m).answered ∧ 0 ∈ (oneClient.state m).closed ∨
      (oneClient.state m).exited = true) := by
  refine ⟨rfl, rfl, (pool_serves (by decide) oneClient fair_oneClient).1 0 1 ?_
    (Nat.lt_succ_self 0)⟩
  intro d hd
  obtain rfl : d = 0 := Nat.le_zero.1 hd
  exact ⟨2, rfl⟩

/-! ## Silent clients -/

/-- Every worker still reads from its silent client, unless one has spoken. -/
def Blocked (silent : Fin N → Nat) (answered taken : List Nat) (s : Pool N) : Prop :=
  (∃ w, s.spoken (silent w) = true) ∨
    (∀ w, s.worker w = .read (silent w)) ∧ s.answered = answered ∧ s.taken = taken

theorem Blocked.step {s s' : Pool N} {e : Event N} {silent : Fin N → Nat}
    {answered taken : List Nat} (h : Blocked silent answered taken s)
    (hstep : step s e = some s') : Blocked silent answered taken s' := by
  rcases h with ⟨w, hspoken⟩ | ⟨hread, hrest⟩
  · exact .inl ⟨w, spoken_step hspoken hstep⟩
  · cases moves_of_step hstep with
    | accept | acceptFails | speak => exact .inr ⟨hread, hrest⟩
    | @handOver w c _ hmain hw => simp [hread] at hw
    | @read w c _ hw hspoken =>
      obtain rfl : silent w = c := by simpa [hread] using hw
      exact .inl ⟨w, hspoken⟩
    | @write w c _ hw => simp [hread] at hw
    | @close w c _ hw => simp [hread] at hw

/-- While each worker reads from a client that stays silent, nobody is
answered, and at most one more connection is accepted. -/
theorem silent_clients_block (r : PoolRun N) (silent : Fin N → Nat) (n m : Nat) (hnm : n ≤ m)
    (hread : ∀ w, (r.state n).worker w = .read (silent w))
    (hsilent : ∀ w, (r.state m).spoken (silent w) = false) :
    (r.state m).answered = (r.state n).answered ∧ (r.state m).taken = (r.state n).taken ∧
      (r.state m).accepted ≤ (r.state n).taken.length + 1 := by
  have hblocked : Blocked silent (r.state n).answered (r.state n).taken (r.state m) :=
    r.stable Blocked.step (.inr ⟨hread, rfl, rfl⟩) hnm
  rcases hblocked with ⟨w, hspoken⟩ | ⟨-, hanswered, htaken⟩
  · rw [hsilent w] at hspoken
    cases hspoken
  · refine ⟨hanswered, htaken, ?_⟩
    rcases (books_run r m).main with ⟨-, hcount⟩ | ⟨-, hcount⟩ <;> rw [hcount, htaken]
    exact Nat.le_succ _

/-- Two clients that say nothing, and two that have sent their requests. -/
def silentPair : PoolRun 2 :=
  Run.ofList [.accept, .handOver (Fin.castSucc (Fin.last 0)), .accept, .handOver (Fin.last 1),
    .speak 2, .speak 3, .accept] rfl

theorem silent_clients_block_pair :
    (silentPair.state 7).spoken 2 = true ∧ (silentPair.state 7).answered = [] ∧
      (silentPair.state 7).accepted ≤ 3 := by
  have hread : ∀ w, (silentPair.state 4).worker w = .read w.val :=
    Fin.forall_fin_two.2 ⟨rfl, rfl⟩
  have hsilent : ∀ w : Fin 2, (silentPair.state 7).spoken w.val = false :=
    Fin.forall_fin_two.2 ⟨rfl, rfl⟩
  have hblock := silent_clients_block silentPair Fin.val 4 7 (by decide) hread hsilent
  exact ⟨rfl, hblock.1, hblock.2.2⟩

end RediGo.Cmd.ThreadPool
