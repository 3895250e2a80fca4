/-
RediGo.Server.Status — the word `serverStatus` and the two goroutines that
write it: the event loop of `RunIoMultiplexingServer` and `WaitForSignal`
with `Server.Stop` (`internal/server/server.go`).

A step is one atomic operation on the word, or one move that does not touch
it. What the loop learns from outside is part of the action: whether the
expiry cycle is due, what `Wait` returned, whether accepting a connection
was fatal.

Between a test of the status and the `Swap` back to idle the loop does not
look at the word. `swapsNext` says that the next operation the loop makes on
it is such a `Swap`. A store that comes then is overwritten; any other store
is met by a test first, and the loop returns (`shutdown_stays_iff`).
-/
import RediGo.Lib.Runs

namespace RediGo.Server.Status

open RediGo.Lib

/-! ## The system -/

/-- The values of `serverStatus`. -/
inductive ServerStatus where
  | idle
  | shutdown
  | running
  deriving DecidableEq, Repr

/-- An event of the multiplexer: on the listening socket, or on a
connection. -/
inductive Event where
  | accept
  | data
  deriving DecidableEq, Repr

/-- Where the event loop is. -/
inductive LoopPc where
  /-- before the `Load` of the loop condition -/
  | head
  /-- before the `CompareAndSwap` of the expiry cycle -/
  | expiryCas
  /-- before the `Load` after it failed -/
  | expiryLoad
  /-- in the expiry cycle, before its `Swap` -/
  | expirySwap
  /-- in `Wait` -/
  | wait
  /-- before the `CompareAndSwap` that precedes the events -/
  | busyCas (events : List Event)
  /-- before the `Load` after it failed -/
  | busyLoad (events : List Event)
  /-- these events are left; before the final `Swap` if there are none -/
  | serving (events : List Event)
  | returned
  deriving DecidableEq, Repr

/-- Where `WaitForSignal` is. -/
inductive SignalPc where
  | waiting
  /-- before the `Store` of `Server.Stop` -/
  | stopping
  /-- before the `Store` of its own -/
  | storing
  | done
  deriving DecidableEq, Repr

structure State where
  status : ServerStatus
  loop : LoopPc
  signal : SignalPc
  deriving DecidableEq, Repr

def State.init : State := ⟨.idle, .head, .waiting⟩

inductive Action where
  /-- the loop moves; the arguments are what it learns on the way -/
  | loop (due : Bool) (waited : Option (List Event)) (fatal : Bool)
  /-- the signal arrives; `server` is whether there is a server to stop -/
  | signal (server : Bool)
  /-- the next `Store` of `Shutdown` -/
  | store

/-- One move of the event loop. -/
def loopStep (due : Bool) (waited : Option (List Event)) (fatal : Bool) (s : State) :
    Option State :=
  match s.loop with
  | .head =>
    if s.status = .shutdown then some { s with loop := .returned }
    else if due then some { s with loop := .expiryCas }
    else some { s with loop := .wait }
  | .expiryCas =>
    if s.status = .idle then some { s with status := .running, loop := .expirySwap }
    else some { s with loop := .expiryLoad }
  | .expiryLoad =>
    if s.status = .shutdown then some { s with loop := .returned }
    else some { s with loop := .expirySwap }
  | .expirySwap => some { s with status := .idle, loop := .wait }
  | .wait =>
    match waited with
    | none => some { s with loop := .head }
    | some events => some { s with loop := .busyCas events }
  | .busyCas events =>
    if s.status = .idle then some { s with status := .running, loop := .serving events }
    else some { s with loop := .busyLoad events }
  | .busyLoad events =>
    if s.status = .shutdown then some { s with loop := .returned }
    else some { s with loop := .serving events }
  | .serving (.accept :: events) =>
    -- `log.Fatal` ends the process
    if fatal then some { s with loop := .returned } else some { s with loop := .serving events }
  | .serving (.data :: events) =>
    if s.status = .shutdown then some { s with loop := .returned }
    else some { s with loop := .serving events }
  | .serving [] => some { s with status := .idle, loop := .head }
  | .returned => none

def step (s : State) : Action → Option State
  | .loop due waited fatal => loopStep due waited fatal s
  | .signal server =>
    match s.signal with
    | .waiting => some { s with signal := if server then .stopping else .storing }
    | _ => none
  | .store =>
    match s.signal with
    | .stopping => some { s with status := .shutdown, signal := .storing }
    | .storing => some { s with status := .shutdown, signal := .done }
    | _ => none

/-! ## When a store is kept -/

/-- The loop's next operation on the status is a `Swap`. -/
def LoopPc.swapsNext : LoopPc → Bool
  | .expirySwap => true
  | .serving events => events.all (· = .accept)
  | _ => false

/-- The status is `Shutdown` and a test comes before the next `Swap`. -/
def Seen (s : State) : Prop := s.status = .shutdown ∧ s.loop.swapsNext = false

theorem seen_loopStep {due : Bool} {waited : Option (List Event)} {fatal : Bool} {s s' : State}
    (hseen : Seen s) (h : loopStep due waited fatal s = some s') : Seen s' := by
  obtain ⟨status, loop, signal⟩ := s
  obtain ⟨hstatus, hswap⟩ := hseen
  cases hstatus
  cases loop with
  | head | expiryCas | expiryLoad | busyCas | busyLoad =>
    cases h
    exact ⟨rfl, rfl⟩
  | expirySwap => cases hswap
  | wait =>
    cases waited with
    | none | some =>
      cases h
      exact ⟨rfl, rfl⟩
  | serving events =>
    match events with
    | [] => cases hswap
    | .data :: events =>
      cases h
      exact ⟨rfl, rfl⟩
    | .accept :: events =>
      -- the event that makes the loop look is still to come
      cases fatal with
      | true =>
        cases h
        exact ⟨rfl, rfl⟩
      | false =>
        cases h
        exact ⟨rfl, hswap⟩
  | returned => cases h

theorem step_store_eq {s s' : State} (h : step s .store = some s') :
    s'.status = .shutdown ∧ s'.loop = s.loop := by
  obtain ⟨status, loop, signal⟩ := s
  cases signal with
  | waiting | done => cases h
  | stopping | storing =>
    cases h
    exact ⟨rfl, rfl⟩

theorem step_signal_eq {server : Bool} {s s' : State} (h : step s (.signal server) = some s') :
    s'.status = s.status ∧ s'.loop = s.loop := by
  obtain ⟨status, loop, signal⟩ := s
  cases signal with
  | waiting =>
    cases h
    exact ⟨rfl, rfl⟩
  | stopping | storing | done => cases h

/-- No step of either goroutine takes a seen shutdown back. -/
theorem seen_step {s s' : State} {a : Action} (hseen : Seen s) (h : step s a = some s') :
    Seen s' := by
  cases a with
  | loop due waited fatal => exact seen_loopStep hseen h
  | signal server =>
    obtain ⟨hstatus, hloop⟩ := step_signal_eq h
    exact ⟨hstatus.trans hseen.1, hloop ▸ hseen.2⟩
  | store =>
    obtain ⟨hstatus, hloop⟩ := step_store_eq h
    exact ⟨hstatus, hloop ▸ hseen.2⟩

theorem seen_runActions {actions : List Action} {s s' : State} (hseen : Seen s)
    (h : runActions step actions s = some s') : Seen s' := by
  induction actions generalizing s with
  | nil =>
    cases h
    exact hseen
  | cons a actions ih =>
    obtain ⟨s₁, hstep, hrest⟩ := Option.bind_eq_some_iff.mp h
    exact ih (seen_step hseen hstep) hrest

/-- The loop can go on to its `Swap` when that is its next operation. -/
theorem exists_run_to_idle {s : State} (hswap : s.loop.swapsNext = true) :
    ∃ actions s', runActions step actions s = some s' ∧ s'.status = .idle := by
  obtain ⟨status, loop, signal⟩ := s
  cases loop with
  | expirySwap => exact ⟨[.loop false none false], _, rfl, rfl⟩
  | serving events =>
    induction events with
    | nil => exact ⟨[.loop false none false], _, rfl, rfl⟩
    | cons event events ih =>
      simp only [LoopPc.swapsNext, List.all_cons, Bool.and_eq_true, decide_eq_true_eq] at hswap
      obtain ⟨rfl, hrest⟩ := hswap
      obtain ⟨actions, s', hrun, hidle⟩ := ih hrest
      exact ⟨.loop false none false :: actions, s', hrun, hidle⟩
  | head | expiryCas | expiryLoad | wait | busyCas | busyLoad | returned =>
    simp [LoopPc.swapsNext] at hswap

/-- The loop itself never sets the status to `Shutdown`. -/
theorem status_of_loopStep {due : Bool} {waited : Option (List Event)} {fatal : Bool}
    {s s' : State} (h : loopStep due waited fatal s = some s') (hstatus : s'.status = .shutdown) :
    s.status = .shutdown := by
  unfold loopStep at h
  split at h
  all_goals
    repeat' split at h
    all_goals cases h
    all_goals first | exact hstatus | cases hstatus

/-- Every store of `Shutdown` in the run comes when the loop's next
operation on the status is not a `Swap`. -/
def StoresSeen (r : Run step .init) : Prop :=
  ∀ n, r.action n = some .store → (r.state n).loop.swapsNext = false

theorem seen_of_shutdown {r : Run step .init} (hstores : StoresSeen r) (n : Nat)
    (hstatus : (r.state n).status = .shutdown) : Seen (r.state n) := by
  refine r.along (I := fun s => s.status = .shutdown → Seen s) (fun h => nomatch h) ?_ n hstatus
  intro n a haction hstep ih hstatus
  cases a with
  | loop due waited fatal => exact seen_step (ih (status_of_loopStep hstep hstatus)) hstep
  | signal server => exact seen_step (ih ((step_signal_eq hstep).1.symm.trans hstatus)) hstep
  | store => exact ⟨hstatus, (step_store_eq hstep).2 ▸ hstores n haction⟩

/-- What follows a store keeps it if and only if the loop's next operation
is not a `Swap`. -/
theorem store_kept_iff {s s' : State} (hstore : step s .store = some s') :
    (∀ actions s'', runActions step actions s' = some s'' → s''.status = .shutdown) ↔
      s.loop.swapsNext = false := by
  obtain ⟨hstatus, hloop⟩ := step_store_eq hstore
  constructor
  · intro hstays
    rw [Bool.eq_false_iff]
    intro hswap
    rw [← hloop] at hswap
    obtain ⟨actions, s'', hrun, hidle⟩ := exists_run_to_idle hswap
    rw [hstays actions s'' hrun] at hidle
    cases hidle
  · intro hswap actions s'' hrun
    exact (seen_runActions ⟨hstatus, hloop ▸ hswap⟩ hrun).1

/-- Wherever a run stores `Shutdown`, every continuation keeps it if and only
if the loop's next operation on the status is not a `Swap`. So in a run whose
stores all come at such a moment, the status stays `Shutdown` once it is. -/
theorem shutdown_stays_iff (r : Run step .init) :
    (∀ n, r.action n = some .store →
      ((∀ actions s, runActions step actions (r.state (n + 1)) = some s →
          s.status = .shutdown) ↔
        (r.state n).loop.swapsNext = false)) ∧
    (StoresSeen r → ∀ n m, n ≤ m →
      (r.state n).status = .shutdown → (r.state m).status = .shutdown) := by
  constructor
  · intro n haction
    exact store_kept_iff (r.step_eq haction)
  · intro hstores n m hnm hstatus
    exact (r.stable seen_step (seen_of_shutdown hstores n hstatus) hnm).1

/-- The signal comes while the loop is in `Wait`, which then finds the status
changed and returns. -/
def stoppedInWait : Run step .init :=
  Run.ofList [.loop false none false, .signal false, .store, .loop false (some []) false,
    .loop false none false, .loop false none false] rfl

/-- The status is kept there, whatever else might have followed the store. -/
theorem shutdown_stays_iff_wait :
    stoppedInWait.state 6 = ⟨.shutdown, .returned, .done⟩ ∧
      ∀ actions s, runActions step actions (stoppedInWait.state 3) = some s →
        s.status = .shutdown :=
  ⟨rfl, ((shutdown_stays_iff stoppedInWait).1 2 rfl).2 rfl⟩

/-- The signal comes during an expiry cycle, whose `Swap` wipes it out: the
loop goes on and waits for events. -/
theorem swap_forgets_shutdown :
    runActions step
        [.loop true none false, .loop true none false, .signal false, .store] .init =
      some ⟨.shutdown, .expirySwap, .done⟩ ∧
    runActions step
        [.loop true none false, .loop true none false, .signal false, .store,
          .loop true none false] .init =
      some ⟨.idle, .wait, .done⟩ := by
  decide

end RediGo.Server.Status
