/-
RediGo.Server.MainExit — the process ends after a signal.

The accept loop and the goroutine that stops the server each write one word
and then look at the other's. Whichever comes first, the accept loop is not
left waiting in `Accept` on a listener that nobody closes
(`Linked.listener`). That is all that makes the loop return; it does not
matter when the signal comes, also not while the listener is being set up.

A run of the process is a run of the system of `Shutdown` (`stopRun`), so
what `StopTheorems` says of fair runs holds here: `Stop` comes past the
workers. Before them and behind them the goroutine only has to move, which
is one use of `Run.leads` each; the accept loop is the third.
-/
import RediGo.Server.MainProcess
import RediGo.Server.StopTheorems

namespace RediGo.Server.Shutdown

open RediGo.Go RediGo.HashTable RediGo.Core RediGo.Lib

variable {W H : Nat} {cfg : Config} {hash : Bytes → UInt32}

/-! ## The steps -/

/-- What `Stop` is about to do with the workers. -/
def Process.stopAct (p : Process W H) : Act W H :=
  match p.sys.stop with
  | none => .callStop
  | some _ => .stop

/-- What each turn does, and what it requires. -/
inductive Turns (cfg : Config) (hash : Bytes → UInt32) (p : Process (W + 1) H) :
    Turn (W + 1) H → Process (W + 1) H → Prop
  | work (a : Act (W + 1) H) (sys : System (W + 1) H) (hstep : stopStep cfg hash p.sys a = some sys)
    (hcall : a ≠ .callStop) (hstop : a ≠ .stop) : Turns cfg hash p (.work a) (p.setSys sys)
  | accept (found : Accepted) (p' : Process (W + 1) H) (hstep : p.acceptStep found = some p') :
    Turns cfg hash p (.accept found) p'
  | workers (sys : System (W + 1) H) (hsignal : p.signal = .workers)
    (hstep : stopStep cfg hash p.sys p.stopAct = some sys) :
    Turns cfg hash p .signal (p.setSys sys)
  | signal (p' : Process (W + 1) H) (hstep : p.signalStep cfg hash = some p') (hsys : p'.sys = p.sys)
    (hworkers : p.signal = .workers → ∃ phase, p.sys.stop = some (W + 1, phase)) :
    Turns cfg hash p .signal p'

theorem turns_of_turn {p p' : Process (W + 1) H} {t : Turn (W + 1) H}
    (h : turn cfg hash p t = some p') : p.sys.panicked = none ∧ Turns cfg hash p t p' := by
  unfold turn at h
  split at h
  next => cases h
  next hcalm =>
  refine ⟨by simpa using hcalm, ?_⟩
  cases t with
  | work a =>
    cases a with
    | callStop => cases h
    | stop => cases h
    | serve a | takeDone w | takeClosed w =>
      obtain ⟨sys, hstep, rfl⟩ := Option.map_eq_some_iff.1 h
      exact .work _ sys hstep (by simp) (by simp)
  | accept found => exact .accept found p' h
  | signal =>
    cases hsignal : p.signal with
    | workers =>
      have hstep := h
      simp only [Process.signalStep, hsignal] at h
      cases hstop : p.sys.stop with
      | none =>
        rw [hstop] at h
        obtain ⟨sys, hsys, rfl⟩ := Option.map_eq_some_iff.1 h
        exact .workers sys hsignal (by rw [Process.stopAct, hstop]; exact hsys)
      | some place =>
        obtain ⟨i, phase⟩ := place
        simp only [hstop] at h
        split at h
        next hi =>
          subst hi
          cases h
          exact .signal _ hstep rfl fun _ => ⟨phase, hstop⟩
        next =>
          obtain ⟨sys, hsys, rfl⟩ := Option.map_eq_some_iff.1 h
          exact .workers sys hsignal (by rw [Process.stopAct, hstop]; exact hsys)
    | waiting | store | check | close | storeAgain =>
      have hstep := h
      simp only [Process.signalStep, hsignal] at h
      cases h
      exact .signal _ hstep rfl (by simp [hsignal])
    | handlers left =>
      have hstep := h
      cases left with
      | zero | succ =>
        simp only [Process.signalStep, hsignal] at h
        cases h
        exact .signal _ hstep rfl (by simp [hsignal])
    | done =>
      simp only [Process.signalStep, hsignal] at h
      cases h

theorem stop_of_work {s s' : System (W + 1) H} {a : Act (W + 1) H}
    (h : stopStep cfg hash s a = some s') (hcall : a ≠ .callStop) (hstop : a ≠ .stop) :
    s'.stop = s.stop := by
  cases move_of_stopStep h with
  | panic a hd => rfl
  | serve a server put hserver hopen => rfl
  | callStop => exact absurd rfl hcall
  | cancel | close | wait => exact absurd rfl hstop
  | exit a w ha => rfl

/-! ## What the two goroutines know of each other -/

/-- `Stop` has not come to the workers. -/
def SignalPc.early : SignalPc → Bool
  | .waiting | .store | .check | .close => true
  | _ => false

/-- `Stop` is past the workers. -/
def SignalPc.late : SignalPc → Bool
  | .handlers _ | .storeAgain | .done => true
  | _ => false

structure Linked (p : Process (W + 1) H) : Prop where
  stopping : Stopping p.sys
  early : p.signal.early = true → p.sys.stop = none
  late : p.signal.late = true → ∃ phase, p.sys.stop = some (W + 1, phase)
  shutdown : p.signal ≠ .waiting → p.signal ≠ .store → p.shutdown = true
  unset : p.listener = .unset → p.accept = .listen ∨ p.accept = .publish
  /-- behind `Close`, the loop is in `Accept` only on a closed listener -/
  listener : p.signal.early = false → p.accept = .accept → p.listener = .closed
  returned : p.accept = .returned → p.listener = .closed

theorem Linked.init : Linked (Process.init (W + 1) H) where
  stopping := .init
  early := fun _ => rfl
  late := nofun
  shutdown := fun h => absurd rfl h
  unset := fun _ => .inl rfl
  listener := nofun
  returned := nofun

theorem Linked.work {p : Process (W + 1) H} (h : Linked p) {sys : System (W + 1) H}
    (hstopping : Stopping sys) (hstop : sys.stop = p.sys.stop) : Linked (p.setSys sys) where
  stopping := hstopping
  early := fun hearly => hstop.trans (h.early hearly)
  late := fun hlate => by
    obtain ⟨phase, heq⟩ := h.late hlate
    exact ⟨phase, hstop.trans heq⟩
  shutdown := h.shutdown
  unset := h.unset
  listener := h.listener
  returned := h.returned

/-- Behind the `Store` of `Stop`. -/
theorem Linked.stopped {p : Process (W + 1) H} (h : Linked p) (hearly : p.signal.early = false) :
    p.shutdown = true := by
  apply h.shutdown
  · intro heq
    rw [heq] at hearly
    cases hearly
  · intro heq
    rw [heq] at hearly
    cases hearly

theorem Linked.setAccept {p : Process (W + 1) H} (h : Linked p) {listener : Listener}
    {pc : AcceptPc} (hunset : listener = .unset → pc = .listen ∨ pc = .publish)
    (hlistener : p.signal.early = false → pc = .accept → listener = .closed)
    (hreturned : pc = .returned → listener = .closed) :
    Linked { p with listener := listener, accept := pc } where
  stopping := h.stopping
  early := h.early
  late := h.late
  shutdown := h.shutdown
  unset := hunset
  listener := hlistener
  returned := hreturned

theorem Linked.acceptStep {p p' : Process (W + 1) H} (h : Linked p) {found : Accepted}
    (hstep : p.acceptStep found = some p') : Linked p' := by
  have hset : p.accept ≠ .listen → p.accept ≠ .publish → p.listener ≠ .unset :=
    fun hlisten hpublish heq => (h.unset heq).elim hlisten hpublish
  have hleave : Linked p.leave := h.setAccept nofun nofun fun _ => rfl
  unfold Process.acceptStep at hstep
  cases haccept : p.accept with
  | listen =>
    rw [haccept] at hstep
    cases hstep
    exact h.setAccept (fun _ => .inr rfl) nofun nofun
  | publish =>
    rw [haccept] at hstep
    cases hstep
    exact h.setAccept nofun nofun nofun
  | head =>
    rw [haccept] at hstep hset
    dsimp only at hstep
    split at hstep
    next =>
      cases hstep
      exact hleave
    next hopen =>
      cases hstep
      exact h.setAccept (fun heq => absurd heq (hset nofun nofun))
        (fun hsignal => absurd (h.stopped hsignal) hopen) nofun
  | accept =>
    rw [haccept] at hstep hset
    dsimp only at hstep
    split at hstep
    next =>
      cases hstep
      exact h.setAccept (fun heq => absurd heq (hset nofun nofun)) nofun nofun
    next =>
      cases found with
      | nothing => cases hstep
      | conn | error =>
        cases hstep
        exact h.setAccept (fun heq => absurd heq (hset nofun nofun)) nofun nofun
  | failed =>
    rw [haccept] at hstep hset
    dsimp only at hstep
    split at hstep
    next =>
      cases hstep
      exact hleave
    next =>
      cases hstep
      exact h.setAccept (fun heq => absurd heq (hset nofun nofun)) nofun nofun
  | accepted =>
    rw [haccept] at hstep hset
    cases hstep
    exact h.setAccept (fun heq => absurd heq (hset nofun nofun)) nofun nofun
  | returned =>
    rw [haccept] at hstep
    cases hstep

theorem Linked.signalStep {p p' : Process (W + 1) H} (h : Linked p)
    (hstep : p.signalStep cfg hash = some p')
    (hworkers : p.signal = .workers → ∃ phase, p.sys.stop = some (W + 1, phase)) : Linked p' := by
  obtain ⟨hstopping, hearly, hlate, hshutdown, hunset, hlistener, hreturned⟩ := h
  unfold Process.signalStep at hstep
  cases hsignal : p.signal with
  | waiting =>
    rw [hsignal] at hstep hearly
    cases hstep
    exact ⟨hstopping, fun _ => hearly rfl, nofun, fun _ h => absurd rfl h, hunset, nofun, hreturned⟩
  | store =>
    rw [hsignal] at hstep hearly
    cases hstep
    exact ⟨hstopping, fun _ => hearly rfl, nofun, fun _ _ => rfl, hunset, nofun, hreturned⟩
  | check =>
    rw [hsignal] at hstep hearly hshutdown
    have hset := hshutdown nofun nofun
    cases hstep
    refine ⟨hstopping, fun _ => hearly rfl, ?_, fun _ _ => hset, hunset, ?_, hreturned⟩
    · dsimp only
      split_ifs <;> nofun
    · -- the field is not set: the loop has not come to `Accept`
      dsimp only
      split_ifs with hlistener
      · intro _ haccept
        simpa [haccept] using hunset hlistener
      · nofun
  | close =>
    rw [hsignal] at hstep hearly hshutdown
    have hset := hshutdown nofun nofun
    cases hstep
    exact ⟨hstopping, fun _ => hearly rfl, nofun, fun _ _ => hset, nofun, fun _ _ => rfl, fun _ => rfl⟩
  | workers =>
    obtain ⟨phase, hstop⟩ := hworkers hsignal
    rw [hsignal] at hstep hshutdown hlistener
    have hset := hshutdown nofun nofun
    simp only [hstop, if_true] at hstep
    cases hstep
    exact ⟨hstopping, nofun, fun _ => ⟨phase, hstop⟩, fun _ _ => hset, hunset, fun _ => hlistener rfl,
      hreturned⟩
  | handlers left =>
    rw [hsignal] at hstep hshutdown hlistener hlate
    have hset := hshutdown nofun nofun
    cases left with
    | zero | succ =>
      cases hstep
      exact ⟨hstopping, nofun, fun _ => hlate rfl, fun _ _ => hset, hunset, fun _ => hlistener rfl,
        hreturned⟩
  | storeAgain =>
    rw [hsignal] at hstep hlistener hlate
    cases hstep
    exact ⟨hstopping, nofun, fun _ => hlate rfl, fun _ _ => rfl, hunset, fun _ => hlistener rfl,
      hreturned⟩
  | done =>
    rw [hsignal] at hstep
    cases hstep

theorem Linked.turn {p p' : Process (W + 1) H} {t : Turn (W + 1) H} (h : Linked p)
    (hturn : turn cfg hash p t = some p') : Linked p' := by
  obtain ⟨-, hturns⟩ := turns_of_turn hturn
  cases hturns with
  | work a sys hstep hcall hstop =>
    exact h.work (h.stopping.step hstep) (stop_of_work hstep hcall hstop)
  | accept found p' hstep => exact h.acceptStep hstep
  | workers sys hsignal hstep =>
    refine ⟨h.stopping.step hstep, ?_, ?_, h.shutdown, h.unset, h.listener, h.returned⟩
    · intro hearly
      rw [Process.setSys, hsignal] at hearly
      cases hearly
    · intro hlate
      rw [Process.setSys, hsignal] at hlate
      cases hlate
  | signal p' hstep hsys hworkers => exact h.signalStep hstep hworkers

/-! ## Runs -/

/-- The runs of the process. -/
abbrev ProcessRun (cfg : Config) (hash : Bytes → UInt32) (W H : Nat) :=
  Run (turn (W := W) (H := H) cfg hash) (Process.init (W + 1) H)

theorem linked_run (r : ProcessRun cfg hash W H) (n : Nat) : Linked (r.state n) :=
  r.invariant (P := fun _ => True) (fun _ => trivial) Linked.init (fun _ _ h hstep => h.turn hstep) n

/-- `Stop` is past the last worker. -/
def Process.finished (p : Process (W + 1) H) : Bool := p.sys.stop.any fun place => place.1 = W + 1

theorem finished_iff {p : Process (W + 1) H} :
    p.finished = true ↔ ∃ phase, p.sys.stop = some (W + 1, phase) := by
  simp only [Process.finished, Option.any_eq_true, decide_eq_true_eq]
  constructor
  · rintro ⟨⟨i, phase⟩, hstop, rfl⟩
    exact ⟨phase, hstop⟩
  · rintro ⟨phase, hstop⟩
    exact ⟨_, hstop, rfl⟩

/-- Before it comes to the workers and behind them, `Stop` does nothing with
them. -/
theorem stopStep_stop_none {s : System (W + 1) H}
    (h : s.stop = none ∨ ∃ phase, s.stop = some (W + 1, phase)) :
    stopStep cfg hash s .stop = none := by
  rcases h with hstop | ⟨phase, hstop⟩ <;> simp [stopStep, hstop]

/-- What a turn is for the workers and the handlers. -/
def turnAct (p : Process (W + 1) H) : Turn (W + 1) H → Option (Act (W + 1) H)
  | .work a => some a
  | .accept _ => none
  | .signal => if p.signal = .workers ∧ p.finished = false then some p.stopAct else none

theorem sys_of_acceptStep {p p' : Process W H} {found : Accepted}
    (h : p.acceptStep found = some p') : p'.sys = p.sys ∧ p'.signal = p.signal := by
  unfold Process.acceptStep at h
  repeat' split at h
  all_goals cases h
  all_goals exact ⟨rfl, rfl⟩

theorem stopStep_of_turn {p p' : Process (W + 1) H} {t : Turn (W + 1) H}
    (h : turn cfg hash p t = some p') :
    (turnAct p t).elim (some p.sys) (stopStep cfg hash p.sys) = some p'.sys := by
  obtain ⟨-, hturns⟩ := turns_of_turn h
  cases hturns with
  | work a sys hstep hcall hstop => exact hstep
  | accept found p' hstep => exact congrArg some (sys_of_acceptStep hstep).1.symm
  | workers sys hsignal hstep =>
    have hnot : p.finished = false := by
      rw [Bool.eq_false_iff, ne_eq, finished_iff]
      rintro ⟨phase, hstop⟩
      rw [Process.stopAct, hstop] at hstep
      rw [stopStep_stop_none (.inr ⟨phase, hstop⟩)] at hstep
      cases hstep
    rw [turnAct, if_pos ⟨hsignal, hnot⟩]
    exact hstep
  | signal p' hstep hsys hworkers =>
    rw [turnAct, if_neg]
    · exact congrArg some hsys.symm
    · rintro ⟨hsignal, hnot⟩
      rw [finished_iff.2 (hworkers hsignal)] at hnot
      cases hnot

/-- The run as a run of the workers, the handlers and `Stop`. -/
def stopRun (r : ProcessRun cfg hash W H) : StopRun cfg hash W H :=
  r.map Process.sys turnAct rfl stopStep_of_turn

/-- Who can move again and again moves in the end: the accept loop, the
goroutine that stops the server once the signal is there, and each worker. -/
structure FairProcess (r : ProcessRun cfg hash W H) : Prop where
  accept : ∀ n, ∃ m, n ≤ m ∧ ((∃ found, r.action m = some (.accept found)) ∨
    turn cfg hash (r.state m) (.accept .nothing) = none)
  signal : ∀ n, ∃ m, n ≤ m ∧ (r.action m = some .signal ∨ (r.state m).signal = .waiting ∨
    turn cfg hash (r.state m) .signal = none)
  worker : ∀ w n, ∃ m, n ≤ m ∧ ((∃ a, r.action m = some (.work a) ∧ a.worker = some w) ∨
    ∀ a : Act (W + 1) H, a.worker = some w → stopStep cfg hash (r.state m).sys a = none)

theorem Linked.stop_none {p : Process (W + 1) H} (h : Linked p) (hsignal : p.signal ≠ .workers) :
    stopStep cfg hash p.sys .stop = none := by
  apply stopStep_stop_none
  cases hearly : p.signal.early with
  | true => exact .inl (h.early hearly)
  | false =>
    refine .inr (h.late ?_)
    cases hpc : p.signal with
    | workers => exact absurd hpc hsignal
    | handlers | storeAgain | done => rfl
    | waiting | store | check | close =>
      rw [hpc] at hearly
      cases hearly

theorem FairProcess.stop {r : ProcessRun cfg hash W H} (hfair : FairProcess r) :
    FairStop (stopRun r) where
  stop := by
    intro n
    obtain ⟨m, hle, hmove⟩ := hfair.signal n
    refine ⟨m, hle, ?_⟩
    have hlinked := linked_run r m
    by_cases hsignal : (r.state m).signal = .workers
    case neg => exact .inr (hlinked.stop_none hsignal)
    cases hstop : (r.state m).sys.stop with
    | none => exact .inr (stopStep_stop_none (.inl hstop))
    | some place =>
      obtain ⟨i, phase⟩ := place
      by_cases hi : i = W + 1
      · subst hi
        exact .inr (stopStep_stop_none (.inr ⟨phase, hstop⟩))
      have hnot : (r.state m).finished = false := by simp [Process.finished, hstop, hi]
      rcases hmove with hmove | hwaiting | hnone
      · left
        show (r.action m).bind (turnAct (r.state m)) = _
        rw [hmove, Option.bind_some, turnAct, if_pos ⟨hsignal, hnot⟩, Process.stopAct, hstop]
      · rw [hsignal] at hwaiting
        cases hwaiting
      · right
        show stopStep cfg hash (r.state m).sys .stop = none
        unfold turn at hnone
        split at hnone
        next hpanic => rw [stopStep, if_pos hpanic]
        next =>
          simp only [Process.signalStep, hsignal, hstop, if_neg hi] at hnone
          exact Option.map_eq_none_iff.1 hnone
  worker := by
    intro w n
    obtain ⟨m, hle, ⟨a, ha, hw⟩ | hnone⟩ := hfair.worker w n
    · refine ⟨m, hle, .inl ⟨a, ?_, hw⟩⟩
      show (r.action m).bind (turnAct (r.state m)) = _
      rw [ha]
      rfl
    · exact ⟨m, hle, .inr hnone⟩

/-! ## The goroutine that stops the server -/

/-- It is `k` moves away from the loop over the workers. -/
def SignalPc.toWorkers : SignalPc → Nat
  | .store => 4
  | .check => 3
  | .close => 2
  | _ => 1

/-- It is `k` moves away from its end, once it is past the workers. -/
def SignalPc.toDone (H : Nat) : SignalPc → Nat
  | .workers => H + 3
  | .handlers left => left + 2
  | .storeAgain => 1
  | _ => 0

/-- The signal is there, and `Stop` has not called `Stop` of a worker. -/
structure Called (k : Nat) (p : Process (W + 1) H) : Prop where
  calm : p.sys.panicked = none
  signal : p.signal ≠ .waiting
  stop : p.sys.stop = none
  rank : p.signal.toWorkers = k

/-- `Stop` is past the workers. -/
structure Past (k : Nat) (p : Process (W + 1) H) : Prop where
  calm : p.sys.panicked = none
  stop : p.finished = true
  rank : p.signal.toDone H = k
  notDone : p.signal ≠ .done

/-- Work leaves both goroutines where they are, or ends the process. -/
theorem panicked_or_none (s : System W H) : s.panicked.isSome = true ∨ s.panicked = none := by
  cases s.panicked with
  | none => exact .inr rfl
  | some hd => exact .inl rfl

theorem Linked.not_late {p : Process (W + 1) H} (h : Linked p) (hstop : p.sys.stop = none) :
    p.signal.late = false := by
  rw [Bool.eq_false_iff]
  intro hlate
  obtain ⟨phase, heq⟩ := h.late hlate
  rw [hstop] at heq
  cases heq

theorem Linked.not_early {p : Process (W + 1) H} (h : Linked p) (hstop : p.finished = true) :
    p.signal.early = false := by
  rw [Bool.eq_false_iff]
  intro hearly
  obtain ⟨phase, heq⟩ := finished_iff.1 hstop
  rw [h.early hearly] at heq
  cases heq

theorem Called.enabled {p : Process (W + 1) H} {k : Nat} (hlinked : Linked p) (h : Called k p) :
    turn cfg hash p .signal ≠ none := by
  have hlate := hlinked.not_late h.stop
  rw [turn, if_neg (by simp [h.calm])]
  unfold Process.signalStep
  cases hsignal : p.signal with
  | waiting => exact absurd hsignal h.signal
  | store | check | close => simp
  | workers => simp [h.stop, stopStep, h.calm]
  | handlers | storeAgain | done =>
    rw [hsignal] at hlate
    cases hlate

theorem Called.turn {p p' : Process (W + 1) H} {t : Turn (W + 1) H} {k : Nat} (hlinked : Linked p)
    (h : Called k p) (hturn : turn cfg hash p t = some p') :
    (p'.sys.panicked.isSome = true ∨ p'.sys.stop ≠ none) ∨
      ∃ k', k' ≤ k ∧ (t = .signal → k' < k) ∧ Called k' p' := by
  obtain ⟨hcalm, hwaiting, hstop, rfl⟩ := h
  have hlate := hlinked.not_late hstop
  obtain ⟨-, hturns⟩ := turns_of_turn hturn
  cases hturns with
  | work a sys hstep hcall hother =>
    rcases panicked_or_none sys with hpanic | hcalm'
    · exact .inl (.inl hpanic)
    · exact .inr ⟨_, Nat.le_refl _, nofun, hcalm', hwaiting,
        (stop_of_work hstep hcall hother).trans hstop, rfl⟩
  | accept found p' hstep =>
    obtain ⟨hsys, hsignal⟩ := sys_of_acceptStep hstep
    exact .inr ⟨_, Nat.le_refl _, nofun, by rwa [hsys], by rwa [hsignal], by rwa [hsys],
      by rw [hsignal]⟩
  | workers sys hsignal hstep =>
    rw [Process.stopAct, hstop] at hstep
    cases move_of_stopStep hstep with
    | panic a hd => exact .inl (.inl rfl)
    | callStop => exact .inl (.inr nofun)
    | exit a w ha => cases ha
  | signal p' hstep hsys hworkers =>
    have hcalled : ∀ {k}, p'.signal ≠ .waiting → p'.signal.toWorkers = k → k < p.signal.toWorkers →
        ∃ k', k' ≤ p.signal.toWorkers ∧ (Turn.signal = (.signal : Turn (W + 1) H) →
          k' < p.signal.toWorkers) ∧ Called k' p' := fun hne hrank hlt =>
      ⟨_, Nat.le_of_lt hlt, fun _ => hlt, by rwa [hsys], hne, by rwa [hsys], hrank⟩
    unfold Process.signalStep at hstep
    cases hsignal : p.signal with
    | waiting => exact absurd hsignal hwaiting
    | store | close =>
      rw [hsignal] at hstep hcalled
      cases hstep
      exact .inr (hcalled nofun rfl (Nat.lt_succ_self _))
    | check =>
      rw [hsignal] at hstep hcalled
      cases hstep
      dsimp only at hcalled ⊢
      split_ifs at hcalled ⊢
      · exact .inr (hcalled nofun rfl (by decide))
      · exact .inr (hcalled nofun rfl (by decide))
    | workers =>
      obtain ⟨phase, heq⟩ := hworkers hsignal
      rw [hstop] at heq
      cases heq
    | handlers | storeAgain | done =>
      rw [hsignal] at hlate
      cases hlate

/-- Once the signal is there, `Stop` comes to the workers. -/
theorem FairProcess.calls {r : ProcessRun cfg hash W H} (hfair : FairProcess r) {n : Nat}
    (h : (r.state n).signal ≠ .waiting) :
    ∃ m, n ≤ m ∧ ((r.state m).sys.panicked.isSome = true ∨ (r.state m).sys.stop ≠ none) := by
  rcases panicked_or_none (r.state n).sys with hpanic | hcalm
  · exact ⟨n, Nat.le_refl n, .inl hpanic⟩
  by_cases hstop : (r.state n).sys.stop = none
  case neg => exact ⟨n, Nat.le_refl n, .inr hstop⟩
  refine r.leads (linked_run r) (Q := Called) (M := (· = .signal)) Called.turn ?_
    ⟨hcalm, h, hstop, rfl⟩
  intro n
  obtain ⟨m, hle, hmove | hwaiting | hnone⟩ := hfair.signal n
  · exact ⟨m, hle, .inl ⟨_, hmove, rfl⟩⟩
  · exact ⟨m, hle, .inr fun k hQ => hQ.signal hwaiting⟩
  · exact ⟨m, hle, .inr fun k hQ => hQ.enabled (linked_run r m) hnone⟩

theorem Past.enabled {p : Process (W + 1) H} {k : Nat} (hlinked : Linked p) (h : Past k p) :
    turn cfg hash p .signal ≠ none := by
  have hearly := hlinked.not_early h.stop
  rw [turn, if_neg (by simp [h.calm])]
  unfold Process.signalStep
  cases hsignal : p.signal with
  | waiting | store | check | close =>
    rw [hsignal] at hearly
    cases hearly
  | workers =>
    obtain ⟨phase, hstop⟩ := finished_iff.1 h.stop
    simp [hstop]
  | handlers left => cases left <;> simp
  | storeAgain => simp
  | done => exact absurd hsignal h.notDone

theorem Past.turn {p p' : Process (W + 1) H} {t : Turn (W + 1) H} {k : Nat} (hlinked : Linked p)
    (h : Past k p) (hturn : turn cfg hash p t = some p') :
    (p'.sys.panicked.isSome = true ∨ p'.signal = .done) ∨
      ∃ k', k' ≤ k ∧ (t = .signal → k' < k) ∧ Past k' p' := by
  obtain ⟨hcalm, hstop, rfl, hnot⟩ := h
  have hearly := hlinked.not_early hstop
  obtain ⟨-, hturns⟩ := turns_of_turn hturn
  cases hturns with
  | work a sys hstep hcall hother =>
    rcases panicked_or_none sys with hpanic | hcalm'
    · exact .inl (.inl hpanic)
    · refine .inr ⟨_, Nat.le_refl _, nofun, hcalm', ?_, rfl, hnot⟩
      rw [Process.finished, Process.setSys, stop_of_work hstep hcall hother]
      exact hstop
  | accept found p' hstep =>
    obtain ⟨hsys, hsignal⟩ := sys_of_acceptStep hstep
    exact .inr ⟨_, Nat.le_refl _, nofun, by rwa [hsys], by rwa [Process.finished, hsys],
      by rw [hsignal], by rwa [hsignal]⟩
  | workers sys hsignal hstep =>
    obtain ⟨phase, heq⟩ := finished_iff.1 hstop
    rw [Process.stopAct, heq] at hstep
    rw [stopStep_stop_none (.inr ⟨phase, heq⟩)] at hstep
    cases hstep
  | signal p' hstep hsys hworkers =>
    have hpast : p'.signal ≠ .done → p'.signal.toDone H < p.signal.toDone H →
        ∃ k', k' ≤ p.signal.toDone H ∧ (Turn.signal = (.signal : Turn (W + 1) H) →
          k' < p.signal.toDone H) ∧ Past k' p' := fun hne hlt =>
      ⟨_, Nat.le_of_lt hlt, fun _ => hlt, by rwa [hsys], by rwa [Process.finished, hsys], rfl, hne⟩
    unfold Process.signalStep at hstep
    cases hsignal : p.signal with
    | waiting | store | check | close =>
      rw [hsignal] at hearly
      cases hearly
    | workers =>
      obtain ⟨phase, heq⟩ := finished_iff.1 hstop
      rw [hsignal] at hstep hpast
      simp only [heq, if_true] at hstep
      cases hstep
      exact .inr (hpast nofun (Nat.lt_succ_self _))
    | handlers left =>
      rw [hsignal] at hstep hpast
      cases left with
      | zero | succ =>
        cases hstep
        exact .inr (hpast nofun (Nat.lt_succ_self _))
    | storeAgain =>
      rw [hsignal] at hstep
      cases hstep
      exact .inl (.inr rfl)
    | done => exact absurd hsignal hnot

/-- Behind the workers, the goroutine comes to its end. -/
theorem FairProcess.signals {r : ProcessRun cfg hash W H} (hfair : FairProcess r) {n : Nat}
    (h : (r.state n).finished = true) :
    ∃ m, n ≤ m ∧ ((r.state m).sys.panicked.isSome = true ∨ (r.state m).signal = .done) := by
  rcases panicked_or_none (r.state n).sys with hpanic | hcalm
  · exact ⟨n, Nat.le_refl n, .inl hpanic⟩
  by_cases hdone : (r.state n).signal = .done
  · exact ⟨n, Nat.le_refl n, .inr hdone⟩
  refine r.leads (linked_run r) (Q := Past) (M := (· = .signal)) Past.turn ?_
    ⟨hcalm, h, rfl, hdone⟩
  intro n
  obtain ⟨m, hle, hmove | hwaiting | hnone⟩ := hfair.signal n
  · exact ⟨m, hle, .inl ⟨_, hmove, rfl⟩⟩
  · refine ⟨m, hle, .inr fun k hQ => ?_⟩
    have hearly := (linked_run r m).not_early hQ.stop
    rw [hwaiting] at hearly
    cases hearly
  · exact ⟨m, hle, .inr fun k hQ => hQ.enabled (linked_run r m) hnone⟩

/-! ## The accept loop -/

/-- So many moves of its own away from its end, once the server is stopped
and its listener closed. -/
def AcceptPc.toReturn : AcceptPc → Nat
  | .listen => 3
  | .publish => 2
  | .accept => 2
  | .accepted => 2
  | .head => 1
  | .failed => 1
  | .returned => 0

/-- The listener is closed, or the loop will find the server stopped before
it comes to `Accept`. -/
structure Leaving (k : Nat) (p : Process (W + 1) H) : Prop where
  calm : p.sys.panicked = none
  signal : p.signal.early = false
  rank : p.accept.toReturn = k
  notReturned : p.accept ≠ .returned

theorem Leaving.enabled {p : Process (W + 1) H} {k : Nat} (hlinked : Linked p) (h : Leaving k p) :
    Shutdown.turn cfg hash p (.accept .nothing) ≠ none := by
  have hshutdown := hlinked.stopped h.signal
  rw [Shutdown.turn, if_neg (by simp [h.calm])]
  unfold Process.acceptStep
  cases haccept : p.accept with
  | listen | publish | accepted => simp
  | head | failed => simp [hshutdown]
  | accept => simp [hlinked.listener h.signal haccept]
  | returned => exact absurd haccept h.notReturned

theorem early_of_signalStep {p p' : Process (W + 1) H} (h : p.signalStep cfg hash = some p')
    (hearly : p.signal.early = false) : p'.signal.early = false ∧ p'.accept = p.accept := by
  unfold Process.signalStep at h
  cases hsignal : p.signal with
  | waiting | store | check | close =>
    rw [hsignal] at hearly
    cases hearly
  | workers =>
    simp only [hsignal] at h
    split at h
    next =>
      obtain ⟨sys, -, rfl⟩ := Option.map_eq_some_iff.1 h
      exact ⟨by rw [Process.setSys, hsignal]; rfl, rfl⟩
    next =>
      split at h
      next =>
        cases h
        exact ⟨rfl, rfl⟩
      next =>
        obtain ⟨sys, -, rfl⟩ := Option.map_eq_some_iff.1 h
        exact ⟨by rw [Process.setSys, hsignal]; rfl, rfl⟩
  | handlers left =>
    simp only [hsignal] at h
    cases left <;> cases h <;> exact ⟨rfl, rfl⟩
  | storeAgain =>
    simp only [hsignal] at h
    cases h
    exact ⟨rfl, rfl⟩
  | done =>
    simp only [hsignal] at h
    cases h

/-- A move of the accept loop of a stopped server. -/
theorem toReturn_of_acceptStep {p p' : Process (W + 1) H} {found : Accepted} (hlinked : Linked p)
    (hearly : p.signal.early = false) (h : p.acceptStep found = some p') :
    p'.accept.toReturn < p.accept.toReturn := by
  have hshutdown := hlinked.stopped hearly
  unfold Process.acceptStep at h
  cases haccept : p.accept with
  | listen | publish | accepted =>
    rw [haccept] at h
    cases h
    exact Nat.lt_succ_self _
  | head | failed =>
    rw [haccept] at h
    dsimp only at h
    rw [if_pos hshutdown] at h
    cases h
    exact Nat.lt_succ_self _
  | accept =>
    rw [haccept] at h
    dsimp only at h
    rw [if_pos (hlinked.listener hearly haccept)] at h
    cases h
    exact Nat.lt_succ_self _
  | returned =>
    rw [haccept] at h
    cases h

theorem Leaving.turn {p p' : Process (W + 1) H} {t : Turn (W + 1) H} {k : Nat} (hlinked : Linked p)
    (h : Leaving k p) (hturn : turn cfg hash p t = some p') :
    (p'.sys.panicked.isSome = true ∨ p'.accept = .returned) ∨
      ∃ k', k' ≤ k ∧ ((∃ found, t = .accept found) → k' < k) ∧ Leaving k' p' := by
  obtain ⟨hcalm, hearly, rfl, hnot⟩ := h
  obtain ⟨-, hturns⟩ := turns_of_turn hturn
  cases hturns with
  | work a sys hstep hcall hother =>
    rcases panicked_or_none sys with hpanic | hcalm'
    · exact .inl (.inl hpanic)
    · exact .inr ⟨_, Nat.le_refl _, nofun, hcalm', hearly, rfl, hnot⟩
  | accept found p' hstep =>
    obtain ⟨hsys, hsignal⟩ := sys_of_acceptStep hstep
    by_cases hreturned : p'.accept = .returned
    · exact .inl (.inr hreturned)
    have hlt := toReturn_of_acceptStep hlinked hearly hstep
    exact .inr ⟨_, Nat.le_of_lt hlt, fun _ => hlt, by rwa [hsys], by rwa [hsignal], rfl, hreturned⟩
  | workers sys hsignal hstep =>
    rcases panicked_or_none sys with hpanic | hcalm'
    · exact .inl (.inl hpanic)
    · exact .inr ⟨_, Nat.le_refl _, nofun, hcalm', hearly, rfl, hnot⟩
  | signal p' hstep hsys hworkers =>
    obtain ⟨hearly', haccept⟩ := early_of_signalStep hstep hearly
    exact .inr ⟨_, Nat.le_refl _, nofun, by rwa [hsys], hearly', by rw [haccept], by rwa [haccept]⟩

/-- Once the server is stopped, the accept loop returns. -/
theorem FairProcess.accepts {r : ProcessRun cfg hash W H} (hfair : FairProcess r) {n : Nat}
    (h : (r.state n).signal.early = false) :
    ∃ m, n ≤ m ∧ ((r.state m).sys.panicked.isSome = true ∨ (r.state m).accept = .returned) := by
  rcases panicked_or_none (r.state n).sys with hpanic | hcalm
  · exact ⟨n, Nat.le_refl n, .inl hpanic⟩
  by_cases hreturned : (r.state n).accept = .returned
  · exact ⟨n, Nat.le_refl n, .inr hreturned⟩
  refine r.leads (linked_run r) (Q := Leaving) (M := fun t => ∃ found, t = .accept found)
    Leaving.turn ?_ ⟨hcalm, h, rfl, hreturned⟩
  intro n
  obtain ⟨m, hle, ⟨found, hmove⟩ | hnone⟩ := hfair.accept n
  · exact ⟨m, hle, .inl ⟨_, hmove, found, rfl⟩⟩
  · exact ⟨m, hle, .inr fun k hQ => hQ.enabled (linked_run r m) hnone⟩

/-! ## `main` -/

theorem waitGroup_eq_zero {p : Process W H} :
    p.waitGroup = 0 ↔ p.accept = .returned ∧ p.signal = .done := by
  unfold Process.waitGroup
  split_ifs <;> simp_all

theorem done_of_turn {p p' : Process (W + 1) H} {t : Turn (W + 1) H} (h : p.signal = .done)
    (hturn : turn cfg hash p t = some p') : p'.signal = .done := by
  obtain ⟨-, hturns⟩ := turns_of_turn hturn
  cases hturns with
  | work a sys hstep hcall hother => exact h
  | accept found p' hstep => exact (sys_of_acceptStep hstep).2.trans h
  | workers sys hsignal hstep =>
    rw [h] at hsignal
    cases hsignal
  | signal p' hstep hsys hworkers =>
    rw [Process.signalStep, h] at hstep
    cases hstep

/-- `main` does not return before every worker has exited and the listener is
closed; and in every fair run it does return after the signal, whenever that
comes, unless a handler sends on a closed channel. -/
theorem main_exits (cfg : Config) (hash : Bytes → UInt32) (r : ProcessRun cfg hash W H) :
    (∀ n, (r.state n).waitGroup = 0 →
      (∀ w, ((r.state n).sys.life w).exited = true) ∧ (r.state n).listener = .closed) ∧
    (FairProcess r → ∀ n, (r.state n).signal ≠ .waiting →
      ∃ m, n ≤ m ∧ ((r.state m).sys.panicked.isSome = true ∨ (r.state m).waitGroup = 0)) := by
  constructor
  · intro n hzero
    obtain ⟨hreturned, hdone⟩ := waitGroup_eq_zero.1 hzero
    have hlinked := linked_run r n
    obtain ⟨phase, hstop⟩ := hlinked.late (by rw [hdone]; rfl)
    exact ⟨fun w => (hlinked.stopping.progress _ _ hstop).behind w w.isLt,
      hlinked.returned hreturned⟩
  · intro hfair n hsignal
    -- to the workers, past them, and to the end
    obtain ⟨m₁, hle₁, hpanic | hcalled⟩ := hfair.calls hsignal
    · exact ⟨m₁, hle₁, .inl hpanic⟩
    obtain ⟨⟨i, phase⟩, hstop⟩ := Option.ne_none_iff_exists'.1 hcalled
    have hi := ((linked_run r m₁).stopping.progress i phase hstop).le
    obtain ⟨m₂, phase', hle₂, hpanic | hend⟩ :=
      hfair.stop.finishes (W + 1 - i) (n := m₁) (by omega) (.inr hstop)
    · exact ⟨m₂, by omega, .inl hpanic⟩
    obtain ⟨m₃, hle₃, hpanic | hdone⟩ := hfair.signals (finished_iff.2 ⟨phase', hend⟩)
    · exact ⟨m₃, by omega, .inl hpanic⟩
    -- the accept loop returns at the latest after that
    obtain ⟨m₄, hle₄, hpanic | hreturned⟩ := hfair.accepts (n := m₃) (by rw [hdone]; rfl)
    · exact ⟨m₄, by omega, .inl hpanic⟩
    have hstays := r.stable (fun h hstep => done_of_turn h hstep) hdone hle₄
    exact ⟨m₄, by omega, .inr (waitGroup_eq_zero.2 ⟨hreturned, hstays⟩)⟩

/-- The signal comes while the listener is being set up: `Stop` finds no
listener to close, and the accept loop finds the server stopped. -/
def earlySignal : Run (turn stopCfg fun _ => 0) (Process.init 1 1) :=
  .ofList [.accept .nothing, .signal, .signal, .signal, .accept .nothing, .accept .nothing, .signal,
    .signal, .signal, .work (.takeDone (Fin.last 0)), .signal, .signal, .signal, .signal, .signal]
    rfl

theorem fairProcess_earlySignal : FairProcess earlySignal := by
  have hend : ∀ n, earlySignal.state (15 + n) = earlySignal.state 15 := by
    intro n
    exact (Run.ofList_state_min _ _ (15 + n)).trans
      (congrArg earlySignal.state (Nat.min_eq_right (Nat.le_add_right 15 n)))
  constructor
  · intro n
    refine ⟨15 + n, by omega, .inr ?_⟩
    rw [hend]
    rfl
  · intro n
    refine ⟨15 + n, by omega, .inr (.inr ?_)⟩
    rw [hend]
    rfl
  · intro w n
    refine ⟨15 + n, by omega, .inr fun a ha => ?_⟩
    rw [hend]
    obtain rfl : w = Fin.last 0 := Fin.ext (by omega)
    exact stopStep_exited rfl rfl ha

theorem main_exits_early : (earlySignal.state 2).listener = .unset ∧
    ((earlySignal.state 15).waitGroup = 0 ∧ (earlySignal.state 15).listener = .closed) ∧
    ∃ m, 2 ≤ m ∧ ((earlySignal.state m).sys.panicked.isSome = true ∨
      (earlySignal.state m).waitGroup = 0) :=
  ⟨rfl, ⟨rfl, ((main_exits stopCfg (fun _ => 0) earlySignal).1 15 rfl).2⟩,
    (main_exits stopCfg (fun _ => 0) earlySignal).2 fairProcess_earlySignal 2 nofun⟩

end RediGo.Server.Shutdown
