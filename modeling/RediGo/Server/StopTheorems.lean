/-
RediGo.Server.StopTheorems — `Server.Stop` returns.

`Stop` waits for each worker in turn, while handlers go on dispatching and
workers go on working. What it waits for does come: once the channel of a
worker is closed no task enters it, so its queue can only shrink, and a
worker that has nothing left finds its context cancelled. Nothing is
assumed about which ready branch a `select` takes; a worker may work off
its whole queue first.

Assumed is only that no goroutine that can move is left out for ever
(`FairStop`). The one thing that can come between is a handler that sends
on a closed channel, which ends the process.

The argument goes worker by worker through the phases of `Worker.Stop`.
Each phase is one use of `Run.leads`: `Stop` itself moves in three of them,
and in between the worker does, with the length of its queue as the rank.
-/
import RediGo.Server.ShutdownTheorems

namespace RediGo.Server.Shutdown

open RediGo.Go RediGo.HashTable RediGo.Core RediGo.Lib

variable {W H : Nat} {cfg : Config} {hash : Bytes → UInt32}

/-! ## The steps by who moves -/

/-- The worker that moves. -/
def Act.worker : Act W H → Option (Fin W)
  | .serve a => a.worker
  | .takeDone w => some w
  | .takeClosed w => some w
  | .callStop => none
  | .stop => none

/-- The steps, told apart only as far as `Stop` and the lives of the workers
are concerned. -/
inductive Move (cfg : Config) (hash : Bytes → UInt32) (s : System (W + 1) H) :
    Act (W + 1) H → System (W + 1) H → Prop
  | panic (a : Act (W + 1) H) (h : Fin H) : Move cfg hash s a { s with panicked := some h }
  | serve (a : Action (W + 1) H) (server : State (W + 1) H) (put : List (Fin (W + 1) × Task H))
    (hstep : step cfg hash s.server a = some server)
    (hopen : ∀ h command any, a = .dispatch h command any →
      (s.life (target hash command any)).closed = false) :
    Move cfg hash s (.serve a) { s with server := server, put := put }
  | callStop (hstop : s.stop = none) :
    Move cfg hash s .callStop { s with stop := some (0, .cancel) }
  | cancel (w : Fin (W + 1)) (hstop : s.stop = some (w.val, .cancel)) :
    Move cfg hash s .stop
      { s.updateLife w (fun l => { l with cancelled := true }) with stop := some (w, .close) }
  | close (w : Fin (W + 1)) (hstop : s.stop = some (w.val, .close)) :
    Move cfg hash s .stop
      { s.updateLife w (fun l => { l with closed := true }) with stop := some (w, .wait) }
  | wait (w : Fin (W + 1)) (hstop : s.stop = some (w.val, .wait))
    (hexited : (s.life w).exited = true) :
    Move cfg hash s .stop { s with stop := some (w + 1, .cancel) }
  | exit (a : Act (W + 1) H) (w : Fin (W + 1)) (ha : a.worker = some w) : Move cfg hash s a (s.exit w)

theorem move_of_stopStep {s s' : System (W + 1) H} {a : Act (W + 1) H}
    (h : stopStep cfg hash s a = some s') : Move cfg hash s a s' := by
  cases transition_of_stopStep h with
  | panic hd => exact .panic _ hd
  | dispatch hd command any server hstep hopen =>
    refine .serve _ server _ hstep ?_
    rintro hd' command' any' heq
    cases heq
    exact hopen
  | work a server hstep ha =>
    exact .serve _ server s.put hstep fun hd command any heq => absurd heq (ha hd command any)
  | callStop hstop => exact .callStop hstop
  | cancel w hstop => exact .cancel w hstop
  | close w hstop => exact .close w hstop
  | wait w hstop hexited => exact .wait w hstop hexited
  | takeDone w | takeClosed w => exact .exit _ w rfl

/-! ## What holds while `Stop` is at work -/

/-- What has happened to a worker is not taken back. -/
def Lifecycle.Grows (l l' : Lifecycle) : Prop :=
  (l.cancelled = true → l'.cancelled = true) ∧ (l.closed = true → l'.closed = true) ∧
    (l.exited = true → l'.exited = true)

theorem grows_updateLife (s : System W H) (w : Fin W) {f : Lifecycle → Lifecycle}
    (hf : ∀ l : Lifecycle, l.Grows (f l)) (v : Fin W) : (s.life v).Grows ((s.updateLife w f).life v) := by
  by_cases hv : v = w
  · subst hv
    simpa [System.updateLife] using hf (s.life v)
  · simp [System.updateLife, Function.update_of_ne hv, Lifecycle.Grows]

theorem life_updateLife (s : System W H) (w : Fin W) (f : Lifecycle → Lifecycle) :
    (s.updateLife w f).life w = f (s.life w) := Function.update_self ..

/-- `Stop` is at worker `i`: all before it have exited, and this one is as
far as the phase says. -/
structure Progress (life : Fin W → Lifecycle) (i : Nat) (phase : StopPhase) : Prop where
  le : i ≤ W
  behind : ∀ w : Fin W, w.val < i → (life w).exited = true
  cancelled : ∀ w : Fin W, w.val = i → phase ≠ .cancel → (life w).cancelled = true
  closed : ∀ w : Fin W, w.val = i → phase = .wait → (life w).closed = true

theorem Progress.grow {life life' : Fin W → Lifecycle} {i : Nat} {phase : StopPhase}
    (h : Progress life i phase) (hgrows : ∀ w, (life w).Grows (life' w)) :
    Progress life' i phase where
  le := h.le
  behind := fun w hw => (hgrows w).2.2 (h.behind w hw)
  cancelled := fun w hw hphase => (hgrows w).1 (h.cancelled w hw hphase)
  closed := fun w hw hphase => (hgrows w).2.1 (h.closed w hw hphase)

/-- The books are in order, and `Stop` is as far as it says. -/
structure Stopping (s : System W H) : Prop where
  ledger : Ledger s.server
  progress : ∀ i phase, s.stop = some (i, phase) → Progress s.life i phase

theorem Stopping.init : Stopping (System.init W H) where
  ledger := .init
  progress := by simp [System.init]

theorem Stopping.setStop {s : System W H} (h : Stopping s) {life : Fin W → Lifecycle} {i : Nat}
    {phase : StopPhase} (hprogress : Progress life i phase) :
    Stopping { s with life := life, stop := some (i, phase) } where
  ledger := h.ledger
  progress := by
    rintro i' phase' heq
    cases heq
    exact hprogress

theorem Stopping.step {s s' : System (W + 1) H} {a : Act (W + 1) H} (h : Stopping s)
    (hstep : stopStep cfg hash s a = some s') : Stopping s' := by
  cases move_of_stopStep hstep with
  | panic a hd => exact ⟨h.ledger, h.progress⟩
  | serve a server put hserver hopen => exact ⟨h.ledger.step hserver, h.progress⟩
  | callStop hstop =>
    refine h.setStop ⟨Nat.zero_le _, ?_, ?_, ?_⟩ <;> simp
  | cancel w hstop =>
    have hgrow := (h.progress _ _ hstop).grow
      (grows_updateLife s w (f := fun l => { l with cancelled := true }) (by simp [Lifecycle.Grows]))
    refine h.setStop ⟨hgrow.le, hgrow.behind, ?_, by simp⟩
    intro v hv _
    obtain rfl := Fin.ext hv
    rw [life_updateLife]
  | close w hstop =>
    have hgrow := (h.progress _ _ hstop).grow
      (grows_updateLife s w (f := fun l => { l with closed := true }) (by simp [Lifecycle.Grows]))
    refine h.setStop ⟨hgrow.le, hgrow.behind, fun v hv _ => hgrow.cancelled v hv (by simp), ?_⟩
    intro v hv _
    obtain rfl := Fin.ext hv
    rw [life_updateLife]
  | wait w hstop hexited =>
    have hat := h.progress _ _ hstop
    refine h.setStop ⟨by omega, ?_, by simp, by simp⟩
    intro v hv
    rcases Nat.lt_or_eq_of_le (Nat.le_of_lt_succ hv) with hlt | heq
    · exact hat.behind v hlt
    · obtain rfl := Fin.ext heq
      exact hexited
  | exit a w ha =>
    exact ⟨h.ledger, fun i phase hstop => (h.progress i phase hstop).grow
      (grows_updateLife s w (by simp [Lifecycle.Grows]))⟩

/-- The runs of a server that may be stopped. -/
abbrev StopRun (cfg : Config) (hash : Bytes → UInt32) (W H : Nat) :=
  Run (stopStep (W := W) (H := H) cfg hash) (System.init (W + 1) H)

theorem stopping_run (r : StopRun cfg hash W H) (n : Nat) : Stopping (r.state n) :=
  r.invariant (P := fun _ => True) (fun _ => trivial) Stopping.init (fun _ _ h hstep => h.step hstep) n

/-! ## Fair runs -/

/-- `Stop` and the workers: who can move again and again moves in the end. -/
structure FairStop (r : StopRun cfg hash W H) : Prop where
  stop : ∀ n, ∃ m, n ≤ m ∧ (r.action m = some .stop ∨ stopStep cfg hash (r.state m) .stop = none)
  worker : ∀ w n, ∃ m, n ≤ m ∧ ((∃ a, r.action m = some a ∧ a.worker = some w) ∨
    ∀ a : Act (W + 1) H, a.worker = some w → stopStep cfg hash (r.state m) a = none)

/-- A handler sent on a closed channel, or `Stop` is there. -/
def At (place : Nat × StopPhase) (s : System W H) : Prop :=
  s.panicked.isSome = true ∨ s.stop = some place

/-- Where `Stop` goes from a phase of worker `w`. -/
def nextStop (w : Fin W) : StopPhase → Nat × StopPhase
  | .cancel => (w, .close)
  | .close => (w, .wait)
  | .wait => (w + 1, .cancel)

/-- `Stop` is at worker `w` in this phase and can go on. -/
structure Ready (w : Fin W) (phase : StopPhase) (s : System W H) : Prop where
  calm : s.panicked = none
  stop : s.stop = some (w.val, phase)
  exited : phase = .wait → (s.life w).exited = true

theorem Ready.enabled {s : System (W + 1) H} {w : Fin (W + 1)} {phase : StopPhase}
    (h : Ready w phase s) : stopStep cfg hash s .stop ≠ none := by
  have hcalm : ¬ s.panicked.isSome = true := by simp [h.calm]
  rw [stopStep, if_neg hcalm]
  simp only [h.stop, dif_pos w.isLt]
  cases phase with
  | cancel => simp [System.stopWorker]
  | close => simp [System.stopWorker]
  | wait => simp [System.stopWorker, h.exited rfl]

/-- A step of another goroutine leaves `Stop` ready. -/
theorem Ready.step {s s' : System (W + 1) H} {a : Act (W + 1) H} {w : Fin (W + 1)}
    {phase : StopPhase} (h : Ready w phase s) (hstep : stopStep cfg hash s a = some s') :
    At (nextStop w phase) s' ∨ a ≠ .stop ∧ Ready w phase s' := by
  cases move_of_stopStep hstep with
  | panic a hd => exact .inl (.inl rfl)
  | serve a server put hserver hopen => exact .inr ⟨by simp, h.calm, h.stop, h.exited⟩
  | callStop hstop =>
    rw [h.stop] at hstop
    cases hstop
  | cancel v hstop | close v hstop | wait v hstop hexited =>
    rw [h.stop, Option.some.injEq, Prod.mk.injEq] at hstop
    obtain ⟨heq, rfl⟩ := hstop
    obtain rfl := Fin.ext heq
    exact .inl (.inr rfl)
  | exit a v ha =>
    refine .inr ⟨?_, h.calm, h.stop, fun hwait => ?_⟩
    · rintro rfl
      cases ha
    · exact (grows_updateLife s v (by simp [Lifecycle.Grows]) w).2.2 (h.exited hwait)

/-- Where `Stop` can go on, it does. -/
theorem FairStop.moves {r : StopRun cfg hash W H} (hfair : FairStop r) {w : Fin (W + 1)}
    {phase : StopPhase} {n : Nat} (h : Ready w phase (r.state n)) :
    ∃ m, n ≤ m ∧ At (nextStop w phase) (r.state m) := by
  refine r.leads (stopping_run r) (Q := fun k s => k = 0 ∧ Ready w phase s) (M := (· = .stop))
    ?_ ?_ (k := 0) ⟨rfl, h⟩
  · rintro k s a s' - ⟨rfl, h⟩ hstep
    rcases h.step hstep with hgoal | ⟨hother, h'⟩
    · exact .inl hgoal
    · exact .inr ⟨0, Nat.le_refl 0, fun hstop => absurd hstop hother, rfl, h'⟩
  · intro m
    obtain ⟨m', hle, hmove | hnone⟩ := hfair.stop m
    · exact ⟨m', hle, .inl ⟨.stop, hmove, rfl⟩⟩
    · exact ⟨m', hle, .inr fun k hQ => hQ.2.enabled hnone⟩

/-! ## The worker that is waited for -/

/-- The steps a worker can make before it has nothing left to do. -/
def WorkerState.load (ws : WorkerState H) : Nat := 2 * ws.taskCh.length + ws.current.toList.length

/-- `Stop` waits for worker `w`, which has `k` steps of work left at most. -/
structure Awaited (w : Fin W) (k : Nat) (s : System W H) : Prop where
  calm : s.panicked = none
  stop : s.stop = some (w.val, .wait)
  running : (s.life w).exited = false
  load : WorkerState.load (s.server.workers w) = k

/-- The worker can work, or it finds its context cancelled. -/
theorem Awaited.enabled (cfg : Config) (hash : Bytes → UInt32) {s : System (W + 1) H}
    {w : Fin (W + 1)} {k : Nat} (hs : Stopping s)
    (h : Awaited w k s) :
    ∃ a : Act (W + 1) H, a.worker = some w ∧ stopStep cfg hash s a ≠ none := by
  have hcalm : ¬ s.panicked.isSome = true := by simp [h.calm]
  have hcancelled := (hs.progress _ _ h.stop).cancelled w rfl (by simp)
  by_cases hqueue : (s.server.workers w).queue = []
  · have hcurrent : (s.server.workers w).current = none := by
      cases hc : (s.server.workers w).current with
      | none => rfl
      | some task => simp [WorkerState.queue, hc] at hqueue
    refine ⟨.takeDone w, rfl, ?_⟩
    rw [stopStep, if_neg hcalm]
    simp [h.running, hcurrent, hcancelled]
  · obtain ⟨a, server, ha, hstep⟩ : ∃ a server, Action.worker a = some w ∧
        Server.step cfg hash s.server a = some server := hs.ledger.enabled hqueue
    refine ⟨.serve a, ha, ?_⟩
    rw [stopStep, if_neg hcalm]
    cases a with
    | dispatch hd command any => cases ha
    | receive hd => cases ha
    | take v =>
      cases ha
      simp [serveStep, h.running, hstep]
    | execute v env => simp [serveStep, hstep]

/-- No step of the server adds to the work of a worker to which nothing is
dispatched, and its own steps take from it. -/
theorem load_of_step {s s' : State (W + 1) H} {a : Action (W + 1) H} {w : Fin (W + 1)}
    (h : Server.step cfg hash s a = some s')
    (ha : ∀ hd command any, a = .dispatch hd command any → target hash command any ≠ w) :
    WorkerState.load (s'.workers w) ≤ WorkerState.load (s.workers w) ∧
      (a.worker = some w → WorkerState.load (s'.workers w) < WorkerState.load (s.workers w)) := by
  cases transition_of_step h with
  | dispatch hd command any hwaiting =>
    have hw : w ≠ target hash command any := fun heq => ha hd command any rfl heq.symm
    simp [State.send, Function.update_of_ne hw, Action.worker]
  | take v task rest hcurrent hqueue =>
    by_cases hw : w = v
    · subst hw
      simp [State.pick, WorkerState.load, hcurrent, hqueue]
      omega
    · simp [State.pick, Function.update_of_ne hw, Action.worker, Ne.symm hw]
  | execute v env task hcurrent =>
    by_cases hw : w = v
    · subst hw
      simp [State.perform, WorkerState.load, hcurrent]
    · simp [State.perform, Function.update_of_ne hw, Action.worker, Ne.symm hw]
  | receive hd id reply rest hwaiting hreply => simp [State.deliver, Action.worker]

/-- While `Stop` waits nothing enters the closed channel of the worker. -/
theorem Awaited.step {s s' : System (W + 1) H} {a : Act (W + 1) H} {w : Fin (W + 1)} {k : Nat}
    (hs : Stopping s) (h : Awaited w k s) (hstep : stopStep cfg hash s a = some s') :
    (s'.panicked.isSome = true ∨ Ready w .wait s') ∨
      ∃ k', k' ≤ k ∧ (a.worker = some w → k' < k) ∧ Awaited w k' s' := by
  have hclosed := (hs.progress _ _ h.stop).closed w rfl rfl
  have hload := h.load
  cases move_of_stopStep hstep with
  | panic a hd => exact .inl (.inl rfl)
  | serve a server put hserver hopen =>
    obtain ⟨hle, hlt⟩ := load_of_step (w := w) hserver (by
      rintro hd command any heq rfl
      rw [hopen hd command any heq] at hclosed
      cases hclosed)
    rw [hload] at hle hlt
    exact .inr ⟨_, hle, hlt, h.calm, h.stop, h.running, rfl⟩
  | callStop hstop =>
    rw [h.stop] at hstop
    cases hstop
  | cancel v hstop | close v hstop => simp [h.stop] at hstop
  | wait v hstop hexited =>
    rw [h.stop, Option.some.injEq, Prod.mk.injEq] at hstop
    obtain rfl := Fin.ext hstop.1
    rw [h.running] at hexited
    cases hexited
  | exit a v ha =>
    by_cases hw : w = v
    · subst hw
      exact .inl (.inr ⟨h.calm, h.stop, fun _ => by rw [System.exit, life_updateLife]⟩)
    · refine .inr ⟨k, Nat.le_refl k, fun hmine => ?_, h.calm, h.stop, ?_, hload⟩
      · rw [ha] at hmine
        exact absurd (Option.some.inj hmine).symm hw
      · rw [System.exit, System.updateLife]
        simp only [Function.update_of_ne hw, h.running]

/-- The worker that `Stop` waits for exits. -/
theorem FairStop.exits {r : StopRun cfg hash W H} (hfair : FairStop r) {w : Fin (W + 1)}
    {k n : Nat} (h : Awaited w k (r.state n)) :
    ∃ m, n ≤ m ∧ ((r.state m).panicked.isSome = true ∨ Ready w .wait (r.state m)) := by
  refine r.leads (stopping_run r) (Q := fun k s => Stopping s ∧ Awaited w k s)
    (G := fun s => s.panicked.isSome = true ∨ Ready w .wait s)
    (M := fun a => a.worker = some w) ?_ ?_ ⟨stopping_run r n, h⟩
  · rintro k s a s' hs ⟨-, h⟩ hstep
    rcases h.step hs hstep with hgoal | ⟨k', hle, hlt, h'⟩
    · exact .inl hgoal
    · exact .inr ⟨k', hle, hlt, hs.step hstep, h'⟩
  · intro m
    obtain ⟨m', hle, hmove | hnone⟩ := hfair.worker w m
    · exact ⟨m', hle, .inl hmove⟩
    · refine ⟨m', hle, .inr ?_⟩
      rintro k ⟨hs, h⟩
      obtain ⟨a, ha, hsome⟩ := h.enabled cfg hash hs
      exact hsome (hnone a ha)

/-! ## `Stop` as a whole -/

/-- From one place to the next, unless a handler panics. -/
theorem FairStop.advances {r : StopRun cfg hash W H} (hfair : FairStop r) {w : Fin (W + 1)}
    {phase : StopPhase} {n : Nat} (h : At (w.val, phase) (r.state n)) :
    ∃ m, n ≤ m ∧ At (nextStop w phase) (r.state m) := by
  rcases h with hpanic | hstop
  · exact ⟨n, Nat.le_refl n, .inl hpanic⟩
  cases hcalm : (r.state n).panicked with
  | some hd => exact ⟨n, Nat.le_refl n, .inl (by rw [hcalm]; rfl)⟩
  | none =>
    cases hexited : ((r.state n).life w).exited with
    | true => exact hfair.moves ⟨hcalm, hstop, fun _ => hexited⟩
    | false =>
      cases phase with
      | cancel => exact hfair.moves ⟨hcalm, hstop, by simp⟩
      | close => exact hfair.moves ⟨hcalm, hstop, by simp⟩
      | wait =>
        obtain ⟨m, hle, hpanic | hready⟩ := hfair.exits ⟨hcalm, hstop, hexited, rfl⟩
        · exact ⟨m, hle, .inl hpanic⟩
        · obtain ⟨m', hle', hat⟩ := hfair.moves hready
          exact ⟨m', Nat.le_trans hle hle', hat⟩

/-- A whole `Worker.Stop`. -/
theorem FairStop.stopsWorker {r : StopRun cfg hash W H} (hfair : FairStop r) {w : Fin (W + 1)}
    {phase : StopPhase} {n : Nat} (h : At (w.val, phase) (r.state n)) :
    ∃ m, n ≤ m ∧ At (w.val + 1, .cancel) (r.state m) := by
  have hwait : ∀ n, At (w.val, .wait) (r.state n) → ∃ m, n ≤ m ∧ At (w.val + 1, .cancel) (r.state m) :=
    fun n h => hfair.advances h
  have hclose : ∀ n, At (w.val, .close) (r.state n) →
      ∃ m, n ≤ m ∧ At (w.val + 1, .cancel) (r.state m) := by
    intro n h
    obtain ⟨m, hle, h⟩ := hfair.advances h
    obtain ⟨m', hle', h⟩ := hwait m h
    exact ⟨m', Nat.le_trans hle hle', h⟩
  cases phase with
  | wait => exact hwait n h
  | close => exact hclose n h
  | cancel =>
    obtain ⟨m, hle, h⟩ := hfair.advances h
    obtain ⟨m', hle', h⟩ := hclose m h
    exact ⟨m', Nat.le_trans hle hle', h⟩

/-- All workers that are left, one after the other. -/
theorem FairStop.finishes {r : StopRun cfg hash W H} (hfair : FairStop r) (left : Nat) :
    ∀ {i phase n}, i + left = W + 1 → At (i, phase) (r.state n) →
      ∃ m phase, n ≤ m ∧ At (W + 1, phase) (r.state m) := by
  induction left with
  | zero =>
    rintro i phase n hi h
    obtain rfl : i = W + 1 := hi
    exact ⟨n, phase, Nat.le_refl n, h⟩
  | succ left ih =>
    intro i phase n hi h
    obtain ⟨m, hle, h⟩ := hfair.stopsWorker (w := ⟨i, by omega⟩) h
    obtain ⟨m', phase', hle', h⟩ := ih (i := i + 1) (by omega) h
    exact ⟨m', phase', Nat.le_trans hle hle', h⟩

/-- In every fair run, `Server.Stop` comes past all workers once it was
called, and each of them has exited, unless a handler sends on a closed
channel: `Stop` never waits for ever, whatever handlers still dispatch and
whichever ready branches the workers take. -/
theorem stop_returns (cfg : Config) (hash : Bytes → UInt32) (r : StopRun cfg hash W H)
    (hfair : FairStop r) (n : Nat) (hcalled : (r.state n).stop ≠ none) :
    ∃ m, n ≤ m ∧ ((r.state m).panicked.isSome = true ∨
      (∃ phase, (r.state m).stop = some (W + 1, phase)) ∧
        ∀ w, ((r.state m).life w).exited = true) := by
  obtain ⟨⟨i, phase⟩, hstop⟩ := Option.ne_none_iff_exists'.1 hcalled
  have hi := ((stopping_run r n).progress i phase hstop).le
  obtain ⟨m, phase', hle, hpanic | hend⟩ := hfair.finishes (W + 1 - i) (by omega) (.inr hstop)
  · exact ⟨m, hle, .inl hpanic⟩
  · refine ⟨m, hle, .inr ⟨⟨phase', hend⟩, fun w => ?_⟩⟩
    exact ((stopping_run r m).progress _ _ hend).behind w w.isLt

/-- A worker that has exited moves no more. -/
theorem stopStep_exited {s : System (W + 1) H} {w : Fin (W + 1)}
    (hexited : (s.life w).exited = true) (hcurrent : (s.server.workers w).current = none)
    {a : Act (W + 1) H} (ha : a.worker = some w) : stopStep cfg hash s a = none := by
  unfold stopStep
  split
  next => rfl
  cases a with
  | serve a =>
    cases a with
    | dispatch hd command any => cases ha
    | receive hd => cases ha
    | take v =>
      cases ha
      simp [serveStep, hexited]
    | execute v env =>
      cases ha
      simp [serveStep, Server.step, hcurrent]
  | takeDone v | takeClosed v =>
    cases ha
    simp [hexited]
  | callStop => cases ha
  | stop => cases ha

/-- A request is queued when `Stop` is called. The worker executes it before
it looks at its context. -/
def lateStop : Run (stopStep stopCfg fun _ => 0) (System.init 1 1) :=
  .ofList [.serve (.dispatch (Fin.last 0) ⟨lit "PING", []⟩ (Fin.last 0)), .callStop, .stop, .stop,
    .serve (.take (Fin.last 0)), .serve (.execute (Fin.last 0) default), .takeDone (Fin.last 0),
    .stop] rfl

/-- After the end of a finite run nothing is left to do for `Stop` and its
worker. -/
theorem fairStop_lateStop : FairStop lateStop := by
  have hend : ∀ n, lateStop.state (8 + n) = lateStop.state 8 := by
    intro n
    exact (Run.ofList_state_min _ _ (8 + n)).trans
      (congrArg lateStop.state (Nat.min_eq_right (Nat.le_add_right 8 n)))
  constructor
  · intro n
    refine ⟨8 + n, by omega, .inr ?_⟩
    rw [hend]
    rfl
  · intro w n
    refine ⟨8 + n, by omega, .inr fun a ha => ?_⟩
    rw [hend]
    obtain rfl : w = Fin.last 0 := Fin.ext (by omega)
    exact stopStep_exited rfl rfl ha

theorem stop_returns_late : (lateStop.state 2).stop ≠ none ∧
    ∃ m, 2 ≤ m ∧ ((lateStop.state m).panicked.isSome = true ∨
      (∃ phase, (lateStop.state m).stop = some (1, phase)) ∧
        ∀ w, ((lateStop.state m).life w).exited = true) :=
  ⟨nofun, stop_returns stopCfg (fun _ => 0) lateStop fairStop_lateStop 2 nofun⟩

end RediGo.Server.Shutdown
