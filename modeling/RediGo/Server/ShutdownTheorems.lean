/-
RediGo.Server.ShutdownTheorems — when a shutdown loses no request.

A task that was put in a worker's channel is in its queue or was executed
(`Inv.placed`), so a worker loses a task exactly by exiting with a queue.
Two things make that happen. `ctx.Done()` may be taken while tasks are
queued, and a handler may dispatch to a worker that has exited, whose channel
the task then stays in. A third thing is a dispatch to a worker whose channel
is closed: the send panics.

`Orderly` rules out these and nothing else. `Transition` lists the steps of
the system once, with their guards, and each part of the invariant is carried
over them.
-/
import RediGo.Server.Ledger
import RediGo.Server.Shutdown

namespace RediGo.Server.Shutdown

open RediGo.Go RediGo.HashTable RediGo.Core RediGo.Lib

variable {W H : Nat} {cfg : Config} {hash : Bytes → UInt32}

/-! ## The steps -/

/-- What each action requires and does. -/
inductive Transition (cfg : Config) (hash : Bytes → UInt32) (s : System (W + 1) H) :
    Act (W + 1) H → System (W + 1) H → Prop
  | panic (h : Fin H) (command : Command) (any : Fin (W + 1)) (hwaiting : s.server.waiting h = none)
    (hclosed : (s.life (target hash command any)).closed = true) :
    Transition cfg hash s (.serve (.dispatch h command any)) { s with panicked := some h }
  | dispatch (h : Fin H) (command : Command) (any : Fin (W + 1)) (server : State (W + 1) H)
    (hstep : step cfg hash s.server (.dispatch h command any) = some server)
    (hopen : (s.life (target hash command any)).closed = false) :
    Transition cfg hash s (.serve (.dispatch h command any))
      { s with
        server := server
        put := s.put ++ [(target hash command any, ⟨s.server.dispatched.length, h, command⟩)] }
  | work (a : Action (W + 1) H) (server : State (W + 1) H)
    (hstep : step cfg hash s.server a = some server)
    (ha : ∀ h command any, a ≠ .dispatch h command any)
    (hrunning : ∀ w, a = .take w → (s.life w).exited = false) :
    Transition cfg hash s (.serve a) { s with server := server }
  | callStop (hstop : s.stop = none) :
    Transition cfg hash s .callStop { s with stop := some (0, .cancel) }
  | cancel (w : Fin (W + 1)) (hstop : s.stop = some (w.val, .cancel)) :
    Transition cfg hash s .stop
      { s.updateLife w (fun l => { l with cancelled := true }) with stop := some (w, .close) }
  | close (w : Fin (W + 1)) (hstop : s.stop = some (w.val, .close)) :
    Transition cfg hash s .stop
      { s.updateLife w (fun l => { l with closed := true }) with stop := some (w, .wait) }
  | wait (w : Fin (W + 1)) (hstop : s.stop = some (w.val, .wait))
    (hexited : (s.life w).exited = true) :
    Transition cfg hash s .stop { s with stop := some (w + 1, .cancel) }
  | takeDone (w : Fin (W + 1)) (hrunning : (s.life w).exited = false)
    (hcurrent : (s.server.workers w).current = none) (hcancelled : (s.life w).cancelled = true) :
    Transition cfg hash s (.takeDone w) (s.exit w)
  | takeClosed (w : Fin (W + 1)) (hrunning : (s.life w).exited = false)
    (hcurrent : (s.server.workers w).current = none) (hclosed : (s.life w).closed = true)
    (hempty : (s.server.workers w).taskCh = []) : Transition cfg hash s (.takeClosed w) (s.exit w)

theorem transition_of_stopStep {s s' : System (W + 1) H} {a : Act (W + 1) H}
    (h : stopStep cfg hash s a = some s') : Transition cfg hash s a s' := by
  unfold stopStep at h
  split at h
  next => cases h
  cases a with
  | serve a =>
    cases a with
    | dispatch hd command any =>
      simp only [serveStep] at h
      split at h
      next hpanic =>
        cases h
        exact .panic hd command any hpanic.1 hpanic.2
      next hcalm =>
        obtain ⟨server, hstep, rfl⟩ := Option.map_eq_some_iff.mp h
        refine .dispatch hd command any server hstep ?_
        cases transition_of_step hstep with
        | dispatch _ _ _ hwaiting =>
          exact Bool.eq_false_iff.2 fun hclosed => hcalm ⟨hwaiting, hclosed⟩
    | take w =>
      simp only [serveStep] at h
      split at h
      next => cases h
      next hrunning =>
        obtain ⟨server, hstep, rfl⟩ := Option.map_eq_some_iff.mp h
        refine .work _ server hstep (by simp) ?_
        rintro w' heq
        cases heq
        exact Bool.eq_false_iff.2 hrunning
    | execute w env | receive hd =>
      obtain ⟨server, hstep, rfl⟩ := Option.map_eq_some_iff.mp h
      exact .work _ server hstep (by simp) (by simp)
  | callStop =>
    simp only at h
    split at h
    next hnone =>
      cases h
      exact .callStop (Option.isNone_iff_eq_none.1 hnone)
    next => cases h
  | stop =>
    simp only at h
    split at h
    next => cases h
    next i phase hstop =>
      split at h
      next hi =>
        cases phase with
        | cancel =>
          cases h
          exact .cancel ⟨i, hi⟩ hstop
        | close =>
          cases h
          exact .close ⟨i, hi⟩ hstop
        | wait =>
          simp only [System.stopWorker] at h
          split at h
          next hexited =>
            cases h
            exact .wait ⟨i, hi⟩ hstop hexited
          next => cases h
      next => cases h
  | takeDone w =>
    simp only at h
    split at h
    next hready =>
      cases h
      exact .takeDone w hready.1 (Option.isNone_iff_eq_none.mp hready.2.1) hready.2.2
    next => cases h
  | takeClosed w =>
    simp only at h
    split at h
    next hready =>
      cases h
      exact .takeClosed w hready.1 (Option.isNone_iff_eq_none.mp hready.2.1) hready.2.2.1
        (List.isEmpty_iff.mp hready.2.2.2)
    next => cases h

/-! ## Queues -/

/-- The queue of a worker after each step of the server. -/
theorem queue_of_step {s s' : State (W + 1) H} {a : Action (W + 1) H}
    (h : step cfg hash s a = some s') (w : Fin (W + 1)) :
    ((s'.workers w).queue = (s.workers w).queue ∧ s.executed <+: s'.executed) ∨
    (∃ hd command any task, a = .dispatch hd command any ∧ target hash command any = w ∧
      task = ⟨s.dispatched.length, hd, command⟩ ∧
      (s'.workers w).queue = (s.workers w).queue ++ [task] ∧ s'.executed = s.executed) ∨
    ∃ e, (s.workers w).queue = e.task :: (s'.workers w).queue ∧ s'.executed = s.executed ++ [e] := by
  cases transition_of_step h with
  | dispatch hd command any _ =>
    by_cases hw : w = target hash command any
    · subst hw
      right; left
      refine ⟨hd, command, any, _, rfl, rfl, rfl, ?_, rfl⟩
      simp [State.send, WorkerState.queue]
    · left
      simp [State.send, Function.update_of_ne hw]
  | take w₀ task rest hcurrent hqueue =>
    left
    refine ⟨?_, List.prefix_rfl⟩
    by_cases hw : w = w₀
    · subst hw
      simp [State.pick, WorkerState.queue, hcurrent, hqueue]
    · simp [State.pick, Function.update_of_ne hw]
  | execute w₀ env task hcurrent =>
    by_cases hw : w = w₀
    · subst hw
      right; right
      refine ⟨⟨task, env, s.reply cfg w env task⟩, ?_, executed_perform ..⟩
      simp [State.perform, WorkerState.queue, hcurrent]
    · left
      refine ⟨?_, ?_⟩
      · simp [State.perform, Function.update_of_ne hw]
      · rw [executed_perform]
        exact List.prefix_append ..
  | receive hd id reply rest _ _ => exact .inl ⟨rfl, List.prefix_rfl⟩

/-- A queued task stays queued until it is executed. -/
theorem queue_or_executed {s s' : State (W + 1) H} {a : Action (W + 1) H}
    (h : step cfg hash s a = some s') {w : Fin (W + 1)} {task : Task H}
    (htask : task ∈ (s.workers w).queue ∨ task ∈ s.executed.map (·.task)) :
    task ∈ (s'.workers w).queue ∨ task ∈ s'.executed.map (·.task) := by
  rcases queue_of_step h w with
    ⟨hqueue, hexecuted⟩ | ⟨_, _, _, t, _, _, _, hqueue, hexecuted⟩ | ⟨e, hqueue, hexecuted⟩
  · rw [hqueue]
    exact htask.imp_right fun hmem => (hexecuted.map _).subset hmem
  · rw [hqueue, hexecuted]
    exact htask.imp_left (List.mem_append_left _)
  · rw [hqueue, List.mem_cons] at htask
    rw [hexecuted, List.map_append, List.mem_append]
    rcases htask with (rfl | hmem) | hmem
    · exact .inr (.inr (List.mem_singleton_self _))
    · exact .inl hmem
    · exact .inr (.inl hmem)

/-- An empty queue is only filled by a dispatch to its worker. -/
theorem queue_eq_nil_of_step {s s' : State (W + 1) H} {a : Action (W + 1) H}
    (h : step cfg hash s a = some s') {w : Fin (W + 1)} (hnil : (s.workers w).queue = [])
    (ha : ∀ hd command any, a = .dispatch hd command any → target hash command any ≠ w) :
    (s'.workers w).queue = [] := by
  rcases queue_of_step h w with ⟨hqueue, _⟩ | ⟨hd, command, any, _, haction, hw, _⟩ | ⟨e, hqueue, _⟩
  · rw [hqueue, hnil]
  · exact absurd hw (ha hd command any haction)
  · rw [hnil] at hqueue
    cases hqueue

/-! ## Orderly runs -/

/-- A handler does not dispatch to a worker whose channel is closed or that has
exited, and a worker's `select` takes `ctx.Done()` only when no task is
queued. -/
def Orderly (hash : Bytes → UInt32) (s : System (W + 1) H) : Act (W + 1) H → Prop
  | .serve (.dispatch _ command any) =>
    (s.life (target hash command any)).closed = false ∧
      (s.life (target hash command any)).exited = false
  | .takeDone w => (s.server.workers w).taskCh = []
  | _ => True

/-- No handler sent on a closed channel, and every task that was put in the
channel of a worker that has exited got its reply. -/
structure NoLoss (s : System W H) : Prop where
  calm : s.panicked = none
  answered : ∀ w task, (w, task) ∈ s.put → (s.life w).exited = true →
    ∃ reply, s.server.sent task.id = [reply]

structure Inv (s : System W H) : Prop where
  ledger : Ledger s.server
  calm : s.panicked = none
  placed : ∀ w task, (w, task) ∈ s.put →
    task ∈ (s.server.workers w).queue ∨ task ∈ s.server.executed.map (·.task)
  drained : ∀ w, (s.life w).exited = true → (s.server.workers w).queue = []

namespace Inv

theorem init : Inv (System.init W H) where
  ledger := .init
  calm := rfl
  placed := by simp [System.init]
  drained := by simp [System.init]

theorem noLoss {s : System W H} (h : Inv s) : NoLoss s where
  calm := h.calm
  answered := by
    intro w task hput hexited
    rcases h.placed w task hput with hmem | hmem
    · rw [h.drained w hexited] at hmem
      cases hmem
    · obtain ⟨e, he, rfl⟩ := List.mem_map.mp hmem
      exact ⟨e.reply, h.ledger.sent_of_executed he⟩

/-- The server moves; an exited worker gets no task. -/
theorem serve {s : System (W + 1) H} (h : Inv s) {a : Action (W + 1) H} {server : State (W + 1) H}
    (hstep : step cfg hash s.server a = some server)
    (ha : ∀ hd command any, a = .dispatch hd command any →
      (s.life (target hash command any)).exited = false)
    {put : List (Fin (W + 1) × Task H)}
    (hput : ∀ w task, (w, task) ∈ put → (w, task) ∈ s.put ∨ task ∈ (server.workers w).queue) :
    Inv { s with server := server, put := put } where
  ledger := h.ledger.step hstep
  calm := h.calm
  placed := by
    intro w task hmem
    rcases hput w task hmem with hold | hnew
    · exact queue_or_executed hstep (h.placed w task hold)
    · exact .inl hnew
  drained := by
    intro w hexited
    refine queue_eq_nil_of_step hstep (h.drained w hexited) ?_
    rintro hd command any haction rfl
    have hlive := ha hd command any haction
    change (s.life _).exited = true at hexited
    rw [hexited] at hlive
    cases hlive

/-- `Stop` moves or a worker exits: the life of one worker changes. -/
theorem changeLife {s : System (W + 1) H} (h : Inv s) (w : Fin (W + 1)) (f : Lifecycle → Lifecycle)
    (hexited : (f (s.life w)).exited = true → (s.server.workers w).queue = [])
    (stop : Option (Nat × StopPhase)) : Inv { s.updateLife w f with stop := stop } where
  ledger := h.ledger
  calm := h.calm
  placed := h.placed
  drained := by
    intro v hv
    change (Function.update s.life w (f (s.life w)) v).exited = true at hv
    by_cases heq : v = w
    · subst heq
      exact hexited (by simpa using hv)
    · rw [Function.update_of_ne heq] at hv
      exact h.drained v hv

/-- A worker with an empty queue returns. -/
theorem exit {s : System (W + 1) H} (h : Inv s) {w : Fin (W + 1)}
    (hcurrent : (s.server.workers w).current = none)
    (hempty : (s.server.workers w).taskCh = []) : Inv (s.exit w) :=
  h.changeLife w (fun l => { l with exited := true })
    (fun _ => by rw [WorkerState.queue, hcurrent, hempty]; rfl) s.stop

theorem step {s s' : System (W + 1) H} {a : Act (W + 1) H} (h : Inv s)
    (horderly : Orderly hash s a) (hstep : stopStep cfg hash s a = some s') : Inv s' := by
  cases transition_of_stopStep hstep with
  | panic hd command any _ hclosed =>
    have hopen := horderly.1
    rw [hclosed] at hopen
    cases hopen
  | dispatch hd command any server hserver =>
    apply h.serve hserver
    · intro hd' command' any' haction
      cases haction
      exact horderly.2
    · intro w task hmem
      rcases List.mem_append.mp hmem with hold | hnew
      · exact .inl hold
      · -- what was put is at the end of the queue
        obtain ⟨rfl, rfl⟩ := Prod.mk.inj (List.mem_singleton.mp hnew)
        right
        cases transition_of_step hserver
        simp [State.send, WorkerState.queue]
  | work a server hserver ha =>
    exact h.serve hserver (fun hd command any haction => absurd haction (ha hd command any))
      fun w task hmem => .inl hmem
  | callStop | wait => exact ⟨h.ledger, h.calm, h.placed, h.drained⟩
  | cancel w | close w => exact h.changeLife w _ (h.drained w) _
  | takeDone w _ hcurrent => exact h.exit hcurrent horderly
  | takeClosed w _ hcurrent _ hempty => exact h.exit hcurrent hempty

end Inv

/-- In every run in which handlers do not dispatch to a worker that is closed
or has exited and no worker leaves its loop through `ctx.Done()` with tasks
queued, no handler sends on a closed channel and no worker that has exited
leaves a task without its reply. -/
theorem noLoss_of_orderly (cfg : Config) (hash : Bytes → UInt32)
    (r : Run (stopStep cfg hash) (System.init (W + 1) H))
    (horderly : ∀ n a, r.action n = some a → Orderly hash (r.state n) a) (n : Nat) :
    NoLoss (r.state n) := by
  have hinv : Inv (r.state n) :=
    r.along .init (fun n a haction hstep h => h.step (horderly n a haction) hstep) n
  exact hinv.noLoss

/-- A configuration for the runs below. -/
def stopCfg : Config := ⟨10, 1, .allkeysRandom, 16, 5⟩

/-- One request, and a shutdown after its reply. -/
def orderlyStop : Run (stopStep stopCfg fun _ => 0) (System.init 1 1) :=
  .ofList [.serve (.dispatch 0 ⟨lit "PING", []⟩ 0), .serve (.take 0), .serve (.execute 0 default),
    .serve (.receive 0), .callStop, .stop, .stop, .takeDone 0, .stop] rfl

theorem noLoss_of_orderly_ping :
    ((orderlyStop.state 9).life 0).exited = true ∧ NoLoss (orderlyStop.state 9) := by
  refine ⟨rfl, noLoss_of_orderly stopCfg (fun _ => 0) orderlyStop ?_ 9⟩
  intro n a haction
  match n with
  | 0 | 1 | 2 | 3 | 4 | 5 | 6 | 7 | 8 =>
    cases haction
    first | rfl | trivial
  | n + 9 => cases haction

/-- A worker takes `ctx.Done()` while a task is queued, and the task gets no
reply. In another order the handler sends on a closed channel. -/
theorem stop_loses_task :
    (∃ s task, runActions (stopStep stopCfg fun _ => 0)
        [.serve (.dispatch 0 ⟨lit "PING", []⟩ 0), .callStop, .stop, .takeDone 0]
        (System.init 1 1) = some s ∧
      (s.life 0).exited = true ∧ (0, task) ∈ s.put ∧ s.server.sent task.id = []) ∧
    ∃ s, runActions (stopStep stopCfg fun _ => 0)
        [.callStop, .stop, .stop, .serve (.dispatch 0 ⟨lit "PING", []⟩ 0)]
        (System.init 1 1) = some s ∧ s.panicked = some 0 := by
  constructor
  · exact ⟨_, ⟨0, 0, ⟨lit "PING", []⟩⟩, rfl, rfl, List.mem_singleton_self _, rfl⟩
  · exact ⟨_, rfl, rfl⟩

end RediGo.Server.Shutdown
