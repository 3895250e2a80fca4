/-
RediGo.Server.Ledger — no task is lost, doubled or overtaken.

`Ledger s` says where the dispatched tasks of a reached state are: each is
pending with one worker or was executed once, its reply channel carried the
replies of its executions and nothing else, and a handler's tasks are
executed in the order in which it dispatched them. Nothing here depends on
what the commands do.

`Transition` lists the steps once; the invariant is proved from it
(`Ledger.step`). `Due` ranks a pending task by the steps its worker still
has to make, which is what makes every task executed in the end
(`executed_of_fair`).
-/
import Mathlib.Algebra.BigOperators.Group.Finset.Piecewise
import Mathlib.Algebra.Order.Group.Multiset
import Mathlib.Tactic.Abel
import RediGo.Lib.Runs
import RediGo.Server.Sharding

namespace RediGo.Server

open RediGo.Go RediGo.HashTable RediGo.Core RediGo.Lib

variable {W H : Nat} {cfg : Config} {hash : Bytes → UInt32}

/-! ## The steps -/

/-- What each action requires and does. -/
inductive Transition (cfg : Config) (hash : Bytes → UInt32) (s : State (W + 1) H) :
    Action (W + 1) H → State (W + 1) H → Prop
  | dispatch (h : Fin H) (command : Command) (any : Fin (W + 1)) (hwaiting : s.waiting h = none) :
    Transition cfg hash s (.dispatch h command any)
      (s.send (target hash command any) ⟨s.dispatched.length, h, command⟩)
  | take (w : Fin (W + 1)) (task : Task H) (rest : List (Task H))
    (hcurrent : (s.workers w).current = none) (hqueue : (s.workers w).taskCh = task :: rest) :
    Transition cfg hash s (.take w) (s.pick w task rest)
  | execute (w : Fin (W + 1)) (env : Env) (task : Task H)
    (hcurrent : (s.workers w).current = some task) :
    Transition cfg hash s (.execute w env) (s.perform cfg w env task)
  | receive (h : Fin H) (id : Nat) (reply : Bytes) (rest : List Bytes)
    (hwaiting : s.waiting h = some id) (hreply : s.replyCh id = reply :: rest) :
    Transition cfg hash s (.receive h) (s.deliver h id reply rest)

theorem transition_of_step {s s' : State (W + 1) H} {a : Action (W + 1) H}
    (h : step cfg hash s a = some s') : Transition cfg hash s a s' := by
  unfold step at h
  cases a with
  | dispatch hd command any =>
    dsimp only at h
    split at h
    · rename_i hfree
      cases h
      exact .dispatch hd command any hfree.1
    · cases h
  | take w =>
    dsimp only at h
    split at h
    · rename_i task rest hcurrent hqueue
      cases h
      exact .take w task rest hcurrent hqueue
    · cases h
  | execute w env =>
    dsimp only at h
    split at h
    · rename_i task hcurrent
      split at h
      · cases h
        exact .execute w env task hcurrent
      · cases h
    · cases h
  | receive hd =>
    dsimp only at h
    split at h
    · cases h
    · rename_i id hwaiting
      split at h
      · cases h
      · rename_i reply rest hreply
        cases h
        exact .receive hd id reply rest hwaiting hreply

/-- Everything that was sent on the reply channel of a task. -/
def State.sent (s : State W H) (id : Nat) : List Bytes :=
  (s.delivered.filter (·.1 = id)).map (·.2) ++ s.replyCh id

/-- The reply of worker `w` to `task`. -/
def State.reply (cfg : Config) (s : State W H) (w : Fin W) (env : Env) (task : Task H) : Bytes :=
  (Worker.execute cfg env task.command ⟨(s.workers w).dictStore, s.ePool⟩).1

theorem executed_perform (cfg : Config) (s : State W H) (w : Fin W) (env : Env) (task : Task H) :
    (s.perform cfg w env task).executed = s.executed ++ [⟨task, env, s.reply cfg w env task⟩] :=
  rfl

theorem sent_perform (cfg : Config) (s : State W H) (w : Fin W) (env : Env) (task : Task H)
    (id : Nat) : (s.perform cfg w env task).sent id =
      s.sent id ++ if id = task.id then [s.reply cfg w env task] else [] := by
  have hreplyCh : (s.perform cfg w env task).replyCh =
      Function.update s.replyCh task.id (s.replyCh task.id ++ [s.reply cfg w env task]) := rfl
  unfold State.sent
  rw [hreplyCh, List.append_assoc]
  split
  · subst id
    rw [Function.update_self]
    rfl
  · rename_i hid
    rw [Function.update_of_ne hid, List.append_nil]
    rfl

/-! ## Pending tasks -/

/-- The tasks a worker has yet to execute, in order. -/
def WorkerState.queue (ws : WorkerState H) : List (Task H) := ws.current.toList ++ ws.taskCh

/-- All tasks that were dispatched and not yet executed. -/
def State.pending (s : State W H) : Multiset (Task H) :=
  ∑ w, ((s.workers w).queue : Multiset (Task H))

theorem mem_pending {s : State W H} {task : Task H} :
    task ∈ s.pending ↔ ∃ w, task ∈ (s.workers w).queue := by
  unfold State.pending
  rw [Multiset.mem_sum]
  simp

/-- Changing one worker changes the pending tasks by what changed in its
queue. -/
theorem sum_queue_update (workers : Fin W → WorkerState H) (w : Fin W) (ws : WorkerState H) :
    (∑ v, ((Function.update workers w ws v).queue : Multiset (Task H))) + (workers w).queue =
      (∑ v, ((workers v).queue : Multiset (Task H))) + ws.queue := by
  have hsum : ∀ f : Fin W → WorkerState H, (∑ v, ((f v).queue : Multiset (Task H))) =
      (f w).queue + ∑ v ∈ Finset.univ.erase w, ((f v).queue : Multiset (Task H)) :=
    fun f => (Finset.add_sum_erase _ _ (Finset.mem_univ w)).symm
  have hrest : (∑ v ∈ Finset.univ.erase w,
        ((Function.update workers w ws v).queue : Multiset (Task H))) =
      ∑ v ∈ Finset.univ.erase w, ((workers v).queue : Multiset (Task H)) := by
    apply Finset.sum_congr rfl
    intro v hv
    rw [Function.update_of_ne (Finset.ne_of_mem_erase hv)]
  rw [hsum, hsum workers, hrest, Function.update_self]
  abel

theorem pending_send (s : State W H) (w : Fin W) (task : Task H) :
    (s.send w task).pending = s.pending + {task} := by
  have hsum := sum_queue_update s.workers w
    { s.workers w with taskCh := (s.workers w).taskCh ++ [task] }
  have hqueue : (WorkerState.queue
      { s.workers w with taskCh := (s.workers w).taskCh ++ [task] } : Multiset (Task H)) =
      (s.workers w).queue + {task} := by
    unfold WorkerState.queue
    rw [← List.append_assoc]
    rfl
  rw [hqueue, ← add_assoc, add_right_comm] at hsum
  exact add_right_cancel hsum

theorem pending_pick {s : State W H} {w : Fin W} {task : Task H} {rest : List (Task H)}
    (hcurrent : (s.workers w).current = none) (hqueue : (s.workers w).taskCh = task :: rest) :
    (s.pick w task rest).pending = s.pending := by
  have hsum := sum_queue_update s.workers w
    { s.workers w with taskCh := rest, current := some task }
  have hsame : (s.workers w).queue = task :: rest := by
    unfold WorkerState.queue
    rw [hcurrent, hqueue]
    rfl
  rw [hsame] at hsum
  exact add_right_cancel hsum

theorem pending_perform {s : State W H} {w : Fin W} {task : Task H} (cfg : Config) (env : Env)
    (hcurrent : (s.workers w).current = some task) :
    s.pending = (s.perform cfg w env task).pending + {task} := by
  have hsum := sum_queue_update s.workers w
    { s.workers w with
      dictStore := (Worker.execute cfg env task.command
        ⟨(s.workers w).dictStore, s.ePool⟩).2.dictStore
      current := none }
  have hhead : ((s.workers w).queue : Multiset (Task H)) = {task} + (s.workers w).taskCh := by
    unfold WorkerState.queue
    rw [hcurrent]
    rfl
  rw [hhead, ← add_assoc] at hsum
  exact (add_right_cancel hsum).symm

/-! ## The ledger -/

/-- The tasks of a handler, in the order of dispatch. -/
def State.dispatchedBy (s : State W H) (h : Fin H) : List (Task H) :=
  s.dispatched.filter (·.handler = h)

/-- The tasks of a handler, in the order of execution. -/
def State.executedBy (s : State W H) (h : Fin H) : List (Task H) :=
  (s.executed.map (·.task)).filter (·.handler = h)

structure Ledger (s : State W H) : Prop where
  accounts : s.pending + (s.executed.map (·.task) : List (Task H)) = s.dispatched
  ids : s.dispatched.map (·.id) = List.range s.dispatched.length
  channels : ∀ id, s.sent id = (s.executed.filter (·.task.id = id)).map (·.reply)
  waits : ∀ task ∈ s.pending, s.waiting task.handler = some task.id
  order : ∀ h, s.dispatchedBy h = s.executedBy h ∨
    ∃ task ∈ s.pending, s.dispatchedBy h = s.executedBy h ++ [task]

namespace Ledger

theorem init : Ledger (State.init W H) := by
  have hpending : (State.init W H).pending = 0 := Finset.sum_eq_zero fun _ _ => rfl
  constructor
  · rw [hpending]
    rfl
  · rfl
  · exact fun _ => rfl
  · intro task htask
    rw [hpending] at htask
    cases htask
  · exact fun _ => .inl rfl

theorem handler_of_order {s : State W H} {h : Fin H} {task : Task H}
    (horder : s.dispatchedBy h = s.executedBy h ++ [task]) : task.handler = h := by
  have hmem : task ∈ s.dispatchedBy h := by
    rw [horder]
    exact List.mem_append_right _ (List.mem_singleton_self task)
  exact of_decide_eq_true (List.mem_filter.1 hmem).2

section

variable {s : State W H} (L : Ledger s)

include L

theorem mem_dispatched {task : Task H} :
    task ∈ s.dispatched ↔ task ∈ s.pending ∨ task ∈ s.executed.map (·.task) := by
  rw [← Multiset.mem_coe, ← L.accounts, Multiset.mem_add, Multiset.mem_coe]

theorem id_lt {task : Task H} (h : task ∈ s.dispatched) : task.id < s.dispatched.length := by
  have hmem := List.mem_map_of_mem (f := Task.id) h
  rwa [L.ids, List.mem_range] at hmem

/-- The id of a task is its own. -/
theorem task_inj {task task' : Task H} (h : task ∈ s.dispatched) (h' : task' ∈ s.dispatched)
    (hid : task.id = task'.id) : task = task' :=
  List.inj_on_of_nodup_map (L.ids ▸ List.nodup_range) h h' hid

theorem nodup_ids :
    (s.pending.map (·.id) + (s.executed.map (·.task.id) : List Nat)).Nodup := by
  have hids : s.pending.map (·.id) + (s.executed.map (·.task.id) : List Nat) =
      (List.range s.dispatched.length : Multiset Nat) := by
    rw [← L.ids, ← Multiset.map_coe _ s.dispatched, ← L.accounts, Multiset.map_add,
      Multiset.map_coe, List.map_map]
    rfl
  rw [hids]
  exact Multiset.coe_nodup.2 List.nodup_range

/-- A pending task has not been executed. -/
theorem pending_ne_executed {task : Task H} (hp : task ∈ s.pending) {e : Execution H}
    (he : e ∈ s.executed) : e.task.id ≠ task.id := by
  intro heq
  have hdisjoint := (Multiset.nodup_add.1 L.nodup_ids).2.2
  rw [Multiset.disjoint_left] at hdisjoint
  apply hdisjoint (Multiset.mem_map_of_mem _ hp)
  rw [Multiset.mem_coe, ← heq]
  exact List.mem_map_of_mem he

theorem executed_once (id : Nat) : (s.executed.filter (·.task.id = id)).length ≤ 1 := by
  have hnodup := Multiset.coe_nodup.1 (Multiset.nodup_add.1 L.nodup_ids).2.1
  have hcount := List.nodup_iff_count_le_one.1 hnodup id
  rw [List.count, List.countP_map, List.countP_eq_length_filter] at hcount
  simpa [Function.comp_def, beq_eq_decide] using hcount

/-- At most one reply is sent on a channel. -/
theorem length_sent_le (id : Nat) : (s.sent id).length ≤ 1 := by
  rw [L.channels, List.length_map]
  exact L.executed_once id

/-- Exactly one reply was sent to an executed task. -/
theorem sent_of_executed {e : Execution H} (he : e ∈ s.executed) :
    s.sent e.task.id = [e.reply] := by
  have hmem : e ∈ s.executed.filter (·.task.id = e.task.id) :=
    List.mem_filter.2 ⟨he, decide_eq_true rfl⟩
  have hlen := L.executed_once e.task.id
  rw [L.channels]
  revert hmem hlen
  generalize s.executed.filter (·.task.id = e.task.id) = executions
  intro hmem hlen
  match executions with
  | [] => cases hmem
  | [e'] =>
    rw [List.mem_singleton.1 hmem, List.map_singleton]
  | _ :: _ :: _ => simp at hlen

/-- A pending task has had no reply. -/
theorem sent_of_pending {task : Task H} (hp : task ∈ s.pending) : s.sent task.id = [] := by
  rw [L.channels, List.map_eq_nil_iff, List.filter_eq_nil_iff]
  intro e he
  simpa using L.pending_ne_executed hp he

theorem executedBy_initial (h : Fin H) : s.executedBy h <+: s.dispatchedBy h := by
  rcases L.order h with heq | ⟨task, -, heq⟩
  · rw [heq]
  · rw [heq]
    exact List.prefix_append _ _

/-! ### Every step keeps the ledger -/

theorem send {w : Fin W} {task : Task H} (hid : task.id = s.dispatched.length)
    (hwaiting : s.waiting task.handler = none) : Ledger (s.send w task) := by
  have hpending := pending_send s w task
  -- the handler does not wait, so none of its tasks is pending
  have hfree : ∀ t ∈ s.pending, t.handler ≠ task.handler := by
    intro t ht heq
    have := L.waits t ht
    rw [heq, hwaiting] at this
    cases this
  constructor
  · rw [hpending, add_right_comm]
    exact congrArg (· + {task}) L.accounts
  · show (s.dispatched ++ [task]).map (·.id) = List.range (s.dispatched ++ [task]).length
    rw [List.map_append, L.ids, List.length_append, List.length_singleton, List.range_succ,
      List.map_singleton, hid]
  · exact L.channels
  · intro t ht
    rw [hpending, Multiset.mem_add, Multiset.mem_singleton] at ht
    show Function.update s.waiting task.handler (some task.id) t.handler = _
    rcases ht with ht | rfl
    · rw [Function.update_of_ne (hfree t ht), L.waits t ht]
    · rw [Function.update_self]
  · intro h
    show (s.dispatched ++ [task]).filter (·.handler = h) = s.executedBy h ∨
      ∃ t ∈ _, (s.dispatched ++ [task]).filter (·.handler = h) = s.executedBy h ++ [t]
    rw [hpending, List.filter_append]
    by_cases hh : task.handler = h
    · have hnew : [task].filter (·.handler = h) = [task] := by simp [hh]
      rw [hnew]
      rcases L.order h with heq | ⟨t, ht, heq⟩
      · exact .inr ⟨task, by simp, congrArg (· ++ [task]) heq⟩
      · exact absurd ((handler_of_order heq).trans hh.symm) (hfree t ht)
    · have hnew : [task].filter (·.handler = h) = [] := by simp [hh]
      rw [hnew, List.append_nil]
      rcases L.order h with heq | ⟨t, ht, heq⟩
      · exact .inl heq
      · exact .inr ⟨t, Multiset.mem_add.2 (.inl ht), heq⟩

theorem pick {w : Fin W} {task : Task H} {rest : List (Task H)}
    (hcurrent : (s.workers w).current = none) (hqueue : (s.workers w).taskCh = task :: rest) :
    Ledger (s.pick w task rest) := by
  have hpending := pending_pick hcurrent hqueue
  constructor
  · rw [hpending]
    exact L.accounts
  · exact L.ids
  · exact L.channels
  · rw [hpending]
    exact L.waits
  · rw [hpending]
    exact L.order

theorem perform {w : Fin W} {task : Task H} (env : Env)
    (hcurrent : (s.workers w).current = some task) : Ledger (s.perform cfg w env task) := by
  have hpending := pending_perform cfg env hcurrent
  have hmem : task ∈ s.pending := by
    rw [hpending]
    simp
  have hsub : ∀ t ∈ (s.perform cfg w env task).pending, t ∈ s.pending := by
    intro t ht
    rw [hpending]
    exact Multiset.mem_add.2 (.inl ht)
  constructor
  · rw [executed_perform, List.map_append, ← Multiset.coe_add, ← add_assoc, add_right_comm]
    refine Eq.trans ?_ L.accounts
    rw [hpending]
    rfl
  · exact L.ids
  · intro id
    rw [executed_perform, sent_perform, List.filter_append, List.map_append, ← L.channels]
    by_cases hid : id = task.id
    · simp [hid]
    · simp [hid, Ne.symm hid]
  · exact fun t ht => L.waits t (hsub t ht)
  · intro h
    unfold State.executedBy
    rw [executed_perform, List.map_append, List.filter_append]
    by_cases hh : task.handler = h
    · have hnew : [task].filter (·.handler = h) = [task] := by simp [hh]
      have hnot : task ∉ s.executedBy h := by
        intro hin
        obtain ⟨e, he, heq⟩ := List.mem_map.1 (List.mem_filter.1 hin).1
        exact L.pending_ne_executed hmem he (congrArg Task.id heq)
      have hin : task ∈ s.dispatchedBy h :=
        List.mem_filter.2 ⟨L.mem_dispatched.2 (.inl hmem), decide_eq_true hh⟩
      rcases L.order h with heq | ⟨t, ht, heq⟩
      · exact absurd (heq ▸ hin) hnot
      · rw [heq, List.mem_append, List.mem_singleton] at hin
        obtain rfl := hin.resolve_left hnot
        exact .inl (heq.trans (congrArg (s.executedBy h ++ ·) hnew.symm))
    · have hnew : [task].filter (·.handler = h) = [] := by simp [hh]
      rw [List.map_singleton, hnew, List.append_nil]
      rcases L.order h with heq | ⟨t, ht, heq⟩
      · exact .inl heq
      · refine .inr ⟨t, ?_, heq⟩
        rw [hpending, Multiset.mem_add, Multiset.mem_singleton] at ht
        refine ht.resolve_right ?_
        rintro rfl
        exact hh (handler_of_order heq)

theorem deliver {h : Fin H} {id : Nat} {reply : Bytes} {rest : List Bytes}
    (hwaiting : s.waiting h = some id) (hreply : s.replyCh id = reply :: rest) :
    Ledger (s.deliver h id reply rest) := by
  have hpending : (s.deliver h id reply rest).pending = s.pending := rfl
  constructor
  · exact L.accounts
  · exact L.ids
  · intro id'
    refine Eq.trans ?_ (L.channels id')
    show ((s.delivered ++ [(id, reply)]).filter (·.1 = id')).map (·.2) ++
      Function.update s.replyCh id rest id' = _ ++ s.replyCh id'
    rw [List.filter_append, List.map_append, List.append_assoc]
    by_cases hid : id' = id
    · subst hid
      rw [Function.update_self, hreply]
      simp
    · rw [Function.update_of_ne hid]
      simp [Ne.symm hid]
  · intro t ht
    rw [hpending] at ht
    -- the task whose reply arrived is no longer pending
    have hne : t.handler ≠ h := by
      rintro rfl
      have hid : t.id = id := Option.some.inj ((L.waits t ht).symm.trans hwaiting)
      have hnone := L.sent_of_pending ht
      unfold State.sent at hnone
      rw [hid, hreply] at hnone
      simp at hnone
    show Function.update s.waiting h none t.handler = _
    rw [Function.update_of_ne hne, L.waits t ht]
  · exact L.order

end

theorem step {s s' : State (W + 1) H} {a : Action (W + 1) H} (L : Ledger s)
    (h : step cfg hash s a = some s') : Ledger s' := by
  cases transition_of_step h with
  | dispatch hd command any hwaiting => exact L.send rfl hwaiting
  | take w task rest hcurrent hqueue => exact L.pick hcurrent hqueue
  | execute w env task hcurrent => exact L.perform env hcurrent
  | receive hd id reply rest hwaiting hreply => exact L.deliver hwaiting hreply

end Ledger

/-! ## Every task is executed in the end -/

/-- The worker that makes the step. -/
def Action.worker : Action W H → Option (Fin W)
  | .take w => some w
  | .execute w _ => some w
  | .dispatch .. => none
  | .receive _ => none

/-- A worker that has a task can make a step: no reply stands in its way. -/
theorem Ledger.enabled {s : State (W + 1) H} (L : Ledger s) {w : Fin (W + 1)}
    (hqueue : (s.workers w).queue ≠ []) :
    ∃ a s', Action.worker a = some w ∧ Server.step cfg hash s a = some s' := by
  cases hcurrent : (s.workers w).current with
  | some task =>
    have hmem : task ∈ s.pending := by
      rw [mem_pending]
      refine ⟨w, ?_⟩
      unfold WorkerState.queue
      rw [hcurrent]
      exact List.mem_cons_self
    have hempty : s.replyCh task.id = [] := (List.append_eq_nil_iff.1 (L.sent_of_pending hmem)).2
    refine ⟨.execute w default, s.perform cfg w default task, rfl, ?_⟩
    unfold Server.step
    dsimp only
    rw [hcurrent]
    exact if_pos hempty
  | none =>
    cases htask : (s.workers w).taskCh with
    | nil =>
      unfold WorkerState.queue at hqueue
      rw [hcurrent, htask] at hqueue
      exact absurd rfl hqueue
    | cons task rest =>
      refine ⟨.take w, s.pick w task rest, rfl, ?_⟩
      unfold Server.step
      dsimp only
      rw [hcurrent, htask]

/-- The steps a worker still has to make before it executes `task`. -/
def WorkerState.Due (task : Task H) (k : Nat) (ws : WorkerState H) : Prop :=
  ∃ before after, ws.queue = before ++ task :: after ∧
    k = 2 * before.length + ws.current.isNone.toNat

theorem due_send {task : Task H} {k : Nat} {ws : WorkerState H} (hdue : ws.Due task k)
    (last : Task H) : WorkerState.Due task k { ws with taskCh := ws.taskCh ++ [last] } := by
  obtain ⟨before, after, hqueue, hk⟩ := hdue
  refine ⟨before, after ++ [last], ?_, hk⟩
  have happend : WorkerState.queue { ws with taskCh := ws.taskCh ++ [last] } =
      ws.queue ++ [last] := (List.append_assoc ..).symm
  rw [happend, hqueue, List.append_assoc, List.cons_append]

theorem due_pick {task head : Task H} {rest : List (Task H)} {k : Nat} {ws : WorkerState H}
    (hdue : ws.Due task k) (hcurrent : ws.current = none) (htask : ws.taskCh = head :: rest) :
    ∃ k' < k, WorkerState.Due task k' { ws with taskCh := rest, current := some head } := by
  obtain ⟨before, after, hqueue, hk⟩ := hdue
  rw [hcurrent] at hk
  have hk : k = 2 * before.length + 1 := hk
  refine ⟨2 * before.length, by omega, before, after, ?_, rfl⟩
  rw [← hqueue]
  unfold WorkerState.queue
  rw [hcurrent, htask]
  rfl

theorem due_perform {task head : Task H} {k : Nat} {ws : WorkerState H} (hdue : ws.Due task k)
    (hcurrent : ws.current = some head) (d : Dict) :
    head = task ∨ ∃ k' < k, WorkerState.Due task k' { ws with dictStore := d, current := none } := by
  obtain ⟨before, after, hqueue, hk⟩ := hdue
  unfold WorkerState.queue at hqueue
  rw [hcurrent] at hqueue hk
  cases before with
  | nil => exact .inl (List.cons_eq_cons.1 hqueue).1
  | cons first before =>
    have hk : k = 2 * (before.length + 1) := hk
    exact .inr ⟨2 * before.length + 1, by omega, before, after, (List.cons_eq_cons.1 hqueue).2, rfl⟩

/-- No step takes a pending task further from its execution, and each step
of its worker brings it closer. -/
theorem due_step {w : Fin (W + 1)} {task : Task H} {k : Nat} {s s' : State (W + 1) H}
    {a : Action (W + 1) H} (hdue : (s.workers w).Due task k) (h : step cfg hash s a = some s') :
    (∃ e ∈ s'.executed, e.task = task) ∨
      ∃ k', k' ≤ k ∧ (a.worker = some w → k' < k) ∧ (s'.workers w).Due task k' := by
  have hother : ∀ {s' : State (W + 1) H}, s'.workers w = s.workers w → a.worker ≠ some w →
      ∃ k', k' ≤ k ∧ (a.worker = some w → k' < k) ∧ (s'.workers w).Due task k' := by
    intro s' hsame hne
    rw [hsame]
    exact ⟨k, Nat.le_refl k, fun h => absurd h hne, hdue⟩
  cases transition_of_step h with
  | dispatch hd command any hwaiting =>
    refine .inr ⟨k, Nat.le_refl k, fun h => (nomatch h), ?_⟩
    show (Function.update s.workers (target hash command any) _ w).Due task k
    by_cases hw : w = target hash command any
    · subst hw
      rw [Function.update_self]
      exact due_send hdue _
    · rw [Function.update_of_ne hw]
      exact hdue
  | take v head rest hcurrent htask =>
    by_cases hw : w = v
    · subst hw
      obtain ⟨k', hk', hdue'⟩ := due_pick hdue hcurrent htask
      refine .inr ⟨k', Nat.le_of_lt hk', fun _ => hk', ?_⟩
      show (Function.update s.workers w _ w).Due task k'
      rw [Function.update_self]
      exact hdue'
    · exact .inr (hother (Function.update_of_ne hw _ _) fun h => hw (Option.some.inj h).symm)
  | execute v env head hcurrent =>
    by_cases hw : w = v
    · subst hw
      rcases due_perform hdue hcurrent _ with rfl | ⟨k', hk', hdue'⟩
      · refine .inl ⟨⟨head, env, s.reply cfg w env head⟩, ?_, rfl⟩
        rw [executed_perform]
        exact List.mem_append_right _ (List.mem_singleton_self _)
      · refine .inr ⟨k', Nat.le_of_lt hk', fun _ => hk', ?_⟩
        show (Function.update s.workers w _ w).Due task k'
        rw [Function.update_self]
        exact hdue'
    · exact .inr (hother (Function.update_of_ne hw _ _) fun h => hw (Option.some.inj h).symm)
  | receive hd id reply rest hwaiting hreply => exact .inr (hother rfl fun h => nomatch h)

/-- The runs of a server with `W + 1` workers and `H` handlers. -/
abbrev ServerRun (cfg : Config) (hash : Bytes → UInt32) (W H : Nat) :=
  Run (step (W := W) (H := H) cfg hash) (State.init (W + 1) H)

/-- No worker is kept from its tasks for ever. -/
def Fair (r : ServerRun cfg hash W H) : Prop :=
  ∀ w n, ∃ m, n ≤ m ∧
    ((r.action m).bind Action.worker = some w ∨ ((r.state m).workers w).queue = [])

theorem ledger_run (r : ServerRun cfg hash W H) (n : Nat) : Ledger (r.state n) :=
  r.invariant (P := fun _ => True) (fun _ => trivial) Ledger.init (fun _ _ L h => L.step h) n

theorem executed_of_fair {r : ServerRun cfg hash W H} (hfair : Fair r) {n : Nat} {task : Task H}
    (htask : task ∈ (r.state n).dispatched) :
    ∃ m, n ≤ m ∧ ∃ e ∈ (r.state m).executed, e.task = task := by
  rcases (ledger_run r n).mem_dispatched.1 htask with hpending | hexecuted
  · obtain ⟨w, hw⟩ := mem_pending.1 hpending
    obtain ⟨before, after, hqueue⟩ := List.append_of_mem hw
    refine r.eventually (Q := fun k s => (s.workers w).Due task k)
      (G := fun s => ∃ e ∈ s.executed, e.task = task)
      (M := fun m => (r.action m).bind Action.worker = some w) ?_ ?_
      ⟨before, after, hqueue, rfl⟩
    · intro m k hdue
      cases haction : r.action m with
      | none =>
        rw [r.stay_eq haction]
        exact .inr ⟨k, Nat.le_refl k, fun h => (nomatch h), hdue⟩
      | some a => exact due_step hdue (r.step_eq haction)
    · intro m
      obtain ⟨m', hm, hmove | hidle⟩ := hfair w m
      · exact ⟨m', hm, .inl hmove⟩
      · refine ⟨m', hm, .inr ?_⟩
        rintro k ⟨before, after, hqueue, -⟩
        rw [hidle] at hqueue
        simp at hqueue
  · obtain ⟨e, he, rfl⟩ := List.mem_map.1 hexecuted
    exact ⟨n, Nat.le_refl n, e, he, rfl⟩

/-- What was executed stays executed. -/
theorem executed_grows (r : ServerRun cfg hash W H) {n m : Nat} (hnm : n ≤ m) :
    (r.state n).executed <+: (r.state m).executed := by
  refine r.stable (G := fun s => (r.state n).executed <+: s.executed) ?_ List.prefix_rfl hnm
  intro s a s' h hstep
  cases transition_of_step hstep with
  | execute w env task hcurrent =>
    rw [executed_perform]
    exact h.trans (List.prefix_append _ _)
  | _ => exact h

/-- In the end a task has its reply, and no other comes after it. -/
theorem replied_of_fair {r : ServerRun cfg hash W H} (hfair : Fair r) {n : Nat} {task : Task H}
    (htask : task ∈ (r.state n).dispatched) :
    ∃ m reply, ∀ m', m ≤ m' → (r.state m').sent task.id = [reply] := by
  obtain ⟨m, -, e, he, rfl⟩ := executed_of_fair hfair htask
  refine ⟨m, e.reply, fun m' hm => ?_⟩
  exact (ledger_run r m').sent_of_executed ((executed_grows r hm).subset he)

end RediGo.Server
