/-
RediGo.Server.ShardingTheorems — sharding is invisible.

In every run in which no worker's dictionary reaches the key limit, the
workers' dictionaries are the parts of the dictionary of one worker that
executes the same commands in the same order (`Mirrors`), so all replies are
its replies. With the ledger this gives the main result,
`sharding_invisible`.

A command reaches the worker of its first argument (`Routed`), or any worker
if it has none; the first kind is local at that key and the second is inert,
which is all that is used of the commands.
-/
import RediGo.Core.WorkerTheorems
import RediGo.Server.Ledger

namespace RediGo.Server

open RediGo.Go RediGo.HashTable RediGo.Core RediGo.Lib

variable {W H : Nat} {cfg : Config} {hash : Bytes → UInt32}

/-! ## Routing -/

/-- A task with arguments is with the worker of its first one. -/
def Routed (hash : Bytes → UInt32) (s : State (W + 1) H) : Prop :=
  ∀ w, ∀ task ∈ (s.workers w).queue, ∀ key args, task.command.Args = key :: args →
    getPartitionID hash key = w

theorem routed_init : Routed hash (State.init (W + 1) H) := by
  intro w task htask
  cases htask

/-- Whatever a step adds to a queue goes where it belongs. -/
theorem Routed.step {s s' : State (W + 1) H} {a : Action (W + 1) H} (hrouted : Routed hash s)
    (h : step cfg hash s a = some s') : Routed hash s' := by
  -- a step replaces the state of one worker at most
  have hupdate : ∀ v ws, (∀ task ∈ ws.queue, ∀ key args, task.command.Args = key :: args →
      getPartitionID hash key = v) → ∀ w, ∀ task ∈ (Function.update s.workers v ws w).queue,
      ∀ key args, task.command.Args = key :: args → getPartitionID hash key = w := by
    intro v ws hws w
    by_cases hw : w = v
    · subst hw
      rw [Function.update_self]
      exact hws
    · rw [Function.update_of_ne hw]
      exact hrouted w
  cases transition_of_step h with
  | dispatch hd command any hwaiting =>
    refine hupdate _ _ ?_
    intro task htask key args hargs
    have htask : task ∈ (s.workers (target hash command any)).current.toList ++
        ((s.workers (target hash command any)).taskCh ++ [⟨s.dispatched.length, hd, command⟩]) :=
      htask
    rw [← List.append_assoc, List.mem_append, List.mem_singleton] at htask
    rcases htask with htask | rfl
    · exact hrouted _ task htask key args hargs
    · unfold target
      rw [hargs]
  | take v head rest hcurrent htask =>
    refine hupdate _ _ ?_
    intro task hmem
    refine hrouted v task ?_
    unfold WorkerState.queue
    rw [hcurrent, htask]
    exact hmem
  | execute v env head hcurrent =>
    refine hupdate _ _ ?_
    intro task hmem
    exact hrouted v task (List.mem_append_right _ hmem)
  | receive hd id reply rest hwaiting hreply => exact hrouted

/-! ## One command on one shard -/

/-- The key space worker `w` sees. -/
def State.keyspace (s : State W H) (w : Fin W) : Keyspace := ⟨(s.workers w).dictStore, s.ePool⟩

/-- The pool is shared, and the cells do not depend on it. -/
theorem cell_perform (s : State W H) (w : Fin W) (env : Env) (task : Task H) (v : Fin W)
    (k : Bytes) : ((s.perform cfg w env task).keyspace v).cell k =
      (Function.update s.keyspace w (Worker.execute cfg env task.command (s.keyspace w)).2 v).cell
        k := by
  have hworkers : (s.perform cfg w env task).workers = Function.update s.workers w
      { s.workers w with
        dictStore := (Worker.execute cfg env task.command (s.keyspace w)).2.dictStore
        current := none } := rfl
  unfold Keyspace.cell State.keyspace
  dsimp only
  rw [hworkers]
  by_cases hv : v = w
  · subst hv
    rw [Function.update_self, Function.update_self]
    rfl
  · rw [Function.update_of_ne hv, Function.update_of_ne hv]

section

variable {shards : Fin (W + 1) → Keyspace} {w : Fin (W + 1)} {command : Command}
  (hroute : ∀ key args, command.Args = key :: args → getPartitionID hash key = w)
  (hroom : (shards w).HasRoom cfg)

include hroute hroom

theorem confined_execute (env : Env)
    (h : Confined Keyspace.cell (getPartitionID hash) (none, none) shards) :
    Confined Keyspace.cell (getPartitionID hash) (none, none)
      (Function.update shards w (Worker.execute cfg env command (shards w)).2) := by
  cases hargs : command.Args with
  | nil => exact h.inert (Worker.execute_inert hargs) w
  | cons key args =>
    obtain rfl := hroute key args hargs
    exact h.localAt (Worker.execute_localAt hargs) hroom

/-- A worker and the single worker, which may have another limit, give the
same reply and stay in step. -/
theorem split_execute (env : Env) {whole : Keyspace} {cfg' : Config} (hwhole : whole.HasRoom cfg')
    (h : Split Keyspace.cell (getPartitionID hash) (none, none) shards whole) :
    (Worker.execute cfg env command (shards w)).1 = (Worker.execute cfg' env command whole).1 ∧
      Split Keyspace.cell (getPartitionID hash) (none, none)
        (Function.update shards w (Worker.execute cfg env command (shards w)).2)
        (Worker.execute cfg' env command whole).2 := by
  -- a limit that leaves room to both
  let wide : Config := { cfg with maxKeyNumber := max cfg.maxKeyNumber cfg'.maxKeyNumber }
  have hroomWide : (shards w).HasRoom wide := lt_of_lt_of_le hroom (le_max_left _ _)
  have hwholeWide : whole.HasRoom wide := lt_of_lt_of_le hwhole (le_max_right _ _)
  rw [Worker.execute_congr hroom hroomWide, Worker.execute_congr hwhole hwholeWide]
  cases hargs : command.Args with
  | nil => exact h.inert (Worker.execute_inert hargs) w
  | cons key args =>
    obtain rfl := hroute key args hargs
    exact h.localAt (Worker.execute_localAt hargs) hroomWide hwholeWide

end

/-! ## The single worker -/

/-- The dictionary of the single worker stays below its limit. -/
def Within (cfg : Config) : List (Command × Env) → Keyspace → Prop
  | [], ks => ks.HasRoom cfg
  | (command, env) :: rest, ks =>
    ks.HasRoom cfg ∧ Within cfg rest (Worker.execute cfg env command ks).2

instance decidableWithin (cfg : Config) :
    (history : List (Command × Env)) → (ks : Keyspace) → Decidable (Within cfg history ks)
  | [], ks => inferInstanceAs (Decidable ((ks.dictStore.len : Int) < cfg.maxKeyNumber))
  | (command, env) :: rest, ks =>
    have := decidableWithin cfg rest (Worker.execute cfg env command ks).2
    inferInstanceAs (Decidable ((ks.dictStore.len : Int) < cfg.maxKeyNumber ∧
      Within cfg rest (Worker.execute cfg env command ks).2))

theorem single_append (cfg : Config) (history : List (Command × Env)) (command : Command)
    (env : Env) (ks : Keyspace) :
    single cfg (history ++ [(command, env)]) ks =
      ((single cfg history ks).1 ++
          [(Worker.execute cfg env command (single cfg history ks).2).1],
        (Worker.execute cfg env command (single cfg history ks).2).2) := by
  induction history generalizing ks with
  | nil => rfl
  | cons first history ih =>
    obtain ⟨c, e⟩ := first
    rw [List.cons_append]
    unfold single
    dsimp only
    rw [ih]
    rfl

theorem Within.hasRoom {history : List (Command × Env)} {ks : Keyspace}
    (h : Within cfg history ks) : (single cfg history ks).2.HasRoom cfg := by
  induction history generalizing ks with
  | nil => exact h
  | cons first history ih => exact ih h.2

theorem Within.init {history : List (Command × Env)} {last : Command × Env} {ks : Keyspace}
    (h : Within cfg (history ++ [last]) ks) : Within cfg history ks := by
  induction history generalizing ks with
  | nil => exact h.1
  | cons first history ih => exact ⟨h.1, ih h.2⟩

/-! ## The workers together are the single worker -/

/-- No worker's dictionary has reached the key limit. -/
def State.HasRoom (cfg : Config) (s : State W H) : Prop := ∀ w, (s.keyspace w).HasRoom cfg

/-- The replies so far are those of the single worker, whose dictionary the
workers hold in parts. -/
def Mirrors (cfg : Config) (hash : Bytes → UInt32) (s : State (W + 1) H) : Prop :=
  Within cfg s.history .init →
    (single cfg s.history .init).1 = s.executed.map (·.reply) ∧
      Split Keyspace.cell (getPartitionID hash) (none, none) s.keyspace
        (single cfg s.history .init).2

structure Sharded (cfg : Config) (hash : Bytes → UInt32) (s : State (W + 1) H) : Prop where
  routed : Routed hash s
  confined : Confined Keyspace.cell (getPartitionID hash) (none, none) s.keyspace
  mirrors : ∀ limit, Mirrors { cfg with maxKeyNumber := limit } hash s

theorem sharded_init : Sharded cfg hash (State.init (W + 1) H) := by
  constructor
  · exact routed_init
  · exact fun _ _ _ => rfl
  · intro limit _
    exact ⟨rfl, fun w k => (ite_self _).symm⟩

theorem mirrors_perform {s : State (W + 1) H} {w : Fin (W + 1)} {task : Task H} {env : Env}
    {cfg' : Config} (hmirrors : Mirrors cfg' hash s)
    (hroute : ∀ key args, task.command.Args = key :: args → getPartitionID hash key = w)
    (hroom : (s.keyspace w).HasRoom cfg) : Mirrors cfg' hash (s.perform cfg w env task) := by
  intro hwithin
  have hhistory : (s.perform cfg w env task).history = s.history ++ [(task.command, env)] := by
    unfold State.history
    rw [executed_perform, List.map_append]
    rfl
  rw [hhistory] at hwithin ⊢
  obtain ⟨hreplies, hsplit⟩ := hmirrors hwithin.init
  obtain ⟨hreply, hsplit'⟩ := split_execute hroute hroom env hwithin.init.hasRoom hsplit
  rw [single_append, executed_perform, List.map_append, hreplies, ← hreply]
  refine ⟨rfl, ?_⟩
  intro v k
  rw [cell_perform]
  exact hsplit' v k

/-- A step that executes nothing changes no dictionary. -/
theorem Sharded.congr {s s' : State (W + 1) H} (h : Sharded cfg hash s) (hrouted : Routed hash s')
    (hkeyspace : s'.keyspace = s.keyspace) (hexecuted : s'.executed = s.executed) :
    Sharded cfg hash s' := by
  refine ⟨hrouted, hkeyspace ▸ h.confined, ?_⟩
  intro limit
  unfold Mirrors State.history
  rw [hkeyspace, hexecuted]
  exact h.mirrors limit

theorem keyspace_update (s : State W H) (w : Fin W) {ws : WorkerState H}
    (h : ws.dictStore = (s.workers w).dictStore) :
    (fun v => (⟨(Function.update s.workers w ws v).dictStore, s.ePool⟩ : Keyspace)) =
      s.keyspace := by
  funext v
  unfold State.keyspace
  by_cases hv : v = w
  · rw [hv, Function.update_self, h]
  · rw [Function.update_of_ne hv]

theorem Sharded.step {s s' : State (W + 1) H} {a : Action (W + 1) H} (h : Sharded cfg hash s)
    (hroom : s.HasRoom cfg) (hstep : step cfg hash s a = some s') : Sharded cfg hash s' := by
  have hrouted := h.routed.step hstep
  cases transition_of_step hstep with
  | execute w env task hcurrent =>
    have hroute := h.routed w task (by
      unfold WorkerState.queue
      rw [hcurrent]
      exact List.mem_cons_self)
    refine ⟨hrouted, ?_, fun limit => mirrors_perform (h.mirrors limit) hroute (hroom w)⟩
    intro v k hk
    rw [cell_perform]
    exact confined_execute hroute (hroom w) env h.confined v k hk
  | dispatch hd command any hwaiting => exact h.congr hrouted (keyspace_update s _ rfl) rfl
  | take w task rest hcurrent htask => exact h.congr hrouted (keyspace_update s _ rfl) rfl
  | receive hd id reply rest hwaiting hreply => exact h.congr hrouted rfl rfl

theorem sharded_run (r : ServerRun cfg hash W H) (hroom : ∀ n, (r.state n).HasRoom cfg) (n : Nat) :
    Sharded cfg hash (r.state n) :=
  r.invariant hroom sharded_init (fun hroom _ h hstep => h.step hroom hstep) n

/-! ## The main result -/

/-- In every run of any number of workers and handlers in which no worker's
dictionary reaches the key limit:

* a key, or its expiry, is stored only with the worker of its partition;
* a reply channel never carries more than one reply, a worker with a task is
  never blocked, and if no worker is kept from its tasks for ever then each
  task in the end has exactly one reply;
* the replies, in the order of execution, are those of one worker with one
  dictionary that stays below its own limit;
* that order respects the order in which each handler dispatched its tasks,
  and what was executed stays executed. -/
theorem sharding_invisible (cfg : Config) (hash : Bytes → UInt32) (r : ServerRun cfg hash W H)
    (hroom : ∀ n w, (((r.state n).workers w).dictStore.len : Int) < cfg.maxKeyNumber) :
    (∀ n w k, k ∈ ((r.state n).workers w).dictStore.dictStore ∨
        k ∈ ((r.state n).workers w).dictStore.expiredDictStore → w = getPartitionID hash k) ∧
      (∀ n id, ((r.state n).sent id).length ≤ 1) ∧
      (∀ n w, ((r.state n).workers w).queue ≠ [] → ∃ a s',
        Action.worker a = some w ∧ step cfg hash (r.state n) a = some s') ∧
      (Fair r → ∀ n, ∀ task ∈ (r.state n).dispatched, ∃ m reply, ∀ m', m ≤ m' →
        (r.state m').sent task.id = [reply]) ∧
      (∀ n, ∀ e ∈ (r.state n).executed, (r.state n).sent e.task.id = [e.reply]) ∧
      (∀ n limit, Within { cfg with maxKeyNumber := limit } (r.state n).history .init →
        (single { cfg with maxKeyNumber := limit } (r.state n).history .init).1 =
          (r.state n).executed.map (·.reply)) ∧
      (∀ n h, (r.state n).executedBy h <+: (r.state n).dispatchedBy h) ∧
      (∀ n m, n ≤ m → (r.state n).executed <+: (r.state m).executed) := by
  refine ⟨?_, fun n => (ledger_run r n).length_sent_le,
    fun n _ hqueue => (ledger_run r n).enabled hqueue,
    fun hfair _ _ htask => replied_of_fair hfair htask,
    fun n _ he => (ledger_run r n).sent_of_executed he, ?_,
    fun n => (ledger_run r n).executedBy_initial, fun _ _ => executed_grows r⟩
  · intro n w k hk
    by_contra hne
    have hblank := (sharded_run r hroom n).confined w k (Ne.symm hne)
    obtain ⟨hstored, hexpiry⟩ := Keyspace.notMem_of_cell hblank
    exact hk.elim hstored hexpiry
  · intro n limit hwithin
    exact ((sharded_run r hroom n).mirrors limit hwithin).1

/-- Two handlers and two workers; keys are placed by their length. -/
def twoWorkers : ServerRun ⟨10, 1, .allkeysRandom, 16, 5⟩ (fun key => .ofNat key.length) 1 2 :=
  Run.ofList [.dispatch 0 ⟨lit "SET", [lit "a", lit "x"]⟩ 0, .dispatch 1 ⟨lit "GET", [lit "bb"]⟩ 0,
    .take 1, .take 0, .execute 0 default, .execute 1 default, .receive 1,
    .dispatch 1 ⟨lit "GET", [lit "a"]⟩ 0, .receive 0, .dispatch 0 ⟨lit "PING", []⟩ 1, .take 1,
    .execute 1 default, .take 1, .execute 1 default, .receive 0, .receive 1] (by decide +kernel)

theorem sharding_invisible_twoWorkers :
    (∀ n w, (((twoWorkers.state n).workers w).dictStore.len : Int) < 10) ∧ Fair twoWorkers ∧
      (single ⟨10, 1, .allkeysRandom, 16, 5⟩ (twoWorkers.state 16).history .init).1 =
        (twoWorkers.state 16).executed.map (·.reply) ∧
      ∀ task ∈ (twoWorkers.state 16).dispatched, ∃ m reply, ∀ m', m ≤ m' →
        (twoWorkers.state m').sent task.id = [reply] := by
  have hmin : ∀ n, twoWorkers.state n = twoWorkers.state (min n 16) :=
    Run.ofList_state_min _ _
  have hroom : ∀ n w, (((twoWorkers.state n).workers w).dictStore.len : Int) < 10 := by
    have hfirst : ∀ n < 17, ∀ w, (((twoWorkers.state n).workers w).dictStore.len : Int) < 10 := by
      decide +kernel
    intro n
    rw [hmin]
    exact hfirst _ (by omega)
  have hfair : Fair twoWorkers := by
    have hidle : ∀ w, ((twoWorkers.state 16).workers w).queue.length = 0 := by decide +kernel
    intro w n
    refine ⟨max n 16, Nat.le_max_left _ _, .inr ?_⟩
    rw [hmin, Nat.min_eq_right (Nat.le_max_right _ _)]
    exact List.eq_nil_of_length_eq_zero (hidle w)
  obtain ⟨-, -, -, hreplied, -, hsingle, -, -⟩ := sharding_invisible _ _ twoWorkers hroom
  exact ⟨hroom, hfair, hsingle 16 10 (by decide +kernel), hreplied hfair 16⟩

end RediGo.Server
