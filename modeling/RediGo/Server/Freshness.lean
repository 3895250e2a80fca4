/-
RediGo.Server.Freshness — no interleaving serves a stale value.

`sharding_invisible` compares the workers with a single one as long as no
dictionary reaches the key limit. Here there is no such assumption: the
workers may evict by any policy and share the eviction pool, and the clocks
they read need not agree. What is left is what a cache owes its clients: the
reply to `GET key` is nil or the value of the last `SET key` that was
dispatched before it, by whichever handler (`reads_last_dispatched`).

The order is that of dispatch and not of execution because the commands on
one key all go through the channel of one worker: those executed so far are
an initial part of those dispatched (`Orderly.order`).
-/
import RediGo.Core.CacheTheorems
import RediGo.Server.ShardingTheorems

namespace RediGo.Server

open RediGo.Go RediGo.HashTable RediGo.Core RediGo.Lib

/-! ## What a command stores -/

/-- The key and the value that a worker stores for a command. -/
def stores (command : Command) : Option (Bytes × Bytes) :=
  if command.Cmd = lit "SET" then
    match Worker.parseSET command.Args with
    | .ok (key, value, _) => some (key, value)
    | .error _ => none
  else none

theorem head_of_stores {command : Command} {key value : Bytes}
    (h : stores command = some (key, value)) : command.Args.head? = some key := by
  unfold stores at h
  split at h
  · split at h
    · rename_i hparse
      cases h
      exact Worker.parseSET_key hparse
    · cases h
  · cases h

/-- The value that the last of the commands to store `key` stored. -/
def lastSet (commands : List Command) (key : Bytes) : Option Bytes :=
  commands.foldl (fun last command =>
    match stores command with
    | some (k, value) => if k = key then some value else last
    | none => last) none

theorem lastSet_append_of_stores {command : Command} {key value : Bytes}
    (h : stores command = some (key, value)) (commands : List Command) :
    lastSet (commands ++ [command]) key = some value := by
  simp [lastSet, h]

theorem lastSet_append_of_not {command : Command} {key : Bytes}
    (h : ∀ value, stores command ≠ some (key, value)) (commands : List Command) :
    lastSet (commands ++ [command]) key = lastSet commands key := by
  unfold lastSet
  rw [List.foldl_append, List.foldl_cons, List.foldl_nil]
  split
  · rename_i k value hstores
    refine if_neg fun hk => ?_
    subst hk
    exact h value hstores
  · rfl

/-- Commands on other keys do not matter. -/
theorem lastSet_filter (commands : List Command) (key : Bytes) :
    lastSet (commands.filter fun c => decide (c.Args.head? = some key)) key =
      lastSet commands key := by
  induction commands using List.reverseRecOn with
  | nil => rfl
  | append_singleton commands command ih =>
    rw [List.filter_append]
    by_cases hon : command.Args.head? = some key
    · have hkeep : [command].filter (fun c => decide (c.Args.head? = some key)) = [command] := by
        simp [hon]
      rw [hkeep]
      by_cases hstores : ∃ value, stores command = some (key, value)
      · obtain ⟨value, hstores⟩ := hstores
        rw [lastSet_append_of_stores hstores, lastSet_append_of_stores hstores]
      · rw [not_exists] at hstores
        rw [lastSet_append_of_not hstores, lastSet_append_of_not hstores, ih]
    · have hdrop : [command].filter (fun c => decide (c.Args.head? = some key)) = [] := by
        simp [hon]
      rw [hdrop, List.append_nil, ih]
      exact (lastSet_append_of_not (fun value h => hon (head_of_stores h)) commands).symm

/-! ## What a worker holds -/

variable {cfg : Config} {env : Env} {ks : Keyspace} {key k : Bytes}

theorem lookup_get {d : Dict} {obj : Obj} (h : (d.get env key).2.dictStore.lookup k = some obj) :
    ∃ old, d.dictStore.lookup k = some old ∧ old.value = obj.value := by
  cases hobj : d.dictStore.lookup key with
  | none =>
    rw [Dict.get_of_none hobj] at h
    exact ⟨obj, h, rfl⟩
  | some stored =>
    have htouch : ∀ {obj}, (d.touch env key stored).dictStore.lookup k = some obj →
        ∃ old, d.dictStore.lookup k = some old ∧ old.value = obj.value := by
      intro obj hlookup
      by_cases hk : k = key
      · subst hk
        have hself : (d.touch env k stored).dictStore.lookup k = some (Dict.touched env stored) :=
          AList.lookup_insert _
        rw [hself] at hlookup
        cases hlookup
        exact ⟨stored, hobj, rfl⟩
      · have hother : (d.touch env key stored).dictStore.lookup k = d.dictStore.lookup k :=
          AList.lookup_insert_ne hk
        exact ⟨obj, hother ▸ hlookup, rfl⟩
    rw [Dict.get_of_some hobj] at h
    split at h
    · have hdel : ((d.touch env key stored).delAll [key]).dictStore.lookup k = some obj := h
      rw [Dict.lookup_delAll] at hdel
      split at hdel
      · cases hdel
      · exact htouch hdel
    · exact htouch h

theorem lookup_setKey_cases {value : Bytes} {ttl : Int64} {obj : Obj}
    (h : (setKey cfg env ks key value ttl).dictStore.dictStore.lookup k = some obj) :
    (k = key ∧ obj.value = value) ∨ (k ≠ key ∧ ks.dictStore.dictStore.lookup k = some obj) := by
  rw [setKey_eq_delAll] at h
  by_cases hk : k = key
  · subst hk
    rw [show (Dict.put _ k _).dictStore.lookup k = _ from AList.lookup_insert _] at h
    cases h
    exact .inl ⟨rfl, rfl⟩
  · rw [show (Dict.put _ key _).dictStore.lookup k = _ from AList.lookup_insert_ne hk,
      Dict.lookup_delAll, newObj_dictStore] at h
    split at h
    · cases h
    · exact .inr ⟨hk, h⟩

/-- A value that is stored after a command was stored by it, or before it and
not by it. -/
theorem lookup_execute {command : Command} {obj : Obj}
    (h : (Worker.execute cfg env command ks).2.dictStore.dictStore.lookup k = some obj) :
    stores command = some (k, obj.value) ∨ ((∀ value, stores command ≠ some (k, value)) ∧
      ∃ old, ks.dictStore.dictStore.lookup k = some old ∧ old.value = obj.value) := by
  unfold Worker.execute at h
  unfold stores
  by_cases hset : command.Cmd = lit "SET"
  · rw [if_pos hset] at h ⊢
    unfold Worker.cmdSET at h
    rcases hparse : Worker.parseSET command.Args with reply | ⟨key, value, ttlSec⟩
    · rw [hparse] at h
      exact .inr ⟨by simp, obj, h, rfl⟩
    · rw [hparse] at h
      rcases lookup_setKey_cases h with ⟨rfl, rfl⟩ | ⟨hk, hold⟩
      · exact .inl rfl
      · refine .inr ⟨fun value' heq => ?_, obj, hold, rfl⟩
        cases heq
        exact hk rfl
  · rw [if_neg hset] at h ⊢
    refine .inr ⟨by simp, ?_⟩
    split at h
    · generalize command.Args = args at h
      match args with
      | [] => exact ⟨obj, h, rfl⟩
      | _ :: _ :: _ => exact ⟨obj, h, rfl⟩
      | [key] =>
        have hsecond : (Worker.cmdGET env [key] ks).2 =
            { ks with dictStore := (ks.dictStore.get env key).2 } := cmdGET_snd env key ks
        rw [hsecond] at h
        exact lookup_get h
    · split at h <;> exact ⟨obj, h, rfl⟩

/-- A `GET` that finds its key replies with the stored value. -/
theorem reply_get {command : Command} (hcmd : command.Cmd = lit "GET")
    (hargs : command.Args = [key]) :
    (Worker.execute cfg env command ks).1 = RespNil ∨
      ∃ obj, ks.dictStore.dictStore.lookup key = some obj ∧
        (Worker.execute cfg env command ks).1 = encode (.str obj.value) false := by
  have hexecute : Worker.execute cfg env command ks = Worker.cmdGET env [key] ks := by
    unfold Worker.execute
    rw [hcmd, hargs]
    rfl
  rw [hexecute]
  unfold Worker.cmdGET
  dsimp only
  cases hobj : ks.dictStore.dictStore.lookup key with
  | none =>
    rw [Dict.get_of_none hobj]
    exact .inl rfl
  | some obj =>
    rw [Dict.get_of_some hobj]
    by_cases hexpired : ks.dictStore.hasExpired env key = true
    · rw [if_pos hexpired]
      exact .inl rfl
    · rw [if_neg hexpired]
      dsimp only
      split
      · exact .inl rfl
      · exact .inr ⟨obj, rfl, rfl⟩

/-! ## The order of the commands on one key -/

variable {W H : Nat} {hash : Bytes → UInt32}

/-- The task is on `key`. -/
def On (key : Bytes) (task : Task H) : Bool := decide (task.command.Args.head? = some key)

/-- The last value depends on the tasks on the key only. -/
theorem lastSet_congr {tasks tasks' : List (Task H)}
    (h : tasks.filter (On key) = tasks'.filter (On key)) :
    lastSet (tasks.map (·.command)) key = lastSet (tasks'.map (·.command)) key := by
  have hfilter : ∀ l : List (Task H),
      (l.map (·.command)).filter (fun c => decide (c.Args.head? = some key)) =
        (l.filter (On key)).map (·.command) := fun l => List.filter_map
  rw [← lastSet_filter, hfilter, h, ← hfilter, lastSet_filter]

/-- The tasks that were executed, in the order of execution. -/
def State.executedTasks (s : State W H) : List (Task H) := s.executed.map (·.task)

/-- The commands on one key go through one channel. -/
def InOrder (hash : Bytes → UInt32) (s : State (W + 1) H) : Prop :=
  ∀ key, s.dispatched.filter (On key) = s.executedTasks.filter (On key) ++
    (s.workers (getPartitionID hash key)).queue.filter (On key)

/-- The tasks dispatched before a task that is on `key`, as far as they are on
`key`, are those that were executed before it. -/
theorem InOrder.filter_take {s : State (W + 1) H} (h : InOrder hash s) (L : Ledger s)
    {task : Task H} {rest : List (Task H)}
    (hqueue : (s.workers (getPartitionID hash key)).queue = task :: rest)
    (hon : On key task = true) :
    (s.dispatched.take task.id).filter (On key) = s.executedTasks.filter (On key) := by
  have hpending : task ∈ s.pending :=
    mem_pending.2 ⟨_, hqueue ▸ List.mem_cons_self⟩
  -- the id of a task is its place
  have hplace : ∀ i (t : Task H), s.dispatched[i]? = some t → t.id = i := by
    intro i t ht
    have hmap : (s.dispatched.map (·.id))[i]? = some t.id := by rw [List.getElem?_map, ht]; rfl
    rw [L.ids, List.getElem?_range (List.getElem?_eq_some_iff.1 ht).1] at hmap
    exact (Option.some.inj hmap).symm
  obtain ⟨i, hi⟩ := List.getElem?_of_mem (L.mem_dispatched.2 (.inl hpending))
  have hid : task.id = i := hplace i task hi
  subst hid
  obtain ⟨hlt, hget⟩ := List.getElem?_eq_some_iff.1 hi
  have hsplit : s.dispatched = s.dispatched.take task.id ++
      task :: s.dispatched.drop (task.id + 1) := by
    have hdrop := List.drop_eq_getElem_cons hlt
    rw [hget] at hdrop
    rw [← hdrop, List.take_append_drop]
  have horder := h key
  rw [hsplit, hqueue, List.filter_append, List.filter_cons_of_pos hon,
    List.filter_cons_of_pos hon] at horder
  have hnotEarlier : task ∉ (s.dispatched.take task.id).filter (On key) := by
    intro hin
    obtain ⟨j, hj⟩ := List.getElem?_of_mem (List.mem_filter.1 hin).1
    rw [List.getElem?_take] at hj
    split at hj
    · have := hplace j task hj
      omega
    · cases hj
  have hnotLater : task ∉ (s.dispatched.drop (task.id + 1)).filter (On key) := by
    intro hin
    obtain ⟨j, hj⟩ := List.getElem?_of_mem (List.mem_filter.1 hin).1
    rw [List.getElem?_drop] at hj
    have := hplace _ task hj
    omega
  exact ((List.append_cons_inj_of_notMem hnotEarlier hnotLater).1 horder).1

/-- The order survives every step. -/
theorem InOrder.step {s s' : State (W + 1) H} {a : Action (W + 1) H} (h : InOrder hash s)
    (hrouted : Routed hash s) (hstep : step cfg hash s a = some s') : InOrder hash s' := by
  intro key
  have horder := h key
  cases transition_of_step hstep with
  | dispatch hd command any hwaiting =>
    show (s.dispatched ++ [_]).filter (On key) = s.executedTasks.filter (On key) ++
      (Function.update s.workers (target hash command any) _ (getPartitionID hash key)).queue.filter
        (On key)
    rw [List.filter_append, horder, List.append_assoc]
    congr 1
    by_cases htarget : getPartitionID hash key = target hash command any
    · rw [htarget, Function.update_self]
      unfold WorkerState.queue
      rw [← List.filter_append, List.append_assoc]
    · -- a command that goes elsewhere is not on the key
      have hoff : On key ⟨s.dispatched.length, hd, command⟩ = false := by
        refine decide_eq_false fun hargs => htarget ?_
        obtain ⟨args, hlist⟩ := List.head?_eq_some_iff.1 hargs
        unfold target
        rw [hlist]
      rw [Function.update_of_ne htarget, List.filter_singleton, hoff]
      exact List.append_nil _
  | take w task rest hcurrent hqueue =>
    refine horder.trans (congrArg (s.executedTasks.filter (On key) ++ ·) ?_)
    show _ = (Function.update s.workers w _ (getPartitionID hash key)).queue.filter (On key)
    by_cases hw : getPartitionID hash key = w
    · rw [hw, Function.update_self]
      unfold WorkerState.queue
      rw [hcurrent, hqueue]
      rfl
    · rw [Function.update_of_ne hw]
  | execute w env task hcurrent =>
    have hhead : (s.workers w).queue = task :: (s.workers w).taskCh := by
      unfold WorkerState.queue
      rw [hcurrent]
      rfl
    have hexecuted : (s.perform cfg w env task).executedTasks = s.executedTasks ++ [task] := by
      unfold State.executedTasks
      rw [executed_perform, List.map_append]
      rfl
    show s.dispatched.filter (On key) = _ ++
      (Function.update s.workers w _ (getPartitionID hash key)).queue.filter (On key)
    rw [hexecuted, List.filter_append, horder, List.append_assoc]
    congr 1
    by_cases hw : getPartitionID hash key = w
    · rw [hw, Function.update_self, hhead, ← List.filter_append]
      rfl
    · -- the worker of another key does not execute a command on this one
      have hoff : On key task = false := by
        refine decide_eq_false fun hargs => hw ?_
        obtain ⟨args, hlist⟩ := List.head?_eq_some_iff.1 hargs
        exact hrouted w task (hhead ▸ List.mem_cons_self) key args hlist
      rw [Function.update_of_ne hw, List.filter_singleton, hoff]
      rfl
  | receive hd id reply rest hwaiting hreply => exact horder

/-! ## The values -/

/-- A key is stored by the worker of its partition only, with the value that
the last executed `SET` gave it. -/
structure Fresh (hash : Bytes → UInt32) (s : State (W + 1) H) : Prop where
  placed : ∀ w k obj, (s.workers w).dictStore.dictStore.lookup k = some obj →
    getPartitionID hash k = w
  last : ∀ w k obj, (s.workers w).dictStore.dictStore.lookup k = some obj →
    lastSet (s.executedTasks.map (·.command)) k = some obj.value

theorem fresh_init : Fresh hash (State.init (W + 1) H) := by
  have hnone : ∀ w k, ((State.init (W + 1) H).workers w).dictStore.dictStore.lookup k = none :=
    fun w k => AList.lookup_empty k
  constructor
  · intro w k obj h
    cases (hnone w k).symm.trans h
  · intro w k obj h
    cases (hnone w k).symm.trans h

/-- A step that executes nothing changes no dictionary. -/
theorem Fresh.congr {s s' : State (W + 1) H} (h : Fresh hash s)
    (hdict : ∀ w, (s'.workers w).dictStore = (s.workers w).dictStore)
    (hexecuted : s'.executed = s.executed) : Fresh hash s' := by
  constructor
  · intro w k obj hobj
    rw [hdict] at hobj
    exact h.placed w k obj hobj
  · intro w k obj hobj
    unfold State.executedTasks
    rw [hdict] at hobj
    rw [hexecuted]
    exact h.last w k obj hobj

theorem Fresh.perform {s : State (W + 1) H} {w : Fin (W + 1)} {task : Task H} (h : Fresh hash s)
    (hroute : ∀ key args, task.command.Args = key :: args → getPartitionID hash key = w)
    (env : Env) : Fresh hash (s.perform cfg w env task) := by
  -- what a command stores belongs to its worker
  have hplace : ∀ {k v}, stores task.command = some (k, v) → getPartitionID hash k = w := by
    intro k v hstores
    obtain ⟨args, hargs⟩ := List.head?_eq_some_iff.1 (head_of_stores hstores)
    exact hroute k args hargs
  have hcommands : (s.perform cfg w env task).executedTasks.map (·.command) =
      s.executedTasks.map (·.command) ++ [task.command] := by
    unfold State.executedTasks
    rw [executed_perform, List.map_append, List.map_append]
    rfl
  have hworkers : (s.perform cfg w env task).workers = Function.update s.workers w
      { s.workers w with
        dictStore := (Worker.execute cfg env task.command (s.keyspace w)).2.dictStore
        current := none } := rfl
  have hcases : ∀ v k obj, ((s.perform cfg w env task).workers v).dictStore.dictStore.lookup k =
      some obj → getPartitionID hash k = v ∧
        lastSet (s.executedTasks.map (·.command) ++ [task.command]) k = some obj.value := by
    intro v k obj hobj
    rw [hworkers] at hobj
    by_cases hv : v = w
    · subst hv
      rw [Function.update_self] at hobj
      rcases lookup_execute hobj with hstores | ⟨hnot, old, hold, hvalue⟩
      · exact ⟨hplace hstores, lastSet_append_of_stores hstores _⟩
      · rw [lastSet_append_of_not hnot, ← hvalue]
        exact ⟨h.placed v k old hold, h.last v k old hold⟩
    · rw [Function.update_of_ne hv] at hobj
      have hpart := h.placed v k obj hobj
      have hnot : ∀ value, stores task.command ≠ some (k, value) :=
        fun value hstores => hv (hpart.symm.trans (hplace hstores))
      rw [lastSet_append_of_not hnot]
      exact ⟨hpart, h.last v k obj hobj⟩
  constructor
  · exact fun v k obj hobj => (hcases v k obj hobj).1
  · intro v k obj hobj
    rw [hcommands]
    exact (hcases v k obj hobj).2

/-! ## The replies -/

/-- The reply of an execution that is a `GET`: nil, or the last value of the
key before it in the order of dispatch. -/
def ReadsLast (dispatched : List (Task H)) (e : Execution H) : Prop :=
  ∀ key, e.task.command.Cmd = lit "GET" → e.task.command.Args = [key] →
    e.reply = RespNil ∨ ∃ value,
      lastSet ((dispatched.take e.task.id).map (·.command)) key = some value ∧
        e.reply = encode (.str value) false

structure Orderly (hash : Bytes → UInt32) (s : State (W + 1) H) : Prop where
  ledger : Ledger s
  routed : Routed hash s
  order : InOrder hash s
  fresh : Fresh hash s
  reads : ∀ e ∈ s.executed, ReadsLast s.dispatched e

theorem orderly_init : Orderly hash (State.init (W + 1) H) := by
  constructor
  · exact Ledger.init
  · exact routed_init
  · exact fun _ => rfl
  · exact fresh_init
  · intro e he
    cases he

theorem Orderly.readsLast {s : State (W + 1) H} (h : Orderly hash s) {w : Fin (W + 1)}
    {task : Task H} {rest : List (Task H)} (hqueue : (s.workers w).queue = task :: rest)
    (env : Env) : ReadsLast s.dispatched ⟨task, env, s.reply cfg w env task⟩ := by
  intro key hcmd hargs
  obtain rfl : getPartitionID hash key = w :=
    h.routed w task (hqueue ▸ List.mem_cons_self) key [] hargs
  have hon : On key task = true := by
    refine decide_eq_true ?_
    rw [hargs]
    rfl
  have htake := lastSet_congr (h.order.filter_take h.ledger hqueue hon)
  rcases reply_get hcmd hargs with hnil | ⟨obj, hobj, hreply⟩
  · exact .inl hnil
  · exact .inr ⟨obj.value, htake.trans (h.fresh.last _ key obj hobj), hreply⟩

/-- Later dispatches do not come before a task that was executed. -/
theorem ReadsLast.append {s : State W H} {e : Execution H} (h : ReadsLast s.dispatched e)
    (L : Ledger s) (he : e ∈ s.executed) (task : Task H) :
    ReadsLast (s.dispatched ++ [task]) e := by
  have hlt := L.id_lt (L.mem_dispatched.2 (.inr (List.mem_map_of_mem he)))
  unfold ReadsLast
  rw [List.take_append_of_le_length (Nat.le_of_lt hlt)]
  exact h

theorem Orderly.step {s s' : State (W + 1) H} {a : Action (W + 1) H} (h : Orderly hash s)
    (hstep : step cfg hash s a = some s') : Orderly hash s' := by
  have hledger := h.ledger.step hstep
  have hrouted := h.routed.step hstep
  have horder := h.order.step h.routed hstep
  have hdict : ∀ w (ws : WorkerState H), ws.dictStore = (s.workers w).dictStore →
      ∀ v, (Function.update s.workers w ws v).dictStore = (s.workers v).dictStore := by
    intro w ws hsame v
    by_cases hv : v = w
    · rw [hv, Function.update_self, hsame]
    · rw [Function.update_of_ne hv]
  cases transition_of_step hstep with
  | dispatch hd command any hwaiting =>
    refine ⟨hledger, hrouted, horder, h.fresh.congr (hdict _ _ rfl) rfl, ?_⟩
    exact fun e he => (h.reads e he).append h.ledger he _
  | take w task rest hcurrent hqueue =>
    exact ⟨hledger, hrouted, horder, h.fresh.congr (hdict _ _ rfl) rfl, h.reads⟩
  | execute w env task hcurrent =>
    have hqueue : (s.workers w).queue = task :: (s.workers w).taskCh := by
      unfold WorkerState.queue
      rw [hcurrent]
      rfl
    have hroute := h.routed w task (hqueue ▸ List.mem_cons_self)
    refine ⟨hledger, hrouted, horder, h.fresh.perform hroute env, ?_⟩
    intro e he
    rw [executed_perform, List.mem_append, List.mem_singleton] at he
    rcases he with he | rfl
    · exact h.reads e he
    · exact h.readsLast hqueue env
  | receive hd id reply rest hwaiting hreply =>
    exact ⟨hledger, hrouted, horder, h.fresh.congr (fun _ => rfl) rfl, h.reads⟩

/-- In every run of any number of workers and handlers, with whatever
evictions, the commands on one key are executed in the order in which they
were dispatched, and the reply to a `GET` is nil or the value of the last
`SET` of its key that was dispatched before it. -/
theorem reads_last_dispatched (cfg : Config) (hash : Bytes → UInt32) (r : ServerRun cfg hash W H)
    (n : Nat) :
    (∀ key, (r.state n).executedTasks.filter (On key) <+: (r.state n).dispatched.filter (On key)) ∧
      ∀ e ∈ (r.state n).executed, ReadsLast (r.state n).dispatched e := by
  have h : Orderly hash (r.state n) :=
    r.along orderly_init (fun _ _ _ hstep h => h.step hstep) n
  refine ⟨fun key => ?_, h.reads⟩
  rw [h.order key]
  exact List.prefix_append _ _

end RediGo.Server
