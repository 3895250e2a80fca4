/-
RediGo.Server.ConnectionsTheorems — a reply goes to the client that asked.

A handler writes a reply to a descriptor number, which the kernel may have
given to another connection in the meantime. That it has not is the work of
three facts. An open descriptor has exactly one owner, a listener or a
handler (`Wired`, over `RediGo.Lib.Ownership`); a handler's events and the
event it works on are among its own (`HandlerOk`); and only the owner closes
(`Sane.close`). Together they are `Sane`, kept by every step.

`Served` adds the commands and the replies: what is written to a connection is
what the executions of its own commands replied, and at most one of its
commands is with a handler. How much of a reply arrives is up to the kernel
(`Received`). `descriptors_owned` and `replies_reach_client` are the results,
for every number of workers, handlers and listeners.
-/
import RediGo.Lib.Ownership
import RediGo.Server.Connections

namespace RediGo.Server

open RediGo.Go RediGo.HashTable RediGo.Core RediGo.Lib

variable {W H A : Nat} {cfg : Config} {hash : Bytes → UInt32}

/-- What each action requires and does. -/
inductive NetTransition (cfg : Config) (hash : Bytes → UInt32) (n : Net (W + 1) H A) :
    NetAction (W + 1) H A → Net (W + 1) H A → Prop
  | take (w : Fin (W + 1)) (s : State (W + 1) H) (hs : step cfg hash n.server (.take w) = some s) :
    NetTransition cfg hash n (.take w) { n with server := s }
  | execute (w : Fin (W + 1)) (env : Env) (s : State (W + 1) H)
    (hs : step cfg hash n.server (.execute w env) = some s) :
    NetTransition cfg hash n (.execute w env) { n with server := s }
  | accept (a : Fin A) (fd : Nat) (hacc : n.acceptors a = .accepting) (hfd : n.fds fd = none) :
    NetTransition cfg hash n (.accept a fd) (n.accepted a fd)
  | add (a : Fin A) (h : Fin H) (conn fd : Nat) (hacc : n.acceptors a = .holding conn fd)
    (hmu : n.mu h = none) : NetTransition cfg hash n (.add a h) (n.stored a h conn fd)
  | monitor (a : Fin A) (ok : Bool) (conn fd : Nat) (h : Fin H)
    (hacc : n.acceptors a = .adding conn fd h) :
    NetTransition cfg hash n (.monitor a ok) (n.monitored a h fd ok)
  | refuse (a : Fin A) (conn fd : Nat) (hacc : n.acceptors a = .holding conn fd) :
    NetTransition cfg hash n (.refuse a) (n.refused a conn)
  | wait (h : Fin H) (ready : List Nat) (hphase : n.phase h = .polling) (hevents : n.events h = [])
    (hnodup : ready.Nodup) (hready : ∀ fd ∈ ready, n.interest h fd = true) :
    NetTransition cfg hash n (.wait h ready)
      { n with events := Function.update n.events h ready }
  | miss (h : Fin H) (fd : Nat) (rest : List Nat) (hphase : n.phase h = .polling)
    (hevents : n.events h = fd :: rest) (hmu : n.mu h = none) (hconn : n.conns h fd = none) :
    NetTransition cfg hash n (.find h) { n with events := Function.update n.events h rest }
  | find (h : Fin H) (fd conn : Nat) (rest : List Nat) (hphase : n.phase h = .polling)
    (hevents : n.events h = fd :: rest) (hmu : n.mu h = none) (hconn : n.conns h fd = some conn) :
    NetTransition cfg hash n (.find h)
      (Net.goto { n with events := Function.update n.events h rest } h (.reading fd conn))
  | fail (h : Fin H) (fd conn : Nat) (hphase : n.phase h = .reading fd conn) :
    NetTransition cfg hash n (.read h none) (n.goto h (.closing fd))
  | read (h : Fin H) (fd conn : Nat) (command : Command) (hphase : n.phase h = .reading fd conn) :
    NetTransition cfg hash n (.read h (some command)) { n.goto h (.asking fd conn command) with
      asked := n.asked ++ [(conn, command)] }
  | dispatch (h : Fin H) (any : Fin (W + 1)) (fd conn : Nat) (command : Command)
    (s : State (W + 1) H) (hphase : n.phase h = .asking fd conn command)
    (hs : step cfg hash n.server (.dispatch h command any) = some s) :
    NetTransition cfg hash n (.dispatch h any)
      { n.goto h (.awaiting fd conn command n.server.dispatched.length) with server := s }
  | receive (h : Fin H) (fd conn id : Nat) (command : Command) (reply : Bytes) (rest : List Bytes)
    (s : State (W + 1) H) (hphase : n.phase h = .awaiting fd conn command id)
    (hreply : n.server.replyCh id = reply :: rest)
    (hs : step cfg hash n.server (.receive h) = some s) :
    NetTransition cfg hash n (.receive h)
      { n.goto h (.answering fd conn command id reply) with server := s }
  | write (h : Fin H) (count fd conn id : Nat) (command : Command) (reply : Bytes)
    (hphase : n.phase h = .answering fd conn command id reply) :
    NetTransition cfg hash n (.write h count) ((n.write fd reply count).goto h .polling)
  | gone (h : Fin H) (fd : Nat) (hphase : n.phase h = .closing fd) (hmu : n.mu h = none)
    (hconn : n.conns h fd = none) : NetTransition cfg hash n (.close h) (n.goto h .polling)
  | close (h : Fin H) (fd conn : Nat) (hphase : n.phase h = .closing fd) (hmu : n.mu h = none)
    (hconn : n.conns h fd = some conn) :
    NetTransition cfg hash n (.close h) (n.shut h fd conn)
  | delete (h : Fin H) (fd conn : Nat) (hphase : n.phase h = .closed fd conn) :
    NetTransition cfg hash n (.delete h) (n.deleted h fd)

theorem netTransition_of_step {n n' : Net (W + 1) H A} {a : NetAction (W + 1) H A}
    (h : netStep cfg hash n a = some n') : NetTransition cfg hash n a n' := by
  unfold netStep at h
  cases a with
  | take w =>
    obtain ⟨s, hs, rfl⟩ := Option.map_eq_some_iff.1 h
    exact .take w s hs
  | execute w env =>
    obtain ⟨s, hs, rfl⟩ := Option.map_eq_some_iff.1 h
    exact .execute w env s hs
  | accept a fd =>
    dsimp only at h
    split at h
    · rename_i hacc hfd
      cases h
      exact .accept a fd hacc hfd
    · cases h
  | add a hd =>
    dsimp only at h
    split at h
    · rename_i conn fd hacc hmu
      cases h
      exact .add a hd conn fd hacc hmu
    · cases h
  | monitor a ok =>
    dsimp only at h
    split at h
    · rename_i conn fd hd hacc
      cases h
      exact .monitor a ok conn fd hd hacc
    · cases h
  | refuse a =>
    dsimp only at h
    split at h
    · rename_i conn fd hacc
      cases h
      exact .refuse a conn fd hacc
    · cases h
  | wait hd ready =>
    dsimp only at h
    split at h
    · rename_i hphase hevents
      split at h
      · rename_i hready
        cases h
        exact .wait hd ready hphase hevents hready.1 hready.2
      · cases h
    · cases h
  | find hd =>
    dsimp only at h
    split at h
    · rename_i fd rest hphase hevents hmu
      split at h
      · rename_i hconn
        cases h
        exact .miss hd fd rest hphase hevents hmu hconn
      · rename_i conn hconn
        cases h
        exact .find hd fd conn rest hphase hevents hmu hconn
    · cases h
  | read hd outcome =>
    dsimp only at h
    split at h
    · rename_i fd conn hphase
      cases outcome with
      | none =>
        cases h
        exact .fail hd fd conn hphase
      | some command =>
        cases h
        exact .read hd fd conn command hphase
    · cases h
  | dispatch hd any =>
    dsimp only at h
    split at h
    · rename_i fd conn command hphase
      obtain ⟨s, hs, rfl⟩ := Option.map_eq_some_iff.1 h
      exact .dispatch hd any fd conn command s hphase hs
    · cases h
  | receive hd =>
    dsimp only at h
    split at h
    · rename_i fd conn command id hphase
      split at h
      · cases h
      · rename_i reply rest hreply
        obtain ⟨s, hs, rfl⟩ := Option.map_eq_some_iff.1 h
        exact .receive hd fd conn id command reply rest s hphase hreply hs
    · cases h
  | write hd count =>
    dsimp only at h
    split at h
    · rename_i fd conn command id reply hphase
      cases h
      exact .write hd count fd conn id command reply hphase
    · cases h
  | close hd =>
    dsimp only at h
    split at h
    · rename_i fd hphase hmu
      split at h
      · rename_i hconn
        cases h
        exact .gone hd fd hphase hmu hconn
      · rename_i conn hconn
        cases h
        exact .close hd fd conn hphase hmu hconn
    · cases h
  | delete hd =>
    dsimp only at h
    split at h
    · rename_i fd conn hphase
      cases h
      exact .delete hd fd conn hphase
    · cases h

/-! ## Who owns a descriptor -/

namespace Net

/-- The connection that a listener has accepted and not yet handed over. -/
def held (n : Net W H A) (a : Fin A) (fd : Nat) : Option Nat :=
  match n.acceptors a with
  | .holding conn fd' => if fd = fd' then some conn else none
  | _ => none

/-- The open connections of a handler. One that is closed stays in the map
until it is deleted. -/
def own (n : Net W H A) (h : Fin H) (fd : Nat) : Option Nat :=
  match n.phase h with
  | .closed fd' _ => if fd = fd' then none else n.conns h fd
  | _ => n.conns h fd

/-- What each listener and each handler has of the descriptor table. -/
def part (n : Net W H A) : Fin A ⊕ Fin H → Nat → Option Nat
  | .inl a => n.held a
  | .inr h => n.own h

end Net

/-- Descriptors have one owner, and connections one descriptor. -/
structure Wired (n : Net W H A) : Prop where
  owned : Owned n.fds n.part
  distinct : ∀ fd fd' conn, n.fds fd = some conn → n.fds fd' = some conn → fd = fd'
  opened : ∀ fd conn, n.fds fd = some conn → conn < n.opened

theorem wired_init : Wired (Net.init W H A) := by
  have hpart : ∀ i fd, (Net.init W H A).part i fd = none := by
    intro i fd
    cases i <;> rfl
  constructor
  · constructor
    · intro i k v hv
      cases (hpart i k).symm.trans hv
    · intro k v hv
      cases hv
    · intro i j k v w hv
      cases (hpart i k).symm.trans hv
  · intro fd fd' conn hfd
    cases hfd
  · intro fd conn hfd
    cases hfd

/-- A step that opens and closes nothing. -/
theorem Wired.congr {n n' : Net W H A} (hw : Wired n) (hfds : n'.fds = n.fds)
    (hopened : n'.opened = n.opened) (hpart : n'.part = n.part) : Wired n' := by
  obtain ⟨howned, hdistinct, hlt⟩ := hw
  exact ⟨by rwa [hfds, hpart], by rwa [hfds], by rwa [hfds, hopened]⟩

/-- Closing a connection frees its number. -/
theorem Wired.fds_free {n : Net W H A} (hw : Wired n) {fd conn : Nat}
    (hfd : n.fds fd = some conn) : (n.free conn).fds = Function.update n.fds fd none := by
  funext x
  show (if n.fds x = some conn then none else n.fds x) = _
  by_cases hx : x = fd
  · rw [hx, if_pos hfd, Function.update_self]
  · rw [if_neg fun hconn => hx (hw.distinct x fd conn hconn hfd), Function.update_of_ne hx]

theorem Wired.remove {n n' : Net W H A} (hw : Wired n) {i : Fin A ⊕ Fin H} {fd conn : Nat}
    (howner : n.part i fd = some conn) (hfds : n'.fds = (n.free conn).fds)
    (hopened : n'.opened = n.opened) (hpart : n'.part = Owned.put n.part i fd none) : Wired n' := by
  have hfds : n'.fds = Function.update n.fds fd none :=
    hfds.trans (hw.fds_free (hw.owned.sound i fd conn howner))
  have hold : ∀ {x c}, n'.fds x = some c → n.fds x = some c := by
    intro x c hx
    by_cases heq : x = fd
    · rw [hfds, heq, Function.update_self] at hx
      cases hx
    · rwa [hfds, Function.update_of_ne heq] at hx
  constructor
  · rw [hfds, hpart]
    exact hw.owned.remove howner
  · exact fun x x' c hx hx' => hw.distinct x x' c (hold hx) (hold hx')
  · intro x c hx
    rw [hopened]
    exact hw.opened x c (hold hx)

/-! ### Each step -/

/-- The phases in which the map has a connection that is closed. -/
def Phase.Deleting : Phase → Prop
  | .closed _ _ => True
  | _ => False

theorem own_eq_conns {n : Net W H A} {h : Fin H} (hphase : ¬ (n.phase h).Deleting) :
    n.own h = n.conns h := by
  funext fd
  unfold Net.own
  split
  · rename_i heq
    rw [heq] at hphase
    exact absurd trivial hphase
  · rfl

theorem own_congr {n n' : Net W H A} {h : Fin H} (hphase : n'.phase h = n.phase h)
    (hconns : n'.conns h = n.conns h) : n'.own h = n.own h := by
  funext fd
  unfold Net.own
  rw [hphase, hconns]

theorem own_goto {n : Net W H A} {h : Fin H} {phase : Phase} (hold : ¬ (n.phase h).Deleting)
    (hnew : ¬ phase.Deleting) (h' : Fin H) : (n.goto h phase).own h' = n.own h' := by
  by_cases heq : h' = h
  · subst heq
    have hphase : (n.goto h' phase).phase h' = phase := Function.update_self ..
    rw [own_eq_conns hold, own_eq_conns (by rwa [hphase])]
    rfl
  · exact own_congr (Function.update_of_ne heq _ _) rfl

theorem part_congr {n n' : Net W H A} (hacc : n'.acceptors = n.acceptors)
    (hown : ∀ h, n'.own h = n.own h) : n'.part = n.part := by
  funext i
  cases i with
  | inl a =>
    funext fd
    show n'.held a fd = n.held a fd
    unfold Net.held
    rw [hacc]
  | inr h => exact hown h

theorem held_update_of_ne {n n' : Net W H A} {a b : Fin A} {acc : Acceptor H} (hb : b ≠ a)
    (hacc : n'.acceptors = Function.update n.acceptors a acc) : n'.held b = n.held b := by
  funext fd
  unfold Net.held
  rw [hacc, Function.update_of_ne hb]

/-- A listener changes what it has in hand, at one descriptor. -/
theorem part_hand {n n' : Net W H A} {a : Fin A} {acc : Acceptor H} {fd : Nat} {v : Option Nat}
    (hacc : n'.acceptors = Function.update n.acceptors a acc) (hown : ∀ h, n'.own h = n.own h)
    (hself : n'.held a fd = v) (hother : ∀ x, x ≠ fd → n'.held a x = n.held a x) :
    n'.part = Owned.put n.part (.inl a) fd v := by
  refine Owned.eq_put hself fun i x hne => ?_
  cases i with
  | inl b =>
    by_cases hb : b = a
    · subst hb
      exact hother x (hne.resolve_left fun h => h rfl)
    · exact congrFun (held_update_of_ne hb hacc) x
  | inr h => exact congrFun (hown h) x

theorem Wired.accept {n : Net W H A} (hw : Wired n) {a : Fin A} {fd : Nat}
    (hacc : n.acceptors a = .accepting) (hfd : n.fds fd = none) : Wired (n.accepted a fd) := by
  have hfresh : ∀ x, n.fds x ≠ some n.opened := fun x hx =>
    Nat.lt_irrefl _ (hw.opened x n.opened hx)
  have hold : ∀ {x c}, Function.update n.fds fd (some n.opened) x = some c →
      (x = fd ∧ c = n.opened) ∨ n.fds x = some c := by
    intro x c hx
    by_cases heq : x = fd
    · rw [heq, Function.update_self] at hx
      exact .inl ⟨heq, (Option.some.inj hx).symm⟩
    · rw [Function.update_of_ne heq] at hx
      exact .inr hx
  have hpart : (n.accepted a fd).part = Owned.put n.part (.inl a) fd (some n.opened) := by
    refine part_hand rfl (fun _ => rfl) ?_ ?_
    · simp [Net.held, Net.accepted]
    · intro x hx
      simp [Net.held, Net.accepted, hx, hacc]
  constructor
  · rw [hpart]
    exact hw.owned.insert hfd (.inl a) n.opened
  · intro x x' c hx hx'
    rcases hold hx with ⟨rfl, rfl⟩ | hx <;> rcases hold hx' with ⟨hx', hc⟩ | hx'
    · exact hx'.symm
    · exact absurd hx' (hfresh x')
    · exact absurd (hc ▸ hx) (hfresh x)
    · exact hw.distinct x x' c hx hx'
  · intro x c hx
    rcases hold hx with ⟨-, rfl⟩ | hx
    · exact Nat.lt_succ_self _
    · exact Nat.lt_succ_of_lt (hw.opened x c hx)

/-- The listener drops the connection. -/
theorem Wired.refuse {n : Net W H A} (hw : Wired n) {a : Fin A} {conn fd : Nat}
    (hacc : n.acceptors a = .holding conn fd) : Wired (n.refused a conn) := by
  have howner : n.part (.inl a) fd = some conn := by simp [Net.part, Net.held, hacc]
  refine hw.remove howner rfl rfl (part_hand rfl (fun _ => rfl) ?_ ?_)
  · simp [Net.held, Net.refused]
  · intro x hx
    simp [Net.held, Net.refused, hx, hacc]

/-- A handler changes what it owns, at one descriptor. -/
theorem part_own {n n' : Net W H A} {h : Fin H} {fd : Nat} {v : Option Nat}
    (hacc : ∀ a, n'.held a = n.held a) (hself : n'.own h fd = v)
    (hother : ∀ x, x ≠ fd → n'.own h x = n.own h x) (hown : ∀ h', h' ≠ h → n'.own h' = n.own h') :
    n'.part = Owned.put n.part (.inr h) fd v := by
  refine Owned.eq_put hself fun i x hne => ?_
  cases i with
  | inl a => exact congrFun (hacc a) x
  | inr h' =>
    by_cases hh : h' = h
    · subst hh
      exact hother x (hne.resolve_left fun heq => heq rfl)
    · exact congrFun (hown h' hh) x

theorem own_stored {n : Net W H A} {h : Fin H} (hphase : ¬ (n.phase h).Deleting) (a : Fin A)
    (conn fd x : Nat) :
    (n.stored a h conn fd).own h x = if x = fd then some conn else n.own h x := by
  have hown : (n.stored a h conn fd).own h = (n.stored a h conn fd).conns h := own_eq_conns hphase
  rw [hown, own_eq_conns hphase]
  simp [Net.stored, Function.update_apply]

/-- The connection passes from the listener to the handler. -/
theorem Wired.add {n : Net W H A} (hw : Wired n) {a : Fin A} {h : Fin H} {conn fd : Nat}
    (hacc : n.acceptors a = .holding conn fd) (hphase : ¬ (n.phase h).Deleting) :
    Wired (n.stored a h conn fd) := by
  have howner : n.part (.inl a) fd = some conn := by simp [Net.part, Net.held, hacc]
  refine ⟨?_, hw.distinct, hw.opened⟩
  -- first out of the listener's hand, then into the handler's map
  let between : Net W H A :=
    { n with acceptors := Function.update n.acceptors a (.adding conn fd h) }
  have hbetween : between.part = Owned.put n.part (.inl a) fd none := by
    refine part_hand rfl (fun _ => rfl) ?_ ?_
    · simp [between, Net.held]
    · intro x hx
      simp [between, Net.held, hx, hacc]
  have hafter : (n.stored a h conn fd).part =
      Owned.put between.part (.inr h) fd (some conn) := by
    refine part_own (fun _ => rfl) ?_ ?_ ?_
    · rw [own_stored hphase, if_pos rfl]
    · intro x hx
      rw [own_stored hphase, if_neg hx]
      rfl
    · exact fun h' hh => own_congr rfl (Function.update_of_ne hh _ _)
  rw [hafter, hbetween]
  exact hw.owned.pass howner (.inr h)

/-- What a handler owns once it has closed a connection. -/
theorem own_shut {n : Net W H A} {h : Fin H} (hphase : ¬ (n.phase h).Deleting) (fd conn x : Nat) :
    (n.shut h fd conn).own h x = if x = fd then none else n.own h x := by
  rw [own_eq_conns hphase]
  simp [Net.own, Net.shut, Net.goto, Net.free]

theorem own_shut_of_ne {n : Net W H A} {h h' : Fin H} (hh : h' ≠ h) (fd conn : Nat) :
    (n.shut h fd conn).own h' = n.own h' := own_congr (Function.update_of_ne hh _ _) rfl

theorem Wired.close {n : Net W H A} (hw : Wired n) {h : Fin H} {conn fd : Nat}
    (hown : n.own h fd = some conn) (hphase : ¬ (n.phase h).Deleting) :
    Wired (n.shut h fd conn) := by
  have hpart : (n.shut h fd conn).part = Owned.put n.part (.inr h) fd none := by
    refine part_own (fun _ => rfl) ?_ ?_ ?_
    · rw [own_shut hphase, if_pos rfl]
    · intro x hx
      rw [own_shut hphase, if_neg hx]
    · exact fun h' hh => own_shut_of_ne hh fd conn
  have howner : n.part (.inr h) fd = some conn := hown
  exact hw.remove howner rfl rfl hpart

/-- Deleting the entry of a closed connection changes nothing in what is
owned. -/
theorem own_deleted {n : Net W H A} {h : Fin H} {conn fd : Nat}
    (hphase : n.phase h = .closed fd conn) (h' : Fin H) :
    (n.deleted h fd).own h' = n.own h' := by
  by_cases hh : h' = h
  · subst hh
    funext x
    simp only [Net.own, Net.deleted, Net.goto, Function.update_self, hphase]
    by_cases hx : x = fd
    · rw [hx, Function.update_self, if_pos rfl]
    · rw [Function.update_of_ne hx, if_neg hx]
  · exact own_congr (Function.update_of_ne hh _ _) (Function.update_of_ne hh _ _)

/-! ## What a handler knows -/

/-- What a handler at work on an event knows. -/
def PhaseOk (n : Net W H A) (h : Fin H) : Phase → Prop
  | .polling => True
  | .reading fd conn | .asking fd conn _ | .awaiting fd conn _ _ | .answering fd conn _ _ _ =>
    n.own h fd = some conn ∧ fd ∉ n.events h
  | .closing fd => (∃ conn, n.own h fd = some conn) ∧ fd ∉ n.events h
  | .closed fd _ => n.mu h = some .handler ∧ fd ∉ n.events h

/-- Events and monitored descriptors are those of open connections. -/
structure HandlerOk (n : Net W H A) (h : Fin H) : Prop where
  nodup : (n.events h).Nodup
  events : ∀ fd ∈ n.events h, ∃ conn, n.own h fd = some conn
  watched : ∀ fd, n.interest h fd = true → ∃ conn, n.own h fd = some conn
  phase : PhaseOk n h (n.phase h)

/-- A listener in `AddConn` holds the mutex, and the connection is stored. -/
def AcceptorOk (n : Net W H A) (a : Fin A) : Prop :=
  ∀ conn fd h, n.acceptors a = .adding conn fd h →
    n.mu h = some (.acceptor a) ∧ n.own h fd = some conn

structure Sane (n : Net W H A) : Prop where
  wired : Wired n
  handlers : ∀ h, HandlerOk n h
  acceptors : ∀ a, AcceptorOk n a

theorem PhaseOk.mono {n n' : Net W H A} {h : Fin H} {phase : Phase} (hok : PhaseOk n h phase)
    (hown : ∀ fd conn, n.own h fd = some conn → n'.own h fd = some conn)
    (hevents : n'.events h = n.events h)
    (hmu : n.mu h = some .handler → n'.mu h = some .handler) : PhaseOk n' h phase := by
  unfold PhaseOk at hok ⊢
  rw [hevents]
  cases phase with
  | polling => trivial
  | closing fd => exact ⟨hok.1.imp fun conn hconn => hown fd conn hconn, hok.2⟩
  | closed fd conn => exact ⟨hmu hok.1, hok.2⟩
  | _ => exact ⟨hown _ _ hok.1, hok.2⟩

/-- A step that takes nothing from the handler. -/
theorem HandlerOk.frame {n n' : Net W H A} {h : Fin H} (hok : HandlerOk n h)
    (hown : ∀ fd conn, n.own h fd = some conn → n'.own h fd = some conn)
    (hevents : n'.events h = n.events h)
    (hinterest : ∀ fd, n'.interest h fd = true →
      n.interest h fd = true ∨ ∃ conn, n'.own h fd = some conn)
    (hphase : n'.phase h = n.phase h)
    (hmu : n.mu h = some .handler → n'.mu h = some .handler) : HandlerOk n' h := by
  have hstill : ∀ {fd}, (∃ conn, n.own h fd = some conn) → ∃ conn, n'.own h fd = some conn :=
    fun hfd => hfd.imp fun conn hconn => hown _ conn hconn
  constructor
  · rw [hevents]
    exact hok.nodup
  · rw [hevents]
    exact fun fd hfd => hstill (hok.events fd hfd)
  · exact fun fd hfd => (hinterest fd hfd).elim (fun hold => hstill (hok.watched fd hold)) id
  · rw [hphase]
    exact hok.phase.mono hown hevents hmu

theorem AcceptorOk.frame {n n' : Net W H A} {a : Fin A} (hok : AcceptorOk n a)
    (hacc : n'.acceptors a = n.acceptors a)
    (hown : ∀ h, n.mu h = some (.acceptor a) → n'.own h = n.own h)
    (hmu : ∀ h, n.mu h = some (.acceptor a) → n'.mu h = some (.acceptor a)) : AcceptorOk n' a := by
  intro conn fd h hadding
  rw [hacc] at hadding
  obtain ⟨hheld, hconn⟩ := hok conn fd h hadding
  exact ⟨hmu h hheld, by rw [hown h hheld, hconn]⟩

/-! ### Each step -/

namespace Sane

variable {n n' : Net W H A} {h : Fin H} {a : Fin A}

theorem phaseOk (hs : Sane n) {phase : Phase} (hphase : n.phase h = phase) :
    PhaseOk n h phase := hphase ▸ (hs.handlers h).phase

/-- A handler whose mutex is free is not in `closeConn`. -/
theorem not_deleting (hs : Sane n) (hmu : n.mu h = none) : ¬ (n.phase h).Deleting := by
  intro hdel
  cases hphase : n.phase h with
  | closed fd conn => cases hmu.symm.trans (hs.phaseOk hphase).1
  | _ =>
    rw [hphase] at hdel
    exact hdel

/-- A handler goes from one phase to another and closes nothing. -/
theorem goto (hs : Sane n) (phase : Phase) (hold : ¬ (n.phase h).Deleting)
    (hnew : ¬ phase.Deleting) (hok : PhaseOk n h phase) (s : State W H)
    (asked : List (Nat × Command)) (written : List Delivery) (received : Nat → Bytes) :
    Sane { n.goto h phase with
      server := s, asked := asked, written := written, received := received } := by
  have hown : ∀ h', (n.goto h phase).own h' = n.own h' := own_goto hold hnew
  refine ⟨hs.wired.congr rfl rfl (part_congr rfl hown), fun h' => ?_, fun b => ?_⟩
  · by_cases hh : h' = h
    · subst hh
      obtain ⟨hnodup, hevents, hwatched, -⟩ := hs.handlers h'
      have hsame : ∀ fd conn, n.own h' fd = some conn → (n.goto h' phase).own h' fd = some conn := by
        rw [hown]
        exact fun _ _ => id
      refine ⟨hnodup, ?_, ?_, ?_⟩
      · exact fun fd hfd => (hevents fd hfd).imp fun conn hconn => hsame fd conn hconn
      · exact fun fd hfd => (hwatched fd hfd).imp fun conn hconn => hsame fd conn hconn
      · rw [show (n.goto h' phase).phase h' = phase from Function.update_self ..]
        exact hok.mono hsame rfl id
    · refine (hs.handlers h').frame ?_ rfl (fun _ => .inl) (Function.update_of_ne hh _ _) id
      exact fun fd conn hconn => (congrFun (hown h') fd).trans hconn
  · exact (hs.acceptors b).frame rfl (fun h' _ => hown h') fun _ => id

/-- A handler between two events has other events. -/
theorem setEvents (hs : Sane n) {ready : List Nat} (hphase : n.phase h = .polling)
    (hnodup : ready.Nodup) (hready : ∀ fd ∈ ready, ∃ conn, n.own h fd = some conn) :
    Sane { n with events := Function.update n.events h ready } := by
  refine ⟨hs.wired.congr rfl rfl rfl, fun h' => ?_, fun b => ?_⟩
  · by_cases hh : h' = h
    · subst hh
      have hevents : Function.update n.events h' ready h' = ready := Function.update_self ..
      refine ⟨?_, ?_, (hs.handlers h').watched, ?_⟩
      · show (Function.update n.events h' ready h').Nodup
        rw [hevents]
        exact hnodup
      · show ∀ fd ∈ Function.update n.events h' ready h', _
        rw [hevents]
        exact hready
      · show PhaseOk _ h' (n.phase h')
        rw [hphase]
        trivial
    · exact (hs.handlers h').frame (fun _ _ => id) (Function.update_of_ne hh _ _) (fun _ => .inl)
        rfl id
  · exact (hs.acceptors b).frame rfl (fun _ _ => rfl) fun _ => id

theorem accept (hs : Sane n) {fd : Nat} (hacc : n.acceptors a = .accepting)
    (hfd : n.fds fd = none) : Sane (n.accepted a fd) := by
  refine ⟨hs.wired.accept hacc hfd, fun h => ?_, fun b => ?_⟩
  · exact (hs.handlers h).frame (fun _ _ => id) rfl (fun _ => .inl) rfl id
  · by_cases hb : b = a
    · subst hb
      intro conn x h hadding
      simp [Net.accepted] at hadding
    · exact (hs.acceptors b).frame (Function.update_of_ne hb _ _) (fun _ _ => rfl) fun _ => id

theorem add (hs : Sane n) {conn fd : Nat} (hacc : n.acceptors a = .holding conn fd)
    (hmu : n.mu h = none) : Sane (n.stored a h conn fd) := by
  have hphase := hs.not_deleting hmu
  have hnone : n.own h fd = none := by
    have hheld : n.part (.inl a) fd = some conn := by simp [Net.part, Net.held, hacc]
    exact hs.wired.owned.part_none_of_ne hheld (fun heq : Sum.inr h = Sum.inl a => nomatch heq)
  have hgrow : ∀ x c, n.own h x = some c → (n.stored a h conn fd).own h x = some c := by
    intro x c hx
    have hne : x ≠ fd := fun heq => by rw [heq, hnone] at hx; cases hx
    rw [own_stored hphase, if_neg hne, hx]
  have hother : ∀ h', h' ≠ h → (n.stored a h conn fd).own h' = n.own h' :=
    fun h' hh => own_congr rfl (Function.update_of_ne hh _ _)
  refine ⟨hs.wired.add hacc hphase, fun h' => ?_, fun b => ?_⟩
  · by_cases hh : h' = h
    · subst hh
      refine (hs.handlers h').frame hgrow rfl (fun _ => .inl) rfl fun hheld => ?_
      cases hmu.symm.trans hheld
    · refine (hs.handlers h').frame ?_ rfl (fun _ => .inl) rfl fun hheld => ?_
      · rw [hother h' hh]
        exact fun _ _ => id
      · exact (Function.update_of_ne hh _ _).trans hheld
  · by_cases hb : b = a
    · subst hb
      intro c x h' hadding
      simp only [Net.stored, Function.update_self, Acceptor.adding.injEq] at hadding
      obtain ⟨rfl, rfl, rfl⟩ := hadding
      exact ⟨Function.update_self .., by rw [own_stored hphase, if_pos rfl]⟩
    · refine (hs.acceptors b).frame (Function.update_of_ne hb _ _) ?_ ?_
      · intro h' hheld
        refine hother h' fun hh => ?_
        rw [hh, hmu] at hheld
        cases hheld
      · intro h' hheld
        have hh : h' ≠ h := fun hh => by rw [hh, hmu] at hheld; cases hheld
        exact (Function.update_of_ne hh _ _).trans hheld

theorem monitor (hs : Sane n) {conn fd : Nat} (ok : Bool)
    (hacc : n.acceptors a = .adding conn fd h) : Sane (n.monitored a h fd ok) := by
  obtain ⟨hmu, hown⟩ := hs.acceptors a conn fd h hacc
  refine ⟨hs.wired.congr rfl rfl ?_, fun h' => ?_, fun b => ?_⟩
  · -- what the listener had in hand it has given away already
    funext i
    cases i with
    | inr h' => rfl
    | inl b =>
      by_cases hb : b = a
      · subst hb
        funext x
        simp [Net.part, Net.held, Net.monitored, hacc]
      · exact held_update_of_ne hb rfl
  · by_cases hh : h' = h
    · subst hh
      refine (hs.handlers h').frame (fun _ _ => id) rfl ?_ rfl fun hheld => ?_
      · intro x hx
        by_cases heq : x = fd
        · exact .inr ⟨conn, heq ▸ hown⟩
        · simp only [Net.monitored, Function.update_self, Function.update_of_ne heq] at hx
          exact .inl hx
      · cases hmu.symm.trans hheld
    · refine (hs.handlers h').frame (fun _ _ => id) rfl ?_ rfl fun hheld => ?_
      · intro x hx
        rw [← hx]
        exact .inl (congrFun (Function.update_of_ne hh _ _).symm x)
      · exact (Function.update_of_ne hh _ _).trans hheld
  · by_cases hb : b = a
    · subst hb
      intro c x h' hadding
      simp [Net.monitored] at hadding
    · refine (hs.acceptors b).frame (Function.update_of_ne hb _ _) (fun _ _ => rfl) ?_
      intro h' hheld
      have hh : h' ≠ h := by
        rintro rfl
        rw [hmu] at hheld
        exact hb (by simpa using hheld.symm)
      exact (Function.update_of_ne hh _ _).trans hheld

theorem refuse (hs : Sane n) {conn fd : Nat} (hacc : n.acceptors a = .holding conn fd) :
    Sane (n.refused a conn) := by
  refine ⟨hs.wired.refuse hacc, fun h => ?_, fun b => ?_⟩
  · refine (hs.handlers h).frame (fun _ _ => id) rfl ?_ rfl id
    exact fun fd hfd => .inl (Bool.and_eq_true _ _ ▸ hfd : _ ∧ _).1
  · by_cases hb : b = a
    · subst hb
      intro c x h hadding
      simp [Net.refused] at hadding
    · exact (hs.acceptors b).frame (Function.update_of_ne hb _ _) (fun _ _ => rfl) fun _ => id

theorem close (hs : Sane n) {conn fd : Nat} (hphase : n.phase h = .closing fd)
    (hmu : n.mu h = none) (hconn : n.conns h fd = some conn) : Sane (n.shut h fd conn) := by
  have hnot := hs.not_deleting hmu
  have hown : n.own h fd = some conn := by rw [own_eq_conns hnot, hconn]
  have hfds : n.fds fd = some conn := hs.wired.owned.sound (.inr h) fd conn hown
  obtain ⟨hnodup, hevents, hwatched, -⟩ := hs.handlers h
  have hok := hs.phaseOk hphase
  have hkept : ∀ x, x ≠ fd → (n.shut h fd conn).own h x = n.own h x := by
    intro x hx
    rw [own_shut hnot, if_neg hx]
  refine ⟨hs.wired.close hown hnot, fun h' => ?_, fun b => ?_⟩
  · by_cases hh : h' = h
    · subst hh
      refine ⟨hnodup, ?_, ?_, ?_⟩
      · intro x hx
        rw [hkept x fun heq => hok.2 (heq ▸ hx)]
        exact hevents x hx
      · intro x hx
        obtain ⟨hx, hopen⟩ := (Bool.and_eq_true _ _ ▸ hx : _ ∧ _)
        rw [hkept x fun heq => of_decide_eq_true hopen (heq ▸ hfds)]
        exact hwatched x hx
      · rw [show (n.shut h' fd conn).phase h' = .closed fd conn from Function.update_self ..]
        exact ⟨Function.update_self .., hok.2⟩
    · refine (hs.handlers h').frame ?_ rfl ?_ (Function.update_of_ne hh _ _) fun hheld => ?_
      · rw [own_shut_of_ne hh]
        exact fun _ _ => id
      · exact fun x hx => .inl (Bool.and_eq_true _ _ ▸ hx : _ ∧ _).1
      · exact (Function.update_of_ne hh _ _).trans hheld
  · have hother : ∀ h', n.mu h' = some (.acceptor b) → h' ≠ h := by
      rintro h' hheld rfl
      cases hmu.symm.trans hheld
    refine (hs.acceptors b).frame rfl ?_ ?_
    · exact fun h' hheld => own_shut_of_ne (hother h' hheld) fd conn
    · exact fun h' hheld => (Function.update_of_ne (hother h' hheld) _ _).trans hheld

theorem delete (hs : Sane n) {conn fd : Nat} (hphase : n.phase h = .closed fd conn) :
    Sane (n.deleted h fd) := by
  have hown : ∀ h', (n.deleted h fd).own h' = n.own h' := own_deleted hphase
  have hok := hs.phaseOk hphase
  refine ⟨hs.wired.congr rfl rfl (part_congr rfl hown), fun h' => ?_, fun b => ?_⟩
  · by_cases hh : h' = h
    · subst hh
      obtain ⟨hnodup, hevents, hwatched, -⟩ := hs.handlers h'
      refine ⟨hnodup, ?_, ?_, ?_⟩
      · rw [hown]
        exact hevents
      · rw [hown]
        exact hwatched
      · rw [show (n.deleted h' fd).phase h' = .polling from Function.update_self ..]
        trivial
    · refine (hs.handlers h').frame ?_ rfl (fun _ => .inl) (Function.update_of_ne hh _ _)
        fun hheld => ?_
      · rw [hown]
        exact fun _ _ => id
      · exact (Function.update_of_ne hh _ _).trans hheld
  · refine (hs.acceptors b).frame rfl (fun h' _ => hown h') fun h' hheld => ?_
    have hh : h' ≠ h := by
      rintro rfl
      cases hok.1.symm.trans hheld
    exact (Function.update_of_ne hh _ _).trans hheld

theorem init : Sane (Net.init W H A) := by
  refine ⟨wired_init, fun h => ⟨List.nodup_nil, ?_, ?_, trivial⟩, fun a conn fd h hadding => ?_⟩
  · intro fd hfd
    cases hfd
  · intro fd hfd
    cases hfd
  · cases hadding

/-- Every step keeps the descriptors and the handlers' maps in agreement. -/
theorem step {n n' : Net (W + 1) H A} {act : NetAction (W + 1) H A} (hs : Sane n)
    (hstep : netStep cfg hash n act = some n') : Sane n' := by
  have hsame : ∀ s : State (W + 1) H, Sane { n with server := s } := by
    intro s
    refine ⟨hs.wired.congr rfl rfl rfl, fun h => ?_, fun a => ?_⟩
    · exact (hs.handlers h).frame (fun _ _ => id) rfl (fun _ => .inl) rfl id
    · exact (hs.acceptors a).frame rfl (fun _ _ => rfl) fun _ => id
  cases netTransition_of_step hstep with
  | take w s _ => exact hsame s
  | execute w env s _ => exact hsame s
  | accept a fd hacc hfd => exact hs.accept hacc hfd
  | add a h conn fd hacc hmu => exact hs.add hacc hmu
  | monitor a ok conn fd h hacc => exact hs.monitor ok hacc
  | refuse a conn fd hacc => exact hs.refuse hacc
  | close h fd conn hphase hmu hconn => exact hs.close hphase hmu hconn
  | delete h fd conn hphase => exact hs.delete hphase
  | wait h ready hphase _ hnodup hready =>
    exact hs.setEvents hphase hnodup fun fd hfd => (hs.handlers h).watched fd (hready fd hfd)
  | miss h fd rest hphase hevents hmu hconn =>
    have hnodup := (hs.handlers h).nodup
    have hlive := (hs.handlers h).events
    rw [hevents] at hnodup hlive
    exact hs.setEvents hphase (List.nodup_cons.1 hnodup).2
      fun x hx => hlive x (List.mem_cons_of_mem _ hx)
  | find h fd conn rest hphase hevents hmu hconn =>
    have hnodup := (hs.handlers h).nodup
    have hlive := (hs.handlers h).events
    rw [hevents] at hnodup hlive
    have hnot := hs.not_deleting hmu
    have hrest := hs.setEvents hphase (List.nodup_cons.1 hnodup).2
      fun x hx => hlive x (List.mem_cons_of_mem _ hx)
    refine hrest.goto (.reading fd conn) hnot id ⟨?_, ?_⟩ _ _ _ _
    · exact (congrFun (own_eq_conns hnot) fd).trans hconn
    · show fd ∉ Function.update n.events h rest h
      rw [Function.update_self]
      exact (List.nodup_cons.1 hnodup).1
  | fail h fd conn hphase =>
    have hok := hs.phaseOk hphase
    exact hs.goto (.closing fd) (hphase ▸ not_false) not_false ⟨⟨conn, hok.1⟩, hok.2⟩ _ _ _ _
  | read h fd conn command hphase =>
    have hok := hs.phaseOk hphase
    exact hs.goto (.asking fd conn command) (hphase ▸ not_false) not_false hok _ _ _ _
  | dispatch h any fd conn command s hphase _ =>
    have hok := hs.phaseOk hphase
    exact hs.goto (.awaiting fd conn command _) (hphase ▸ not_false) not_false hok _ _ _ _
  | receive h fd conn id command reply rest s hphase _ _ =>
    have hok := hs.phaseOk hphase
    exact hs.goto (.answering fd conn command id reply) (hphase ▸ not_false) not_false hok _ _ _ _
  | write h count fd conn id command reply hphase =>
    unfold Net.write
    split
    · exact hs.goto .polling (hphase ▸ not_false) not_false trivial _ _ _ _
    · exact hs.goto .polling (hphase ▸ not_false) not_false trivial _ _ _ _
  | gone h fd hphase hmu hconn =>
    exact hs.goto .polling (hphase ▸ not_false) not_false trivial _ _ _ _

end Sane

/-! ## Requests and replies -/

/-- The command a handler works on, and the connection it came from. -/
def Phase.asks : Phase → Option (Nat × Command)
  | .asking _ conn command | .awaiting _ conn command _ | .answering _ conn command _ _ =>
    some (conn, command)
  | _ => none

/-- The task a handler has dispatched for it. -/
def Phase.task : Phase → Option Nat
  | .awaiting _ _ _ id | .answering _ _ _ id _ => some id
  | _ => none

namespace Net

/-- The commands that were read from a connection. -/
def askedBy (n : Net W H A) (conn : Nat) : List Command :=
  (n.asked.filter (·.1 = conn)).map (·.2)

/-- The writes of replies to a connection. -/
def writtenTo (n : Net W H A) (conn : Nat) : List Delivery :=
  n.written.filter (·.conn = conn)

theorem writtenTo_append {n n' : Net W H A} {d : Delivery} (h : n'.written = n.written ++ [d])
    (conn : Nat) : n'.writtenTo conn = n.writtenTo conn ++ if d.conn = conn then [d] else [] := by
  rw [writtenTo, h, List.filter_append, ← writtenTo]
  by_cases hd : d.conn = conn <;> simp [hd]

end Net

/-- What a handler knows of the task it has dispatched. -/
def TaskOk (s : State W H) (h : Fin H) : Phase → Prop
  | .awaiting _ _ command id => s.waiting h = some id ∧ ⟨id, h, command⟩ ∈ s.dispatched
  | .answering _ _ command id reply => s.waiting h = none ∧
    ∃ e ∈ s.executed, e.task.id = id ∧ e.task.command = command ∧ e.reply = reply
  | _ => s.waiting h = none

theorem TaskOk.mono {s s' : State W H} {h : Fin H} {phase : Phase} (hok : TaskOk s h phase)
    (hwaiting : s'.waiting h = s.waiting h) (hdispatched : s.dispatched ⊆ s'.dispatched)
    (hexecuted : s.executed ⊆ s'.executed) : TaskOk s' h phase := by
  unfold TaskOk at hok ⊢
  rw [hwaiting]
  cases phase with
  | awaiting fd conn command id => exact ⟨hok.1, hdispatched hok.2⟩
  | answering fd conn command id reply =>
    obtain ⟨hfree, e, he, hrest⟩ := hok
    exact ⟨hfree, e, hexecuted he, hrest⟩
  | _ => exact hok

/-- The executions whose replies were written to a connection. -/
structure Answered (n : Net W H A) (conn : Nat) (done : List (Execution H)) : Prop where
  executed : ∀ e ∈ done, e ∈ n.server.executed
  once : (done.map (·.task.id)).Pairwise (· < ·)
  replies : done.map (·.reply) = (n.writtenTo conn).map (·.reply)

/-- The commands of a connection were answered, but for the one that a
handler works on. -/
def Pending (n : Net W H A) (conn : Nat) (done : List (Execution H)) : Prop :=
  (n.askedBy conn = done.map (·.task.command) ∧
      ∀ h command, (n.phase h).asks ≠ some (conn, command)) ∨
    ∃ h command, (n.phase h).asks = some (conn, command) ∧
      n.askedBy conn = done.map (·.task.command) ++ [command] ∧
      ∀ id, (n.phase h).task = some id → ∀ e ∈ done, e.task.id < id

structure Served (n : Net W H A) : Prop where
  ledger : Ledger n.server
  sane : Sane n
  tasks : ∀ h, TaskOk n.server h (n.phase h)
  answered : ∀ conn, ∃ done, Answered n conn done ∧ Pending n conn done

theorem served_init : Served (Net.init W H A) := by
  refine ⟨Ledger.init, Sane.init, fun _ => rfl, fun conn => ⟨[], ⟨?_, .nil, rfl⟩, .inl ⟨rfl, ?_⟩⟩⟩
  · intro e he
    cases he
  · intro h command hasks
    cases hasks

/-- A step at which nothing comes from the connection and nothing goes to it. -/
theorem quiet {n n' : Net W H A} {conn : Nat}
    (hserved : ∃ done, Answered n conn done ∧ Pending n conn done)
    (hexecuted : n.server.executed ⊆ n'.server.executed)
    (hasked : n'.askedBy conn = n.askedBy conn) (hwritten : n'.writtenTo conn = n.writtenTo conn)
    (hasks : ∀ h command, (n'.phase h).asks = some (conn, command) ↔
      (n.phase h).asks = some (conn, command))
    (htask : ∀ h id, (n'.phase h).task = some id →
      (n.phase h).task = some id ∨ ∀ e ∈ n.server.executed, e.task.id < id) :
    ∃ done, Answered n' conn done ∧ Pending n' conn done := by
  obtain ⟨done, hdone, hpending⟩ := hserved
  refine ⟨done, ⟨fun e he => hexecuted (hdone.executed e he), hdone.once, ?_⟩, ?_⟩
  · rw [hwritten]
    exact hdone.replies
  · rcases hpending with ⟨hall, hnone⟩ | ⟨h, command, hask, hlast, hid⟩
    · exact .inl ⟨hasked.trans hall, fun h command hask => hnone h command ((hasks h command).1 hask)⟩
    · refine .inr ⟨h, command, (hasks h command).2 hask, hasked.trans hlast, fun id hnew e he => ?_⟩
      rcases htask h id hnew with hold | hlater
      · exact hid id hold e he
      · exact hlater e (hdone.executed e he)

/-- A connection has one handler. -/
theorem Wired.sole {n : Net W H A} (hw : Wired n) {h h' : Fin H} {fd fd' conn : Nat}
    (hown : n.own h fd = some conn) (hown' : n.own h' fd' = some conn) : h = h' := by
  have hfd := hw.owned.sound (.inr h) fd conn hown
  have hfd' := hw.owned.sound (.inr h') fd' conn hown'
  obtain rfl := hw.distinct fd fd' conn hfd hfd'
  exact Sum.inr.inj (hw.owned.disjoint (.inr h) (.inr h') fd conn conn hown hown')

theorem Sane.own_of_asks {n : Net W H A} (hs : Sane n) {h : Fin H} {conn : Nat} {command : Command}
    (hasks : (n.phase h).asks = some (conn, command)) : ∃ fd, n.own h fd = some conn := by
  have hok := (hs.handlers h).phase
  cases hphase : n.phase h with
  | asking fd c cmd | awaiting fd c cmd id | answering fd c cmd id reply =>
    rw [hphase] at hasks hok
    cases hasks
    exact ⟨fd, hok.1⟩
  | _ =>
    rw [hphase] at hasks
    cases hasks

namespace Served

variable {n n' : Net W H A} {h : Fin H}

/-- A step at which nothing is read or written. -/
theorem keep (hv : Served n) (hledger : Ledger n'.server) (hsane : Sane n')
    (hexecuted : n.server.executed ⊆ n'.server.executed) (hasked : n'.asked = n.asked)
    (hwritten : n'.written = n.written) (hasks : ∀ h, (n'.phase h).asks = (n.phase h).asks)
    (htask : ∀ h id, (n'.phase h).task = some id →
      (n.phase h).task = some id ∨ ∀ e ∈ n.server.executed, e.task.id < id)
    (htasks : ∀ h, TaskOk n'.server h (n'.phase h)) : Served n' := by
  refine ⟨hledger, hsane, htasks, fun conn => quiet (hv.answered conn) hexecuted ?_ ?_ ?_ htask⟩
  · unfold Net.askedBy
    rw [hasked]
  · unfold Net.writtenTo
    rw [hwritten]
  · intro h command
    rw [hasks]

/-- A step of a listener or of the kernel. -/
theorem still (hv : Served n) (hsane : Sane n') (hserver : n'.server = n.server)
    (hasked : n'.asked = n.asked) (hwritten : n'.written = n.written)
    (hphase : n'.phase = n.phase) : Served n' := by
  refine hv.keep ?_ hsane ?_ hasked hwritten ?_ ?_ ?_
  · exact hserver ▸ hv.ledger
  · rw [hserver]
    exact fun _ => id
  · intro h
    rw [hphase]
  · intro h id hid
    rw [hphase] at hid
    exact .inl hid
  · rw [hserver, hphase]
    exact hv.tasks

/-- A handler goes to a phase in which it works on the same command, or on
none as before. -/
theorem turn (hv : Served n) (phase : Phase) (hledger : Ledger n'.server) (hsane : Sane n')
    (hexecuted : n.server.executed ⊆ n'.server.executed)
    (hdispatched : n.server.dispatched ⊆ n'.server.dispatched)
    (hwaiting : ∀ h', h' ≠ h → n'.server.waiting h' = n.server.waiting h')
    (hasked : n'.asked = n.asked) (hwritten : n'.written = n.written)
    (hphase : n'.phase = Function.update n.phase h phase) (hasks : phase.asks = (n.phase h).asks)
    (htask : ∀ id, phase.task = some id →
      (n.phase h).task = some id ∨ ∀ e ∈ n.server.executed, e.task.id < id)
    (hok : TaskOk n'.server h phase) : Served n' := by
  have hself : n'.phase h = phase := by rw [hphase, Function.update_self]
  have hother : ∀ h', h' ≠ h → n'.phase h' = n.phase h' := fun h' hh => by
    rw [hphase, Function.update_of_ne hh]
  refine hv.keep hledger hsane hexecuted hasked hwritten ?_ ?_ ?_
  · intro h'
    by_cases hh : h' = h
    · rw [hh, hself, hasks]
    · rw [hother h' hh]
  · intro h' id hid
    by_cases hh : h' = h
    · subst hh
      rw [hself] at hid
      exact htask id hid
    · rw [hother h' hh] at hid
      exact .inl hid
  · intro h'
    by_cases hh : h' = h
    · subst hh
      rw [hself]
      exact hok
    · rw [hother h' hh]
      exact (hv.tasks h').mono (hwaiting h' hh) hdispatched hexecuted

/-- In the phases without a command the handler waits for no reply. -/
theorem taskOk_idle {s : State W H} {phase : Phase} (hidle : phase.asks = none) :
    TaskOk s h phase ↔ s.waiting h = none := by
  cases phase with
  | asking | awaiting | answering => cases hidle
  | _ => exact Iff.rfl

theorem goto (hv : Served n) (phase : Phase) (hsane : Sane n') (hserver : n'.server = n.server)
    (hasked : n'.asked = n.asked) (hwritten : n'.written = n.written)
    (hphase : n'.phase = Function.update n.phase h phase) (hold : (n.phase h).asks = none)
    (hnew : phase.asks = none) : Served n' := by
  refine hv.turn phase ?_ hsane ?_ ?_ ?_ hasked hwritten hphase (hnew.trans hold.symm) ?_ ?_
  · exact hserver ▸ hv.ledger
  · exact hserver ▸ List.Subset.refl _
  · exact hserver ▸ List.Subset.refl _
  · exact fun _ _ => hserver ▸ rfl
  · intro id hid
    cases phase with
    | asking | awaiting | answering => cases hnew
    | _ => cases hid
  · rw [hserver, taskOk_idle hnew]
    exact (taskOk_idle hold).1 (hv.tasks h)

/-- A worker takes or executes a task. -/
theorem work (hv : Served n) {s : State W H} (hledger : Ledger s)
    (hwaiting : s.waiting = n.server.waiting) (hdispatched : s.dispatched = n.server.dispatched)
    (hexecuted : n.server.executed ⊆ s.executed) (hsane : Sane { n with server := s }) :
    Served { n with server := s } := by
  refine hv.keep hledger hsane hexecuted rfl rfl (fun _ => rfl) (fun _ _ => .inl) fun h => ?_
  exact (hv.tasks h).mono (congrFun hwaiting h) (hdispatched ▸ fun _ => id) hexecuted

/-- A command comes from a connection that no handler works for. -/
theorem read (hv : Served n) {fd conn : Nat} (command : Command)
    (hphase : n.phase h = .reading fd conn)
    (hsane : Sane { n.goto h (.asking fd conn command) with
      asked := n.asked ++ [(conn, command)] }) :
    Served { n.goto h (.asking fd conn command) with asked := n.asked ++ [(conn, command)] } := by
  have hself : Function.update n.phase h (.asking fd conn command) h = .asking fd conn command :=
    Function.update_self ..
  have hother : ∀ h', h' ≠ h →
      Function.update n.phase h (.asking fd conn command) h' = n.phase h' :=
    fun h' hh => Function.update_of_ne hh ..
  have hwaiting : TaskOk n.server h (.reading fd conn) := hphase ▸ hv.tasks h
  refine ⟨hv.ledger, hsane, fun h' => ?_, fun c => ?_⟩
  · show TaskOk n.server h' (Function.update n.phase h _ h')
    by_cases hh : h' = h
    · subst hh
      rw [hself]
      exact hwaiting
    · rw [hother h' hh]
      exact hv.tasks h'
  · by_cases hc : c = conn
    · subst hc
      obtain ⟨done, hdone, hpending⟩ := hv.answered c
      refine ⟨done, ⟨hdone.executed, hdone.once, hdone.replies⟩, ?_⟩
      rcases hpending with ⟨hall, -⟩ | ⟨h', command', hask, -, -⟩
      · refine .inr ⟨h, command, ?_, ?_, ?_⟩
        · exact congrArg Phase.asks hself
        · show ((n.asked ++ [(c, command)]).filter (·.1 = c)).map (·.2) = _
          rw [List.filter_append, List.map_append]
          simpa [Net.askedBy] using hall
        · intro id hid
          cases (congrArg Phase.task hself).symm.trans hid
      · -- the handler that works for the connection is the one that reads
        obtain ⟨fd', hown'⟩ := hv.sane.own_of_asks hask
        have hown := (hv.sane.phaseOk hphase).1
        obtain rfl := hv.sane.wired.sole hown hown'
        rw [hphase] at hask
        cases hask
    · refine quiet (hv.answered c) (fun _ => id) ?_ rfl ?_ ?_
      · show ((n.asked ++ [(conn, command)]).filter (·.1 = c)).map (·.2) = _
        rw [List.filter_append, List.map_append]
        simp [Net.askedBy, Ne.symm hc]
      · intro h' command'
        show (Function.update n.phase h _ h').asks = _ ↔ _
        by_cases hh : h' = h
        · subst hh
          rw [hself, hphase]
          simp [Phase.asks, Ne.symm hc]
        · rw [hother h' hh]
      · intro h' id hid
        have hid : (Function.update n.phase h (.asking fd conn command) h').task = some id := hid
        by_cases hh : h' = h
        · rw [hh, hself] at hid
          cases hid
        · rw [hother h' hh] at hid
          exact .inl hid

/-- The handler dispatches the command as a task with a new id. -/
theorem dispatch (hv : Served n) {fd conn : Nat} {command : Command} {s : State W H} {w : Fin W}
    (hphase : n.phase h = .asking fd conn command)
    (hs : s = n.server.send w ⟨n.server.dispatched.length, h, command⟩) (hledger : Ledger s)
    (hsane : Sane { n.goto h (.awaiting fd conn command n.server.dispatched.length) with
      server := s }) :
    Served { n.goto h (.awaiting fd conn command n.server.dispatched.length) with
      server := s } := by
  subst hs
  refine hv.turn (.awaiting fd conn command n.server.dispatched.length) hledger hsane
    (List.Subset.refl _) (fun _ => List.mem_append_left _)
    (fun h' hh => Function.update_of_ne hh ..) rfl rfl rfl (hphase ▸ rfl) ?_ ?_
  · intro id hid
    cases hid
    refine .inr fun e he => ?_
    exact hv.ledger.id_lt (hv.ledger.mem_dispatched.2 (.inr (List.mem_map_of_mem he)))
  · exact ⟨Function.update_self .., List.mem_append_right _ (List.mem_singleton_self _)⟩

/-- The handler receives the reply of an execution of its task. -/
theorem receive (hv : Served n) {fd conn id : Nat} {command : Command} {reply : Bytes}
    {rest : List Bytes} {s : State W H} (hphase : n.phase h = .awaiting fd conn command id)
    (hreply : n.server.replyCh id = reply :: rest)
    (hs : s = n.server.deliver h id reply rest) (hledger : Ledger s)
    (hsane : Sane { n.goto h (.answering fd conn command id reply) with server := s }) :
    Served { n.goto h (.answering fd conn command id reply) with server := s } := by
  subst hs
  obtain ⟨-, htask⟩ : TaskOk n.server h (.awaiting fd conn command id) := hphase ▸ hv.tasks h
  -- what stands in the channel was sent by an execution of the task
  obtain ⟨e, he, heid, hereply⟩ : ∃ e ∈ n.server.executed, e.task.id = id ∧ e.reply = reply := by
    have hsent : reply ∈ n.server.sent id := by
      unfold State.sent
      rw [hreply]
      exact List.mem_append_right _ List.mem_cons_self
    rw [hv.ledger.channels] at hsent
    obtain ⟨e, he, heq⟩ := List.mem_map.1 hsent
    obtain ⟨he, hid⟩ := List.mem_filter.1 he
    exact ⟨e, he, of_decide_eq_true hid, heq⟩
  have hetask : e.task = ⟨id, h, command⟩ := by
    have hmem := hv.ledger.mem_dispatched.2 (.inr (List.mem_map_of_mem he))
    exact hv.ledger.task_inj hmem htask heid
  refine hv.turn (.answering fd conn command id reply) hledger hsane (List.Subset.refl _)
    (List.Subset.refl _) (fun h' hh => Function.update_of_ne hh ..) rfl rfl rfl (hphase ▸ rfl) ?_ ?_
  · intro i hi
    rw [hphase]
    exact .inl hi
  · exact ⟨Function.update_self .., e, he, heid, by rw [hetask], hereply⟩

/-- The reply goes to the connection the command came from. -/
theorem write (hv : Served n) {count fd conn id : Nat} {command : Command} {reply : Bytes}
    (hphase : n.phase h = .answering fd conn command id reply)
    (hsane : Sane ((n.write fd reply count).goto h .polling)) :
    Served ((n.write fd reply count).goto h .polling) := by
  have hown := (hv.sane.phaseOk hphase).1
  have hfd : n.fds fd = some conn := hv.sane.wired.owned.sound (.inr h) fd conn hown
  have hwrite : (n.write fd reply count).goto h .polling =
      { n.goto h .polling with
        written := n.written ++ [⟨conn, reply, count⟩]
        received := Function.update n.received conn (n.received conn ++ reply.take count) } := by
    unfold Net.write
    rw [hfd]
    rfl
  rw [hwrite] at hsane ⊢
  have hself : Function.update n.phase h .polling h = _ := Function.update_self ..
  have hother : ∀ h', h' ≠ h → Function.update n.phase h .polling h' = n.phase h' :=
    fun h' hh => Function.update_of_ne hh ..
  obtain ⟨hwaiting, e, he, heid, hecommand, hereply⟩ :
      TaskOk n.server h (.answering fd conn command id reply) := hphase ▸ hv.tasks h
  have hasks : (n.phase h).asks = some (conn, command) := by rw [hphase]; rfl
  refine ⟨hv.ledger, hsane, fun h' => ?_, fun c => ?_⟩
  · show TaskOk n.server h' (Function.update n.phase h _ h')
    by_cases hh : h' = h
    · subst hh
      rw [hself]
      exact hwaiting
    · rw [hother h' hh]
      exact hv.tasks h'
  · by_cases hc : c = conn
    · subst hc
      obtain ⟨done, hdone, hpending⟩ := hv.answered c
      rcases hpending with ⟨-, hnone⟩ | ⟨h', command', hask, hlast, hid⟩
      · exact absurd hasks (hnone h command)
      · have hsole : ∀ {h'' cmd}, (n.phase h'').asks = some (c, cmd) → h = h'' := by
          intro h'' cmd hask
          obtain ⟨fd', hown'⟩ := hv.sane.own_of_asks hask
          exact hv.sane.wired.sole hown hown'
        obtain rfl := hsole hask
        obtain rfl : command = command' := by
          rw [hasks] at hask
          exact congrArg Prod.snd (Option.some.inj hask)
        have hlater : ∀ d ∈ done, d.task.id < e.task.id := by
          rw [heid]
          exact hid id (by rw [hphase]; rfl)
        refine ⟨done ++ [e], ⟨?_, ?_, ?_⟩, .inl ⟨?_, ?_⟩⟩
        · intro d hd
          rcases List.mem_append.1 hd with hd | hd
          · exact hdone.executed d hd
          · exact List.mem_singleton.1 hd ▸ he
        · rw [List.map_append, List.pairwise_append]
          refine ⟨hdone.once, List.pairwise_singleton _ _, ?_⟩
          intro i hi j hj
          obtain ⟨d, hd, rfl⟩ := List.mem_map.1 hi
          rw [List.map_singleton, List.mem_singleton] at hj
          rw [hj]
          exact hlater d hd
        · rw [Net.writtenTo_append (n := n) rfl, List.map_append, List.map_append, hdone.replies]
          simp [hereply]
        · show n.askedBy c = _
          rw [hlast, List.map_append, List.map_singleton, hecommand]
        · intro h'' cmd hask''
          have hask'' : (Function.update n.phase h .polling h'').asks = some (c, cmd) := hask''
          by_cases hh : h'' = h
          · rw [hh, hself] at hask''
            cases hask''
          · rw [hother h'' hh] at hask''
            exact hh (hsole hask'').symm
    · refine quiet (hv.answered c) (List.Subset.refl _) rfl ?_ ?_ ?_
      · rw [Net.writtenTo_append rfl]
        simp [Net.writtenTo, Ne.symm hc]
      · intro h' command'
        show (Function.update n.phase h _ h').asks = _ ↔ _
        by_cases hh : h' = h
        · subst hh
          rw [hself, hphase]
          simp [Phase.asks, Ne.symm hc]
        · rw [hother h' hh]
      · intro h' i hid
        have hid : (Function.update n.phase h .polling h').task = some i := hid
        by_cases hh : h' = h
        · rw [hh, hself] at hid
          cases hid
        · rw [hother h' hh] at hid
          exact .inl hid

end Served

theorem Served.step {n n' : Net (W + 1) H A} {act : NetAction (W + 1) H A} (hv : Served n)
    (hstep : netStep cfg hash n act = some n') : Served n' := by
  have hsane := hv.sane.step hstep
  cases netTransition_of_step hstep with
  | take w s hs =>
    have hledger := hv.ledger.step hs
    cases transition_of_step hs with
    | take w task rest hcurrent hqueue => exact hv.work hledger rfl rfl (fun _ => id) hsane
  | execute w env s hs =>
    have hledger := hv.ledger.step hs
    cases transition_of_step hs with
    | execute w env task hcurrent =>
      exact hv.work hledger rfl rfl (fun _ => List.mem_append_left _) hsane
  | accept a fd hacc hfd => exact hv.still hsane rfl rfl rfl rfl
  | add a h conn fd hacc hmu => exact hv.still hsane rfl rfl rfl rfl
  | monitor a ok conn fd h hacc => exact hv.still hsane rfl rfl rfl rfl
  | refuse a conn fd hacc => exact hv.still hsane rfl rfl rfl rfl
  | wait h ready hphase _ hnodup hready => exact hv.still hsane rfl rfl rfl rfl
  | miss h fd rest hphase hevents hmu hconn => exact hv.still hsane rfl rfl rfl rfl
  | find h fd conn rest hphase hevents hmu hconn =>
    exact hv.goto (.reading fd conn) hsane rfl rfl rfl rfl (hphase ▸ rfl) rfl
  | fail h fd conn hphase =>
    exact hv.goto (.closing fd) hsane rfl rfl rfl rfl (hphase ▸ rfl) rfl
  | gone h fd hphase hmu hconn =>
    exact hv.goto .polling hsane rfl rfl rfl rfl (hphase ▸ rfl) rfl
  | close h fd conn hphase hmu hconn =>
    exact hv.goto (.closed fd conn) hsane rfl rfl rfl rfl (hphase ▸ rfl) rfl
  | delete h fd conn hphase =>
    exact hv.goto .polling hsane rfl rfl rfl rfl (hphase ▸ rfl) rfl
  | read h fd conn command hphase => exact hv.read command hphase hsane
  | dispatch h any fd conn command s hphase hs =>
    have hledger := hv.ledger.step hs
    cases transition_of_step hs with
    | dispatch h command any hwaiting => exact hv.dispatch hphase rfl hledger hsane
  | receive h fd conn id command reply rest s hphase hreply hs =>
    have hledger := hv.ledger.step hs
    obtain ⟨hwaiting, -⟩ : TaskOk n.server h (.awaiting fd conn command id) := hphase ▸ hv.tasks h
    cases transition_of_step hs with
    | receive h id' reply' rest' hwaiting' hreply' =>
      obtain rfl : id = id' := Option.some.inj (hwaiting.symm.trans hwaiting')
      obtain ⟨rfl, rfl⟩ := List.cons_eq_cons.1 (hreply.symm.trans hreply')
      exact hv.receive hphase hreply rfl hledger hsane
  | write h count fd conn id command reply hphase => exact hv.write hphase hsane

/-- The runs of a server with `W + 1` workers, `H` handlers and `A` listeners. -/
abbrev NetRun (cfg : Config) (hash : Bytes → UInt32) (W H A : Nat) :=
  Run (netStep (W := W) (H := H) (A := A) cfg hash) (Net.init (W + 1) H A)

theorem served_run (r : NetRun cfg hash W H A) (n : Nat) : Served (r.state n) :=
  r.along served_init (fun _ _ _ hstep h => h.step hstep) n

/-- A connection got what the kernel took of each reply written to it. -/
def Received (n : Net W H A) : Prop :=
  ∀ conn, n.received conn = (n.writtenTo conn).flatMap fun d => d.reply.take d.count

theorem Received.write {n : Net W H A} (hr : Received n) (fd count : Nat) (reply : Bytes)
    (h : Fin H) : Received ((n.write fd reply count).goto h .polling) := by
  unfold Net.write
  split
  · rename_i conn hfd
    intro c
    rw [Net.writtenTo_append rfl, List.flatMap_append]
    show Function.update n.received conn (n.received conn ++ reply.take count) c =
      (n.writtenTo c).flatMap _ ++ _
    rw [← hr c]
    by_cases hc : c = conn
    · simp [hc]
    · simp [Function.update_of_ne hc, Ne.symm hc]
  · exact hr

theorem Received.step {n n' : Net (W + 1) H A} {act : NetAction (W + 1) H A} (hr : Received n)
    (hstep : netStep cfg hash n act = some n') : Received n' := by
  cases netTransition_of_step hstep with
  | write h count fd conn id command reply hphase => exact hr.write fd count reply h
  | _ => exact hr

theorem received_run (r : NetRun cfg hash W H A) (n : Nat) : Received (r.state n) :=
  r.along (fun _ => rfl) (fun _ _ _ hstep h => h.step hstep) n

/-! ## The main results -/

/-- In every run, whatever the interleaving and however numbers are reused,
an open descriptor has exactly one owner, a listener that has just accepted
it or a handler, and owners have only what is open. What a handler monitors,
has an event for or is about to close is a connection of its own, so a lookup
in `Run` and in `closeConn` always finds it. -/
theorem descriptors_owned (cfg : Config) (hash : Bytes → UInt32) (r : NetRun cfg hash W H A)
    (n : Nat) :
    (∀ fd conn, (r.state n).fds fd = some conn → ∃! i, (r.state n).part i fd = some conn) ∧
      (∀ i fd conn, (r.state n).part i fd = some conn → (r.state n).fds fd = some conn) ∧
      ∀ h fd, (r.state n).interest h fd = true ∨ fd ∈ (r.state n).events h ∨
        (r.state n).phase h = .closing fd → ∃ conn, (r.state n).own h fd = some conn := by
  have hs := (served_run r n).sane
  refine ⟨?_, hs.wired.owned.sound, ?_⟩
  · intro fd conn hfd
    obtain ⟨i, hi⟩ := hs.wired.owned.complete fd conn hfd
    exact ⟨i, hi, fun j hj => hs.wired.owned.disjoint j i fd conn conn hj hi⟩
  · rintro h fd (hwatched | hevent | hphase)
    · exact (hs.handlers h).watched fd hwatched
    · exact (hs.handlers h).events fd hevent
    · exact (hs.phaseOk hphase).1

/-- In every run, the bytes that a connection gets are what the kernel took of
the replies of executions of its own commands, in the order in which these were
read from it, each executed for it once; and to all of its commands but perhaps
the last the reply has been written. -/
theorem replies_reach_client (cfg : Config) (hash : Bytes → UInt32) (r : NetRun cfg hash W H A)
    (n conn : Nat) :
    ∃ done : List (Execution H),
      done.map (·.reply) = ((r.state n).writtenTo conn).map (·.reply) ∧
      (r.state n).received conn =
        ((r.state n).writtenTo conn).flatMap (fun d => d.reply.take d.count) ∧
      done.map (·.task.command) <+: (r.state n).askedBy conn ∧
      ((r.state n).askedBy conn).length ≤ done.length + 1 ∧
      (∀ e ∈ done, e ∈ (r.state n).server.executed) ∧
      (done.map (·.task.id)).Pairwise (· < ·) := by
  obtain ⟨done, hdone, hpending⟩ := (served_run r n).answered conn
  refine ⟨done, hdone.replies, received_run r n conn, ?_, ?_, hdone.executed, hdone.once⟩
  · rcases hpending with ⟨hall, -⟩ | ⟨h, command, -, hlast, -⟩
    · rw [hall]
    · rw [hlast]
      exact List.prefix_append _ _
  · rcases hpending with ⟨hall, -⟩ | ⟨h, command, -, hlast, -⟩
    · rw [hall, List.length_map]
      exact Nat.le_succ _
    · rw [hlast, List.length_append, List.length_map]
      exact Nat.le_refl _

/-- The number of a connection that was closed is given to the next one, whose
first reply the kernel cuts after three bytes. -/
example : ((runActions (netStep (W := 0) (H := 1) (A := 1) ⟨10, 1, .allkeysRandom, 16, 5⟩ fun _ => 0)
    [.accept 0 7, .add 0 0, .monitor 0 true, .wait 0 [7], .find 0, .read 0 none, .close 0,
      .accept 0 7, .delete 0, .add 0 0, .monitor 0 true, .wait 0 [7], .find 0,
      .read 0 (some ⟨lit "PING", []⟩), .dispatch 0 0, .take 0, .execute 0 default, .receive 0,
      .write 0 3, .wait 0 [7], .find 0, .read 0 (some ⟨lit "PING", []⟩), .dispatch 0 0, .take 0,
      .execute 0 default, .receive 0, .write 0 7]
      (Net.init 1 1 1)).map fun n => (n.received 0, n.received 1)) =
    some ([], lit "+PO+PONG\r\n") := by decide +kernel

end RediGo.Server
