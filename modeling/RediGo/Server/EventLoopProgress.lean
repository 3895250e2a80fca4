/-
RediGo.Server.EventLoopProgress — every request to the single-threaded server
gets its turn.

`Wait` reports a connection as long as there is something to read, since the
descriptors are monitored without `EPOLLET`, and the loop handles all events
of one `Wait` before it calls the next. `FairLoop` says that they do so: the
kernel reports a connection in the end, the loop goes on to the next event,
and a read of bytes that are there does not fail. Then all that a client has
sent by some time is read later, whatever the clients send, unless the process
ends or the connection is closed before (`everything_read`). A connection is
closed only if it was reset, if its client has hung up, or if a reply to it
could not be written (`dropped_of_closed`).

For the courteous clients of `RediGo.Server.EventLoopTheorems` what is read is
answered, so each of their requests gets its reply (`clients_served`).
-/
import RediGo.Server.EventLoopTheorems

namespace RediGo.Server

open RediGo.Go RediGo.HashTable RediGo.Core RediGo.Lib

variable {deps : Deps} {s s' : Loop} {a : LoopAction} {conn : Nat}

/-! ## Events -/

/-- The step handles an event. -/
def LoopAction.Takes : LoopAction → Prop
  | .accept _ => True
  | .handle _ _ _ => True
  | _ => False

theorem LoopAction.Fails.takes {e : LoopEvent} (h : a.Fails e) : a.Takes := by
  cases a with
  | accept => trivial
  | handle => trivial
  | _ => exact h

theorem LoopAction.Ends.takes (h : a.Ends) : a.Takes := by
  cases a with
  | accept => trivial
  | handle => trivial
  | _ => exact h

namespace Loop

/-- What a read changes, but for the stores and the records. -/
structure ReadFrom (s s' : Loop) (fd conn n : Nat) (delivered : Bool) : Prop where
  events : s'.events = s.events
  requests : s'.requests = s.requests
  opened : s'.opened = s.opened
  unread : s'.unread = Function.update s.unread conn ((s.unread conn).drop n)
  fds : s'.fds = s.fds ∨ delivered = false ∧ s'.fds = Function.update s.fds fd none

theorem readFrom_receive (deps : Deps) (env : Env) (s : Loop) (fd conn n : Nat) (delivered : Bool) :
    s.ReadFrom (s.receive deps env fd conn n delivered) fd conn n delivered := by
  rcases receive_cases deps env s fd conn n delivered with heq | heq | ⟨cmd, -, heq⟩
  · rw [heq]
    exact ⟨rfl, rfl, rfl, rfl, .inl rfl⟩
  · rw [heq]
    exact ⟨rfl, rfl, rfl, rfl, .inl rfl⟩
  · rw [heq]
    rcases answer_cases deps env (s.drained conn n) fd conn cmd delivered with
      ⟨-, -, heq⟩ | ⟨reply, stores, -, heq⟩
    · rw [heq]
      exact ⟨rfl, rfl, rfl, rfl, .inl rfl⟩
    · rw [heq]
      cases delivered with
      | true => exact ⟨rfl, rfl, rfl, rfl, .inl rfl⟩
      | false => exact ⟨rfl, rfl, rfl, rfl, .inr ⟨rfl, rfl⟩⟩

end Loop

/-- The events are taken one by one, and nothing else changes the list before
it is empty. -/
theorem events_step (ht : LoopTransition deps s a s') :
    (¬ a.Takes ∧ (s.events ≠ [] → s'.events = s.events)) ∨
      a.Takes ∧ ∃ e, s.events = e :: s'.events := by
  cases ht with
  | send => exact .inl ⟨id, fun _ => rfl⟩
  | hangUp => exact .inl ⟨id, fun _ => rfl⟩
  | expire env hup hidle => exact .inl ⟨id, fun hne => absurd hidle hne⟩
  | wait hup hidle => exact .inl ⟨id, fun hne => absurd hidle hne⟩
  | skip hup hevents hfails => exact .inr ⟨hfails.takes, _, hevents⟩
  | accept hup hevents => exact .inr ⟨trivial, _, hevents⟩
  | die hup hevents => exact .inr ⟨trivial, _, hevents⟩
  | close hup hevents hfd hends => exact .inr ⟨hends.takes, _, hevents⟩
  | @receive fd conn n rest env delivered hup hevents =>
    refine .inr ⟨trivial, .conn fd, ?_⟩
    rw [(Loop.readFrom_receive ..).events]
    exact hevents

theorem eq_pop_of_wait {ready : List LoopEvent} (h : loopStep deps s (.wait ready) = some s') :
    s' = s.pop ready := by
  cases transition_of_loopStep h with
  | wait => rfl
  | skip hup hevents hfails => cases hfails
  | close hup hevents hfd hends => cases hends

/-! ## Connections -/

/-- The step closes the connection: it was reset or has ended, or a reply to it
could not be written. -/
def Loop.Drops (s : Loop) (a : LoopAction) (conn : Nat) : Prop :=
  ∃ fd rest, s.events = .conn fd :: rest ∧ s.fds fd = some conn ∧
    (a.Ends ∨ ∃ n env, a = .handle (.bytes n) env false)

theorem fds_step (ht : LoopTransition deps s a s') :
    (s'.fds = s.fds ∧ s'.opened = s.opened) ∨
      (∃ fd, s.fds fd = none ∧ s'.fds = Function.update s.fds fd (some s.opened) ∧
        s'.opened = s.opened + 1) ∨
      ∃ fd conn, s.fds fd = some conn ∧ s.Drops a conn ∧
        s'.fds = Function.update s.fds fd none ∧ s'.opened = s.opened := by
  cases ht with
  | expire env =>
    rcases Loop.expire_cases env s with ⟨-, -, heq⟩ | ⟨keyspace, -, heq⟩ <;> rw [heq] <;>
      exact .inl ⟨rfl, rfl⟩
  | @accept fd rest hup hevents hfd => exact .inr (.inl ⟨fd, hfd, rfl, rfl⟩)
  | @close _ fd conn rest hup hevents hfd hends =>
    exact .inr (.inr ⟨fd, conn, hfd, ⟨fd, rest, hevents, hfd, .inl hends⟩, rfl, rfl⟩)
  | @receive fd conn n rest env delivered hup hevents hfd =>
    have hread := Loop.readFrom_receive deps env (s.pop rest) fd conn n delivered
    rcases hread.fds with hsame | ⟨rfl, hclosed⟩
    · exact .inl ⟨hsame, hread.opened⟩
    · exact .inr (.inr ⟨fd, conn, hfd, ⟨fd, rest, hevents, hfd, .inr ⟨n, env, rfl⟩⟩, hclosed,
        hread.opened⟩)
  | _ => exact .inl ⟨rfl, rfl⟩

/-- A connection gets its descriptor when it is accepted. -/
theorem fds_of_step {fd : Nat} (ht : LoopTransition deps s a s') (hconn : conn < s.opened)
    (h : s'.fds fd = some conn) : s.fds fd = some conn := by
  rcases fds_step ht with ⟨hfds, -⟩ | ⟨fd', -, hfds, -⟩ | ⟨fd', c, -, -, hfds, -⟩
  · rwa [hfds] at h
  · rw [hfds] at h
    by_cases heq : fd = fd'
    · simp only [heq, Function.update_self, Option.some.injEq] at h
      omega
    · rwa [Function.update_of_ne heq] at h
  · rw [hfds] at h
    by_cases heq : fd = fd'
    · simp [heq] at h
    · rwa [Function.update_of_ne heq] at h

/-- A connection that is not open any more was closed. -/
theorem dropped_of_closed (r : LoopRun deps) {n : Nat} (hconn : conn < (r.state n).opened)
    (hclosed : ∀ fd, (r.state n).fds fd ≠ some conn) :
    ∃ k < n, ∃ a, r.action k = some a ∧ (r.state k).Drops a conn := by
  refine r.exists_cause (G := fun s => conn < s.opened ∧ ∀ fd, s.fds fd ≠ some conn)
    (E := fun s a => s.Drops a conn) (by simp [Loop.init]) ?_ ⟨hconn, hclosed⟩
  rintro s a s' hbefore ⟨hconn', hclosed'⟩ hstep
  rcases fds_step (transition_of_loopStep hstep) with
    ⟨hfds, hopened⟩ | ⟨fd, hfd, hfds, hopened⟩ | ⟨fd, c, hfd, hdrops, hfds, hopened⟩
  · rw [hfds] at hclosed'
    rw [hopened] at hconn'
    exact absurd ⟨hconn', hclosed'⟩ hbefore
  · -- the connection is not the one that was accepted
    have hne : conn ≠ s.opened := by
      rintro rfl
      exact hclosed' fd (by simp [hfds])
    refine absurd ⟨by omega, fun fd' hfd' => hclosed' fd' ?_⟩ hbefore
    have hother : fd' ≠ fd := by
      rintro rfl
      simp [hfd] at hfd'
    rwa [hfds, Function.update_of_ne hother]
  · by_cases hc : c = conn
    · exact hc ▸ hdrops
    · refine absurd ⟨by omega, fun fd' hfd' => hclosed' fd' ?_⟩ hbefore
      have hother : fd' ≠ fd := by
        rintro rfl
        exact hc (Option.some.inj (hfd.symm.trans hfd'))
      rwa [hfds, Function.update_of_ne hother]

/-! ## What is sent and what is read -/

theorem unread_step (ht : LoopTransition deps s a s') (conn : Nat) :
    (∃ more, s'.requests conn = s.requests conn ++ more ∧
        s'.unread conn = s.unread conn ++ more.flatten) ∨
      ∃ n, s'.requests conn = s.requests conn ∧ s'.unread conn = (s.unread conn).drop n := by
  cases ht with
  | @send c bytes =>
    by_cases hc : conn = c
    · subst hc
      exact .inl ⟨[bytes], by simp [Loop.sent]⟩
    · exact .inl ⟨[], by simp [Loop.sent, hc]⟩
  | expire env =>
    rcases Loop.expire_cases env s with ⟨-, -, heq⟩ | ⟨keyspace, -, heq⟩ <;> rw [heq] <;>
      exact .inr ⟨0, rfl, rfl⟩
  | @receive fd c n rest env delivered =>
    have hread := Loop.readFrom_receive deps env (s.pop rest) fd c n delivered
    by_cases hc : conn = c
    · subst hc
      refine .inr ⟨n, congrFun hread.requests conn, ?_⟩
      rw [hread.unread, Function.update_self]
      rfl
    · refine .inr ⟨0, congrFun hread.requests conn, ?_⟩
      rw [hread.unread, Function.update_of_ne hc]
      rfl
  | _ => exact .inr ⟨0, rfl, rfl⟩

/-- What is not read yet was sent last. -/
theorem unread_suffix (r : LoopRun deps) (n conn : Nat) :
    (r.state n).unread conn <:+ ((r.state n).requests conn).flatten := by
  refine r.along (I := fun s => s.unread conn <:+ (s.requests conn).flatten) ?_ ?_ n
  · exact List.suffix_refl _
  · intro n a _ hstep hI
    rcases unread_step (transition_of_loopStep hstep) conn with ⟨more, hreq, hun⟩ | ⟨k, hreq, hun⟩
    · obtain ⟨before, hbefore⟩ := hI
      exact ⟨before, by simp [hreq, hun, ← hbefore]⟩
    · rw [hreq, hun]
      exact (List.drop_suffix k _).trans hI

theorem requests_mono (r : LoopRun deps) {n m : Nat} (hnm : n ≤ m) (conn : Nat) :
    (r.state n).requests conn <+: (r.state m).requests conn := by
  refine r.stable (G := fun s => (r.state n).requests conn <+: s.requests conn) ?_
    (List.prefix_refl _) hnm
  intro s a s' hG hstep
  rcases unread_step (transition_of_loopStep hstep) conn with ⟨more, hreq, -⟩ | ⟨k, hreq, -⟩
  · rw [hreq]
    exact hG.trans (List.prefix_append _ _)
  · rwa [hreq]

theorem opened_le (r : LoopRun deps) {n m : Nat} (hnm : n ≤ m) :
    (r.state n).opened ≤ (r.state m).opened := by
  refine r.stable (G := fun s => (r.state n).opened ≤ s.opened) ?_ (Nat.le_refl _) hnm
  intro s a s' hG hstep
  rcases fds_step (transition_of_loopStep hstep) with
    ⟨-, hopened⟩ | ⟨fd, -, -, hopened⟩ | ⟨fd, c, -, -, -, hopened⟩ <;> omega

/-- The number of bytes read from a connection. -/
def Loop.readCount (s : Loop) (conn : Nat) : Nat :=
  (s.requests conn).flatten.length - (s.unread conn).length

theorem readCount_step (ht : LoopTransition deps s a s') (conn : Nat) :
    s.readCount conn ≤ s'.readCount conn := by
  unfold Loop.readCount
  rcases unread_step ht conn with ⟨more, hreq, hun⟩ | ⟨k, hreq, hun⟩
  · simp only [hreq, hun, List.flatten_append, List.length_append]
    omega
  · simp only [hreq, hun, List.length_drop]
    omega

theorem readCount_le (r : LoopRun deps) {n m : Nat} (hnm : n ≤ m) (conn : Nat) :
    (r.state n).readCount conn ≤ (r.state m).readCount conn :=
  r.stable (G := fun s => (r.state n).readCount conn ≤ s.readCount conn)
    (fun hG hstep => hG.trans (readCount_step (transition_of_loopStep hstep) conn)) (Nat.le_refl _) hnm

/-! ## Turns -/

/-- A connection is open and has something to read. -/
structure Loop.Pending (s : Loop) (conn : Nat) : Prop where
  up : s.crashed = false
  isOpen : ∃ fd, s.fds fd = some conn
  unread : s.unread conn ≠ []

/-- Its event is among those that `Wait` has reported, of which `k` are left. -/
structure Loop.Queued (s : Loop) (conn k : Nat) : Prop where
  pending : s.Pending conn
  listed : ∃ fd, s.fds fd = some conn ∧ .conn fd ∈ s.events
  left : s.events.length = k

namespace Loop

/-- Its event is handled: it is read, or closed. -/
theorem Pending.turn {fd : Nat} {rest : List LoopEvent} (hw : s.Wired)
    (hsent : s.unread conn <:+ (s.requests conn).flatten) (hevents : s.events = .conn fd :: rest)
    (hfd : s.fds fd = some conn) (ht : LoopTransition deps s a s') (htakes : a.Takes)
    (hfails : ¬ a.Fails (.conn fd)) : ¬ s'.Pending conn ∨ s.readCount conn < s'.readCount conn := by
  cases ht with
  | skip hup hevents' hfails' =>
    cases hevents.symm.trans hevents'
    exact absurd hfails' hfails
  | accept hup hevents' => cases hevents.symm.trans hevents'
  | die hup hevents' => cases hevents.symm.trans hevents'
  | close hup hevents' =>
    cases hevents.symm.trans hevents'
    refine .inl fun hpending => ?_
    obtain ⟨fd', hfd'⟩ := hpending.isOpen
    by_cases heq : fd' = fd
    · simp [Loop.close, heq] at hfd'
    · exact heq (hw.inj fd' fd conn (by simpa [Loop.close, pop, heq] using hfd') hfd)
  | @receive fd' c n rest' env delivered hup hevents' hfd' hn hle =>
    cases hevents.symm.trans hevents'
    cases hfd.symm.trans hfd'
    have hread := readFrom_receive deps env (s.pop rest) fd conn n delivered
    have hlen := hsent.length_le
    refine .inr ?_
    unfold readCount
    rw [hread.requests, hread.unread, Function.update_self, List.length_drop]
    simp only [pop]
    omega
  | _ => exact htakes.elim

/-- Until then the list of events gets shorter. -/
theorem Queued.step {k : Nat} (h : s.Queued conn k) (hw : s.Wired)
    (hsent : s.unread conn <:+ (s.requests conn).flatten) (ht : LoopTransition deps s a s')
    (hreads : ∀ fd rest, s.events = .conn fd :: rest → s.fds fd = some conn → ¬ a.Fails (.conn fd))
    (hpending : s'.Pending conn) (hcount : s'.readCount conn ≤ s.readCount conn) :
    ∃ k' ≤ k, (a.Takes → k' < k) ∧ s'.Queued conn k' := by
  obtain ⟨fd, hfd, hmem⟩ := h.listed
  obtain ⟨fd', hfd'⟩ := hpending.isOpen
  obtain rfl : fd' = fd := hw.inj fd' fd conn (fds_of_step ht (hw.lt fd conn hfd) hfd') hfd
  have hleft := h.left
  rcases events_step ht with ⟨hnot, hsame⟩ | ⟨htakes, e, hevents⟩
  · have heq := hsame (List.ne_nil_of_mem hmem)
    exact ⟨k, Nat.le_refl k, fun htakes => absurd htakes hnot, hpending, ⟨fd', hfd', heq ▸ hmem⟩,
      heq ▸ hleft⟩
  · have hother : e ≠ .conn fd' := by
      rintro rfl
      rcases Pending.turn hw hsent hevents hfd ht htakes (hreads fd' _ hevents hfd) with hnot | hlt
      · exact hnot hpending
      · omega
    rw [hevents] at hmem hleft
    rw [List.length_cons] at hleft
    exact ⟨s'.events.length, by omega, fun _ => by omega, hpending,
      ⟨fd', hfd', (List.mem_cons.1 hmem).resolve_left hother.symm⟩, rfl⟩

end Loop

/-- The loop and the kernel do their part. -/
structure FairLoop (r : LoopRun deps) : Prop where
  /-- The loop handles an event, if one is left. -/
  takes : ∀ n, ∃ m, n ≤ m ∧ ((∃ a, r.action m = some a ∧ a.Takes) ∨ (r.state m).events = [] ∨
    (r.state m).crashed = true)
  /-- `Wait` reports a connection that can be read. -/
  reports : ∀ n conn, (r.state n).Pending conn → ∃ m, n ≤ m ∧
    ((∃ ready fd, r.action m = some (.wait ready) ∧ .conn fd ∈ ready ∧
      (r.state m).fds fd = some conn) ∨ ¬ (r.state m).Pending conn)
  /-- A connection that can be read is read without an error, a reset apart. -/
  reads : ∀ n a fd rest conn, r.action n = some a → (r.state n).events = .conn fd :: rest →
    (r.state n).fds fd = some conn → (r.state n).Pending conn → ¬ a.Fails (.conn fd)

/-- The turn of a connection comes. -/
theorem FairLoop.turns {r : LoopRun deps} (hfair : FairLoop r) {n k count : Nat}
    (hqueued : (r.state n).Queued conn k) (hcount : count ≤ (r.state n).readCount conn) :
    ∃ m, n ≤ m ∧ (¬ (r.state m).Pending conn ∨ count < (r.state m).readCount conn) := by
  -- the rank is the number of events that are left
  refine r.eventually (Q := fun k s => s.Queued conn k ∧ count ≤ s.readCount conn)
    (G := fun s => ¬ s.Pending conn ∨ count < s.readCount conn)
    (M := fun m => ∃ a, r.action m = some a ∧ a.Takes) ?_ ?_ ⟨hqueued, hcount⟩
  · rintro i k ⟨hqueued, hcount⟩
    cases haction : r.action i with
    | none =>
      rw [r.stay_eq haction]
      exact .inr ⟨k, Nat.le_refl k, by simp, hqueued, hcount⟩
    | some a =>
      have ht := transition_of_loopStep (r.step_eq haction)
      have hmono := readCount_step ht conn
      by_cases hgoal : ¬ (r.state (i + 1)).Pending conn ∨ count < (r.state (i + 1)).readCount conn
      · exact .inl hgoal
      · rw [not_or, not_not, not_lt] at hgoal
        obtain ⟨k', hle, hlt, hqueued'⟩ := hqueued.step (settled_run r i).1 (unread_suffix r i conn)
          ht (fun fd rest he hf => hfair.reads i a fd rest conn haction he hf hqueued.pending)
          hgoal.1 (by omega)
        refine .inr ⟨k', hle, ?_, hqueued', by omega⟩
        rintro ⟨b, hb, htakes⟩
        cases hb
        exact hlt htakes
  · intro i
    obtain ⟨j, hij, hmove | hempty | hdown⟩ := hfair.takes i
    · exact ⟨j, hij, .inl hmove⟩
    · refine ⟨j, hij, .inr ?_⟩
      rintro k ⟨hqueued, -⟩
      obtain ⟨fd, -, hmem⟩ := hqueued.listed
      simp [hempty] at hmem
    · refine ⟨j, hij, .inr ?_⟩
      rintro k ⟨hqueued, -⟩
      have hup := hqueued.pending.up
      simp [hdown] at hup

/-- Something is read from a connection that can be read. -/
theorem FairLoop.advances {r : LoopRun deps} (hfair : FairLoop r) {n : Nat}
    (hpending : (r.state n).Pending conn) :
    ∃ m, n ≤ m ∧ (¬ (r.state m).Pending conn ∨
      (r.state n).readCount conn < (r.state m).readCount conn) := by
  obtain ⟨m, hnm, ⟨ready, fd, hwait, hmem, hfd⟩ | hdone⟩ := hfair.reports n conn hpending
  · by_cases hpending' : (r.state m).Pending conn
    · have hqueued : (r.state (m + 1)).Queued conn ready.length := by
        rw [eq_pop_of_wait (r.step_eq hwait)]
        exact ⟨⟨hpending'.up, hpending'.isOpen, hpending'.unread⟩, ⟨fd, hfd, hmem⟩, rfl⟩
      obtain ⟨m', hm', hgoal⟩ := hfair.turns hqueued (readCount_le r (Nat.le_succ_of_le hnm) conn)
      exact ⟨m', by omega, hgoal⟩
    · exact ⟨m, hnm, .inl hpending'⟩
  · exact ⟨m, hnm, .inl hdone⟩

/-- So is any number of bytes, or all that there are. The induction is on the
number of bytes that are left to read. -/
theorem FairLoop.readsUpTo {r : LoopRun deps} (hfair : FairLoop r) {count : Nat} (left n : Nat)
    (hle : count ≤ (r.state n).readCount conn + left) :
    ∃ m, n ≤ m ∧ (¬ (r.state m).Pending conn ∨ count ≤ (r.state m).readCount conn) := by
  induction left generalizing n with
  | zero => exact ⟨n, Nat.le_refl n, .inr hle⟩
  | succ left ih =>
    by_cases hpending : (r.state n).Pending conn
    · obtain ⟨i, hni, hdone | hlt⟩ := hfair.advances hpending
      · exact ⟨i, hni, .inl hdone⟩
      · obtain ⟨m, him, hread⟩ := ih i (by omega)
        exact ⟨m, by omega, hread⟩
    · exact ⟨n, Nat.le_refl n, .inl hpending⟩

/-- Everything in `sent` was read: what is not read yet was sent later. -/
def Loop.CaughtUp (s : Loop) (conn : Nat) (sent : List Bytes) : Prop :=
  ∃ later, s.requests conn = sent ++ later ∧ s.unread conn <:+ later.flatten

theorem caughtUp_of_readCount (r : LoopRun deps) {n m : Nat} (hnm : n ≤ m)
    (h : ((r.state n).requests conn).flatten.length ≤ (r.state m).readCount conn) :
    (r.state m).CaughtUp conn ((r.state n).requests conn) := by
  obtain ⟨later, hlater⟩ := requests_mono r hnm conn
  have hsuffix := unread_suffix r m conn
  refine ⟨later, hlater.symm, ?_⟩
  unfold Loop.readCount at h
  have hle := hsuffix.length_le
  rw [← hlater, List.flatten_append] at h hsuffix hle
  rw [List.length_append] at h hle
  exact List.suffix_of_suffix_length_le hsuffix (List.suffix_append _ _) (by omega)

/-- Whatever the clients send: all that a client has sent is read in the end,
unless the process ends or the connection is closed. -/
theorem everything_read (deps : Deps) (r : LoopRun deps) (hfair : FairLoop r) (n conn : Nat) :
    ∃ m, n ≤ m ∧ ((r.state m).crashed = true ∨ (∀ fd, (r.state m).fds fd ≠ some conn) ∨
      (r.state m).CaughtUp conn ((r.state n).requests conn)) := by
  obtain ⟨m, hnm, hdone⟩ := hfair.readsUpTo _ n
    (Nat.le_add_left ((r.state n).requests conn).flatten.length ((r.state n).readCount conn))
  refine ⟨m, hnm, ?_⟩
  by_cases hdown : (r.state m).crashed = true
  · exact .inl hdown
  by_cases hclosed : ∀ fd, (r.state m).fds fd ≠ some conn
  · exact .inr (.inl hclosed)
  refine .inr (.inr (caughtUp_of_readCount r hnm ?_))
  rcases hdone with hdone | hle
  · -- nothing at all is unread
    have hnil : (r.state m).unread conn = [] := by
      by_contra hne
      exact hdone ⟨Bool.eq_false_iff.2 hdown, by simpa using hclosed, hne⟩
    unfold Loop.readCount
    rw [hnil]
    exact (requests_mono r hnm conn).flatten.length_le
  · exact hle

/-! ## Courteous clients -/

namespace Loop

/-- Every request that was read has been executed. -/
theorem Waiting.executed {sent : List Bytes} (h : s.Waiting conn) (hread : s.CaughtUp conn sent) :
    sent.length ≤ (s.commandsOf conn).length := by
  obtain ⟨later, hlater, hunread⟩ := hread
  cases h with
  | idle _ hdone =>
    rw [← hdone.length_eq, hlater, List.length_append]
    exact Nat.le_add_right _ _
  | @asking old last cmd hrequests hlast hlen hasks hdone =>
    -- the request that is not read yet is one of the later ones
    rcases List.eq_nil_or_concat later with rfl | ⟨later', x, rfl⟩
    · rw [hlast] at hunread
      exact absurd (List.suffix_nil.1 hunread) hasks.ne_nil
    · rw [hrequests, List.concat_eq_append, ← List.append_assoc] at hlater
      rw [← hdone.length_eq, (List.append_inj' hlater rfl).1, List.length_append]
      exact Nat.le_add_right _ _

end Loop

/-- The client has the replies to all commands that were executed for it, or
the connection was closed. -/
theorem answered_or_dropped (r : LoopRun deps) (n conn : Nat) :
    ((r.state n).answersTo conn).length = ((r.state n).commandsOf conn).length ∨
      ∃ k < n, ∃ a, r.action k = some a ∧ (r.state k).Drops a conn := by
  obtain ⟨-, hsettled, -⟩ := settled_run r n
  rcases hsettled.written conn with hall | ⟨hclosed, old, e, hlast, -⟩
  · refine .inl ?_
    rw [Loop.answersTo, Loop.commandsOf, List.filter_eq_self.2 hall, List.length_map, List.length_map]
  · have hmem : e ∈ (r.state n).exchangesOf conn := by simp [hlast]
    obtain ⟨hmem, hconn⟩ := List.mem_filter.1 hmem
    have hlt := hsettled.known e hmem
    rw [of_decide_eq_true hconn] at hlt
    exact .inr (dropped_of_closed r hlt hclosed)

/-- Two clients: the first stores a value, the second reads it and hangs up,
and its descriptor is closed. -/
def twoClientActions : List LoopAction :=
  let set := encodeStringArray [lit "set", lit "k", lit "v"]
  let get := encodeStringArray [lit "GET", lit "k"]
  let env : Env := { (default : Env) with now := 1000 }
  [.wait [.listener], .accept (.conn 7), .send 0 set, .wait [.listener, .conn 7],
    .accept (.conn 8), .handle (.bytes set.length) env true, .expire env, .send 1 get,
    .wait [.conn 8], .handle (.bytes get.length) env true, .hangUp 1, .wait [.conn 8],
    .handle (.bytes 0) env true]

def twoClients : LoopRun smallDeps := Run.ofList twoClientActions (by decide +kernel)

theorem Loop.courteous_handle {n : Nat} (fd conn : Nat) (rest : List LoopEvent)
    (hevents : s.events = .conn fd :: rest) (hfd : s.fds fd = some conn)
    (hn : n = (s.unread conn).length) (env : Env) (delivered : Bool) :
    s.Courteous (.handle (.bytes n) env delivered) := by
  intro fd' rest' conn' hevents' hfd'
  cases hevents.symm.trans hevents'
  cases hfd.symm.trans hfd'
  exact hn

theorem courteous_twoClients (n : Nat) (a : LoopAction) (haction : twoClients.action n = some a) :
    (twoClients.state n).Courteous a ∧ a ≠ .accept .unmonitored ∧ ∀ fd, ¬ a.Fails (.conn fd) := by
  rcases n with _ | _ | _ | _ | _ | _ | _ | _ | _ | _ | _ | _ | _ | n <;> cases haction <;>
    refine ⟨?_, nofun, fun _ => id⟩
  · trivial
  · trivial
  · exact ⟨⟨_, _, _, rfl, rfl⟩, by decide +kernel, by decide +kernel⟩
  · trivial
  · trivial
  · exact Loop.courteous_handle 7 0 [] (by decide +kernel) (by decide +kernel) (by decide +kernel) _ _
  · trivial
  · exact ⟨⟨_, _, _, rfl, rfl⟩, by decide +kernel, by decide +kernel⟩
  · trivial
  · exact Loop.courteous_handle 8 1 [] (by decide +kernel) (by decide +kernel) (by decide +kernel) _ _
  · trivial
  · trivial
  · exact Loop.courteous_handle 8 1 [] (by decide +kernel) (by decide +kernel) (by decide +kernel) _ _

theorem twoClients_ends {n : Nat} (hn : 13 ≤ n) : twoClients.state n = twoClients.state 13 := by
  have hmin : twoClients.state n = twoClients.state (min n 13) := Run.ofList_state_min ..
  rwa [Nat.min_eq_right hn] at hmin

theorem sane_twoClients (n : Nat) :
    ((0 : Int) :: (twoClients.state n).ops.map fun p => p.2.now.toInt).Pairwise (· ≤ ·) ∧
      ∀ p ∈ (twoClients.state n).ops, p.1.Sane smallDeps p.2 := by
  have hall : ∀ n < 14,
      ((0 : Int) :: (twoClients.state n).ops.map fun p => p.2.now.toInt).Pairwise (· ≤ ·) ∧
        ∀ p ∈ (twoClients.state n).ops, p.1.Sane smallDeps p.2 := by decide +kernel
  rcases Nat.lt_or_ge n 14 with hlt | hge
  · exact hall n hlt
  · rw [twoClients_ends (by omega)]
    exact hall 13 (by decide)

/-- In the end nothing is unread. -/
theorem not_pending_twoClients (conn : Nat) : ¬ (twoClients.state 13).Pending conn := by
  rintro ⟨-, ⟨fd, hfd⟩, hunread⟩
  have hopened : (twoClients.state 13).opened = 2 := by decide +kernel
  have hall : ∀ c < 2, (twoClients.state 13).unread c = [] := by decide +kernel
  exact hunread (hall conn (hopened ▸ (settled_run twoClients 13).1.lt fd conn hfd))

theorem fairLoop_twoClients : FairLoop twoClients where
  takes n := by
    refine ⟨max n 13, Nat.le_max_left n 13, .inr (.inl ?_)⟩
    rw [twoClients_ends (Nat.le_max_right n 13)]
    decide +kernel
  reports n conn _ := by
    refine ⟨max n 13, Nat.le_max_left n 13, .inr ?_⟩
    rw [twoClients_ends (Nat.le_max_right n 13)]
    exact not_pending_twoClients conn
  reads n a fd _ _ haction _ _ _ := (courteous_twoClients n a haction).2.2 fd

end RediGo.Server
