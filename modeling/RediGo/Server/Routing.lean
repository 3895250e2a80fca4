/-
RediGo.Server.Routing — where `dispatch` sends a command and where the
accept loop sends a connection (`internal/server/server.go`,
`single_listener_server.go`), on the server `NewServer` builds.

Both counts are half the number of cores. Three places rely on them being
positive: the remainder in `getPartitionID`, `rand.Intn`, and the remainder
of the round robin. With two cores or more all three are in range, whatever
the hash and however many connections came before (`dispatch_eq`,
`acceptMany_eq`); on a single core the server has neither workers nor
handlers and the first command and the first connection panic
(`routes_iff`).

The interleaving model of `RediGo.Server.Sharding` starts from at least one
worker. `dispatch_eq` says that its `target` is what `dispatch` computes.
-/
import RediGo.Server.Sharding

namespace RediGo.Routing

open RediGo.Go RediGo.Core RediGo.Server

/-! ## `int` arithmetic -/

/-- `a % b` -/
def remainder (a b : Int64) : Except Fault Int64 :=
  if b = 0 then .error .divide else .ok (a % b)

/-- `l[i]` for an `int` -/
def elementAt {α : Type} (l : List α) (i : Int64) : Except Fault α :=
  if i.toInt < 0 then .error .index else index l i.toInt.toNat

/-- `make([]*T, n)`, of which only the length matters: pointers have 8 bytes
of the address space. -/
def makePointers (n : Int64) : Except Fault Nat :=
  if 0 ≤ n.toInt ∧ n.toInt ≤ 2 ^ 45 then .ok n.toInt.toNat else .error .makeLen

/-- `rand.Intn(n)`, which panics if `n` is not positive. Every result it can
have is the remainder of some `draw`. -/
def randIntn (draw : Nat) (n : Int64) : Except Fault Int64 :=
  if n.toInt ≤ 0 then .error .argument else .ok (Int64.ofNat (draw % n.toInt.toNat))

/-- `fnv.New32a` over the bytes of a key. -/
def fnv32a (key : Bytes) : UInt32 :=
  key.foldl (fun hash b => (hash ^^^ b.toUInt32) * 16777619) 2166136261

/-! ## The server -/

/-- What routing reads of a `Server`. A worker or handler is its `id`. -/
structure Server where
  workers : List Nat
  ioHandlers : List Nat
  numWorkers : Int64
  numIOHandlers : Int64
  nextIOHandler : Int64
  deriving DecidableEq

/-- `NewServer` on a machine on which `runtime.NumCPU` is `numCores`. -/
def newServer (numCores : Int64) : Except Fault Server := do
  let numIOHandlers := numCores / 2
  let numWorkers := numCores / 2
  let workers ← makePointers numWorkers
  let ioHandlers ← makePointers numIOHandlers
  .ok {
    workers := List.range workers
    ioHandlers := List.range ioHandlers
    numWorkers := numWorkers
    numIOHandlers := numIOHandlers
    nextIOHandler := 0 }

namespace Server

/-- `Server.getPartitionID` -/
def getPartitionID (s : Server) (key : Bytes) : Except Fault Int64 :=
  remainder (Int64.ofNat (fnv32a key).toNat) s.numWorkers

/-- `Server.dispatch`: the worker the task is sent to. -/
def dispatch (s : Server) (draw : Nat) (command : Command) : Except Fault Nat := do
  let workerID ←
    match command.Args with
    | key :: _ => s.getPartitionID key
    | [] => randIntn draw s.numWorkers
  elementAt s.workers workerID

/-- The accept loop with one connection: the handler it is given to. -/
def accept (s : Server) : Except Fault (Nat × Server) := do
  let i ← remainder s.nextIOHandler s.numIOHandlers
  let handler ← elementAt s.ioHandlers i
  .ok (handler, { s with nextIOHandler := s.nextIOHandler + 1 })

/-- The server after `k` connections. -/
def acceptMany (s : Server) : Nat → Except Fault Server
  | 0 => .ok s
  | k + 1 => do
    let s ← s.acceptMany k
    let (_, s) ← s.accept
    .ok s

/-- Every command goes to a worker and every connection to a handler. -/
def Routes (s : Server) : Prop :=
  (∀ draw command, ∃ i, s.dispatch draw command = .ok i ∧ i < s.workers.length) ∧
    ∀ k, k < 2 ^ 63 → ∃ s' i s'', s.acceptMany k = .ok s' ∧ s'.accept = .ok (i, s'') ∧
      i < s.ioHandlers.length

end Server

/-! ## At least one worker -/

/-- A server with `n + 1` workers and handlers that has accepted `k`
connections. -/
def serverOf (n k : Nat) : Server where
  workers := List.range (n + 1)
  ioHandlers := List.range (n + 1)
  numWorkers := Int64.ofNat (n + 1)
  numIOHandlers := Int64.ofNat (n + 1)
  nextIOHandler := Int64.ofNat k

section Positive

variable {n : Nat} (hn : n < 2 ^ 45)

include hn

theorem toInt_count : (Int64.ofNat (n + 1)).toInt = n + 1 := by
  rw [Int64.toInt_ofNat_of_lt (by omega)]
  rfl

/-- The remainder of a number that is not negative is an index. -/
theorem elementAt_remainder {x : Nat} (hx : x < 2 ^ 63) :
    (remainder (Int64.ofNat x) (Int64.ofNat (n + 1)) >>= elementAt (List.range (n + 1))) =
      .ok (x % (n + 1)) := by
  have hcount := toInt_count hn
  have hpos : Int64.ofNat (n + 1) ≠ 0 := by
    intro h
    rw [h] at hcount
    have hzero : (0 : Int64).toInt = 0 := rfl
    omega
  have hlt : x % (n + 1) < n + 1 := Nat.mod_lt x (Nat.succ_pos n)
  have hmod : (Int64.ofNat x % Int64.ofNat (n + 1)).toInt = (x % (n + 1) : Nat) := by
    rw [Int64.toInt_mod, hcount, Int64.toInt_ofNat_of_lt hx]
    rfl
  simp only [remainder, if_neg hpos, bind, Except.bind, elementAt, hmod]
  rw [if_neg (by omega), Int.toNat_natCast, index, List.getElem?_range hlt]

/-- On a server with workers `dispatch` sends a command to its target. -/
theorem dispatch_eq (k draw : Nat) (command : Command) :
    (serverOf n k).dispatch draw command =
      .ok (target fnv32a command ⟨draw % (n + 1), Nat.mod_lt _ (Nat.succ_pos n)⟩).val := by
  unfold Server.dispatch target
  cases command.Args with
  | cons key rest =>
    have hhash := (fnv32a key).toNat_lt
    exact elementAt_remainder hn (by omega)
  | nil =>
    have hcount := toInt_count hn
    have hlt : draw % (n + 1) < n + 1 := Nat.mod_lt draw (Nat.succ_pos n)
    have hdraw : (Int64.ofNat (draw % (n + 1))).toInt = (draw % (n + 1) : Nat) :=
      Int64.toInt_ofNat_of_lt (by omega)
    have hnat : (Int64.ofNat (n + 1)).toInt.toNat = n + 1 := by omega
    simp only [randIntn, serverOf, hnat, if_neg (show ¬ (Int64.ofNat (n + 1)).toInt ≤ 0 by omega),
      bind, Except.bind, elementAt, hdraw]
    rw [if_neg (by omega), Int.toNat_natCast, index, List.getElem?_range hlt]

/-- The next connection goes round robin. -/
theorem accept_eq {k : Nat} (hk : k < 2 ^ 63) :
    (serverOf n k).accept = .ok (k % (n + 1), serverOf n (k + 1)) := by
  have hnext := elementAt_remainder hn hk
  obtain ⟨i, hi, hhandler⟩ := bind_eq_ok hnext
  have hsucc : Int64.ofNat k + 1 = Int64.ofNat (k + 1) := by
    rw [Int64.ofNat_add]
    rfl
  simp only [Server.accept, serverOf, hi, hhandler, bind, Except.bind, hsucc]

theorem acceptMany_eq {k : Nat} (hk : k ≤ 2 ^ 63) :
    (serverOf n 0).acceptMany k = .ok (serverOf n k) := by
  induction k with
  | zero => rfl
  | succ k ih =>
    simp only [Server.acceptMany, ih (by omega), accept_eq hn (show k < 2 ^ 63 by omega), bind,
      Except.bind]

theorem routes_serverOf : (serverOf n 0).Routes := by
  refine ⟨?_, ?_⟩
  · intro draw command
    refine ⟨_, dispatch_eq hn 0 draw command, ?_⟩
    rw [serverOf, List.length_range]
    exact Fin.isLt _
  · intro k hk
    refine ⟨_, _, _, acceptMany_eq hn (by omega), accept_eq hn hk, ?_⟩
    simpa [serverOf] using Nat.mod_lt k (Nat.succ_pos n)

end Positive

/-! ## The number of cores -/

theorem toInt_half {c : Int64} (hc : 1 ≤ c.toInt) : (c / 2).toInt = c.toInt / 2 := by
  have hlt := c.toInt_lt
  rw [Int64.toInt_div]
  show (c.toInt.tdiv 2).bmod (2 ^ 64) = _
  rw [Int.tdiv_eq_ediv_of_nonneg (by omega)]
  exact Int.bmod_eq_of_le (by omega) (by omega)

theorem newServer_ok {c : Int64} {s : Server} {n : Nat} (h : newServer c = .ok s)
    (hn : (c / 2).toInt = (n + 1 : Nat)) : n < 2 ^ 45 ∧ s = serverOf n 0 := by
  obtain ⟨workers, hworkers, h⟩ := bind_eq_ok h
  obtain ⟨ioHandlers, hhandlers, h⟩ := bind_eq_ok h
  unfold makePointers at hworkers hhandlers
  split at hworkers
  · rename_i hle
    rw [if_pos hle] at hhandlers
    have hcount : c / 2 = Int64.ofNat (n + 1) := by
      apply Int64.toInt_inj.1
      rw [hn, Int64.toInt_ofNat_of_lt (by omega)]
    cases hworkers
    cases hhandlers
    cases h
    refine ⟨by omega, ?_⟩
    rw [hn, Int.toNat_natCast, hcount]
    rfl
  · cases hworkers

/-- The server routes every command and every connection, exactly if there
are two cores. -/
theorem routes_iff (c : Int64) (hc : 1 ≤ c.toInt) :
    (∀ s, newServer c = .ok s → s.Routes) ↔ 2 ≤ c.toInt := by
  constructor
  · intro hroutes
    by_contra hlt
    have hone : c = 1 := Int64.toInt_inj.1 (by show c.toInt = 1; omega)
    subst hone
    obtain ⟨hdispatch, -⟩ := hroutes ⟨[], [], 0, 0, 0⟩ rfl
    obtain ⟨i, -, hi⟩ := hdispatch 0 ⟨lit "PING", []⟩
    cases hi
  · intro htwo s hs
    have hhalf := toInt_half hc
    obtain ⟨n, hn⟩ : ∃ n : Nat, (c / 2).toInt = (n + 1 : Nat) := ⟨(c.toInt / 2).toNat - 1, by omega⟩
    obtain ⟨hlt, rfl⟩ := newServer_ok hs hn
    exact routes_serverOf hlt

/-- Eight cores. -/
theorem routes_eight : ∃ s, newServer 8 = .ok s ∧ s.Routes :=
  ⟨_, rfl, (routes_iff 8 (by decide)).2 (by decide) _ rfl⟩

/-- On a single core there is nothing to route to: a command with a key
divides by zero, one without panics in `rand.Intn`, and so does the first
connection. -/
theorem single_core_panics :
    ∃ s, newServer 1 = .ok s ∧
      s.dispatch 0 ⟨lit "GET", [lit "k"]⟩ = .error .divide ∧
      s.dispatch 0 ⟨lit "PING", []⟩ = .error .argument ∧ s.accept = .error .divide :=
  ⟨_, rfl, rfl, rfl, rfl⟩

end RediGo.Routing
