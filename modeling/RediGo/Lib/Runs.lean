/-
RediGo.Lib.Runs — runs of a transition system and what holds along them.

A step is a partial function: it takes a state and an action, and has no
result where the action is not possible. A `Run` is an infinite sequence of
states from the initial one in which each state is a step from the state
before it or equal to it, so that a finite interleaving is a run that stays
where it ended (`Run.ofList`).

`Run.along` is induction along a run, `Run.invariant` the case of a property
that every step keeps, `Run.stable` the same from a later state on. What holds
later and not at first has a cause (`Run.exists_cause`).
`Run.eventually` is the rule for what must happen in the end: a rank that no
step raises and that some later step lowers, for as long as the goal has not
been reached; `Run.leads` is that rule for moves that are actions. `Run.map`
is what a run of a larger system is for a part of it.
-/
import Mathlib.Data.Nat.Init

namespace RediGo.Lib

variable {S A : Type}

structure Run (step : S → A → Option S) (init : S) where
  state : Nat → S
  action : Nat → Option A
  state_zero : state 0 = init
  state_succ : ∀ n, (match action n with
    | none => some (state n)
    | some a => step (state n) a) = some (state (n + 1))

/-- One action after the other. -/
def runActions (step : S → A → Option S) : List A → S → Option S
  | [], s => some s
  | a :: actions, s => (step s a).bind (runActions step actions)

theorem runActions_append (step : S → A → Option S) (actions more : List A) (s : S) :
    runActions step (actions ++ more) s =
      (runActions step actions s).bind (runActions step more) := by
  induction actions generalizing s with
  | nil => rfl
  | cons a actions ih =>
    show (step s a).bind _ = ((step s a).bind _).bind _
    cases step s a with
    | none => rfl
    | some s' => exact ih s'

namespace Run

variable {step : S → A → Option S} {init : S}

theorem step_eq (r : Run step init) {n : Nat} {a : A} (h : r.action n = some a) :
    step (r.state n) a = some (r.state (n + 1)) := by
  have hsucc := r.state_succ n
  rwa [h] at hsucc

theorem stay_eq (r : Run step init) {n : Nat} (h : r.action n = none) :
    r.state (n + 1) = r.state n := by
  have hsucc := r.state_succ n
  rw [h] at hsucc
  exact (Option.some.inj hsucc).symm

/-- Induction along a run: `I` holds of the first state, and of each next
one if it held before the step that was made there. -/
theorem along (r : Run step init) {I : S → Prop} (h0 : I init)
    (hstep : ∀ n a, r.action n = some a → step (r.state n) a = some (r.state (n + 1)) →
      I (r.state n) → I (r.state (n + 1))) (n : Nat) : I (r.state n) := by
  induction n with
  | zero =>
    rw [r.state_zero]
    exact h0
  | succ n ih =>
    cases haction : r.action n with
    | none =>
      rw [r.stay_eq haction]
      exact ih
    | some a => exact hstep n a haction (r.step_eq haction) ih

/-- What the initial state satisfies and every step keeps, holds throughout.
The steps may rely on what is known of each state of the run. -/
theorem invariant (r : Run step init) {P I : S → Prop} (hP : ∀ n, P (r.state n)) (h0 : I init)
    (hstep : ∀ {s a s'}, P s → P s' → I s → step s a = some s' → I s') (n : Nat) :
    I (r.state n) :=
  r.along h0 (fun n _ _ h hI => hstep (hP n) (hP (n + 1)) hI h) n

/-- What every step keeps, holds from then on. -/
theorem stable (r : Run step init) {G : S → Prop}
    (hstep : ∀ {s a s'}, G s → step s a = some s' → G s') {n : Nat} (hG : G (r.state n)) {m : Nat}
    (hnm : n ≤ m) : G (r.state m) := by
  induction hnm with
  | refl => exact hG
  | @step m _ ih =>
    cases haction : r.action m with
    | none =>
      rw [r.stay_eq haction]
      exact ih
    | some a => exact hstep ih (r.step_eq haction)

/-- What did not hold at first was brought about by an action. -/
theorem exists_cause (r : Run step init) {G : S → Prop} {E : S → A → Prop} (h0 : ¬ G init)
    (hstep : ∀ {s a s'}, ¬ G s → G s' → step s a = some s' → E s a) {n : Nat}
    (hG : G (r.state n)) : ∃ k < n, ∃ a, r.action k = some a ∧ E (r.state k) a := by
  induction n with
  | zero => exact absurd (r.state_zero ▸ hG) h0
  | succ n ih =>
    by_cases hbefore : G (r.state n)
    · obtain ⟨k, hk, hcause⟩ := ih hbefore
      exact ⟨k, Nat.lt_succ_of_lt hk, hcause⟩
    · cases haction : r.action n with
      | none =>
        rw [r.stay_eq haction] at hG
        exact absurd hG hbefore
      | some a => exact ⟨n, Nat.lt_succ_self n, a, haction, hstep hbefore hG (r.step_eq haction)⟩

/-- `Q k s` says that the goal is at most `k` moves away. No step takes it
further away, the steps at which `M` holds bring it closer, and these do not
stop happening before the goal is reached. -/
theorem eventually (r : Run step init) {Q : Nat → S → Prop} {G : S → Prop} {M : Nat → Prop}
    (hnext : ∀ n k, Q k (r.state n) →
      G (r.state (n + 1)) ∨ ∃ k', k' ≤ k ∧ (M n → k' < k) ∧ Q k' (r.state (n + 1)))
    (hfair : ∀ n, ∃ m, n ≤ m ∧ (M m ∨ ∀ k, ¬ Q k (r.state m)))
    {n k : Nat} (hQ : Q k (r.state n)) : ∃ m, n ≤ m ∧ G (r.state m) := by
  induction k using Nat.strongRecOn generalizing n with
  | ind k ih =>
    obtain ⟨m, hnm, hm⟩ := hfair n
    -- up to the move at `m` the rank does not rise
    have hwait : ∀ d, (∃ m, n ≤ m ∧ G (r.state m)) ∨ ∃ k', k' ≤ k ∧ Q k' (r.state (n + d)) := by
      intro d
      induction d with
      | zero => exact .inr ⟨k, Nat.le_refl k, hQ⟩
      | succ d ihd =>
        rcases ihd with hgoal | ⟨k', hk', hQ'⟩
        · exact .inl hgoal
        · rcases hnext _ _ hQ' with hgoal | ⟨k'', hk'', -, hQ''⟩
          · exact .inl ⟨n + d + 1, by omega, hgoal⟩
          · exact .inr ⟨k'', by omega, hQ''⟩
    rcases hwait (m - n) with hgoal | ⟨k', hk', hQ'⟩
    · exact hgoal
    · rw [Nat.add_sub_cancel' hnm] at hQ'
      rcases hm with hmove | hnone
      · rcases hnext _ _ hQ' with hgoal | ⟨k'', -, hlt, hQ''⟩
        · exact ⟨m + 1, by omega, hgoal⟩
        · obtain ⟨m', hm', hgoal⟩ := ih k'' (Nat.lt_of_lt_of_le (hlt hmove) hk') hQ''
          exact ⟨m', by omega, hgoal⟩
      · exact absurd hQ' (hnone k')

/-- The same where the moves are actions. The steps may rely on what is known
of each state of the run. -/
theorem leads (r : Run step init) {P : S → Prop} (hP : ∀ n, P (r.state n)) {Q : Nat → S → Prop}
    {G : S → Prop} {M : A → Prop}
    (hnext : ∀ {k s a s'}, P s → Q k s → step s a = some s' →
      G s' ∨ ∃ k', k' ≤ k ∧ (M a → k' < k) ∧ Q k' s')
    (hfair : ∀ n, ∃ m, n ≤ m ∧ ((∃ a, r.action m = some a ∧ M a) ∨ ∀ k, ¬ Q k (r.state m)))
    {n k : Nat} (hQ : Q k (r.state n)) : ∃ m, n ≤ m ∧ G (r.state m) := by
  refine r.eventually (M := fun m => ∃ a, r.action m = some a ∧ M a) ?_ hfair hQ
  intro m k hQ
  cases haction : r.action m with
  | none =>
    rw [r.stay_eq haction]
    refine .inr ⟨k, Nat.le_refl k, ?_, hQ⟩
    rintro ⟨a, ha, -⟩
    cases ha
  | some a =>
    rcases hnext (hP m) hQ (r.step_eq haction) with hgoal | ⟨k', hle, hlt, hQ'⟩
    · exact .inl hgoal
    · refine .inr ⟨k', hle, ?_, hQ'⟩
      rintro ⟨b, hb, hM⟩
      cases hb
      exact hlt hM

/-- A run seen through a map of its states, each action being an action of the
other system or none. -/
def map {T B : Type} {step' : T → B → Option T} {init' : T} (r : Run step init) (f : S → T)
    (g : S → A → Option B) (h0 : f init = init')
    (hstep : ∀ {s a s'}, step s a = some s' → (g s a).elim (some (f s)) (step' (f s)) = some (f s')) :
    Run step' init' where
  state n := f (r.state n)
  action n := (r.action n).bind (g (r.state n))
  state_zero := by rw [r.state_zero, h0]
  state_succ n := by
    have hsucc := r.state_succ n
    cases haction : r.action n with
    | none =>
      rw [haction] at hsucc
      rw [Option.some.inj hsucc]
      rfl
    | some a =>
      rw [haction] at hsucc
      have hmap := hstep hsucc
      rw [Option.bind_some]
      cases hg : g (r.state n) a with
      | none =>
        rw [hg] at hmap
        exact hmap
      | some b =>
        rw [hg] at hmap
        exact hmap

/-- The given actions, and nothing after them. -/
def ofList (actions : List A) (h : (runActions step actions init).isSome) : Run step init where
  state n := (runActions step (actions.take n) init).getD init
  action n := actions[n]?
  state_zero := rfl
  state_succ n := by
    have hprefix : ∀ m, ∃ s, runActions step (actions.take m) init = some s := by
      intro m
      obtain ⟨s, hs⟩ := Option.isSome_iff_exists.1 h
      rw [← List.take_append_drop m actions, runActions_append] at hs
      obtain ⟨s', hs', -⟩ := Option.bind_eq_some_iff.1 hs
      exact ⟨s', hs'⟩
    obtain ⟨s, hs⟩ := hprefix n
    obtain ⟨s', hs'⟩ := hprefix (n + 1)
    rw [hs, hs']
    rw [List.take_add_one, runActions_append, hs] at hs'
    cases haction : actions[n]? with
    | none =>
      rw [haction] at hs'
      exact hs'
    | some a =>
      rw [haction] at hs'
      exact (Option.bind_fun_some (step s a)).symm.trans hs'

theorem ofList_state_min (actions : List A) (h : (runActions step actions init).isSome) (n : Nat) :
    (ofList actions h).state n = (ofList actions h).state (min n actions.length) := by
  unfold ofList
  dsimp only
  rw [List.take_eq_take_min]

end Run

end RediGo.Lib
