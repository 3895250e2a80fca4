/-
RediGo.Lib.Unwinding — two parties with private states and a shared one.

A step of a party reads and changes its own private state and the shared
state. `Isolated` is the two-run property that what party `a` observes, its
outputs and its private state at the end, depends on its own actions alone:
the actions of party `b` and the interleaving can be replaced by any others.

`isolated_of_unwinding` reduces it to single steps. It is enough that the
shared state stays in a class whose members no step can tell apart.
-/
import Mathlib.Data.List.Basic

namespace RediGo.Lib

inductive Party where
  | a
  | b
  deriving DecidableEq, Repr

/-- The private states of the parties and the shared state. -/
structure Joint (σ ρ : Type) where
  a : σ
  b : σ
  shared : ρ

namespace Joint

variable {α σ ρ ο : Type} (step : α → σ → ρ → ο × σ × ρ)

/-- One party acts. -/
def perform (p : Party) (act : α) (j : Joint σ ρ) : ο × Joint σ ρ :=
  match p with
  | .a =>
    let (output, s, r) := step act j.a j.shared
    (output, ⟨s, j.b, r⟩)
  | .b =>
    let (output, s, r) := step act j.b j.shared
    (output, ⟨j.a, s, r⟩)

/-- The outputs of party `a` along a run, and the state after it. -/
def run : List (Party × α) → Joint σ ρ → List ο × Joint σ ρ
  | [], j => ([], j)
  | (p, act) :: acts, j =>
    let (output, j) := perform step p act j
    let (outputs, j) := run acts j
    (if p = .a then output :: outputs else outputs, j)

/-- The actions of party `a`. -/
def own (acts : List (Party × α)) : List α :=
  (acts.filter (·.1 = .a)).map Prod.snd

/-- What party `a` observes depends on its own actions alone. -/
def Isolated (init : Joint σ ρ) : Prop :=
  ∀ acts acts' : List (Party × α), own acts = own acts' →
    (run step acts init).1 = (run step acts' init).1 ∧
      (run step acts init).2.a = (run step acts' init).2.a

variable {step}

theorem run_append (acts acts' : List (Party × α)) (j : Joint σ ρ) :
    (run step (acts ++ acts') j).2 = (run step acts' (run step acts j).2).2 := by
  induction acts generalizing j with
  | nil => rfl
  | cons x acts ih => exact ih _

/-- A party on its own, with the shared state the same at every step. -/
def alone (step : α → σ → ρ → ο × σ × ρ) (r : ρ) : List α → σ → List ο × σ
  | [], s => ([], s)
  | act :: acts, s =>
    let (outputs, s') := alone step r acts (step act s r).2.1
    ((step act s r).1 :: outputs, s')

section Unwinding

variable {Inv : σ → Prop} {Ok : ρ → Prop} {r : ρ}
  (hstep : ∀ act s r', Inv s → Ok r' → Inv (step act s r').2.1 ∧ Ok (step act s r').2.2)
  (hsame : ∀ act s r', Inv s → Ok r' → (step act s r').1 = (step act s r).1 ∧
    (step act s r').2.1 = (step act s r).2.1)

include hstep hsame

theorem run_eq_alone (acts : List (Party × α)) {j : Joint σ ρ} (ha : Inv j.a) (hb : Inv j.b)
    (hok : Ok j.shared) :
    ((run step acts j).1, (run step acts j).2.a) = alone step r (own acts) j.a := by
  induction acts generalizing j with
  | nil => rfl
  | cons x acts ih =>
    obtain ⟨p, act⟩ := x
    cases p with
    | a =>
      obtain ⟨hinv, hok'⟩ := hstep act j.a j.shared ha hok
      obtain ⟨hout, hprivate⟩ := hsame act j.a j.shared ha hok
      have hrest := ih (j := (perform step .a act j).2) hinv hb hok'
      have hown : own ((Party.a, act) :: acts) = act :: own acts := by simp [own]
      have hnext : (perform step .a act j).2.a = (step act j.a r).2.1 := hprivate
      rw [hnext] at hrest
      rw [hown, alone, ← hrest, ← hout]
      rfl
    | b =>
      obtain ⟨hinv, hok'⟩ := hstep act j.b j.shared hb hok
      have hown : own ((Party.b, act) :: acts) = own acts := by simp [own]
      rw [hown]
      exact ih (j := (perform step .b act j).2) ha hinv hok'

theorem isolated_of_unwinding {init : Joint σ ρ} (ha : Inv init.a) (hb : Inv init.b)
    (hok : Ok init.shared) : Isolated step init := by
  intro acts acts' hown
  have hrun := run_eq_alone hstep hsame acts ha hb hok
  have hrun' := run_eq_alone hstep hsame acts' ha hb hok
  rw [← hown, ← hrun] at hrun'
  exact ⟨(congrArg Prod.fst hrun').symm, (congrArg Prod.snd hrun').symm⟩

end Unwinding

end Joint

end RediGo.Lib
