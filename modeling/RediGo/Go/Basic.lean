/-
RediGo.Go.Basic — the parts of the Go language every model here uses:
byte strings, the ways a run can stop without a value, and the checked
list operations behind index and slice expressions.

A Go string is a sequence of arbitrary bytes, compared byte by byte, so
`Bytes` is a list of `UInt8` with the lexicographic order of Mathlib.

An index or slice expression out of range is a run-time panic. The
operations below return `Except Fault`, so a proof that a function
returns `.ok` is at once a proof that none of its index expressions is
out of range. Each has one lemma for the form its callers meet: a list
already cut at the position in question. A counting loop is `forRange`,
with the usual rule for its invariant.
-/
import Mathlib.Algebra.Group.Int.Defs
import Mathlib.Algebra.Group.Nat.Defs
import Mathlib.Order.Lattice
import Mathlib.Data.List.Lex

namespace RediGo.Go

/-- A Go string or byte slice. -/
abbrev Bytes := List UInt8

instance linearOrderUInt8 : LinearOrder UInt8 where
  le_refl := fun a => UInt8.le_refl a
  le_trans := fun _ _ _ => UInt8.le_trans
  le_antisymm := fun _ _ => UInt8.le_antisymm
  le_total := UInt8.le_total
  lt_iff_le_not_ge := by
    intro a b
    rw [UInt8.lt_iff_toNat_lt, UInt8.le_iff_toNat_le, UInt8.le_iff_toNat_le]
    omega
  toDecidableLE := inferInstance
  toDecidableEq := inferInstance
  toDecidableLT := inferInstance

/-- How a run ends without a value. `fuel` stands for a loop or recursion
that was cut off, `monitor` for a check the model makes and the program
does not; the others are run-time panics, `argument` that of a library
function over its argument. -/
inductive Fault where
  | index
  | slice
  | nilPointer
  | makeLen
  | divide
  | argument
  | fuel
  | monitor
  deriving DecidableEq, Repr

/-- A sequence that returns returned at its first step. -/
theorem bind_eq_ok {α β : Type} {x : Except Fault α} {f : α → Except Fault β} {b : β}
    (h : x >>= f = .ok b) : ∃ a, x = .ok a ∧ f a = .ok b := by
  cases x with
  | error fault => cases h
  | ok a => exact ⟨a, rfl, h⟩

section Checked

variable {α : Type}

/-- `l[i]` -/
def index (l : List α) (i : Nat) : Except Fault α :=
  match l[i]? with
  | some a => .ok a
  | none => .error .index

/-- `l[i] = a` -/
def setAt (l : List α) (i : Nat) (a : α) : Except Fault (List α) :=
  if i < l.length then .ok (l.set i a) else .error .index

/-- `append(l[:i], append([]T{a}, l[i:]...)...)` -/
def insertAt (l : List α) (i : Nat) (a : α) : Except Fault (List α) :=
  if i ≤ l.length then .ok (l.take i ++ a :: l.drop i) else .error .slice

/-- `append(l[:i], l[i+1:]...)` -/
def removeAt (l : List α) (i : Nat) : Except Fault (List α) :=
  if i + 1 ≤ l.length then .ok (l.take i ++ l.drop (i + 1)) else .error .slice

/-- `l[i:]` -/
def sliceFrom (l : List α) (i : Nat) : Except Fault (List α) :=
  if i ≤ l.length then .ok (l.drop i) else .error .slice

/-- Dereference a pointer that may be `nil`. -/
def deref (p : Option α) : Except Fault α :=
  match p with
  | some a => .ok a
  | none => .error .nilPointer

/-- `a % b` of `uint64` values -/
def modulo (a b : UInt64) : Except Fault UInt64 :=
  if b = 0 then .error .divide else .ok (a % b)

@[simp] theorem deref_some (a : α) : deref (some a) = .ok a := rfl

@[simp] theorem index_append (A : List α) (a : α) (B : List α) :
    index (A ++ a :: B) A.length = .ok a := by
  simp [index]

theorem index_append_of_eq {A : List α} {a : α} {B : List α} {i : Nat} (h : i = A.length) :
    index (A ++ a :: B) i = .ok a := by
  subst h
  exact index_append A a B

theorem index_eq_ok {l : List α} {i : Nat} {a : α} : index l i = .ok a ↔ l[i]? = some a := by
  unfold index
  cases l[i]? <;> simp

theorem setAt_append (A : List α) (a b : α) (B : List α) :
    setAt (A ++ a :: B) A.length b = .ok (A ++ b :: B) := by
  unfold setAt
  rw [if_pos (by simp)]
  simp

theorem insertAt_append (A B : List α) (a : α) :
    insertAt (A ++ B) A.length a = .ok (A ++ a :: B) := by
  unfold insertAt
  rw [if_pos (by simp)]
  simp

theorem sliceFrom_append (A B : List α) : sliceFrom (A ++ B) A.length = .ok B := by
  unfold sliceFrom
  rw [if_pos (by simp)]
  simp

theorem removeAt_append (A : List α) (a : α) (B : List α) :
    removeAt (A ++ a :: B) A.length = .ok (A ++ B) := by
  unfold removeAt
  rw [if_pos (by simp)]
  have hdrop : (A ++ a :: B).drop (A.length + 1) = B := by
    rw [List.drop_append]
    simp
  simp [hdrop]

end Checked

/-! ## Counting loops -/

section Loop

variable {σ : Type}

/-- `for ; n > 0; i++ { … }`, where `n` is the number of iterations left:
the loop `for i := lo; i < hi; i++` is `forRange body (hi - lo) lo`. -/
def forRange (body : σ → Nat → Except Fault σ) : Nat → Nat → σ → Except Fault σ
  | 0, _, s => .ok s
  | n + 1, i, s => do
      let s ← body s i
      forRange body n (i + 1) s

/-- The rule for such a loop: an invariant that each iteration carries from
its index to the next one. -/
theorem forRange_spec {body : σ → Nat → Except Fault σ} {I : Nat → σ → Prop} (n lo : Nat) {s : σ}
    (hbody : ∀ i s, lo ≤ i → i < lo + n → I i s → ∃ s', body s i = .ok s' ∧ I (i + 1) s')
    (hinit : I lo s) : ∃ s', forRange body n lo s = .ok s' ∧ I (lo + n) s' := by
  induction n generalizing lo s with
  | zero => exact ⟨s, rfl, hinit⟩
  | succ n ih =>
    obtain ⟨s₁, hstep, hnext⟩ := hbody lo s (Nat.le_refl lo) (by omega) hinit
    obtain ⟨s₂, hrest, hdone⟩ := ih (lo + 1)
      (fun i s hlo hhi => hbody i s (by omega) (by omega)) hnext
    refine ⟨s₂, ?_, by rwa [Nat.add_right_comm] at hdone⟩
    show (body s lo >>= _) = _
    rw [hstep]
    exact hrest

/-- A loop that comes to its end made every iteration. -/
theorem exists_of_forRange {body : σ → Nat → Except Fault σ} {n lo : Nat} {s s' : σ}
    (h : forRange body n lo s = .ok s') {i : Nat} (hlo : lo ≤ i) (hhi : i < lo + n) :
    ∃ s₁ s₂, body s₁ i = .ok s₂ := by
  induction n generalizing lo s with
  | zero => omega
  | succ n ih =>
    obtain ⟨s₁, hstep, hrest⟩ := bind_eq_ok h
    rcases Nat.eq_or_lt_of_le hlo with rfl | hlt
    · exact ⟨s, s₁, hstep⟩
    · exact ih hrest hlt (by omega)

end Loop

end RediGo.Go
