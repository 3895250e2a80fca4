/-
RediGo.Lib.TimedMap — maps whose entries may expire, without deletion.

A `TimedMap` remembers for every key the last value stored under it and the
time at which it expires, if any. Nothing is ever removed: whether an entry
is visible is decided when it is read.

An implementation that removes expired entries, at whatever moment, holds a
`Thinning` of the ideal map: at each key either the ideal entry or nothing,
and nothing only where the ideal entry has expired. A thinning answers every
later read as the ideal map does (`Thinning.get_eq`, `Thinning.ttl_eq`), and
it stays a thinning as time passes (`Thinning.mono`), under a store on both
sides (`Thinning.set`) and when an expired entry is dropped
(`Thinning.drop`).
-/
import Mathlib.Init

namespace RediGo.Lib

/-- The last value stored under each key, with its expiry time. -/
def TimedMap (K V : Type) := K → Option (V × Option Nat)

namespace TimedMap

variable {K V : Type}

def empty : TimedMap K V := fun _ => none

/-- The entry can be read at time `t`. -/
def Alive (expiry : Option Nat) (t : Nat) : Prop := ∀ x ∈ expiry, t < x

instance (expiry : Option Nat) (t : Nat) : Decidable (Alive expiry t) :=
  match expiry with
  | none => isTrue fun _ h => by cases h
  | some x => decidable_of_iff (t < x) (by simp [Alive])

theorem Alive.anti {expiry : Option Nat} {t t' : Nat} (h : Alive expiry t') (hle : t ≤ t') :
    Alive expiry t := fun x hx => Nat.lt_of_le_of_lt hle (h x hx)

theorem not_alive_some {x t : Nat} : ¬ Alive (some x) t ↔ x ≤ t := by
  simp [Alive]

def set [DecidableEq K] (m : TimedMap K V) (k : K) (v : V) (expiry : Option Nat) : TimedMap K V :=
  fun k' => if k' = k then some (v, expiry) else m k'

/-- The value under `k` at time `t`. -/
def get (m : TimedMap K V) (k : K) (t : Nat) : Option V :=
  match m k with
  | none => none
  | some (v, expiry) => if Alive expiry t then some v else none

/-- The time `k` still has at time `t`: `none` for a key that cannot be read,
`some none` for one that never expires. -/
def ttl (m : TimedMap K V) (k : K) (t : Nat) : Option (Option Nat) :=
  match m k with
  | none => none
  | some (_, expiry) => if Alive expiry t then some (expiry.map (· - t)) else none

theorem ttl_of_get_none {m : TimedMap K V} {k : K} {t : Nat} (h : m.get k t = none) :
    m.ttl k t = none := by
  unfold get at h
  unfold ttl
  cases hm : m k with
  | none => rfl
  | some p =>
    rw [hm] at h
    by_cases halive : Alive p.2 t
    · cases (if_pos halive).symm.trans h
    · exact if_neg halive

theorem ttl_of_get_some {m : TimedMap K V} {k : K} {t : Nat} {v : V} (h : m.get k t = some v) :
    ∃ expiry, m k = some (v, expiry) ∧ Alive expiry t ∧ m.ttl k t = some (expiry.map (· - t)) := by
  unfold get at h
  unfold ttl
  split at h
  · cases h
  · rename_i v' expiry hm
    split at h
    · rename_i halive
      cases h
      exact ⟨expiry, hm, halive, if_pos halive⟩
    · cases h

/-- The map without the entry of `k`. -/
def drop [DecidableEq K] (m : TimedMap K V) (k : K) : TimedMap K V :=
  fun k' => if k' = k then none else m k'

/-! ## Thinnings -/

/-- `m'` is `m` without some of the entries that have expired by `t`. -/
def Thinning (t : Nat) (m m' : TimedMap K V) : Prop :=
  ∀ k, m' k = m k ∨ (m' k = none ∧ ∀ v expiry, m k = some (v, expiry) → ¬ Alive expiry t)

theorem Thinning.refl (t : Nat) (m : TimedMap K V) : Thinning t m m := fun _ => .inl rfl

variable {t t' : Nat} {m m' : TimedMap K V}

theorem Thinning.mono (h : Thinning t m m') (hle : t ≤ t') : Thinning t' m m' := by
  intro k
  rcases h k with hk | ⟨hk, hdead⟩
  · exact .inl hk
  · exact .inr ⟨hk, fun v expiry hm halive => hdead v expiry hm (halive.anti hle)⟩

theorem Thinning.get_eq (h : Thinning t m m') (k : K) : m'.get k t = m.get k t := by
  unfold get
  rcases h k with hk | ⟨hk, hdead⟩
  · rw [hk]
  · rw [hk]
    cases hm : m k with
    | none => rfl
    | some p => exact (if_neg (hdead p.1 p.2 hm)).symm

theorem Thinning.ttl_eq (h : Thinning t m m') (k : K) : m'.ttl k t = m.ttl k t := by
  unfold ttl
  rcases h k with hk | ⟨hk, hdead⟩
  · rw [hk]
  · rw [hk]
    cases hm : m k with
    | none => rfl
    | some p => exact (if_neg (hdead p.1 p.2 hm)).symm

variable [DecidableEq K]

theorem Thinning.set (h : Thinning t m m') (k : K) (v : V) (expiry : Option Nat) :
    Thinning t (m.set k v expiry) (m'.set k v expiry) := by
  intro k'
  unfold TimedMap.set
  by_cases hk : k' = k
  · rw [if_pos hk, if_pos hk]
    exact .inl rfl
  · rw [if_neg hk, if_neg hk]
    exact h k'

/-- Dropping an entry that cannot be read any more. -/
theorem Thinning.drop (h : Thinning t m m') {k : K} (hdead : m'.get k t = none) :
    Thinning t m (m'.drop k) := by
  intro k'
  unfold TimedMap.drop
  by_cases hk : k' = k
  · rw [if_pos hk]
    refine .inr ⟨rfl, fun v expiry hm halive => ?_⟩
    rw [h.get_eq, TimedMap.get, ← hk, hm] at hdead
    simp [halive] at hdead
  · rw [if_neg hk]
    exact h k'

end TimedMap

end RediGo.Lib
