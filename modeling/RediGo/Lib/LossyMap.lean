/-
RediGo.Lib.LossyMap — timed maps that give entries up when they are full.

`Put limit m k v expiry m'` says that storing `v` under `k` may turn `m` into
`m'`: the new entry is there, and if `m` had `limit` entries or more, any of
them may be gone. The entry that `k` had before may be among them; the new
entry then has no expiry time, since that was lost with the old one.

Two facts make this usable as a specification. An implementation that also
drops expired entries simulates one that does not (`Thinning.put`). And
compared with a map that never gives anything up, a lossy map holds at each
key the same value or nothing (`Remnant`), whatever was lost when.
-/
import Mathlib.Data.Finset.Card
import RediGo.Lib.TimedMap

namespace RediGo.Lib.TimedMap

variable {K V : Type} {m m' whole : TimedMap K V}

/-! ## Losing entries -/

open Classical in
/-- The map without the entries of `lost`. -/
noncomputable def forget (m : TimedMap K V) (lost : Set K) : TimedMap K V :=
  fun k => if k ∈ lost then none else m k

theorem forget_of_mem {lost : Set K} {k : K} (h : k ∈ lost) : m.forget lost k = none := if_pos h

theorem forget_of_notMem {lost : Set K} {k : K} (h : k ∉ lost) : m.forget lost k = m k := if_neg h

/-- There are at least `limit` entries. -/
def Full (limit : Int) (m : TimedMap K V) : Prop :=
  ∃ keys : Finset K, (∀ k ∈ keys, m k ≠ none) ∧ limit ≤ keys.card

theorem Thinning.ne_none {t : Nat} (h : Thinning t m m') {k : K} (hk : m' k ≠ none) :
    m' k = m k := (h k).resolve_right fun hgone => hk hgone.1

/-- At each key the entry of `whole`, that entry without its expiry time, or
nothing. -/
def Remnant (whole m : TimedMap K V) : Prop :=
  ∀ k v expiry, m k = some (v, expiry) →
    ∃ expiry', whole k = some (v, expiry') ∧ (expiry = expiry' ∨ expiry = none)

theorem Remnant.refl (m : TimedMap K V) : Remnant m m :=
  fun _ _ expiry h => ⟨expiry, h, .inl rfl⟩

variable [DecidableEq K]

theorem set_self (k : K) (v : V) (expiry : Option Nat) : m.set k v expiry k = some (v, expiry) :=
  if_pos rfl

theorem set_of_ne {k k' : K} (h : k' ≠ k) (v : V) (expiry : Option Nat) :
    m.set k v expiry k' = m k' := if_neg h

open Classical in
/-- What storing `v` under `k` may make of a map that is full from `limit`
entries on. -/
inductive Put (limit : Int) (m : TimedMap K V) (k : K) (v : V) (expiry : Option Nat) :
    TimedMap K V → Prop
  | losing (lost : Set K) (hfull : lost.Nonempty → m.Full limit) (hlost : ∀ k' ∈ lost, m k' ≠ none) :
    Put limit m k v expiry ((m.forget lost).set k v (if k ∈ lost then none else expiry))

/-- A map with room loses nothing. -/
theorem Put.eq_set {limit : Int} {k : K} {v : V} {expiry : Option Nat}
    (h : Put limit m k v expiry m') (hroom : ¬ m.Full limit) : m' = m.set k v expiry := by
  obtain ⟨lost, hfull, -⟩ := h
  have hnone : ∀ k', k' ∉ lost := fun k' hk' => hroom (hfull ⟨k', hk'⟩)
  funext k'
  by_cases hk : k' = k
  · rw [hk, set_self, set_self, if_neg (hnone k)]
  · rw [set_of_ne hk, set_of_ne hk, forget_of_notMem (hnone k')]

/-! ## Dropping expired entries besides -/

/-- What the thinned map may lose, the ideal one may lose too. -/
theorem Thinning.put {t : Nat} {limit : Int} {k : K} {v : V} {expiry : Option Nat}
    {next : TimedMap K V} (h : Thinning t m m') (hput : Put limit m' k v expiry next) :
    ∃ ideal, Put limit m k v expiry ideal ∧ Thinning t ideal next := by
  obtain ⟨lost, hfull, hlost⟩ := hput
  have hsub : ∀ k' ∈ lost, m k' ≠ none := fun k' hk' => h.ne_none (hlost k' hk') ▸ hlost k' hk'
  refine ⟨_, .losing lost ?_ hsub, ?_⟩
  · intro hne
    obtain ⟨keys, hkeys, hcard⟩ := hfull hne
    exact ⟨keys, fun k' hk' => h.ne_none (hkeys k' hk') ▸ hkeys k' hk', hcard⟩
  · refine Thinning.set (fun k' => ?_) k v _
    by_cases hk' : k' ∈ lost
    · simp only [forget_of_mem hk', true_or]
    · rw [forget_of_notMem hk', forget_of_notMem hk']
      exact h k'

/-! ## Compared with a map that loses nothing -/

theorem Remnant.put {limit : Int} {k : K} {v : V} {expiry : Option Nat} {next : TimedMap K V}
    (h : Remnant whole m) (hput : Put limit m k v expiry next) :
    Remnant (whole.set k v expiry) next := by
  obtain ⟨lost, -, -⟩ := hput
  intro k' v' expiry' hentry
  by_cases hk : k' = k
  · subst hk
    rw [set_self] at hentry ⊢
    cases hentry
    refine ⟨expiry, rfl, ?_⟩
    by_cases hlost : k' ∈ lost
    · exact .inr (if_pos hlost)
    · exact .inl (if_neg hlost)
  · rw [set_of_ne hk] at hentry ⊢
    by_cases hlost : k' ∈ lost
    · rw [forget_of_mem hlost] at hentry
      cases hentry
    · rw [forget_of_notMem hlost] at hentry
      exact h k' v' expiry' hentry

end RediGo.Lib.TimedMap
