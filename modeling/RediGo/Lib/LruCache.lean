/-
RediGo.Lib.LruCache — what a cache that evicts the least recently used
entries is.

An entry has a value and the time of its last use. Storing into a cache
that has `cap` entries or more first gives up `evict` of them, and none of
these was used after one that stays. Which of several entries with one
time goes is left open, so this is a relation (`Store`).

From the definition follows the guarantee a user of such a cache relies
on: an entry can only be given up when enough others were used since
(`Store.survives`).
-/
import Mathlib.Data.Finset.Card
import Mathlib.Logic.Function.Basic

namespace RediGo.Lib

/-- Values with the time of their last use. -/
def LruCache (K V : Type) : Type := K → Option (V × Nat)

namespace LruCache

variable {K V : Type} [DecidableEq K] {m m' : LruCache K V} {k : K} {t : Nat}

def empty : LruCache K V := fun _ => none

def put (t : Nat) (k : K) (v : V) (m : LruCache K V) : LruCache K V :=
  Function.update m k (some (v, t))

/-- A use renews the time of an entry that is there. -/
def use (t : Nat) (k : K) (m : LruCache K V) : LruCache K V :=
  Function.update m k ((m k).map fun entry => (entry.1, t))

/-- The cache without the entries of `lost`. -/
def without (lost : Finset K) (m : LruCache K V) : LruCache K V :=
  fun k => if k ∈ lost then none else m k

/-- The keys that have an entry. -/
def Holds (m : LruCache K V) (keys : Finset K) : Prop := ∀ k, k ∈ keys ↔ m k ≠ none

/-- `lost` are `n` entries, and none of them was used after one of the
others. -/
structure Oldest (n : Nat) (m : LruCache K V) (lost : Finset K) : Prop where
  card : lost.card = n
  stored : ∀ k ∈ lost, m k ≠ none
  least : ∀ a ∈ lost, ∀ b, b ∉ lost → ∀ x y, m a = some x → m b = some y → x.2 ≤ y.2

/-- What storing `v` under `k` at time `t` may make of the cache. -/
inductive Store (cap evict t : Nat) (k : K) (v : V) (m : LruCache K V) : LruCache K V → Prop
  | room {keys : Finset K} (hkeys : m.Holds keys) (hroom : keys.card < cap) :
    Store cap evict t k v m (m.put t k v)
  | full {keys lost : Finset K} (hkeys : m.Holds keys) (hfull : cap ≤ keys.card)
    (hlost : m.Oldest (min evict keys.card) lost) :
    Store cap evict t k v m ((m.without lost).put t k v)

/-! ## Entries by key -/

@[simp] theorem put_self (v : V) : m.put t k v k = some (v, t) := Function.update_self ..

theorem put_of_ne {k' : K} (h : k' ≠ k) (v : V) : m.put t k v k' = m k' :=
  Function.update_of_ne h ..

@[simp] theorem use_self : m.use t k k = (m k).map fun entry => (entry.1, t) :=
  Function.update_self ..

theorem use_of_ne {k' : K} (h : k' ≠ k) : m.use t k k' = m k' := Function.update_of_ne h ..

/-- A use of what is not there does nothing. -/
theorem use_of_none (h : m k = none) : m.use t k = m := by
  rw [use, h, Option.map_none, ← h]
  exact Function.update_eq_self k m

theorem without_of_notMem {lost : Finset K} (h : k ∉ lost) : m.without lost k = m k := if_neg h

/-! ## What cannot be given up -/

/-- The other entries that were used at the time `since` or later are among
`others`. -/
def Fresher (since : Nat) (k : K) (others : Finset K) (m : LruCache K V) : Prop :=
  ∀ b, b ≠ k → ∀ y, m b = some y → since ≤ y.2 → b ∈ others

/-- An entry is not among the oldest if the fresher ones are too few to be
all that stays. -/
theorem Oldest.notMem {n : Nat} {keys lost others : Finset K} (h : m.Oldest n lost)
    (hkeys : m.Holds keys) {x : V × Nat} (hx : m k = some x) (hfresh : m.Fresher x.2 k others)
    (hfew : others.card + n < keys.card) : k ∉ lost := by
  intro hk
  have hstay : keys \ lost ⊆ others := by
    intro b hb
    obtain ⟨hb, hnot⟩ := Finset.mem_sdiff.1 hb
    obtain ⟨y, hy⟩ := Option.ne_none_iff_exists'.1 ((hkeys b).1 hb)
    exact hfresh b (fun heq => hnot (heq ▸ hk)) y hy (h.least k hk b hnot x y hx hy)
  have hcard := Finset.card_le_card hstay
  have hle := Finset.le_card_sdiff lost keys
  rw [h.card] at hle
  omega

/-- Storing under another key gives up an entry only if there are
`cap - evict` others as fresh. -/
theorem Store.survives {cap evict : Nat} {k' : K} {v : V} {others : Finset K}
    (h : Store cap evict t k' v m m') (hne : k ≠ k') {x : V × Nat} (hx : m k = some x)
    (hfresh : m.Fresher x.2 k others) (hfew : others.card + evict < cap) : m' k = some x := by
  cases h with
  | room hkeys hroom => rw [put_of_ne hne, hx]
  | full hkeys hfull hlost =>
    have hk := hlost.notMem hkeys hx hfresh (by omega)
    rw [put_of_ne hne, without_of_notMem hk, hx]

omit [DecidableEq K] in
theorem Fresher.mono {since since' : Nat} {others : Finset K} (h : m.Fresher since k others)
    (hle : since ≤ since') : m.Fresher since' k others :=
  fun b hb y hy hle' => h b hb y hy (Nat.le_trans hle hle')

/-- Only the stored key becomes fresher. -/
theorem Store.fresher {cap evict since : Nat} {k' : K} {v : V} {others : Finset K}
    (h : Store cap evict t k' v m m') (hfresh : m.Fresher since k others)
    (hk' : k' ≠ k → since ≤ t → k' ∈ others) : m'.Fresher since k others := by
  intro b hb y hy hle
  by_cases hbk : b = k'
  · subst hbk
    have hnew : y = (v, t) := by
      cases h <;> exact (Option.some.inj ((put_self v).symm.trans hy)).symm
    rw [hnew] at hle
    exact hk' hb hle
  · have hold : m b = some y := by
      cases h with
      | room hkeys hroom => rwa [put_of_ne hbk] at hy
      | full hkeys hfull hlost =>
        rw [put_of_ne hbk, without] at hy
        split at hy
        · cases hy
        · exact hy
    exact hfresh b hb y hold hle

theorem Fresher.use {since : Nat} {k' : K} {others : Finset K} (h : m.Fresher since k others)
    (hk' : k' ≠ k → since ≤ t → k' ∈ others) : (m.use t k').Fresher since k others := by
  intro b hb y hy hle
  by_cases hbk : b = k'
  · subst hbk
    rw [use_self] at hy
    obtain ⟨entry, -, rfl⟩ := Option.map_eq_some_iff.1 hy
    exact hk' hb hle
  · rw [use_of_ne hbk] at hy
    exact h b hb y hy hle

end LruCache

end RediGo.Lib
