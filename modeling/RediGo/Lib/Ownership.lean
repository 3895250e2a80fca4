/-
RediGo.Lib.Ownership — a table whose entries each have one owner.

`part i` is what the owner `i` believes the table to hold. `Owned table part`
says that the parts make up the table: what an owner believes is true, every
entry has an owner, and no key has two. It survives a new entry
(`Owned.insert`), the passing of an entry from one owner to another
(`Owned.pass`) and its removal by the owner (`Owned.remove`).
-/
import Mathlib.Logic.Function.Basic

namespace RediGo.Lib

variable {I K V : Type}

structure Owned (table : K → Option V) (part : I → K → Option V) : Prop where
  sound : ∀ i k v, part i k = some v → table k = some v
  complete : ∀ k v, table k = some v → ∃ i, part i k = some v
  disjoint : ∀ i j k v w, part i k = some v → part j k = some w → i = j

namespace Owned

variable {table : K → Option V} {part : I → K → Option V}

theorem part_none (h : Owned table part) {k : K} (hk : table k = none) (i : I) :
    part i k = none := by
  cases hpart : part i k with
  | none => rfl
  | some v => cases hk.symm.trans (h.sound i k v hpart)

theorem part_none_of_ne (h : Owned table part) {i j : I} {k : K} {v : V}
    (hk : part i k = some v) (hne : j ≠ i) : part j k = none := by
  cases hpart : part j k with
  | none => rfl
  | some w => exact absurd (h.disjoint j i k w v hpart hk) hne

variable [DecidableEq I] [DecidableEq K]

/-- Setting the entry of one key in one part. -/
def put (part : I → K → Option V) (i : I) (k : K) (v : Option V) : I → K → Option V :=
  Function.update part i (Function.update (part i) k v)

theorem put_self (i : I) (k : K) (v : Option V) : put part i k v i k = v := by
  simp [put]

theorem put_of_ne_key {i j : I} {k k' : K} (h : k' ≠ k) (v : Option V) :
    put part i k v j k' = part j k' := by
  by_cases hj : j = i
  · subst hj
    simp [put, h]
  · simp [put, hj]

theorem put_of_ne {i j : I} (h : j ≠ i) (k k' : K) (v : Option V) :
    put part i k v j k' = part j k' := by
  simp [put, h]

/-- Parts that differ at one place. -/
theorem eq_put {part' : I → K → Option V} {i : I} {k : K} {v : Option V} (hself : part' i k = v)
    (hother : ∀ j x, j ≠ i ∨ x ≠ k → part' j x = part j x) : part' = put part i k v := by
  funext j x
  by_cases hx : x = k
  · by_cases hj : j = i
    · rw [hj, hx, put_self, hself]
    · rw [put_of_ne hj, hother j x (.inl hj)]
  · rw [put_of_ne_key hx, hother j x (.inr hx)]

/-- A new entry. -/
theorem insert (h : Owned table part) {k : K} (hk : table k = none) (i : I) (v : V) :
    Owned (Function.update table k (some v)) (put part i k (some v)) := by
  have hnone := h.part_none hk
  constructor
  · intro j k' w hw
    by_cases hkey : k' = k
    · subst hkey
      by_cases hj : j = i
      · subst hj
        rw [put_self] at hw
        rw [Function.update_self, hw]
      · rw [put_of_ne hj, hnone] at hw
        cases hw
    · rw [put_of_ne_key hkey] at hw
      rw [Function.update_of_ne hkey]
      exact h.sound j k' w hw
  · intro k' w hw
    by_cases hkey : k' = k
    · subst hkey
      rw [Function.update_self] at hw
      exact ⟨i, (put_self i k' _).trans hw⟩
    · rw [Function.update_of_ne hkey] at hw
      obtain ⟨j, hj⟩ := h.complete k' w hw
      exact ⟨j, (put_of_ne_key hkey _).trans hj⟩
  · intro j j' k' w w' hw hw'
    by_cases hkey : k' = k
    · subst hkey
      -- nobody had the key, so whoever has it now is the new owner
      have howner : ∀ j w, put part i k' (some v) j k' = some w → j = i := by
        intro j w hw
        by_contra hj
        rw [put_of_ne hj, hnone] at hw
        cases hw
      rw [howner j w hw, howner j' w' hw']
    · rw [put_of_ne_key hkey] at hw hw'
      exact h.disjoint j j' k' w w' hw hw'

/-- The owner removes its entry. -/
theorem remove (h : Owned table part) {i : I} {k : K} {v : V} (hk : part i k = some v) :
    Owned (Function.update table k none) (put part i k none) := by
  have hnone : ∀ j, put part i k none j k = none := by
    intro j
    by_cases hj : j = i
    · rw [hj, put_self]
    · rw [put_of_ne hj]
      exact h.part_none_of_ne hk hj
  constructor
  · intro j k' w hw
    by_cases hkey : k' = k
    · rw [hkey, hnone] at hw
      cases hw
    · rw [put_of_ne_key hkey] at hw
      rw [Function.update_of_ne hkey]
      exact h.sound j k' w hw
  · intro k' w hw
    by_cases hkey : k' = k
    · rw [hkey, Function.update_self] at hw
      cases hw
    · rw [Function.update_of_ne hkey] at hw
      obtain ⟨j, hj⟩ := h.complete k' w hw
      exact ⟨j, (put_of_ne_key hkey _).trans hj⟩
  · intro j j' k' w w' hw hw'
    by_cases hkey : k' = k
    · rw [hkey, hnone] at hw
      cases hw
    · rw [put_of_ne_key hkey] at hw hw'
      exact h.disjoint j j' k' w w' hw hw'

/-- The entry passes from `i` to `j`: it is removed and inserted again. -/
theorem pass (h : Owned table part) {i : I} {k : K} {v : V} (hk : part i k = some v) (j : I) :
    Owned table (put (put part i k none) j k (some v)) := by
  have hback := (h.remove hk).insert (Function.update_self k none table) j v
  have htable : Function.update table k (some v) = table := by
    rw [← h.sound i k v hk, Function.update_eq_self]
  rw [Function.update_idem, htable] at hback
  exact hback

end Owned

end RediGo.Lib
