/-
RediGo.Lib.Shard — one store split over several.

`cells s k` is what the store `s` holds for the key `k`. An operation is
`LocalAt k` if it leaves the cells of other keys alone and if its reply and
the new cell of `k` depend on the old cell of `k` only. An operation is
`Inert` if it does nothing but reply.

`Split part blank shards whole` says that each cell of `whole` is found in
the shard its key belongs to, and that the other shards hold `blank` there.
A local operation on the shard of its key keeps this when it is also
performed on the whole, and both give the same reply (`Split.localAt`); an
inert operation may be performed on any shard (`Split.inert`). `Confined` is
the part of `Split` that does not speak of the whole.

Operations need only behave within a set `P` of states, such as the states
that have room left.
-/
import Mathlib.Logic.Function.Basic

namespace RediGo.Lib

variable {S K A R I : Type} (cells : S → K → A)

structure LocalAt (P : S → Prop) (op : S → R × S) (k : K) : Prop where
  frame : ∀ s, P s → ∀ k', k' ≠ k → cells (op s).2 k' = cells s k'
  agree : ∀ s s', P s → P s' → cells s k = cells s' k →
    (op s).1 = (op s').1 ∧ cells (op s).2 k = cells (op s').2 k

/-- The operation replies and does nothing else. -/
def Inert (op : S → R × S) : Prop := ∃ r, ∀ s, op s = (r, s)

theorem Inert.localAt {op : S → R × S} (h : Inert op) (P : S → Prop) (k : K) :
    LocalAt cells P op k := by
  obtain ⟨r, hr⟩ := h
  constructor
  · intro s _ k' _
    rw [hr]
  · intro s s' _ _ hk
    rw [hr, hr]
    exact ⟨rfl, hk⟩

/-- A shard holds nothing for a key that is not its own. -/
def Confined (part : K → I) (blank : A) (shards : I → S) : Prop :=
  ∀ i k, part k ≠ i → cells (shards i) k = blank

/-- The shards hold the cells of `whole`, each in its own place only. -/
def Split [DecidableEq I] (part : K → I) (blank : A) (shards : I → S) (whole : S) : Prop :=
  ∀ i k, cells (shards i) k = if part k = i then cells whole k else blank

variable {cells} [DecidableEq I] {part : K → I} {blank : A} {shards : I → S} {whole : S}

theorem Confined.localAt (h : Confined cells part blank shards) {P : S → Prop} {op : S → R × S}
    {k : K} (hop : LocalAt cells P op k) (hshard : P (shards (part k))) :
    Confined cells part blank (Function.update shards (part k) (op (shards (part k))).2) := by
  intro i k' hk'
  by_cases hi : i = part k
  · subst hi
    have hne : k' ≠ k := fun heq => hk' (congrArg part heq)
    rw [Function.update_self, hop.frame _ hshard k' hne, h _ _ hk']
  · rw [Function.update_of_ne hi, h _ _ hk']

theorem Confined.inert (h : Confined cells part blank shards) {op : S → R × S} (hop : Inert op)
    (i : I) : Confined cells part blank (Function.update shards i (op (shards i)).2) := by
  obtain ⟨r, hr⟩ := hop
  rw [hr, Function.update_eq_self]
  exact h

theorem Split.localAt (h : Split cells part blank shards whole) {P : S → Prop} {op : S → R × S}
    {k : K} (hop : LocalAt cells P op k) (hshard : P (shards (part k))) (hwhole : P whole) :
    (op (shards (part k))).1 = (op whole).1 ∧
      Split cells part blank (Function.update shards (part k) (op (shards (part k))).2)
        (op whole).2 := by
  have hk : cells (shards (part k)) k = cells whole k := by rw [h, if_pos rfl]
  obtain ⟨hreply, hcell⟩ := hop.agree _ _ hshard hwhole hk
  refine ⟨hreply, ?_⟩
  intro i k'
  by_cases hi : i = part k
  · subst hi
    rw [Function.update_self]
    by_cases hk' : k' = k
    · rw [hk', if_pos rfl, hcell]
    · rw [hop.frame _ hshard k' hk', hop.frame _ hwhole k' hk', h]
  · rw [Function.update_of_ne hi, h]
    by_cases hk' : k' = k
    · rw [hk', if_neg (Ne.symm hi), if_neg (Ne.symm hi)]
    · rw [hop.frame _ hwhole k' hk']

theorem Split.inert (h : Split cells part blank shards whole) {op : S → R × S} (hop : Inert op)
    (i : I) :
    (op (shards i)).1 = (op whole).1 ∧
      Split cells part blank (Function.update shards i (op (shards i)).2) (op whole).2 := by
  obtain ⟨r, hr⟩ := hop
  rw [hr, hr, Function.update_eq_self]
  exact ⟨rfl, h⟩

end RediGo.Lib
