/-
RediGo.Lib.Pool — a bounded pool of candidates kept in order.

An element has a key, and the pool holds at most one element for a key.
`push` replaces or appends, sorts, and drops the last element if there is
one too many; `pushAll` does that for one element after the other. The sort
is any function that permutes its argument into order, so what it does with
ties is left open.

Three kinds of facts are needed about `pushAll`: bounds on the length, from
above by the capacity and from below by the number of fresh keys; that a
class of elements can only lose members (`countP_pushAll_le`); and that it
loses none when every pushed element sorts after it (`countP_pushAll_eq`).

Which elements with equal ranks stay depends on the sort. Which ranks stay
does not: pushing an element with a fresh key inserts its rank among the
smallest ones (`map_push_of_fresh`).
-/
import Mathlib.Data.List.Basic
import Mathlib.Data.List.Nodup
import Mathlib.Data.List.Count
import Mathlib.Data.List.Sort
import Mathlib.Data.Finset.Card

namespace RediGo.Lib.Pool

variable {α κ : Type} [DecidableEq κ] {key : α → κ} {x c : α} {pool l : List α}

/-! ## Replacing or appending -/

def upsert (key : α → κ) (x : α) (pool : List α) : List α :=
  if ∃ c ∈ pool, key c = key x then pool.map fun c => if key c = key x then x else c
  else pool ++ [x]

theorem upsert_of_fresh (h : ∀ c ∈ pool, key c ≠ key x) : upsert key x pool = pool ++ [x] :=
  if_neg fun ⟨c, hc, heq⟩ => h c hc heq

theorem length_upsert_le : (upsert key x pool).length ≤ pool.length + 1 := by
  unfold upsert
  split <;> simp

theorem mem_upsert_self : x ∈ upsert key x pool := by
  unfold upsert
  split
  · rename_i h
    obtain ⟨c, hc, heq⟩ := h
    exact List.mem_map.2 ⟨c, hc, if_pos heq⟩
  · simp

theorem mem_upsert (h : c ∈ upsert key x pool) : c = x ∨ c ∈ pool := by
  unfold upsert at h
  split at h
  · obtain ⟨c', hc', rfl⟩ := List.mem_map.1 h
    split
    · exact .inl rfl
    · exact .inr hc'
  · simpa [or_comm] using h

theorem mem_upsert_iff : c ∈ upsert key x pool ↔ c = x ∨ c ∈ pool ∧ key c ≠ key x := by
  unfold upsert
  split
  · rename_i h
    obtain ⟨c₀, hc₀, hkey⟩ := h
    constructor
    · intro h
      obtain ⟨c', hc', rfl⟩ := List.mem_map.1 h
      by_cases hsame : key c' = key x
      · exact .inl (if_pos hsame)
      · rw [if_neg hsame]
        exact .inr ⟨hc', hsame⟩
    · rintro (rfl | ⟨hc, hne⟩)
      · exact List.mem_map.2 ⟨c₀, hc₀, if_pos hkey⟩
      · exact List.mem_map.2 ⟨c, hc, if_neg hne⟩
  · rename_i hfresh
    have hne : ∀ c ∈ pool, key c ≠ key x := fun c hc heq => hfresh ⟨c, hc, heq⟩
    simp only [List.mem_append, List.mem_singleton]
    constructor
    · rintro (hc | rfl)
      · exact .inr ⟨hc, hne c hc⟩
      · exact .inl rfl
    · rintro (rfl | ⟨hc, -⟩)
      · exact .inr rfl
      · exact .inl hc

theorem nodup_upsert (h : (pool.map key).Nodup) : ((upsert key x pool).map key).Nodup := by
  unfold upsert
  split
  · -- replacing an element by one with its key leaves the list of keys as it is
    have hkeys : (pool.map fun c => if key c = key x then x else c).map key = pool.map key := by
      rw [List.map_map]
      refine List.map_congr_left fun c _ => ?_
      by_cases hc : key c = key x <;> simp [hc]
    rwa [hkeys]
  · rename_i hfresh
    rw [List.map_append, List.nodup_append]
    refine ⟨h, by simp, ?_⟩
    simp only [List.mem_map, List.map_cons, List.map_nil, List.mem_singleton]
    rintro _ ⟨c, hc, rfl⟩ _ rfl heq
    exact hfresh ⟨c, hc, heq⟩

/-- A class that does not have the key of `x` is not affected. -/
theorem countP_upsert {p : α → Bool} (hp : ∀ c, key c = key x → p c = false) :
    (upsert key x pool).countP p = pool.countP p := by
  unfold upsert
  split
  · rw [List.countP_map]
    refine List.countP_congr fun c _ => ?_
    by_cases hc : key c = key x <;> simp [hc, hp x rfl, hp c]
  · simp [hp x rfl]

/-! ## Dropping the last element -/

def trim (cap : Int) (l : List α) : List α := if cap < l.length then l.dropLast else l

variable {cap : Int}

theorem trim_sublist : (trim cap l).Sublist l := by
  unfold trim
  split
  · exact List.dropLast_sublist l
  · exact List.Sublist.refl l

theorem length_trim_le (h : (l.length : Int) ≤ max cap 0 + 1) :
    ((trim cap l).length : Int) ≤ max cap 0 := by
  unfold trim
  split
  · rw [List.length_dropLast]
    omega
  · omega

theorem le_length_trim {n : Nat} (hcap : (n : Int) ≤ cap) (h : n ≤ l.length) :
    n ≤ (trim cap l).length := by
  unfold trim
  split
  · rw [List.length_dropLast]
    omega
  · exact h

theorem mem_trim_of_le (h : (l.length : Int) ≤ cap) (hc : c ∈ l) : c ∈ trim cap l := by
  rw [trim, if_neg (by omega)]
  exact hc

theorem trim_eq_take {n : Nat} (h : l.length ≤ n + 1) : trim n l = l.take n := by
  unfold trim
  split
  · rw [List.dropLast_eq_take]
    congr 1
    omega
  · rw [List.take_of_length_le (by omega)]

/-- The last element of an ordered list is no member of a class that sorts
before some element outside of it. -/
theorem countP_trim {p : α → Bool} {r : α → α → Prop} (hl : l.Pairwise r) (hx : x ∈ l)
    (hpx : p x = false) (hbefore : ∀ c, p c = true → ¬ r x c) :
    (trim cap l).countP p = l.countP p := by
  unfold trim
  split
  · obtain ⟨init, last, rfl⟩ := List.eq_nil_or_concat l |>.resolve_left (List.ne_nil_of_mem hx)
    have hlast : p last = false := by
      rw [List.concat_eq_append, List.pairwise_append] at hl
      rw [List.concat_eq_append, List.mem_append, List.mem_singleton] at hx
      rcases hx with hx | rfl
      · exact Bool.eq_false_iff.2 fun h => hbefore last h (hl.2.2 x hx last (by simp))
      · exact hpx
    simp [hlast]
  · rfl

/-! ## Pushing -/

/-- What the sort is expected to do. -/
structure Sorts (r : α → α → Prop) (sort : List α → List α) : Prop where
  perm : ∀ l, (sort l).Perm l
  sorted : ∀ l, (sort l).Pairwise r

def push (key : α → κ) (cap : Int) (sort : List α → List α) (x : α) (pool : List α) : List α :=
  trim cap (sort (upsert key x pool))

/-- The pool after all of `xs` were pushed. -/
def pushAll (key : α → κ) (cap : Int) (sort : List α → List α) (xs pool : List α) : List α :=
  xs.foldl (fun pool x => push key cap sort x pool) pool

variable {r : α → α → Prop} {sort : List α → List α} (hsort : Sorts r sort)

include hsort

theorem mem_push (h : c ∈ push key cap sort x pool) : c = x ∨ c ∈ pool :=
  mem_upsert ((hsort.perm _).mem_iff.1 (trim_sublist.mem h))

theorem pairwise_push : (push key cap sort x pool).Pairwise r :=
  (hsort.sorted _).sublist trim_sublist

theorem nodup_push (h : (pool.map key).Nodup) :
    ((push key cap sort x pool).map key).Nodup :=
  (trim_sublist.map key).nodup (((hsort.perm _).map key).nodup_iff.2 (nodup_upsert h))

theorem length_push_le (h : (pool.length : Int) ≤ max cap 0) :
    ((push key cap sort x pool).length : Int) ≤ max cap 0 := by
  refine length_trim_le ?_
  have hle : (upsert key x pool).length ≤ pool.length + 1 := length_upsert_le
  rw [(hsort.perm _).length_eq]
  omega

theorem length_push_le_succ : (push key cap sort x pool).length ≤ pool.length + 1 := by
  have hle : (upsert key x pool).length ≤ pool.length + 1 := length_upsert_le
  have htrim : (push key cap sort x pool).length ≤ _ := trim_sublist.length_le
  rw [(hsort.perm _).length_eq] at htrim
  omega

theorem le_length_push {n : Nat} (hcap : (n : Int) ≤ cap) (h : n ≤ (upsert key x pool).length) :
    n ≤ (push key cap sort x pool).length :=
  le_length_trim hcap (by rwa [(hsort.perm _).length_eq])

/-- The pushed element is there, or the pool is full. -/
theorem mem_push_self_or {n : Nat} (hcap : (n : Int) ≤ cap) :
    x ∈ push key cap sort x pool ∨ n ≤ (push key cap sort x pool).length := by
  by_cases hfull : (upsert key x pool).length ≤ cap
  · refine .inl (mem_trim_of_le ?_ ((hsort.perm _).mem_iff.2 mem_upsert_self))
    rwa [(hsort.perm _).length_eq]
  · exact .inr (le_length_push hsort hcap (by omega))

theorem countP_push_le {p : α → Bool} (hp : ∀ c, key c = key x → p c = false) :
    (push key cap sort x pool).countP p ≤ pool.countP p := by
  have htrim : (push key cap sort x pool).countP p ≤ _ := trim_sublist.countP_le
  rwa [(hsort.perm _).countP_eq, countP_upsert hp] at htrim

theorem countP_push_eq {p : α → Bool} (hp : ∀ c, key c = key x → p c = false)
    (hbefore : ∀ c, p c = true → ¬ r x c) :
    (push key cap sort x pool).countP p = pool.countP p := by
  rw [push, countP_trim (hsort.sorted _) ((hsort.perm _).mem_iff.2 mem_upsert_self) (hp x rfl)
    hbefore, (hsort.perm _).countP_eq, countP_upsert hp]

/-! ## The smallest ranks -/

section Ranks

variable {τ : Type} [LinearOrder τ]

omit hsort in
/-- To insert among the smallest, the others need not be known. -/
theorem take_orderedInsert_take (t : τ) (ranks : List τ) (n : Nat) :
    ((ranks.take n).orderedInsert (· ≤ ·) t).take n =
      (ranks.orderedInsert (· ≤ ·) t).take n := by
  induction ranks generalizing n with
  | nil => simp
  | cons a ranks ih =>
    cases n with
    | zero => simp
    | succ n =>
      by_cases hle : t ≤ a
      · have hcons : (a :: ranks.take n).take n = (a :: ranks).take n := by
          rw [← List.take_succ_cons, List.take_take, Nat.min_eq_left (Nat.le_succ n)]
        simp [hle, hcons]
      · simp [hle, ih]

/-- Pushing a fresh key onto a pool of the `n` smallest ranks. -/
theorem map_push_of_fresh {rank : α → τ} (hrank : ∀ a b, r a b → rank a ≤ rank b) {n : Nat}
    {ranks : List τ} (hsorted : ranks.Pairwise (· ≤ ·)) (hpool : pool.map rank = ranks.take n)
    (hfresh : ∀ c ∈ pool, key c ≠ key x) :
    (push key n sort x pool).map rank = (ranks.orderedInsert (· ≤ ·) (rank x)).take n := by
  have hperm : ((sort (pool ++ [x])).map rank).Perm
      ((ranks.take n).orderedInsert (· ≤ ·) (rank x)) := by
    refine ((hsort.perm _).map rank).trans ?_
    rw [List.map_append, hpool]
    exact List.perm_append_comm.trans (List.perm_orderedInsert _ _ _).symm
  have heq : (sort (pool ++ [x])).map rank = (ranks.take n).orderedInsert (· ≤ ·) (rank x) :=
    hperm.eq_of_pairwise' (List.pairwise_map.2 ((hsort.sorted _).imp fun h => hrank _ _ h))
      ((hsorted.sublist (List.take_sublist ..)).orderedInsert _ _)
  have hlen : (sort (pool ++ [x])).length ≤ n + 1 := by
    rw [← List.length_map rank, heq, List.orderedInsert_length, List.length_take]
    omega
  rw [push, upsert_of_fresh hfresh, trim_eq_take hlen, List.map_take, heq, take_orderedInsert_take]

end Ranks

/-! ## Pushing one after the other -/

variable {xs : List α}

theorem mem_pushAll (h : c ∈ pushAll key cap sort xs pool) : c ∈ xs ∨ c ∈ pool := by
  induction xs generalizing pool with
  | nil => exact .inr h
  | cons x xs ih =>
    rcases ih h with h | h
    · exact .inl (List.mem_cons_of_mem x h)
    · rcases mem_push hsort h with rfl | h
      · exact .inl List.mem_cons_self
      · exact .inr h

/-- Where the keys are few enough, nothing is dropped: the pushed elements
are there, and of the others those whose key was not pushed. -/
theorem mem_pushAll_iff {keys : Finset κ} (hcap : (keys.card : Int) ≤ cap)
    (hpool : (pool.map key).Nodup) (hkeys : ∀ c ∈ pool, key c ∈ keys)
    (hxs : (xs.map key).Nodup) (hxkeys : ∀ x ∈ xs, key x ∈ keys) :
    c ∈ pushAll key cap sort xs pool ↔ c ∈ xs ∨ c ∈ pool ∧ ∀ x ∈ xs, key c ≠ key x := by
  induction xs generalizing pool with
  | nil => simp [pushAll]
  | cons x xs ih =>
    rw [List.map_cons, List.nodup_cons] at hxs
    have hupsert : ∀ c ∈ upsert key x pool, key c ∈ keys := by
      intro c hc
      rcases mem_upsert hc with rfl | hc
      · exact hxkeys c List.mem_cons_self
      · exact hkeys c hc
    have hsub : ((upsert key x pool).map key).toFinset ⊆ keys := by
      intro k hk
      obtain ⟨c, hc, rfl⟩ := List.mem_map.1 (List.mem_toFinset.1 hk)
      exact hupsert c hc
    have hlen : ((upsert key x pool).length : Int) ≤ cap := by
      have hcard := Finset.card_le_card hsub
      rw [List.toFinset_card_of_nodup (nodup_upsert hpool), List.length_map] at hcard
      omega
    have hpush : ∀ c, c ∈ push key cap sort x pool ↔ c = x ∨ c ∈ pool ∧ key c ≠ key x := by
      intro c
      rw [push, trim, if_neg (by rw [(hsort.perm _).length_eq]; omega), (hsort.perm _).mem_iff,
        mem_upsert_iff]
    have hpushkeys : ∀ c ∈ push key cap sort x pool, key c ∈ keys := fun c hc =>
      hupsert c (mem_upsert_iff.2 ((hpush c).1 hc))
    have hrest := ih (nodup_push hsort hpool) hpushkeys hxs.2
      fun y hy => hxkeys y (List.mem_cons_of_mem x hy)
    have hfresh : ∀ y ∈ xs, key x ≠ key y := fun y hy heq =>
      hxs.1 (heq ▸ List.mem_map_of_mem hy)
    show c ∈ pushAll key cap sort xs (push key cap sort x pool) ↔ _
    rw [hrest, hpush, List.mem_cons, List.forall_mem_cons]
    constructor
    · rintro (hc | ⟨rfl | ⟨hc, hne⟩, hother⟩)
      · exact .inl (.inr hc)
      · exact .inl (.inl rfl)
      · exact .inr ⟨hc, hne, hother⟩
    · rintro ((rfl | hc) | ⟨hc, hne, hother⟩)
      · exact .inr ⟨.inl rfl, hfresh⟩
      · exact .inl hc
      · exact .inr ⟨.inr ⟨hc, hne⟩, hother⟩

omit hsort in
theorem pushAll_concat : pushAll key cap sort (xs.concat x) pool =
    push key cap sort x (pushAll key cap sort xs pool) := by
  rw [pushAll, List.concat_eq_append, List.foldl_append]
  rfl

theorem pairwise_pushAll (hxs : xs ≠ []) : (pushAll key cap sort xs pool).Pairwise r := by
  obtain ⟨init, last, rfl⟩ := List.eq_nil_or_concat xs |>.resolve_left hxs
  rw [pushAll_concat]
  exact pairwise_push hsort

theorem nodup_pushAll (h : (pool.map key).Nodup) :
    ((pushAll key cap sort xs pool).map key).Nodup := by
  induction xs generalizing pool with
  | nil => exact h
  | cons x xs ih => exact ih (nodup_push hsort h)

theorem length_pushAll_le (h : (pool.length : Int) ≤ max cap 0) :
    ((pushAll key cap sort xs pool).length : Int) ≤ max cap 0 := by
  induction xs generalizing pool with
  | nil => exact h
  | cons x xs ih => exact ih (length_push_le hsort h)

theorem length_pushAll_le_add :
    (pushAll key cap sort xs pool).length ≤ pool.length + xs.length := by
  induction xs generalizing pool with
  | nil => exact Nat.le_refl _
  | cons x xs ih =>
    have hpush : (push key cap sort x pool).length ≤ _ := length_push_le_succ hsort
    have hrest : (pushAll key cap sort xs (push key cap sort x pool)).length ≤ _ := ih
    rw [List.length_cons]
    exact Nat.le_trans hrest (by omega)

/-- Pushing fresh keys makes the pool as long as the capacity allows. -/
theorem le_length_pushAll {n : Nat} (hcap : (n : Int) ≤ cap) (h : n ≤ pool.length + xs.length)
    (hxs : (xs.map key).Nodup) (hfresh : ∀ c ∈ pool, ∀ x ∈ xs, key c ≠ key x) :
    n ≤ (pushAll key cap sort xs pool).length := by
  induction xs generalizing pool with
  | nil => exact h
  | cons x xs ih =>
    rw [List.map_cons, List.nodup_cons] at hxs
    have hx : ∀ c ∈ pool, key c ≠ key x := fun c hc => hfresh c hc x List.mem_cons_self
    have hpush : min n (pool.length + 1) ≤ (push key cap sort x pool).length := by
      refine le_length_push hsort (by omega) ?_
      rw [upsert_of_fresh hx, List.length_append]
      exact Nat.min_le_right ..
    have hlen : n ≤ (push key cap sort x pool).length + xs.length := by
      rw [List.length_cons] at h
      omega
    refine ih hlen hxs.2 fun c hc y hy => ?_
    rcases mem_push hsort hc with rfl | hc
    · exact fun heq => hxs.1 (heq ▸ List.mem_map_of_mem hy)
    · exact hfresh c hc y (List.mem_cons_of_mem x hy)

/-- Some pushed element is there, or the pool is full. -/
theorem exists_mem_pushAll_or {n : Nat} (hcap : (n : Int) ≤ cap) (hxs : xs ≠ []) :
    (∃ x ∈ xs, x ∈ pushAll key cap sort xs pool) ∨ n ≤ (pushAll key cap sort xs pool).length := by
  obtain ⟨init, last, rfl⟩ := List.eq_nil_or_concat xs |>.resolve_left hxs
  rw [pushAll_concat]
  exact (mem_push_self_or hsort hcap).imp_left fun h => ⟨last, by simp, h⟩

theorem countP_pushAll_le {p : α → Bool} (hp : ∀ x ∈ xs, ∀ c, key c = key x → p c = false) :
    (pushAll key cap sort xs pool).countP p ≤ pool.countP p := by
  induction xs generalizing pool with
  | nil => exact Nat.le_refl _
  | cons x xs ih =>
    exact Nat.le_trans (ih fun y hy => hp y (List.mem_cons_of_mem x hy))
      (countP_push_le hsort (hp x List.mem_cons_self))

theorem countP_pushAll_eq {p : α → Bool} (hp : ∀ x ∈ xs, ∀ c, key c = key x → p c = false)
    (hbefore : ∀ x ∈ xs, ∀ c, p c = true → ¬ r x c) :
    (pushAll key cap sort xs pool).countP p = pool.countP p := by
  induction xs generalizing pool with
  | nil => rfl
  | cons x xs ih =>
    exact (ih (fun y hy => hp y (List.mem_cons_of_mem x hy))
      fun y hy => hbefore y (List.mem_cons_of_mem x hy)).trans
      (countP_push_eq hsort (hp x List.mem_cons_self) (hbefore x List.mem_cons_self))

omit hsort in
/-- A class that sorts before the rest of the pool comes first in it. -/
theorem forall_mem_take {p : α → Bool} {n : Nat} (hl : l.Pairwise r)
    (hdown : ∀ a ∈ l, ∀ b, r a b → p b = true → p a = true) (hn : n ≤ l.countP p) :
    ∀ c ∈ l.take n, p c = true := by
  induction l generalizing n with
  | nil => simp
  | cons a l ih =>
    rw [List.pairwise_cons] at hl
    cases n with
    | zero => simp
    | succ n =>
      cases hpa : p a with
      | false =>
        have hnone : l.countP p = 0 := List.countP_eq_zero.2 fun b hb hpb => by
          rw [hdown a List.mem_cons_self b (hl.1 b hb) hpb] at hpa
          cases hpa
        rw [List.countP_cons_of_neg (by simp [hpa]), hnone] at hn
        omega
      | true =>
        rw [List.countP_cons_of_pos hpa] at hn
        have hrest : ∀ c ∈ l.take n, p c = true :=
          ih hl.2 (fun b hb => hdown b (List.mem_cons_of_mem a hb)) (by omega)
        simpa [hpa] using hrest

end RediGo.Lib.Pool
