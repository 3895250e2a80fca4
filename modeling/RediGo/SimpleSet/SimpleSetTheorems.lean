/-
RediGo.SimpleSet.SimpleSetTheorems — the unordered set is a finite set.

`elems` forgets the order in which the map holds its keys. `Add` is then the
union with the arguments and counts those that were not there, once each
however often they are given (`add_eq`); `Rem` is the difference and counts
those that were there (`rem_eq`). `Members` lists every element once, in
whatever order the map is visited (`members_eq`).
-/
import Mathlib.Data.Finset.Card
import Mathlib.Data.List.AList
import RediGo.SimpleSet.SimpleSet

namespace RediGo.SimpleSet

open RediGo.Go RediGo.HashTable

/-- The elements of a set. -/
def elems (s : SimpleSet) : Finset Bytes := s.dict.keys.toFinset

variable {s : SimpleSet}

theorem mem_elems {m : Bytes} : m ∈ s.elems ↔ m ∈ s.dict := by
  rw [elems, List.mem_toFinset, AList.mem_keys]

theorem elems_insert (m : Bytes) :
    ({ s with dict := s.dict.insert m () } : SimpleSet).elems = insert m s.elems := by
  ext k
  simp only [mem_elems, AList.mem_insert, Finset.mem_insert]

theorem elems_erase (m : Bytes) :
    ({ s with dict := s.dict.erase m } : SimpleSet).elems = s.elems.erase m := by
  ext k
  simp only [mem_elems, AList.mem_erase, Finset.mem_erase]

/-- `Add` counts every new member once. -/
theorem add_eq (members : List Bytes) :
    (s.add members).1 = (members.toFinset \ s.elems).card ∧
      (s.add members).2.elems = s.elems ∪ members.toFinset := by
  induction members generalizing s with
  | nil => simp [add]
  | cons m members ih =>
    rw [add, List.toFinset_cons]
    by_cases hm : m ∈ s.dict
    · have hmem := mem_elems.2 hm
      rw [if_pos hm, Finset.insert_sdiff_of_mem _ hmem, Finset.union_insert, Finset.insert_eq_of_mem
        (Finset.mem_union_left _ hmem)]
      exact ih
    · have hmem : m ∉ s.elems := fun h => hm (mem_elems.1 h)
      obtain ⟨hcount, helems⟩ := ih (s := { s with dict := s.dict.insert m () })
      rw [elems_insert] at hcount helems
      rw [if_neg hm]
      refine ⟨?_, ?_⟩
      · -- a second `m` among the members is no longer new
        have hrest : insert m members.toFinset \ s.elems =
            insert m (members.toFinset \ insert m s.elems) := by
          ext k
          by_cases hk : k = m <;> simp [hk, hmem]
        rw [hrest, Finset.card_insert_of_notMem (by simp), ← hcount]
      · rw [Finset.union_insert, ← Finset.insert_union, ← helems]

/-- `Rem` counts every member that goes. -/
theorem rem_eq (members : List Bytes) :
    (s.rem members).1 = (s.elems ∩ members.toFinset).card ∧
      (s.rem members).2.elems = s.elems \ members.toFinset := by
  induction members generalizing s with
  | nil => simp [rem]
  | cons m members ih =>
    rw [rem, List.toFinset_cons]
    by_cases hm : m ∈ s.dict
    · have hmem := mem_elems.2 hm
      obtain ⟨hcount, helems⟩ := ih (s := { s with dict := s.dict.erase m })
      rw [elems_erase] at hcount helems
      rw [if_pos hm]
      refine ⟨?_, ?_⟩
      · have hrest : s.elems ∩ insert m members.toFinset =
            insert m (s.elems.erase m ∩ members.toFinset) := by
          ext k
          by_cases hk : k = m <;> simp [hk, hmem]
        rw [hrest, Finset.card_insert_of_notMem (by simp), ← hcount]
      · rw [Finset.sdiff_insert, ← Finset.erase_sdiff_comm, ← helems]
    · have hmem : m ∉ s.elems := fun h => hm (mem_elems.1 h)
      rw [if_neg hm, Finset.inter_insert_of_notMem hmem, Finset.sdiff_insert_of_notMem hmem]
      exact ih

theorem isMember_eq (m : Bytes) : s.isMember m = if m ∈ s.elems then 1 else 0 := by
  simp only [isMember, mem_elems]

/-- `Members` lists every element once. -/
theorem members_eq (order : MapOrder) :
    (s.members order).Nodup ∧ (s.members order).toFinset = s.elems := by
  have hperm : (s.members order).Perm s.dict.keys := order.perm _
  exact ⟨hperm.nodup_iff.2 s.dict.keys_nodup, List.toFinset_eq_of_perm _ _ hperm⟩

end RediGo.SimpleSet
