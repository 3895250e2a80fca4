/-
RediGo.SortedSet.BTreeContents — what is in the leaves of a B+ tree index,
for arbitrary scores and members.

Nothing here needs the search order. A call may end in a leaf where it
does not find the item it looks for, but what it then does to the stored
items is still one of a few things: `Add` enters one item or sets the score
of one, `RemoveByScore` takes one out (`run_contents`). Splits, rotations
and merges move items between leaves and change no list of items.

The one thing that could go wrong is sharing. `Add` sets a score through a
pointer, so two leaf entries with the same pointer would both change.
`Stored` says that there are no such entries.

With fresh members the scores along the chain are in order, ties included,
and `GetRange`, which stops at the first score above `max`, returns all that
is in the range (`run_range`).
-/
import Mathlib.Data.Multiset.AddSub
import RediGo.SortedSet.BTreeOrder

namespace RediGo.SortedSet.BTreeIndex

open RediGo.Lib RediGo.Go

variable {S : Type}

/-! ## Pointers in the leaves -/

/-- The pointers in the leaves are allocated, and no two are the same. -/
structure Stored (d : Nat) (t : BTreeIndex S) (T : AnyTree Ref) : Prop
    extends WellFormed d t T where
  alloc : ∀ x ∈ T.2.leafItems, x < t.items.next
  nodup : T.2.leafItems.Nodup

theorem stored_new [Inhabited S] {d : Nat} :
    Stored d (BTreeIndex.new (S := S) d) ⟨0, .leaf 0 []⟩ where
  toWellFormed := wellFormed_new
  alloc := by simp
  nodup := by simp

theorem map_item_setItem {t : BTreeIndex S} {x : Ref} (i : Item S) {A B : List Ref}
    (h : (A ++ x :: B).Nodup) :
    (A ++ x :: B).map (t.setItem x i).item = A.map t.item ++ i :: B.map t.item := by
  have hother : ∀ {L : List Ref}, x ∉ L → L.map (t.setItem x i).item = L.map t.item := by
    intro L hx
    refine List.map_congr_left fun y hy => ?_
    exact if_neg fun heq : y = x => hx (heq ▸ hy)
  have hself : (t.setItem x i).item x = i := if_pos rfl
  rw [List.nodup_middle, List.nodup_cons, List.mem_append, not_or] at h
  rw [List.map_append, List.map_cons, hself, hother h.1.1, hother h.1.2]

section Ops

variable {d : Nat} {t : BTreeIndex S} {T : AnyTree Ref}

/-- A fresh pointer enters a leaf. -/
theorem Stored.insert {c : Ctx Ref 0} {r : Ref} {A B : List Ref} {i : Item S}
    {t' : BTreeIndex S} {T' : AnyTree Ref} (h : Stored d t (c.plug (.leaf r (A ++ B))))
    (hwf : WellFormed d t' T') (hitems : t'.items = t.items.alloc i)
    (hsteps : Rebalances (c.plug (.leaf r (A ++ t.items.next :: B))) T') : Stored d t' T' := by
  have hperm : T'.2.leafItems.Perm
      (t.items.next :: (c.plug (.leaf r (A ++ B))).2.leafItems) := by
    rw [hsteps.leafItems_eq, leafItems_plug, leafItems_plug, List.append_assoc, List.cons_append,
      List.append_assoc, ← List.append_assoc, ← List.append_assoc (c.before.filterMap _)]
    exact List.perm_middle
  refine { toWellFormed := hwf, alloc := ?_, nodup := ?_ }
  · intro x hx
    rw [hitems, Heap.alloc_next]
    rcases List.mem_cons.1 (hperm.mem_iff.1 hx) with rfl | hx
    · exact Nat.lt_succ_self _
    · exact Nat.lt_succ_of_lt (h.alloc x hx)
  · rw [hperm.nodup_iff, List.nodup_cons]
    exact ⟨fun hx => lt_irrefl _ (h.alloc _ hx), h.nodup⟩

variable [LT S] [LE S] [BEq S] [DecidableLT S] [DecidableLE S]

omit [BEq S] in
/-- What `Add` of a non-empty member does to the stored items. -/
theorem Stored.add (hd : 2 ≤ d) (h : Stored d t T) (score : S) {member : Bytes}
    (hm : member ≠ []) :
    ∃ t' T' X Y, Stored d t' T' ∧ t'.view T' = X ++ ⟨score, member⟩ :: Y ∧
      ((t.add score member = .ok (1, t') ∧ t.view T = X ++ Y) ∨
        ∃ old, t.add score member = .ok (0, t') ∧ t.view T = X ++ ⟨old, member⟩ :: Y) := by
  obtain ⟨c, r, is, rfl, -, hcase⟩ := add_cases hd h.toWellFormed score hm
  rcases hcase with ⟨x, hx, rfl, hrun⟩ | ⟨-, A, B, t', T', rfl, -, -, hrun, hwf, hsteps, hit⟩
  · have hmem : x ∈ (c.plug (.leaf r is)).2.leafItems := by simp [leafItems_plug, hx]
    obtain ⟨A, B, hAB⟩ := List.append_of_mem hmem
    have hnodup := h.nodup
    rw [hAB] at hnodup
    refine ⟨_, c.plug (.leaf r is), A.map t.item, B.map t.item, ?_, ?_,
      .inr ⟨(t.item x).score, hrun, ?_⟩⟩
    · exact { toWellFormed := h.toWellFormed.congr rfl rfl rfl, alloc := h.alloc, nodup := h.nodup }
    · rw [view, hAB, map_item_setItem _ hnodup]
    · rw [view, hAB, List.map_append, List.map_cons]
  · obtain ⟨hview, hview'⟩ := view_insert h.alloc hit hsteps
    exact ⟨t', T', _, _, h.insert hwf hit hsteps, hview', .inl ⟨hrun, hview⟩⟩

omit [BEq S] in
/-- The two ways `Add` of a non-empty member can go. -/
theorem exists_find_of_add {t' : BTreeIndex S} {score : S} {member : Bytes} {ret : Int}
    (hm : member ≠ []) (h : t.add score member = .ok (ret, t')) :
    ∃ leaf, t.findLeaf score t.fuel t.root = .ok leaf ∧
      ((∃ x, (t.node leaf).items.find? (fun r => (t.item r).member = member) = some x ∧
          t' = t.setItem x { t.item x with score := score }) ∨
        (t.node leaf).items.find? (fun r => (t.item r).member = member) = none ∧ ret = 1) := by
  rw [add, addWith, if_neg (by simpa using hm)] at h
  obtain ⟨leaf, hleaf, h⟩ := bind_eq_ok h
  refine ⟨leaf, hleaf, ?_⟩
  cases hfind : (t.node leaf).items.find? (fun r => (t.item r).member = member) with
  | some x =>
    rw [hfind] at h
    cases h
    exact .inl ⟨x, rfl, rfl⟩
  | none =>
    rw [hfind] at h
    obtain ⟨items, -, h⟩ := bind_eq_ok h
    dsimp only at h
    split at h
    · obtain ⟨t₁, -, h⟩ := bind_eq_ok h
      cases h
      exact .inr ⟨rfl, rfl⟩
    · cases h
      exact .inr ⟨rfl, rfl⟩

/-- `Add` comes to a leaf with an item of the member, and that item has the
score already. -/
def Overwrites (t : BTreeIndex S) (score : S) (member : Bytes) : Prop :=
  ∃ leaf x, t.findLeaf score t.fuel t.root = .ok leaf ∧
    (t.node leaf).items.find? (fun r => (t.item r).member = member) = some x ∧
    (t.item x).score = score

omit [BEq S] in
/-- `Add` changes the stored items, unless it overwrites one with itself. Then
it changes nothing at all. -/
theorem Stored.add_entries (hd : 2 ≤ d) (h : Stored d t T) (score : S) {member : Bytes}
    (hm : member ≠ []) :
    ∃ ret t', t.add score member = .ok (ret, t') ∧ (t.Overwrites score member → t' = t) ∧
      (t'.entries = t.entries → t.Overwrites score member) := by
  obtain ⟨t', T', X, Y, h', hview', hcase⟩ := h.add hd score hm
  obtain ⟨ret, hadd, hret⟩ : ∃ ret, t.add score member = .ok (ret, t') ∧
      (ret = 1 → t.view T = X ++ Y) := by
    rcases hcase with ⟨hadd, hview⟩ | ⟨old, hadd, -⟩
    · exact ⟨1, hadd, fun _ => hview⟩
    · exact ⟨0, hadd, fun h01 => by cases h01⟩
  obtain ⟨leaf, hleaf, ⟨x, hfind, rfl⟩ | ⟨hfind, rfl⟩⟩ := exists_find_of_add hm hadd
  · refine ⟨ret, _, hadd, ?_, fun hentries => ⟨leaf, x, hleaf, hfind, ?_⟩⟩
    · rintro ⟨leaf', x', hleaf', hfind', hscore⟩
      cases hleaf.symm.trans hleaf'
      cases hfind.symm.trans hfind'
      have hself : t.items.set x (t.item x) = t.items := by
        have hget : (fun y => if y = x then t.item x else t.items.get y) = t.items.get := by
          funext y
          split
          · rename_i heq
            rw [heq, item]
          · rfl
        rw [Heap.set, hget]
      rw [← hscore, setItem, hself]
    · -- the item stands in a leaf, where both lists show it
      have hmem : x ∈ T.2.leafItems := by
        obtain ⟨c, r, is, hleaf', rfl, -⟩ := h.toWellFormed.findLeaf score
        cases hleaf.symm.trans hleaf'
        have hnode := ((reps_plug_iff c _).mp h.reps).node_leaf
        rw [hnode] at hfind
        have hx : x ∈ is := List.mem_of_find?_eq_some hfind
        simp [leafItems_plug, hx]
      have hwf := h.toWellFormed.congr (u := t.setItem x { t.item x with score := score })
        rfl rfl rfl
      rw [hwf.entries_eq, h.toWellFormed.entries_eq, Except.ok.injEq, view, view,
        List.map_inj_left] at hentries
      have hx := congrArg Item.score (hentries x hmem)
      simpa [item, setItem] using hx.symm
  · refine ⟨1, t', hadd, ?_, fun hentries => ?_⟩
    · rintro ⟨leaf', x', hleaf', hfind', -⟩
      cases hleaf.symm.trans hleaf'
      cases hfind.symm.trans hfind'
    · rw [h'.toWellFormed.entries_eq, h.toWellFormed.entries_eq, Except.ok.injEq, hview',
        hret rfl] at hentries
      simpa using congrArg List.length hentries

omit [LT S] [DecidableLT S] in
/-- What `RemoveByScore` does to the stored items. -/
theorem Stored.removeByScore (hd : 2 ≤ d) (h : Stored d t T) (score : S) (member : Bytes) :
    t.removeByScore score member = .ok (0, t) ∨
      ∃ i t' T' X Y, Item.Matches i score member ∧ t.removeByScore score member = .ok (1, t') ∧
        Stored d t' T' ∧ t.view T = X ++ i :: Y ∧ t'.view T' = X ++ Y := by
  obtain ⟨c, r, is, rfl, -, hcase⟩ := removeByScore_cases hd h.toWellFormed score member
  rcases hcase with ⟨-, hrun⟩ | ⟨A, x, B, t', T', rfl, hx, hrun, hwf, hsteps, hit⟩
  · exact .inl hrun
  have hitem : t'.item = t.item := by
    funext y
    rw [item, item, hit]
  have hsub : T'.2.leafItems.Sublist (c.plug (.leaf r (A ++ x :: B))).2.leafItems := by
    rw [hsteps.leafItems_eq, leafItems_plug, leafItems_plug]
    have hle : (A ++ B).Sublist (A ++ x :: B) :=
      (List.Sublist.refl A).append (List.sublist_cons_self x B)
    exact (List.Sublist.refl _).append (hle.append (List.Sublist.refl _))
  refine .inr ⟨t.item x, t', T', (c.before.filterMap Mark.item? ++ A).map t.item,
    (B ++ c.after.filterMap Mark.item?).map t.item, hx, hrun, ?_, ?_, ?_⟩
  · exact { toWellFormed := hwf, alloc := fun y hy => hit ▸ h.alloc y (hsub.subset hy),
            nodup := hsub.nodup h.nodup }
  · rw [view, leafItems_plug]
    simp
  · rw [view, hitem, hsteps.leafItems_eq, leafItems_plug]
    simp

theorem Stored.step (hd : 2 ≤ d) (h : Stored d t T) (op : Op S) :
    ∃ t' T', t.step op = .ok t' ∧ Stored d t' T' := by
  cases op with
  | add score member =>
    by_cases hm : member = []
    · refine ⟨t, T, ?_, h⟩
      rw [BTreeIndex.step, hm]
      rfl
    · obtain ⟨t', T', -, -, h', -, ⟨hrun, -⟩ | ⟨-, hrun, -⟩⟩ := h.add hd score hm
      all_goals exact ⟨t', T', by rw [BTreeIndex.step, hrun]; rfl, h'⟩
  | removeByScore score member =>
    rcases h.removeByScore hd score member with hrun | ⟨-, t', T', -, -, -, hrun, h', -, -⟩
    · exact ⟨t, T, by rw [BTreeIndex.step, hrun]; rfl, h⟩
    · exact ⟨t', T', by rw [BTreeIndex.step, hrun]; rfl, h'⟩

theorem Stored.run (hd : 2 ≤ d) (ops : List (Op S)) (h : Stored d t T) :
    ∃ t' T', t.run ops = .ok t' ∧ Stored d t' T' := by
  induction ops generalizing t T with
  | nil => exact ⟨t, T, rfl, h⟩
  | cons op ops ih =>
    obtain ⟨t₁, T₁, hstep, h₁⟩ := h.step hd op
    obtain ⟨t', T', hrun, h'⟩ := ih h₁
    refine ⟨t', T', ?_, h'⟩
    rw [BTreeIndex.run, List.foldlM_cons, hstep]
    exact hrun

end Ops

/-! ## The stored items as a multiset -/

/-- The multiset of items in the leaves. -/
def contents (t : BTreeIndex S) : Except Fault (Multiset (Item S)) := do
  let es ← t.entries
  pure es

theorem WellFormed.contents_eq {d : Nat} {t : BTreeIndex S} {T : AnyTree Ref}
    (h : WellFormed d t T) : t.contents = .ok (t.view T) := by
  rw [contents, h.entries_eq]
  rfl

variable [LinearOrder S]

omit [LinearOrder S] in
theorem coe_middle (X Y : List (Item S)) (i : Item S) :
    ((X ++ i :: Y : List (Item S)) : Multiset (Item S)) =
      i ::ₘ ((X ++ Y : List (Item S)) : Multiset (Item S)) :=
  Multiset.coe_eq_coe.2 List.perm_middle

/-- After every sequence of calls on a new index of degree at least 2, a
further call enters one item, sets the score of one, takes one out, or
leaves the index as it is. -/
theorem run_contents [Inhabited S] (degree : Int) (hd : 2 ≤ degree) (ops : List (Op S)) :
    ∃ t M, (BTreeIndex.new (S := S) degree).run ops = .ok t ∧ t.contents = .ok M ∧
      (∀ score member, member ≠ [] → ∃ t' M', t'.contents = .ok M' ∧
        ((t.add score member = .ok (1, t') ∧ M' = ⟨score, member⟩ ::ₘ M) ∨
          ∃ old, ⟨old, member⟩ ∈ M ∧ t.add score member = .ok (0, t') ∧
            M' = ⟨score, member⟩ ::ₘ M.erase ⟨old, member⟩)) ∧
      (∀ score, t.add score [] = .ok (0, t)) ∧
      ∀ score member, t.removeByScore score member = .ok (0, t) ∨
        ∃ t' M', ⟨score, member⟩ ∈ M ∧ t.removeByScore score member = .ok (1, t') ∧
          t'.contents = .ok M' ∧ M' = M.erase ⟨score, member⟩ := by
  obtain ⟨d, rfl⟩ := Int.eq_ofNat_of_zero_le (by omega : 0 ≤ degree)
  have hd' : 2 ≤ d := by omega
  obtain ⟨t, T, hrun, h⟩ := Stored.run hd' ops (stored_new (S := S))
  refine ⟨t, t.view T, hrun, h.toWellFormed.contents_eq, ?_, fun _ => rfl, ?_⟩
  · intro score member hm
    obtain ⟨t', T', X, Y, h', hview', hcase⟩ := h.add hd' score hm
    refine ⟨t', _, h'.toWellFormed.contents_eq, ?_⟩
    rw [hview', coe_middle]
    rcases hcase with ⟨hadd, hview⟩ | ⟨old, hadd, hview⟩
    · exact .inl ⟨hadd, by rw [hview]⟩
    · refine .inr ⟨old, ?_, hadd, ?_⟩
      · simp [hview]
      · rw [hview, coe_middle, Multiset.erase_cons_head]
  · intro score member
    rcases h.removeByScore hd' score member with hrem | ⟨i, t', T', X, Y, hi, hrem, h', hview, hview'⟩
    · exact .inl hrem
    · rw [(Item.matches_iff i score member).1 hi] at hview
      refine .inr ⟨t', _, ?_, hrem, h'.toWellFormed.contents_eq, ?_⟩
      · simp [hview]
      · rw [hview', hview, coe_middle, Multiset.erase_cons_head]

/-- Degree 3 with ties: the run below splits twice and merges once. -/
theorem run_contents_three :
    ∃ t M, (BTreeIndex.new (S := Int) 3).run [.add 1 [97], .add 1 [98], .add 1 [99], .add 2 [100],
        .removeByScore 2 [100]] = .ok t ∧ t.contents = .ok M ∧
      ∃ t' M', t'.contents = .ok M' ∧
        ((t.add 2 [97] = .ok (1, t') ∧ M' = ⟨2, [97]⟩ ::ₘ M) ∨
          ∃ old, ⟨old, [97]⟩ ∈ M ∧ t.add 2 [97] = .ok (0, t') ∧
            M' = ⟨2, [97]⟩ ::ₘ M.erase ⟨old, [97]⟩) := by
  obtain ⟨t, M, hrun, hM, hadd, -, -⟩ := run_contents (S := Int) 3 (by decide)
    [.add 1 [97], .add 1 [98], .add 1 [99], .add 2 [100], .removeByScore 2 [100]]
  exact ⟨t, M, hrun, hM, hadd 2 [97] (by simp)⟩

/-! ## Ranges -/

section Range

variable {d : Nat} {t : BTreeIndex S} {T : AnyTree Ref} (min max : S)

/-- A result that was returned stays; otherwise the loop goes on. -/
theorem collectRange_append (A B result : List Ref) :
    t.collectRange min max (A ++ B) result =
      if (t.collectRange min max A result).2 then t.collectRange min max A result
      else t.collectRange min max B (t.collectRange min max A result).1 := by
  induction A generalizing result with
  | nil => rfl
  | cons r A ih =>
    simp only [List.cons_append, collectRange]
    by_cases hstop : (t.item r).score > max
    · simp only [if_pos hstop, if_true]
    · simp only [if_neg hstop, ih]

/-- `GetRange` collects along the items of the chain. -/
theorem getRangeFrom_eq (L : List (Ref × List Ref)) (fuel : Nat) (result : List Ref)
    (hfuel : L.length ≤ fuel) (hch : Chained t.node [] L) :
    t.getRangeFrom min max fuel result (L.map Prod.fst).head? =
      .ok (t.collectRange min max (L.flatMap Prod.snd) result).1 := by
  induction L generalizing fuel result with
  | nil => cases fuel <;> rfl
  | cons l L ih =>
    obtain ⟨f, rfl⟩ : ∃ f, fuel = f + 1 := ⟨fuel - 1, by simp at hfuel; omega⟩
    obtain ⟨hitems, hnext, hrest⟩ := hch
    rw [List.append_nil] at hnext
    rw [List.map_cons, List.head?_cons, getRangeFrom, hitems, List.flatMap_cons,
      collectRange_append]
    cases hnode : t.collectRange min max l.2 result with
    | mk result' stopped =>
      cases stopped with
      | true => rfl
      | false =>
        simp only [hnext, Bool.false_eq_true, if_false]
        exact ih f result' (by simpa using hfuel) hrest

theorem WellFormed.getRange_eq (h : WellFormed d t T) :
    t.getRange min max = .ok (t.collectRange min max T.2.leafItems []).1 := by
  obtain ⟨r, hrun, hhead⟩ := h.firstLeaf
  have hrange := getRangeFrom_eq min max (leafRow T.2) t.fuel [] h.leafRow_le_fuel
    (chained_leafRow h.reps.holds)
  rw [hhead, flatMap_snd_leafRow] at hrange
  simp only [getRange, hrun, bind, Except.bind, hrange]

/-- In order, nothing in the range comes behind the item that ends the
loop. -/
theorem collectRange_of_sorted {items : List Ref}
    (hs : items.Pairwise fun x y => t.scoreOf x ≤ t.scoreOf y) (result : List Ref) :
    (t.collectRange min max items result).1 =
      result ++ items.filter fun r => min ≤ t.scoreOf r ∧ t.scoreOf r ≤ max := by
  induction items generalizing result with
  | nil => simp [collectRange]
  | cons r items ih =>
    rw [List.pairwise_cons] at hs
    have hscore : (t.item r).score = t.scoreOf r := rfl
    simp only [collectRange, hscore]
    by_cases hstop : t.scoreOf r > max
    · have hnone : ∀ x ∈ r :: items, ¬ t.scoreOf x ≤ max := by
        intro x hx
        rcases List.mem_cons.1 hx with rfl | hx
        · exact not_le.2 hstop
        · exact not_le.2 (lt_of_lt_of_le hstop (hs.1 x hx))
      have hfilter : (r :: items).filter (fun x => min ≤ t.scoreOf x ∧ t.scoreOf x ≤ max) = [] :=
        List.filter_eq_nil_iff.2 fun x hx => by simp [hnone x hx]
      rw [if_pos hstop, if_neg fun h => hnone r List.mem_cons_self h.2, hfilter, List.append_nil]
    · rw [if_neg hstop, ih hs.2]
      by_cases hin : t.scoreOf r ≥ min ∧ t.scoreOf r ≤ max
      · rw [if_pos hin, List.filter_cons_of_pos (by simpa using hin), List.append_assoc]
        rfl
      · rw [if_neg hin, List.filter_cons_of_neg (by simpa using hin)]

end Range

/-! ## Fresh members -/

/-- The call does not add an empty member or one that is stored. -/
def Fresh (t : BTreeIndex S) : Op S → Prop
  | .add _ member => member ≠ [] ∧ ∀ es, t.entries = .ok es → ∀ i ∈ es, i.member ≠ member
  | .removeByScore _ _ => True

/-- Every call of the run is fresh in the state it is made in. -/
def FreshRun (t : BTreeIndex S) : List (Op S) → Prop
  | [] => True
  | op :: ops => Fresh t op ∧ ∀ t', t.step op = .ok t' → FreshRun t' ops

section FreshRun

variable {d : Nat} {t : BTreeIndex S} {T : AnyTree Ref}

theorem Indexed.step_fresh (hd : 2 ≤ d) (h : Indexed d (· ≤ ·) t T) {op : Op S}
    (hfresh : Fresh t op) : ∃ t' T', t.step op = .ok t' ∧ Indexed d (· ≤ ·) t' T' := by
  cases op with
  | add score member =>
    obtain ⟨hm, hnew⟩ := hfresh
    have hnew' := hnew _ h.toWellFormed.entries_eq
    obtain ⟨t', T', -, -, hrun, h', -⟩ := add_indexed (i := ⟨score, member⟩)
      (fun _ _ hle => hle) (fun _ _ => le_of_lt) hd h hm hnew' (.inl le_refl)
    exact ⟨t', T', by rw [BTreeIndex.step, hrun]; rfl, h'⟩
  | removeByScore score member =>
    obtain ⟨c, r, is, rfl, -, hcase⟩ := removeByScore_cases hd h.toWellFormed score member
    rcases hcase with ⟨-, hrun⟩ | ⟨A, x, B, t', T', rfl, -, hrun, hwf, hsteps, hit⟩
    · exact ⟨t, _, by rw [BTreeIndex.step, hrun]; rfl, h⟩
    · refine ⟨t', T', by rw [BTreeIndex.step, hrun]; rfl, ?_⟩
      exact h.erase (fun _ _ hle => hle) hwf hit hsteps

theorem Indexed.run_fresh (hd : 2 ≤ d) (ops : List (Op S)) (h : Indexed d (· ≤ ·) t T)
    (hfresh : FreshRun t ops) : ∃ t' T', t.run ops = .ok t' ∧ Indexed d (· ≤ ·) t' T' := by
  induction ops generalizing t T with
  | nil => exact ⟨t, T, rfl, h⟩
  | cons op ops ih =>
    obtain ⟨t₁, T₁, hstep, h₁⟩ := h.step_fresh hd hfresh.1
    obtain ⟨t', T', hrun, h'⟩ := ih h₁ (hfresh.2 t₁ hstep)
    refine ⟨t', T', ?_, h'⟩
    rw [BTreeIndex.run, List.foldlM_cons, hstep]
    exact hrun

theorem Indexed.leafItems_sorted (h : Indexed d (· ≤ ·) t T) :
    T.2.leafItems.Pairwise fun x y => t.scoreOf x ≤ t.scoreOf y := by
  rw [LevelTree.leafItems_eq_inorder, List.pairwise_filterMap]
  refine h.sorted.imp fun {m m'} hle x hx y hy => ?_
  cases m with
  | sep _ => cases hx
  | item _ =>
    cases m' with
    | sep _ => cases hy
    | item _ =>
      cases hx
      cases hy
      exact hle

end FreshRun

/-- The pointers met along the leaf chain. -/
def chainItems (t : BTreeIndex S) : Except Fault (List Ref) := do
  let l ← t.leafChain
  pure (l.flatMap fun r => (t.node r).items)

omit [LinearOrder S] in
theorem WellFormed.chainItems_eq {d : Nat} {t : BTreeIndex S} {T : AnyTree Ref}
    (h : WellFormed d t T) : t.chainItems = .ok T.2.leafItems := by
  have hflat := (chained_leafRow h.reps.holds).flatMap_items
  rw [map_fst_leafRow, flatMap_snd_leafRow] at hflat
  simp only [chainItems, h.leafChain_eq, bind, Except.bind, hflat]
  rfl

/-- After every sequence of removals and of additions of fresh members, the
leaf chain holds each stored item once and in the order of the scores, and
`GetRange` returns those with a score in the range. -/
theorem run_range [Inhabited S] (degree : Int) (hd : 2 ≤ degree) (ops : List (Op S))
    (hfresh : FreshRun (BTreeIndex.new (S := S) degree) ops) :
    ∃ t rs, (BTreeIndex.new (S := S) degree).run ops = .ok t ∧ t.chainItems = .ok rs ∧
      rs.Nodup ∧ t.entries = .ok (rs.map t.item) ∧
      rs.Pairwise (fun x y => t.scoreOf x ≤ t.scoreOf y) ∧
      ∀ min max, t.getRange min max =
        .ok (rs.filter fun r => min ≤ t.scoreOf r ∧ t.scoreOf r ≤ max) := by
  obtain ⟨d, rfl⟩ := Int.eq_ofNat_of_zero_le (by omega : 0 ≤ degree)
  have hd' : 2 ≤ d := by omega
  obtain ⟨t, T, hrun, h⟩ := indexed_new.run_fresh hd' ops hfresh
  have hsorted := h.leafItems_sorted
  -- the same run, looked at without the order
  have hnodup : T.2.leafItems.Nodup := by
    obtain ⟨t', T', hrun', h'⟩ := Stored.run hd' ops (stored_new (S := S))
    cases hrun.symm.trans hrun'
    have hsame := h.toWellFormed.chainItems_eq.symm.trans h'.toWellFormed.chainItems_eq
    rw [Except.ok.inj hsame]
    exact h'.nodup
  refine ⟨t, T.2.leafItems, hrun, h.toWellFormed.chainItems_eq, hnodup,
    h.toWellFormed.entries_eq, hsorted, ?_⟩
  intro min max
  rw [h.toWellFormed.getRange_eq, collectRange_of_sorted min max hsorted, List.nil_append]

theorem freshRun_cons {t t₁ : BTreeIndex S} {op : Op S} {ops : List (Op S)}
    (hstep : t.step op = .ok t₁) (hfresh : Fresh t op) (h : FreshRun t₁ ops) :
    FreshRun t (op :: ops) := by
  refine ⟨hfresh, ?_⟩
  intro t' hrun
  rw [hstep] at hrun
  cases hrun
  exact h

/-- Three equal scores over two leaves, and a removal that finds nothing. -/
theorem run_range_three :
    ∃ t rs, (BTreeIndex.new (S := Int) 3).run
        [.add 1 [99], .add 1 [98], .add 1 [97], .removeByScore 1 [99]] = .ok t ∧
      t.chainItems = .ok rs ∧
      t.getRange 1 1 = .ok (rs.filter fun r => 1 ≤ t.scoreOf r ∧ t.scoreOf r ≤ 1) := by
  have hfresh : FreshRun (BTreeIndex.new (S := Int) 3)
      [.add 1 [99], .add 1 [98], .add 1 [97], .removeByScore 1 [99]] := by
    refine freshRun_cons rfl ⟨by simp, ?_⟩ ?_
    · intro es hes
      cases hes
      decide
    refine freshRun_cons rfl ⟨by simp, ?_⟩ ?_
    · intro es hes
      cases hes
      decide
    refine freshRun_cons rfl ⟨by simp, ?_⟩ (freshRun_cons rfl trivial trivial)
    · intro es hes
      cases hes
      decide
  obtain ⟨t, rs, hrun, hchain, -, -, -, hrange⟩ := run_range 3 (by decide) _ hfresh
  exact ⟨t, rs, hrun, hchain, hrange 1 1⟩

end RediGo.SortedSet.BTreeIndex
