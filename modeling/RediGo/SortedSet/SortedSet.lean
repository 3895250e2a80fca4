/-
RediGo.SortedSet.SortedSet — the sorted set of
`internal/data_structure/sorted_set/sorted_set.go` over an ordered
index, and the map it stands for.

The Go code keeps a map from members to scores beside an index and only
talks to the index through the interface `OrderedIndex`; the model is
generic in the index in the same way. A call on the index can fault, so
every operation of the set can.

`ScoreMap` is the abstract side: a partial function from members to
scores, with the replies and the ranks a caller expects.
-/
import Mathlib.Data.Set.Card
import RediGo.SortedSet.BTreeIndex

namespace RediGo

open Go

namespace SortedSet

/-- The interface `OrderedIndex`, as far as `SortedSet` uses it. -/
class OrderedIndex (I : Type) (S : outParam Type) where
  add : I → S → Bytes → Except Fault (Int × I)
  removeByScore : I → S → Bytes → Except Fault (Int × I)
  getRank : I → Bytes → Except Fault Int

instance {S : Type} [LT S] [LE S] [BEq S] [DecidableLT S] [DecidableLE S] :
    OrderedIndex (BTreeIndex S) S where
  add := BTreeIndex.add
  removeByScore := BTreeIndex.removeByScore
  getRank := BTreeIndex.getRank

/-- A Go map whose entries are only looked up and set. -/
abbrev ScoreMap (S : Type) := Bytes → Option S

end SortedSet

structure SortedSet (I S : Type) where
  index : I
  memberScore : SortedSet.ScoreMap S

namespace SortedSet

/-- `NewSortedSetWithBTree`; a degree that is not positive becomes 4. -/
def newSortedSetWithBTree {S : Type} [Inhabited S] (degree : Int) : SortedSet (BTreeIndex S) S where
  index := BTreeIndex.new (if degree ≤ 0 then 4 else degree)
  memberScore := fun _ => none

/-- A call that changes the set. -/
inductive Op (S : Type) where
  | add (score : S) (member : Bytes)
  | remove (member : Bytes)

def Op.member {S : Type} : Op S → Bytes
  | .add _ member => member
  | .remove member => member

section Ops

variable {I S : Type} [OrderedIndex I S] [BEq S]

def add (ss : SortedSet I S) (score : S) (member : Bytes) :
    Except Fault (Int × SortedSet I S) := do
  if member = [] then
    pure (0, ss)
  else
    match ss.memberScore member with
    | some oldScore =>
      if oldScore == score then
        pure (0, ss)
      else
        -- what the two calls on the index report is not looked at
        let (_, index) ← OrderedIndex.removeByScore ss.index oldScore member
        let (_, index) ← OrderedIndex.add index score member
        pure (0, ⟨index, Function.update ss.memberScore member (some score)⟩)
    | none =>
      let (result, index) ← OrderedIndex.add ss.index score member
      if result = 1 then
        pure (result, ⟨index, Function.update ss.memberScore member (some score)⟩)
      else
        pure (result, ⟨index, ss.memberScore⟩)

def getScore (ss : SortedSet I S) (member : Bytes) : Option S := ss.memberScore member

def getRank (ss : SortedSet I S) (member : Bytes) : Except Fault Int :=
  OrderedIndex.getRank ss.index member

def remove (ss : SortedSet I S) (member : Bytes) : Except Fault (Int × SortedSet I S) := do
  if member = [] then
    pure (0, ss)
  else
    match ss.memberScore member with
    | none => pure (0, ss)
    | some score =>
      let (result, index) ← OrderedIndex.removeByScore ss.index score member
      if result = 1 then
        pure (result, ⟨index, Function.update ss.memberScore member none⟩)
      else
        pure (result, ⟨index, ss.memberScore⟩)

def step (ss : SortedSet I S) : Op S → Except Fault (Int × SortedSet I S)
  | .add score member => ss.add score member
  | .remove member => ss.remove member

/-- One call after the other, with all results. -/
def run (ss : SortedSet I S) : List (Op S) → Except Fault (List Int × SortedSet I S)
  | [] => pure ([], ss)
  | op :: ops => do
      let (result, ss) ← ss.step op
      let (results, ss) ← ss.run ops
      pure (result :: results, ss)

end Ops

/-! ## The abstract side -/

namespace ScoreMap

variable {S : Type}

/-- What a call on a finite map from members to scores replies and does. -/
def step (m : ScoreMap S) : Op S → Int × ScoreMap S
  | .add score member =>
      (if (m member).isNone then 1 else 0, Function.update m member (some score))
  | .remove member => (if (m member).isSome then 1 else 0, Function.update m member none)

def run (m : ScoreMap S) : List (Op S) → List Int × ScoreMap S
  | [] => ([], m)
  | op :: ops => ((m.step op).1 :: ((m.step op).2.run ops).1, ((m.step op).2.run ops).2)

/-- No two members hold equal scores. -/
def Distinct (m : ScoreMap S) : Prop :=
  ∀ a b s, m a = some s → m b = some s → a = b

/-- The number of members whose score is smaller, `-1` for a member that
is absent. -/
noncomputable def rank [LT S] (m : ScoreMap S) (member : Bytes) : Int :=
  match m member with
  | none => -1
  | some s => ({a | ∃ s', m a = some s' ∧ s' < s} : Set Bytes).ncard

end ScoreMap

end SortedSet

end RediGo
