/-
RediGo.SimpleSet.SimpleSet — the unordered set
(`internal/data_structure/simple_set/simple_set.go`).

The set is a Go map from members to nothing. `Add` and `Rem` go through
their arguments one by one and count those that changed the map; `Members`
lists the keys in the order of a `range` loop.
-/
import RediGo.HashTable.Dict

namespace RediGo

open Go HashTable

structure SimpleSet where
  key : Bytes
  dict : Map Unit

namespace SimpleSet

/-- `NewSimpleSet` -/
def newSimpleSet (key : Bytes) : SimpleSet := ⟨key, ∅⟩

/-- `Add`: the number of new members. -/
def add (s : SimpleSet) : List Bytes → Nat × SimpleSet
  | [] => (0, s)
  | m :: members =>
    if m ∈ s.dict then add s members
    else
      let (added, s) := add { s with dict := s.dict.insert m () } members
      (added + 1, s)

/-- `Rem`: the number of members that were there. -/
def rem (s : SimpleSet) : List Bytes → Nat × SimpleSet
  | [] => (0, s)
  | m :: members =>
    if m ∈ s.dict then
      let (removed, s) := rem { s with dict := s.dict.erase m } members
      (removed + 1, s)
    else rem s members

/-- `IsMember` -/
def isMember (s : SimpleSet) (member : Bytes) : Nat := if member ∈ s.dict then 1 else 0

/-- `Members` -/
def members (order : MapOrder) (s : SimpleSet) : List Bytes := order.order s.dict.keys

end SimpleSet

end RediGo
