/-
RediGo.SortedSet.SkipListIndex — the skip list index of
`internal/data_structure/sorted_set/skiplist_index.go`.

Nodes live in a heap as in the model of the B+ tree; a `*SkiplistNode` is a
`Ref` and `nil` is `none`. Spans, ranks and the length are `uint32` and wrap
around.

`randomLevel` flips coins until the first tail. What the generator will
produce is part of the index: `rnd k` is the number of heads the `k`-th call
from now will see, so a theorem about every `rnd` is one about every sequence
of node heights.

The local arrays `update` and `rank` of `insert` and `RemoveByScore` are one
list of pairs with an entry for each level below `sl.level`. `RemoveByScore`
searches as `insert` does and has no use for the ranks. The inner loops of a
search follow forward pointers and carry a fuel of one more than the number
of allocated nodes.
-/
import RediGo.Lib.Heap
import RediGo.Go.Basic

namespace RediGo.SortedSet

open RediGo.Lib RediGo.Go

def SkiplistMaxLevel : Nat := 32

structure SkiplistLevel where
  forward : Option Ref
  span : UInt32
  deriving DecidableEq, Repr

instance : Inhabited SkiplistLevel := ⟨⟨none, 0⟩⟩

structure SkiplistNode (S : Type) where
  ele : Bytes
  score : S
  backward : Option Ref
  levels : List SkiplistLevel

structure SkipListIndex (S : Type) where
  head : Ref
  tail : Option Ref
  length : UInt32
  level : Nat
  rnd : Nat → Nat
  nodes : Heap (SkiplistNode S)

namespace SkipListIndex

variable {S : Type}

def node (sl : SkipListIndex S) (r : Ref) : SkiplistNode S := sl.nodes.get r

def setNode (sl : SkipListIndex S) (r : Ref) (nd : SkiplistNode S) : SkipListIndex S :=
  { sl with nodes := sl.nodes.set r nd }

def allocNode (sl : SkipListIndex S) (nd : SkiplistNode S) : SkipListIndex S :=
  { sl with nodes := sl.nodes.alloc nd }

/-- A bound for every walk along forward pointers: the allocated nodes. -/
def fuel (sl : SkipListIndex S) : Nat := sl.nodes.next + 1

/-- `node.levels[i]` -/
def levelAt (sl : SkipListIndex S) (r : Ref) (i : Nat) : Except Fault SkiplistLevel :=
  index (sl.node r).levels i

/-- `node.levels[i] = lvl` -/
def setLevel (sl : SkipListIndex S) (r : Ref) (i : Nat) (lvl : SkiplistLevel) :
    Except Fault (SkipListIndex S) := do
  let levels ← setAt (sl.node r).levels i lvl
  pure (sl.setNode r { sl.node r with levels := levels })

def randomLevel (sl : SkipListIndex S) : Nat × SkipListIndex S :=
  let level := 1 + sl.rnd 0
  (if level > SkiplistMaxLevel then SkiplistMaxLevel else level,
    { sl with rnd := fun k => sl.rnd (k + 1) })

def createNode (level : Nat) (score : S) (ele : Bytes) : SkiplistNode S where
  ele := ele
  score := score
  backward := none
  levels := List.replicate level default

/-- `NewSkipListIndex`, which does not look at its argument. -/
def new [Zero S] (rnd : Nat → Nat) : SkipListIndex S where
  head := 0
  tail := none
  length := 0
  level := 1
  rnd := rnd
  nodes := { get := fun _ => createNode SkiplistMaxLevel 0 [], next := 1 }

/-! ## Searching -/

/-- The inner loop of a search at level `i`: go on while the next node is
one to pass, and add up the spans. -/
def walk (sl : SkipListIndex S) (pass : SkiplistNode S → Bool) (i : Nat) :
    Nat → Ref → UInt32 → Except Fault (Ref × UInt32)
  | 0, _, _ => .error .fuel
  | fuel + 1, x, rank => do
      let lvl ← sl.levelAt x i
      match lvl.forward with
      | none => pure (x, rank)
      | some y =>
        if pass (sl.node y) then sl.walk pass i fuel y (rank + lvl.span)
        else pure (x, rank)

/-- The outer loop from level `i - 1` down to level 0: `update` and `rank`
for these levels. -/
def descend (sl : SkipListIndex S) (pass : SkiplistNode S → Bool) :
    Nat → Ref → UInt32 → Except Fault (List (Ref × UInt32))
  | 0, _, _ => pure []
  | i + 1, x, rank => do
      let (x, rank) ← sl.walk pass i sl.fuel x rank
      let below ← sl.descend pass i x rank
      pure (below ++ [(x, rank)])

/-- The loop of `findMember` from a node of the chain on. -/
def findMemberFrom (sl : SkipListIndex S) (member : Bytes) :
    Nat → Option Ref → Except Fault (Option Ref)
  | _, none => pure none
  | 0, some _ => .error .fuel
  | fuel + 1, some x =>
      if (sl.node x).ele = member then pure (some x)
      else do
        let lvl ← sl.levelAt x 0
        sl.findMemberFrom member fuel lvl.forward

def findMember (sl : SkipListIndex S) (member : Bytes) : Except Fault (Option Ref) := do
  let lvl ← sl.levelAt sl.head 0
  sl.findMemberFrom member sl.fuel lvl.forward

/-! ## The level loops of `insert` and `deleteNode` -/

/-- `update[i] = sl.head; update[i].levels[i].span = sl.length` -/
def enterHead (sl : SkipListIndex S) (i : Nat) : Except Fault (SkipListIndex S) := do
  let lvl ← sl.levelAt sl.head i
  sl.setLevel sl.head i { lvl with span := sl.length }

/-- "Determine the level of the new node": enter the head for the levels that
are new. -/
def raise (sl : SkipListIndex S) (level : Nat) (path : List (Ref × UInt32)) :
    Except Fault (List (Ref × UInt32) × SkipListIndex S) :=
  if level > sl.level then do
    let sl' ← forRange enterHead (level - sl.level) sl.level sl
    pure (path ++ List.replicate (level - sl.level) (sl.head, 0), { sl' with level := level })
  else
    pure (path, sl)

/-- Put the new node `x` behind `update[i]` at level `i`. -/
def link (path : List (Ref × UInt32)) (x : Ref) (sl : SkipListIndex S) (i : Nat) :
    Except Fault (SkipListIndex S) := do
  let (_, rank0) ← index path 0
  let (u, rank) ← index path i
  let lvl ← sl.levelAt u i
  let sl ← sl.setLevel x i ⟨lvl.forward, lvl.span - (rank0 - rank)⟩
  sl.setLevel u i ⟨some x, rank0 - rank + 1⟩

/-- "Increase span for untouched levels". -/
def widen (path : List (Ref × UInt32)) (sl : SkipListIndex S) (i : Nat) :
    Except Fault (SkipListIndex S) := do
  let (u, _) ← index path i
  let lvl ← sl.levelAt u i
  sl.setLevel u i { lvl with span := lvl.span + 1 }

/-- "Update backward pointers", where `u` is `update[0]`. -/
def linkBack (sl : SkipListIndex S) (x u : Ref) : Except Fault (SkipListIndex S) := do
  let sl := sl.setNode x { sl.node x with backward := if u = sl.head then none else some u }
  let lvl ← sl.levelAt x 0
  match lvl.forward with
  | some next => pure (sl.setNode next { sl.node next with backward := some x })
  | none => pure { sl with tail := some x }

/-- Take `x` out behind `update[i]` at level `i`. -/
def unlink (path : List (Ref × UInt32)) (x : Ref) (sl : SkipListIndex S) (i : Nat) :
    Except Fault (SkipListIndex S) := do
  let (u, _) ← index path i
  let lvl ← sl.levelAt u i
  if lvl.forward = some x then
    let lvlx ← sl.levelAt x i
    sl.setLevel u i ⟨lvlx.forward, lvl.span + (lvlx.span - 1)⟩
  else
    sl.setLevel u i { lvl with span := lvl.span - 1 }

/-- Lead back past `x`. -/
def unlinkBack (sl : SkipListIndex S) (x : Ref) : Except Fault (SkipListIndex S) := do
  let lvl ← sl.levelAt x 0
  match lvl.forward with
  | some next => pure (sl.setNode next { sl.node next with backward := (sl.node x).backward })
  | none => pure { sl with tail := (sl.node x).backward }

/-- `for sl.level > 1 && sl.head.levels[sl.level-1].forward == nil { sl.level-- }`:
where a level ends up. -/
def lowered (sl : SkipListIndex S) : Nat → Except Fault Nat
  | 0 => pure 0
  | 1 => pure 1
  | n + 2 => do
      let lvl ← sl.levelAt sl.head (n + 1)
      if lvl.forward = none then sl.lowered (n + 1) else pure (n + 2)

def deleteNode (sl : SkipListIndex S) (x : Ref) (path : List (Ref × UInt32)) :
    Except Fault (SkipListIndex S) := do
  let sl ← forRange (unlink path x) sl.level 0 sl
  let sl ← sl.unlinkBack x
  let level ← sl.lowered sl.level
  pure { sl with level := level, length := sl.length - 1 }

section Order

variable [LinearOrder S]

/-- The node comes before `(score, ele)`. -/
def before (score : S) (ele : Bytes) (nd : SkiplistNode S) : Bool :=
  decide (nd.score < score ∨ nd.score = score ∧ nd.ele < ele)

/-- The node does not come after `(score, ele)`. -/
def notAfter (score : S) (ele : Bytes) (nd : SkiplistNode S) : Bool :=
  decide (nd.score < score ∨ nd.score = score ∧ nd.ele ≤ ele)

/-! ## `Add` -/

def insert (sl : SkipListIndex S) (score : S) (ele : Bytes) : Except Fault (SkipListIndex S) := do
  let path ← sl.descend (before score ele) sl.level sl.head 0
  let (level, sl) := sl.randomLevel
  let (path, sl) ← sl.raise level path
  let x := sl.nodes.next
  let sl := sl.allocNode (createNode level score ele)
  let sl ← forRange (link path x) level 0 sl
  let sl ← forRange (widen path) (sl.level - level) level sl
  let (u, _) ← index path 0
  let sl ← sl.linkBack x u
  pure { sl with length := sl.length + 1 }

/-- `SkipListIndex.Add` -/
def add (sl : SkipListIndex S) (score : S) (member : Bytes) :
    Except Fault (Int × SkipListIndex S) := do
  let sl ← sl.insert score member
  pure (1, sl)

/-! ## `RemoveByScore` -/

/-- `SkipListIndex.RemoveByScore` -/
def removeByScore (sl : SkipListIndex S) (score : S) (member : Bytes) :
    Except Fault (Int × SkipListIndex S) := do
  let path ← sl.descend (before score member) sl.level sl.head 0
  let (u, _) ← index path 0
  let lvl ← sl.levelAt u 0
  match lvl.forward with
  | none => pure (0, sl)
  | some x =>
    if (sl.node x).score = score ∧ (sl.node x).ele = member then
      let sl ← sl.deleteNode x path
      pure (1, sl)
    else
      pure (0, sl)

/-! ## `GetRank` -/

/-- The loop of `getRankByScoreAndMember` from level `i - 1` down. -/
def rankFrom (sl : SkipListIndex S) (score : S) (ele : Bytes) :
    Nat → Ref → UInt32 → Except Fault UInt32
  | 0, _, _ => pure 0
  | i + 1, x, rank => do
      let (x, rank) ← sl.walk (notAfter score ele) i sl.fuel x rank
      if (sl.node x).score = score ∧ (sl.node x).ele = ele then pure rank
      else sl.rankFrom score ele i x rank

def getRankByScoreAndMember (sl : SkipListIndex S) (score : S) (ele : Bytes) :
    Except Fault UInt32 :=
  sl.rankFrom score ele sl.level sl.head 0

/-- `SkipListIndex.GetRank` -/
def getRank (sl : SkipListIndex S) (member : Bytes) : Except Fault Int := do
  match ← sl.findMember member with
  | none => pure (-1)
  | some n =>
    let rank ← sl.getRankByScoreAndMember (sl.node n).score member
    if rank > 0 then pure ((rank - 1).toNat : Int) else pure (-1)

end Order

end SkipListIndex

end RediGo.SortedSet
