/-
RediGo.SortedSet.BTreeIndex — the B+ tree index of
`internal/data_structure/sorted_set/btree_index.go`, with `item.go`.

The Go tree is a graph of heap records: nodes hold pointers to their
children, their parent and, in the leaves, the next leaf, and both nodes
and leaves hold POINTERS to items. The model keeps all of that. Nodes
and items live in two heaps, `nodes` and `items`; a `*BTreeNode` or
`*Item` is a `Ref`, `nil` is `none`. An item can be reached from a leaf
and, once it has been promoted, from a separator too, so the in-place
score update of `Add` may change a separator.

Slices are lists. No two nodes share a backing array (every slice that
crosses a node boundary is built by `append` into a fresh or an own
array), so value semantics is what the Go code computes.

Scores come from any type with the comparisons the code makes, `<`, `<=`
and `==`. What needs them to agree with one another, as they do for
`float64` without NaN, says so by asking for a linear order.

`splitNode` and `handleUnderflow` recurse along parent pointers, the
descent loops along child pointers. A heap need not be a tree, so these
carry a fuel; `Add` and `RemoveByScore` pass one more than the number of
allocated nodes. The helpers of `splitNode` and `handleUnderflow` take
the recursive call as an argument.
-/
import Mathlib.Data.Int.Init
import RediGo.Lib.Heap
import RediGo.Go.Basic

namespace RediGo.SortedSet

open RediGo.Lib RediGo.Go

/-! ## Items, nodes, the index -/

structure Item (S : Type) where
  score : S
  member : Bytes
  deriving DecidableEq, Repr

instance {S : Type} [Inhabited S] : Inhabited (Item S) := ⟨⟨default, []⟩⟩

structure BTreeNode where
  items : List Ref := []
  children : List Ref := []
  isLeaf : Bool := false
  parent : Option Ref := none
  next : Option Ref := none
  deriving DecidableEq, Repr

structure BTreeIndex (S : Type) where
  root : Ref
  degree : Int
  nodes : Heap BTreeNode
  items : Heap (Item S)

section Order

variable {S : Type} [LT S] [DecidableLT S]

/-- `Item.CompareTo`: by score, ties by member. -/
def Item.compareTo (i other : Item S) : Int :=
  if i.score < other.score then -1
  else if i.score > other.score then 1
  else if i.member < other.member then -1
  else if i.member > other.member then 1
  else 0

end Order

namespace BTreeIndex

variable {S : Type}

/-- `NewBTreeIndex`: the root is an empty leaf. -/
def new [Inhabited S] (degree : Int) : BTreeIndex S where
  root := 0
  degree := degree
  nodes := { get := fun _ => { isLeaf := true }, next := 1 }
  items := { get := fun _ => default, next := 0 }

/-- `NewOrderedIndex` for `IndexTypeBTree`: a degree that is not positive
becomes 4. -/
def newOrderedIndex [Inhabited S] (degree : Int) : BTreeIndex S :=
  new (if degree ≤ 0 then 4 else degree)

def node (t : BTreeIndex S) (r : Ref) : BTreeNode := t.nodes.get r

def item (t : BTreeIndex S) (r : Ref) : Item S := t.items.get r

def setNode (t : BTreeIndex S) (r : Ref) (nd : BTreeNode) : BTreeIndex S :=
  { t with nodes := t.nodes.set r nd }

def allocNode (t : BTreeIndex S) (nd : BTreeNode) : BTreeIndex S :=
  { t with nodes := t.nodes.alloc nd }

def setItem (t : BTreeIndex S) (r : Ref) (i : Item S) : BTreeIndex S :=
  { t with items := t.items.set r i }

def allocItem (t : BTreeIndex S) (i : Item S) : BTreeIndex S :=
  { t with items := t.items.alloc i }

/-- `for _, child := range cs { child.Parent = p }` -/
def setParents (t : BTreeIndex S) (cs : List Ref) (p : Ref) : BTreeIndex S :=
  cs.foldl (fun t c => t.setNode c { t.node c with parent := some p }) t

/-- A bound for every walk up or down a tree: the allocated nodes. -/
def fuel (t : BTreeIndex S) : Nat := t.nodes.next + 1

/-! ## Splitting -/

/-- The common end of `splitLeaf` and `splitInternal`: enter the promoted
item and the new node next to `node`, and split the parent if it is now
over capacity. -/
def insertChild (splitNode : BTreeIndex S → Ref → Except Fault (BTreeIndex S))
    (t : BTreeIndex S) (parent node promotedItem newNode : Ref) :
    Except Fault (BTreeIndex S) := do
  let childIndex := (t.node parent).children.idxOf node
  let items ← insertAt (t.node parent).items childIndex promotedItem
  let children ← insertAt (t.node parent).children (childIndex + 1) newNode
  let t := t.setNode parent { t.node parent with items := items, children := children }
  if (items.length : Int) > t.degree - 1 then splitNode t parent else pure t

def splitLeaf (splitNode : BTreeIndex S → Ref → Except Fault (BTreeIndex S))
    (t : BTreeIndex S) (node : Ref) : Except Fault (BTreeIndex S) := do
  let nd := t.node node
  let medianIndex := nd.items.length / 2
  let newLeaf := t.nodes.next
  let newItems := nd.items.drop medianIndex
  let t := t.allocNode
    { items := newItems, isLeaf := true, parent := nd.parent, next := nd.next }
  let t := t.setNode node { nd with items := nd.items.take medianIndex, next := some newLeaf }
  let parent ← deref nd.parent
  let promotedItem ← index newItems 0
  insertChild splitNode t parent node promotedItem newLeaf

def splitInternal (splitNode : BTreeIndex S → Ref → Except Fault (BTreeIndex S))
    (t : BTreeIndex S) (node : Ref) : Except Fault (BTreeIndex S) := do
  let nd := t.node node
  let medianIndex := nd.items.length / 2
  let newInternal := t.nodes.next
  let promotedItem ← index nd.items medianIndex
  let newItems ← sliceFrom nd.items (medianIndex + 1)
  let newChildren ← sliceFrom nd.children (medianIndex + 1)
  let t := t.allocNode { items := newItems, children := newChildren, parent := nd.parent }
  let t := t.setNode node
    { nd with items := nd.items.take medianIndex, children := nd.children.take (medianIndex + 1) }
  let t := t.setParents newChildren newInternal
  let parent ← deref nd.parent
  insertChild splitNode t parent node promotedItem newInternal

def splitRoot (splitNode : BTreeIndex S → Ref → Except Fault (BTreeIndex S))
    (t : BTreeIndex S) : Except Fault (BTreeIndex S) :=
  let oldRoot := t.root
  let newRoot := t.nodes.next
  let t := { t.allocNode { children := [oldRoot] } with root := newRoot }
  let t := t.setNode oldRoot { t.node oldRoot with parent := some newRoot }
  if (t.node oldRoot).isLeaf then splitLeaf splitNode t oldRoot
  else splitInternal splitNode t oldRoot

def splitNode : Nat → BTreeIndex S → Ref → Except Fault (BTreeIndex S)
  | 0, _, _ => .error .fuel
  | fuel + 1, t, node =>
      match (t.node node).parent with
      | none => splitRoot (splitNode fuel) t
      | some _ =>
          if (t.node node).isLeaf then splitLeaf (splitNode fuel) t node
          else splitInternal (splitNode fuel) t node

/-! ## Underflow -/

def findChildIndex (t : BTreeIndex S) (parent child : Ref) : Int :=
  if child ∈ (t.node parent).children then ((t.node parent).children.idxOf child : Int) else -1

def borrowFromLeftSibling (t : BTreeIndex S) (node leftSibling : Ref) (separatorIndex : Nat) :
    Except Fault (BTreeIndex S) := do
  let parent ← deref (t.node node).parent
  let left := t.node leftSibling
  if (t.node node).isLeaf then
    let borrowedItem ← index left.items (left.items.length - 1)
    let t := t.setNode leftSibling { left with items := left.items.take (left.items.length - 1) }
    let t := t.setNode node { t.node node with items := borrowedItem :: (t.node node).items }
    let first ← index (t.node node).items 0
    let items ← setAt (t.node parent).items separatorIndex first
    pure (t.setNode parent { t.node parent with items := items })
  else
    let separatorItem ← index (t.node parent).items separatorIndex
    let borrowedItem ← index left.items (left.items.length - 1)
    let borrowedChild ← index left.children (left.children.length - 1)
    let t := t.setNode leftSibling
      { left with items := left.items.take (left.items.length - 1)
                  children := left.children.take (left.children.length - 1) }
    let t := t.setNode node
      { t.node node with items := separatorItem :: (t.node node).items
                         children := borrowedChild :: (t.node node).children }
    let t := t.setNode borrowedChild { t.node borrowedChild with parent := some node }
    let items ← setAt (t.node parent).items separatorIndex borrowedItem
    pure (t.setNode parent { t.node parent with items := items })

def borrowFromRightSibling (t : BTreeIndex S) (node rightSibling : Ref) (separatorIndex : Nat) :
    Except Fault (BTreeIndex S) := do
  let parent ← deref (t.node node).parent
  let right := t.node rightSibling
  if (t.node node).isLeaf then
    let borrowedItem ← index right.items 0
    let rest ← sliceFrom right.items 1
    let t := t.setNode rightSibling { right with items := rest }
    let t := t.setNode node { t.node node with items := (t.node node).items ++ [borrowedItem] }
    match rest with
    | [] => pure t
    | first :: _ =>
      let items ← setAt (t.node parent).items separatorIndex first
      pure (t.setNode parent { t.node parent with items := items })
  else
    let separatorItem ← index (t.node parent).items separatorIndex
    let borrowedItem ← index right.items 0
    let borrowedChild ← index right.children 0
    let restItems ← sliceFrom right.items 1
    let restChildren ← sliceFrom right.children 1
    let t := t.setNode rightSibling { right with items := restItems, children := restChildren }
    let t := t.setNode node
      { t.node node with items := (t.node node).items ++ [separatorItem]
                         children := (t.node node).children ++ [borrowedChild] }
    let t := t.setNode borrowedChild { t.node borrowedChild with parent := some node }
    let items ← setAt (t.node parent).items separatorIndex borrowedItem
    pure (t.setNode parent { t.node parent with items := items })

/-- The end of both merges, "check if parent needs handling": go on with
the parent, or drop a root that is left with a single child. -/
def checkParent (handleUnderflow : BTreeIndex S → Ref → Except Fault (BTreeIndex S))
    (t : BTreeIndex S) (parent : Ref) : Except Fault (BTreeIndex S) :=
  if parent ≠ t.root then handleUnderflow t parent
  else if (t.node parent).items.length = 0 ∧ (t.node parent).children.length = 1 then do
    let child ← index (t.node parent).children 0
    let t := { t with root := child }
    pure (t.setNode child { t.node child with parent := none })
  else pure t

/-- The two merges do the same to a pair of neighbours: `left` takes over
what `right` has, and `right` leaves the parent. They differ in which of
the two is the `node` that ran short. -/
def mergeSiblings (handleUnderflow : BTreeIndex S → Ref → Except Fault (BTreeIndex S))
    (t : BTreeIndex S) (node left right : Ref) (separatorIndex : Nat) :
    Except Fault (BTreeIndex S) := do
  let parent ← deref (t.node node).parent
  let t ←
    if (t.node node).isLeaf then
      pure (t.setNode left { t.node left with items := (t.node left).items ++ (t.node right).items
                                              next := (t.node right).next })
    else do
      let separatorItem ← index (t.node parent).items separatorIndex
      let t' := t.setNode left
        { t.node left with
            items := (t.node left).items ++ separatorItem :: (t.node right).items
            children := (t.node left).children ++ (t.node right).children }
      pure (t'.setParents (t.node right).children left)
  let items ← removeAt (t.node parent).items separatorIndex
  let children ← removeAt (t.node parent).children (separatorIndex + 1)
  let t := t.setNode parent { t.node parent with items := items, children := children }
  checkParent handleUnderflow t parent

def mergeWithLeftSibling (handleUnderflow : BTreeIndex S → Ref → Except Fault (BTreeIndex S))
    (t : BTreeIndex S) (node leftSibling : Ref) (separatorIndex : Nat) :
    Except Fault (BTreeIndex S) :=
  mergeSiblings handleUnderflow t node leftSibling node separatorIndex

def mergeWithRightSibling (handleUnderflow : BTreeIndex S → Ref → Except Fault (BTreeIndex S))
    (t : BTreeIndex S) (node rightSibling : Ref) (separatorIndex : Nat) :
    Except Fault (BTreeIndex S) :=
  mergeSiblings handleUnderflow t node node rightSibling separatorIndex

/-- A sibling can lend an item if it is there and has more than the
minimum. -/
def canLend (t : BTreeIndex S) (minItems : Int) (sibling : Option Ref) : Bool :=
  match sibling with
  | none => false
  | some s => decide (((t.node s).items.length : Int) > minItems)

/-- The child before position `i`, where `nodeIndex > 0`. -/
def leftOf (children : List Ref) (i : Nat) : Except Fault (Option Ref) :=
  if 0 < i then some <$> index children (i - 1) else pure none

/-- The child after position `i`, where `nodeIndex < len(children)-1`. -/
def rightOf (children : List Ref) (i : Nat) : Except Fault (Option Ref) :=
  if i + 1 < children.length then some <$> index children (i + 1) else pure none

def handleUnderflow : Nat → BTreeIndex S → Ref → Except Fault (BTreeIndex S)
  | 0, _, _ => .error .fuel
  | fuel + 1, t, node =>
      match (t.node node).parent with
      | none => pure t
      | some parent => do
        let minItems := (t.degree - 1).tdiv 2
        if ((t.node node).items.length : Int) ≥ minItems then
          pure t
        else
          let nodeIndex := t.findChildIndex parent node
          -- The source would go on with index -1. The model stops, so that
          -- a run without a fault is one in which the child was found.
          if nodeIndex < 0 then .error .monitor else
          let i := nodeIndex.toNat
          let left ← leftOf (t.node parent).children i
          let right ← rightOf (t.node parent).children i
          if t.canLend minItems left then
            borrowFromLeftSibling t node (← deref left) (i - 1)
          else if t.canLend minItems right then
            borrowFromRightSibling t node (← deref right) i
          else
            match left, right with
            | some l, _ => mergeWithLeftSibling (handleUnderflow fuel) t node l (i - 1)
            | none, some r => mergeWithRightSibling (handleUnderflow fuel) t node r i
            | none, none => pure t

/-! ## The descent, `Add` and `RemoveByScore` -/

section Search

variable [LT S] [LE S] [BEq S] [DecidableLT S] [DecidableLE S]

/-- `i := 0; for i < len(items) && score >= items[i].Score { i++ }` -/
def childSlot (t : BTreeIndex S) (score : S) (items : List Ref) : Nat :=
  (items.takeWhile (fun r => decide (score ≥ (t.item r).score))).length

/-- The descent of `Add` and `RemoveByScore` to a leaf. -/
def findLeaf (t : BTreeIndex S) (score : S) : Nat → Ref → Except Fault Ref
  | 0, _ => .error .fuel
  | fuel + 1, node =>
      if (t.node node).isLeaf then .ok node
      else do
        let child ← index (t.node node).children (t.childSlot score (t.node node).items)
        t.findLeaf score fuel child

/-- The position of a new item in a leaf. -/
def itemSlot (t : BTreeIndex S) (item : Item S) (items : List Ref) : Nat :=
  (items.takeWhile (fun r => decide (item.compareTo (t.item r) > 0))).length

def addWith (fuel : Nat) (t : BTreeIndex S) (score : S) (member : Bytes) :
    Except Fault (Int × BTreeIndex S) := do
  if member.length = 0 then
    pure (0, t)
  else
    let node ← t.findLeaf score fuel t.root
    match (t.node node).items.find? (fun r => (t.item r).member = member) with
    | some r => pure (0, t.setItem r { t.item r with score := score })
    | none =>
      let i := t.itemSlot ⟨score, member⟩ (t.node node).items
      let r := t.items.next
      let t := t.allocItem ⟨score, member⟩
      let items ← insertAt (t.node node).items i r
      let t := t.setNode node { t.node node with items := items }
      if (items.length : Int) > t.degree - 1 then
        let t ← splitNode fuel t node
        pure (1, t)
      else
        pure (1, t)

def removeByScoreWith (fuel : Nat) (t : BTreeIndex S) (score : S) (member : Bytes) :
    Except Fault (Int × BTreeIndex S) := do
  let node ← t.findLeaf score fuel t.root
  match (t.node node).items.findIdx? (fun r => (t.item r).member = member ∧
      (t.item r).score == score) with
  | none => pure (0, t)
  | some i =>
    let items ← removeAt (t.node node).items i
    let t := t.setNode node { t.node node with items := items }
    if (items.length : Int) < (t.degree - 1).tdiv 2 ∧ (t.node node).parent ≠ none then
      let t ← handleUnderflow fuel t node
      pure (1, t)
    else
      pure (1, t)

/-- `BTreeIndex.Add` -/
def add (t : BTreeIndex S) (score : S) (member : Bytes) : Except Fault (Int × BTreeIndex S) :=
  addWith t.fuel t score member

/-- `BTreeIndex.RemoveByScore` -/
def removeByScore (t : BTreeIndex S) (score : S) (member : Bytes) :
    Except Fault (Int × BTreeIndex S) :=
  removeByScoreWith t.fuel t score member

end Search

/-! ## Reading along the leaf chain -/

/-- `for !node.IsLeaf { node = node.Children[0] }` -/
def firstLeaf (t : BTreeIndex S) : Nat → Ref → Except Fault Ref
  | 0, _ => .error .fuel
  | fuel + 1, node =>
      if (t.node node).isLeaf then .ok node
      else do
        let child ← index (t.node node).children 0
        t.firstLeaf fuel child

/-- The nodes `for node != nil { …; node = node.Next }` visits. -/
def nextChain (t : BTreeIndex S) : Nat → Option Ref → Except Fault (List Ref)
  | _, none => .ok []
  | 0, some _ => .error .fuel
  | fuel + 1, some node => do
      let rest ← t.nextChain fuel (t.node node).next
      pure (node :: rest)

/-- The leaves in chain order, from the leftmost leaf. -/
def leafChain (t : BTreeIndex S) : Except Fault (List Ref) := do
  let first ← t.firstLeaf t.fuel t.root
  t.nextChain t.fuel (some first)

/-- The loop of `GetRank` from a node of the chain on. -/
def getRankFrom (t : BTreeIndex S) (member : Bytes) : Nat → Int → Option Ref → Except Fault Int
  | _, _, none => .ok (-1)
  | 0, _, some _ => .error .fuel
  | fuel + 1, rank, some node =>
      match (t.node node).items.findIdx? (fun r => (t.item r).member = member) with
      | some i => .ok (rank + i)
      | none => t.getRankFrom member fuel (rank + (t.node node).items.length) (t.node node).next

/-- `BTreeIndex.GetRank` -/
def getRank (t : BTreeIndex S) (member : Bytes) : Except Fault Int := do
  let first ← t.firstLeaf t.fuel t.root
  t.getRankFrom member t.fuel 0 (some first)

section Range

variable [LT S] [LE S] [DecidableLT S] [DecidableLE S]

/-- The loop of `GetRange` over the items of one node: the result so far,
and whether the function returned. -/
def collectRange (t : BTreeIndex S) (min max : S) : List Ref → List Ref → List Ref × Bool
  | [], result => (result, false)
  | r :: items, result =>
      let result :=
        if (t.item r).score ≥ min ∧ (t.item r).score ≤ max then result ++ [r] else result
      if (t.item r).score > max then (result, true) else t.collectRange min max items result

/-- The loop of `GetRange` from a node of the chain on. -/
def getRangeFrom (t : BTreeIndex S) (min max : S) :
    Nat → List Ref → Option Ref → Except Fault (List Ref)
  | _, result, none => .ok result
  | 0, _, some _ => .error .fuel
  | fuel + 1, result, some node =>
      match t.collectRange min max (t.node node).items result with
      | (result, true) => .ok result
      | (result, false) => t.getRangeFrom min max fuel result (t.node node).next

/-- `BTreeIndex.GetRange` -/
def getRange (t : BTreeIndex S) (min max : S) : Except Fault (List Ref) := do
  let first ← t.firstLeaf t.fuel t.root
  t.getRangeFrom min max t.fuel [] (some first)

end Range

section Ranks

variable {σ ρ : Type}

/-- `for node != nil { …; node = node.Next }` from a node of the chain on.
The body gets the items of the node; `.error` stands for a `return` in it. -/
def chainLoop (t : BTreeIndex S) (body : σ → List Ref → Except ρ σ) :
    Nat → σ → Option Ref → Except Fault (Except ρ σ)
  | _, s, none => .ok (.ok s)
  | 0, _, some _ => .error .fuel
  | fuel + 1, s, some node =>
      match body s (t.node node).items with
      | .error r => .ok (.error r)
      | .ok s => t.chainLoop body fuel s (t.node node).next

/-- The loop over all leaves, from the leftmost one. -/
def leafLoop (t : BTreeIndex S) (body : σ → List Ref → Except ρ σ) (s : σ) :
    Except Fault (Except ρ σ) := do
  let first ← t.firstLeaf t.fuel t.root
  t.chainLoop body t.fuel s (some first)

/-- What `GetByRank` does with an item. -/
def passRank (rank currentRank : Int) (item : Ref) : Except Ref Int :=
  if currentRank = rank then .error item else .ok (currentRank + 1)

/-- `BTreeIndex.GetByRank`; `nil` is `none`. -/
def getByRank (t : BTreeIndex S) (rank : Int) : Except Fault (Option Ref) :=
  if rank < 0 then .ok none
  else do
    match ← t.leafLoop (fun currentRank items => items.foldlM (passRank rank) currentRank) 0 with
    | .error item => .ok (some item)
    | .ok _ => .ok none

/-- What `GetRangeByRank` does with an item: the result so far and the rank
of the item. -/
def takeRank (start stop : Int) (state : List Ref × Int) (item : Ref) :
    Except (List Ref) (List Ref × Int) :=
  let (result, currentRank) := state
  let result :=
    if currentRank ≥ start ∧ currentRank ≤ stop then result ++ [item] else result
  if currentRank > stop then .error result else .ok (result, currentRank + 1)

/-- `BTreeIndex.GetRangeByRank` -/
def getRangeByRank (t : BTreeIndex S) (start stop : Int) : Except Fault (List Ref) :=
  if start < 0 ∨ stop < start then .ok []
  else do
    match ← t.leafLoop (fun state items => items.foldlM (takeRank start stop) state) ([], 0) with
    | .error result => .ok result
    | .ok (result, _) => .ok result

/-- What `Count` does with a leaf; there is no `return` in its loop. -/
def countItems (count : Int) (items : List Ref) : Except Empty Int :=
  .ok (count + items.length)

/-- `BTreeIndex.Count` -/
def count (t : BTreeIndex S) : Except Fault Int := do
  match ← t.leafLoop countItems 0 with
  | .ok count => .ok count

end Ranks

end BTreeIndex

end RediGo.SortedSet
