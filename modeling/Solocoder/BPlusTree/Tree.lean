import Mathlib.Order.Lattice

/-!
# The B+ tree of `internal/bplustree`

The nodes are records on a heap, with the pointers of the source; keys and values are of arbitrary
types. A panic of Go is `none`, and so is running out of fuel: loops along pointers get as many
rounds as there are nodes.

Where functions of the source call each other (`insertIntoParent` and `splitInternal`,
`removeChildFromInternal`, `rebalanceInternal` and the merges), one of them recurses here and the
others return what they pass on to it.
-/

namespace Solocoder.BPlus

/-- An address. -/
abbrev Ptr := Nat

structure Node (K V : Type) where
  keys : List K
  isLeaf : Bool
  parent : Option Ptr
  next : Option Ptr
  prev : Option Ptr
  children : List Ptr
  values : List V

/-- `BPlusTree`, with the heap its nodes live on; the addresses below `fresh` are in use. -/
structure BPlusTree (K V : Type) where
  heap : Ptr → Node K V
  fresh : Ptr
  root : Ptr
  maxKeys : Nat
  count : Nat

/-- The errors of the package that the modelled methods return. -/
inductive TreeError where
  | invalidRange
  deriving DecidableEq, Repr

section Slices

variable {α : Type} (l : List α)

/-- Make room at position `i` and store `a` there. -/
def insertAt (i : Nat) (a : α) : Option (List α) :=
  if i ≤ l.length then some (l.insertIdx i a) else none

/-- Store `a` at position `i`. -/
def setAt (i : Nat) (a : α) : Option (List α) :=
  if i < l.length then some (l.set i a) else none

/-- Move everything behind position `i` one to the left and cut off the last element, which is the
one that goes when `i` is out of bounds. -/
def removeAt (i : Nat) : Option (List α) :=
  if l.length = 0 then none else some (l.eraseIdx (min i (l.length - 1)))

variable [LinearOrder α]

/-- The loop `for idx < len(keys) && keys[idx] < key`. -/
def lowerBound : List α → α → Nat
  | [], _ => 0
  | x :: xs, key => if x < key then lowerBound xs key + 1 else 0

/-- The loop `for idx < len(keys) && key >= keys[idx]`. -/
def upperBound : List α → α → Nat
  | [], _ => 0
  | x :: xs, key => if x ≤ key then upperBound xs key + 1 else 0

end Slices

namespace BPlusTree

variable {K V : Type} (t : BPlusTree K V) (leaf : Ptr) (key : K) (internal rightSibling : Ptr)
  (left right parent : Ptr)

/-- Change the node at `p`. -/
def modify (p : Ptr) (f : Node K V → Node K V) : BPlusTree K V :=
  { t with heap := Function.update t.heap p (f (t.heap p)) }

/-- Allocate a node, at the address `t.fresh`. -/
def alloc (n : Node K V) : BPlusTree K V :=
  { t with heap := Function.update t.heap t.fresh n, fresh := t.fresh + 1 }

/-- `child.parent = p`. -/
def setParent (child p : Ptr) : BPlusTree K V :=
  t.modify child fun n => { n with parent := some p }

/-- The loop that sets the parent of every node of a slice of children. -/
def setParents (children : List Ptr) (p : Ptr) : BPlusTree K V :=
  children.foldl (fun t c => t.setParent c p) t

/-- `if q != nil { q.prev = p }`. -/
def setPrev (q : Option Ptr) (p : Ptr) : BPlusTree K V :=
  match q with
  | none => t
  | some q => t.modify q fun n => { n with prev := some p }

/-- `parent.keys[i] = key`. -/
def setSeparator (parent : Ptr) (i : Nat) (key : K) : Option (BPlusTree K V) :=
  (setAt (t.heap parent).keys i key).map fun keys => t.modify parent fun n => { n with keys := keys }

/-- `NewBPlusTreeWithConfig`: less than two keys means the default, and an odd number is rounded
up. -/
def newBPlusTreeWithConfig (maxKeys : Int) : BPlusTree K V :=
  let maxKeys := if maxKeys < 2 then 32 else maxKeys
  let maxKeys := if maxKeys % 2 ≠ 0 then maxKeys + 1 else maxKeys
  { heap := fun _ =>
      { keys := [], isLeaf := true, parent := none, next := none, prev := none, children := [],
        values := [] }
    fresh := 1
    root := 0
    maxKeys := maxKeys.toNat
    count := 0 }

def minKeys : Nat := (t.maxKeys + 1) / 2

variable [LinearOrder K]

/-- The loop of `findLeaf`, from the node `p` on. -/
def findLeafFrom (heap : Ptr → Node K V) (key : K) : Nat → Ptr → Option Ptr
  | 0, _ => none
  | fuel + 1, p =>
    if (heap p).isLeaf then some p
    else (heap p).children[upperBound (heap p).keys key]?.bind (findLeafFrom heap key fuel)

def findLeaf : Option Ptr := findLeafFrom t.heap key t.fresh t.root

/-- What `splitInternal` passes to `insertIntoParent`, beside the node it splits. -/
structure Split (K V : Type) where
  tree : BPlusTree K V
  midKey : K
  right : Ptr

/-- `splitInternal`, up to its call of `insertIntoParent`. -/
def splitInternal (internal : Ptr) : Option (Split K V) :=
  let n := t.heap internal
  let mid := n.keys.length / 2
  let rightChildren := n.children.drop (mid + 1)
  let right := t.fresh
  n.keys[mid]?.map fun midKey =>
    let t := t.alloc
      { keys := n.keys.drop (mid + 1), isLeaf := false, parent := n.parent, next := none,
        prev := none, children := rightChildren, values := [] }
    let t := t.setParents rightChildren right
    let t := t.modify internal fun n =>
      { n with keys := n.keys.take mid, children := n.children.take (mid + 1) }
    { tree := t, midKey := midKey, right := right }

def insertIntoParent : Nat → BPlusTree K V → Ptr → K → Ptr → Option (BPlusTree K V)
  | 0, _, _, _, _ => none
  | fuel + 1, t, left, key, right =>
    match (t.heap left).parent with
    | none =>
      let newRoot := t.fresh
      let t := t.alloc
        { keys := [key], isLeaf := false, parent := none, next := none, prev := none,
          children := [left, right], values := [] }
      some { (t.setParent left newRoot).setParent right newRoot with root := newRoot }
    | some parent => do
      let n := t.heap parent
      let idx := lowerBound n.keys key
      let keys ← insertAt n.keys idx key
      let children ← insertAt n.children (idx + 1) right
      let t := t.modify parent fun n => { n with keys := keys, children := children }
      let t := t.setParent right parent
      if t.maxKeys < keys.length then do
        let s ← t.splitInternal parent
        insertIntoParent fuel s.tree parent s.midKey s.right
      else some t

def splitLeaf : Option (BPlusTree K V) :=
  let n := t.heap leaf
  let mid := n.keys.length / 2
  let right := t.fresh
  let t := t.alloc
    { keys := n.keys.drop mid, isLeaf := true, parent := none, next := n.next, prev := some leaf,
      children := [], values := n.values.drop mid }
  let t := t.setPrev n.next right
  let t := t.modify leaf fun n =>
    { n with next := some right, keys := n.keys.take mid, values := n.values.take mid }
  (n.keys.drop mid).head?.bind fun midKey => t.insertIntoParent t.fresh leaf midKey right

def insert (value : V) : Option (BPlusTree K V) := do
  let leaf ← t.findLeaf key
  let n := t.heap leaf
  let idx := lowerBound n.keys key
  if n.keys[idx]? = some key then do
    let values ← setAt n.values idx value
    some (t.modify leaf fun n => { n with values := values })
  else do
    let keys ← insertAt n.keys idx key
    let values ← insertAt n.values idx value
    let t := t.modify leaf fun n => { n with keys := keys, values := values }
    let t := { t with count := t.count + 1 }
    if t.maxKeys < keys.length then t.splitLeaf leaf else some t

/-- `Search`: the value and `true`, or no value and `false`. -/
def search : Option (Option V) :=
  if t.count = 0 then some none
  else do
    let leaf ← t.findLeaf key
    match (t.heap leaf).keys.idxOf? key with
    | none => some none
    | some i => (t.heap leaf).values[i]?.map some

/-- The inner loop of `RangeScan`: the items up to `last`, and whether a key behind it was met. -/
def scanKeys (last : K) : List K → List V → Option (List (K × V) × Bool)
  | [], _ => some ([], false)
  | k :: ks, vs =>
    if last < k then some ([], true)
    else
      match vs with
      | [] => none
      | v :: vs => (scanKeys last ks vs).map fun r => ((k, v) :: r.1, r.2)

/-- The outer loop of `RangeScan`, along the leaves. -/
def scanLeaves (heap : Ptr → Node K V) (last : K) : Nat → Option Ptr → Nat → Option (List (K × V))
  | _, none, _ => some []
  | 0, some _, _ => none
  | fuel + 1, some p, i => do
    let r ← scanKeys last ((heap p).keys.drop i) ((heap p).values.drop i)
    if r.2 then some r.1
    else do
      let rest ← scanLeaves heap last fuel (heap p).next 0
      some (r.1 ++ rest)

def rangeScan (start last : K) : Option (Except TreeError (List (K × V))) :=
  if last < start then some (.error .invalidRange)
  else if t.count = 0 then some (.ok [])
  else do
    let leaf ← t.findLeaf start
    let i := lowerBound (t.heap leaf).keys start
    (scanLeaves t.heap last t.fresh (some leaf) i).map .ok

/-- `findNodeIndex`; the `-1` of the source is `none`. -/
def findNodeIndex (child : Ptr) : Option Nat :=
  (t.heap child).parent.bind fun p => (t.heap p).children.idxOf? child

/-- The arguments of a call of `removeChildFromInternal`. -/
structure Removal (K V : Type) where
  tree : BPlusTree K V
  parent : Ptr
  keyIdx : Nat
  childIdx : Nat

def borrowFromLeftInternal (internal leftSibling : Ptr) :
    Nat → Option (BPlusTree K V)
  | 0 => none
  | i + 1 => do
    let parent ← (t.heap internal).parent
    let separatorKey ← (t.heap parent).keys[i]?
    let movedKey ← (t.heap leftSibling).keys.getLast?
    let movedChild ← (t.heap leftSibling).children.getLast?
    let t := t.modify leftSibling fun n =>
      { n with keys := n.keys.dropLast, children := n.children.dropLast }
    let t := t.modify internal fun n =>
      { n with keys := separatorKey :: n.keys, children := movedChild :: n.children }
    let t := t.setParent movedChild internal
    t.setSeparator parent i movedKey

def borrowFromRightInternal (nodeIdx : Nat) : Option (BPlusTree K V) := do
  let parent ← (t.heap internal).parent
  let separatorKey ← (t.heap parent).keys[nodeIdx]?
  let movedKey ← (t.heap rightSibling).keys.head?
  let movedChild ← (t.heap rightSibling).children.head?
  let t := t.modify rightSibling fun n => { n with keys := n.keys.tail, children := n.children.tail }
  let t := t.modify internal fun n =>
    { n with keys := n.keys ++ [separatorKey], children := n.children ++ [movedChild] }
  let t := t.setParent movedChild internal
  t.setSeparator parent nodeIdx movedKey

/-- The common part of the two merges of internal nodes: `left` takes over the separator and all of
`right`, which `parent` then has to forget. -/
def mergeInternal (keyIdx : Nat) : Option (Removal K V) := do
  let separatorKey ← (t.heap parent).keys[keyIdx]?
  let r := t.heap right
  let t := t.modify left fun n =>
    { n with keys := n.keys ++ [separatorKey] ++ r.keys, children := n.children ++ r.children }
  let t := t.setParents r.children left
  some { tree := t, parent := parent, keyIdx := keyIdx, childIdx := keyIdx + 1 }

/-- `mergeWithLeftInternal`, up to its call of `removeChildFromInternal`. -/
def mergeWithLeftInternal (internal leftSibling : Ptr) :
    Nat → Option (Removal K V)
  | 0 => none
  | i + 1 => (t.heap internal).parent.bind fun parent => t.mergeInternal leftSibling internal parent i

/-- `mergeWithRightInternal`, up to its call of `removeChildFromInternal`. -/
def mergeWithRightInternal (nodeIdx : Nat) : Option (Removal K V) :=
  (t.heap internal).parent.bind fun parent => t.mergeInternal internal rightSibling parent nodeIdx

/-- A sibling that can spare a key. -/
def lender (sibling : Option Ptr) : Option Ptr :=
  sibling.filter fun p => decide (t.minKeys < (t.heap p).keys.length)

/-- `rebalanceInternal`: the new tree, or the removal that ends a merge. -/
def rebalanceInternal (internal : Ptr) : Option (BPlusTree K V ⊕ Removal K V) :=
  match t.findNodeIndex internal with
  | none => some (.inl t)
  | some nodeIdx => do
    let parent ← (t.heap internal).parent
    let siblings := (t.heap parent).children
    let leftSibling := if 0 < nodeIdx then siblings[nodeIdx - 1]? else none
    let rightSibling := if nodeIdx < siblings.length - 1 then siblings[nodeIdx + 1]? else none
    match t.lender leftSibling, t.lender rightSibling, leftSibling, rightSibling with
    | some l, _, _, _ => (t.borrowFromLeftInternal internal l nodeIdx).map .inl
    | none, some r, _, _ => (t.borrowFromRightInternal internal r nodeIdx).map .inl
    | none, none, some l, _ => (t.mergeWithLeftInternal internal l nodeIdx).map .inr
    | none, none, none, some r => (t.mergeWithRightInternal internal r nodeIdx).map .inr
    | none, none, none, none => some (.inl t)

/-- The first part of `removeChildFromInternal`: the key and the child go. -/
def dropChild (parent : Ptr) (keyIdx childIdx : Nat) : Option (BPlusTree K V) := do
  let keys ← removeAt (t.heap parent).keys keyIdx
  let children ← removeAt (t.heap parent).children childIdx
  some (t.modify parent fun n => { n with keys := keys, children := children })

/-- The part of `removeChildFromInternal` about the root: a root without keys gives way to its only
child. -/
def collapseRoot : BPlusTree K V :=
  match (t.heap t.root).keys, (t.heap t.root).children with
  | [], [child] =>
    { t.modify child fun n => { n with parent := none } with root := child }
  | _, _ => t

def removeChildFromInternal : Nat → Removal K V → Option (BPlusTree K V)
  | 0, _ => none
  | fuel + 1, r => do
    let t ← r.tree.dropChild r.parent r.keyIdx r.childIdx
    if r.parent = t.root then some t.collapseRoot
    else if (t.heap r.parent).keys.length < t.minKeys then do
      match ← t.rebalanceInternal r.parent with
      | .inl t => some t
      | .inr r => removeChildFromInternal fuel r
    else some t

def borrowFromLeftLeaf (leaf leftSibling : Ptr) (nodeIdx : Nat) : Option (BPlusTree K V) := do
  let borrowedKey ← (t.heap leftSibling).keys.getLast?
  let borrowedValue ← (t.heap leftSibling).values.getLast?
  let t := t.modify leftSibling fun n =>
    { n with keys := n.keys.dropLast, values := n.values.dropLast }
  let t := t.modify leaf fun n =>
    { n with keys := borrowedKey :: n.keys, values := borrowedValue :: n.values }
  match (t.heap leaf).parent with
  | none => some t
  | some parent => if 0 < nodeIdx then t.setSeparator parent (nodeIdx - 1) borrowedKey else some t

def borrowFromRightLeaf (leaf rightSibling : Ptr) (nodeIdx : Nat) : Option (BPlusTree K V) := do
  let borrowedKey ← (t.heap rightSibling).keys.head?
  let borrowedValue ← (t.heap rightSibling).values.head?
  let t := t.modify rightSibling fun n => { n with keys := n.keys.tail, values := n.values.tail }
  let t := t.modify leaf fun n =>
    { n with keys := n.keys ++ [borrowedKey], values := n.values ++ [borrowedValue] }
  match (t.heap leaf).parent with
  | none => some t
  | some parent =>
    if nodeIdx < (t.heap parent).keys.length then
      (t.heap rightSibling).keys.head?.bind fun k => t.setSeparator parent nodeIdx k
    else some t

/-- The common part of the two merges of leaves: `left` takes over all of `right` and its place in
the chain. -/
def mergeLeaf (keyIdx : Nat) : Option (BPlusTree K V) :=
  let r := t.heap right
  let t := t.modify left fun n =>
    { n with keys := n.keys ++ r.keys, values := n.values ++ r.values, next := r.next }
  let t := t.setPrev r.next left
  removeChildFromInternal t.fresh
    { tree := t, parent := parent, keyIdx := keyIdx, childIdx := keyIdx + 1 }

def mergeWithLeftLeaf (leaf leftSibling : Ptr) : Nat → Option (BPlusTree K V)
  | 0 => none
  | i + 1 => (t.heap leaf).parent.bind fun parent => t.mergeLeaf leftSibling leaf parent i

def mergeWithRightLeaf (leaf rightSibling : Ptr) (nodeIdx : Nat) : Option (BPlusTree K V) :=
  (t.heap leaf).parent.bind fun parent => t.mergeLeaf leaf rightSibling parent nodeIdx

/-- `rebalanceLeaf`: the siblings are found along the chain of leaves. -/
def rebalanceLeaf : Option (BPlusTree K V) :=
  match t.findNodeIndex leaf with
  | none => some t
  | some nodeIdx =>
    let sibling (p : Option Ptr) : Option Ptr :=
      p.filter fun q => decide ((t.heap q).parent = (t.heap leaf).parent)
    let leftSibling := sibling (t.heap leaf).prev
    let rightSibling := sibling (t.heap leaf).next
    match t.lender leftSibling, t.lender rightSibling, leftSibling, rightSibling with
    | some l, _, _, _ => t.borrowFromLeftLeaf leaf l nodeIdx
    | none, some r, _, _ => t.borrowFromRightLeaf leaf r nodeIdx
    | none, none, some l, _ => t.mergeWithLeftLeaf leaf l nodeIdx
    | none, none, none, some r => t.mergeWithRightLeaf leaf r nodeIdx
    | none, none, none, none => some t

def updateParentSeparatorAfterLeafDelete : Option (BPlusTree K V) :=
  match (t.heap leaf).parent, t.findNodeIndex leaf, (t.heap leaf).keys with
  | some parent, some (i + 1), key :: _ => t.setSeparator parent i key
  | _, _, _ => some t

def deleteFromLeaf (idx : Nat) : Option (BPlusTree K V) := do
  let keys ← removeAt (t.heap leaf).keys idx
  let values ← removeAt (t.heap leaf).values idx
  let t := t.modify leaf fun n => { n with keys := keys, values := values }
  if leaf = t.root then some t
  else do
    let t ← t.updateParentSeparatorAfterLeafDelete leaf
    if (t.heap leaf).keys.length < t.minKeys then t.rebalanceLeaf leaf else some t

/-- `Delete`: the new tree, and whether the key was there. -/
def delete : Option (BPlusTree K V × Bool) :=
  if t.count = 0 then some (t, false)
  else do
    let leaf ← t.findLeaf key
    match (t.heap leaf).keys.idxOf? key with
    | none => some (t, false)
    | some idx => do
      let t ← t.deleteFromLeaf leaf idx
      some ({ t with count := t.count - 1 }, true)

end BPlusTree

/-- An update of the tree. -/
inductive Op (K V : Type) where
  | insert (key : K) (value : V)
  | delete (key : K)

variable {K V : Type} [LinearOrder K]

/-- One update. -/
def BPlusTree.update (t : BPlusTree K V) : Op K V → Option (BPlusTree K V)
  | .insert key value => t.insert key value
  | .delete key => (t.delete key).map Prod.fst

/-- A sequence of updates. -/
def BPlusTree.updates (t : BPlusTree K V) : List (Op K V) → Option (BPlusTree K V)
  | [] => some t
  | op :: ops => (t.update op).bind fun t => t.updates ops

end Solocoder.BPlus
