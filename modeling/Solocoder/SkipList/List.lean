import Mathlib.Algebra.Order.Ring.Int

/-!
# The skip list of `internal/skiplist`

The nodes live in a heap; a pointer is an index of it. `none` stands for a run-time panic and for a
loop that does not end.
-/

namespace Solocoder.Skip

/-- A pointer to a node. -/
abbrev Ptr := Nat

structure Node (K V : Type) where
  key : K
  value : V
  forward : List (Option Ptr)

/-- The nodes that have been allocated. -/
abbrev Heap (K V : Type) := List (Node K V)

/-- `SkipList`, without its lock and its random source. -/
structure SkipList (K V : Type) where
  heap : Heap K V
  header : Ptr
  tail : Option Ptr
  level : Nat
  length : Int
  maxLevel : Nat

variable {K V : Type}

/-- A header node, with the zero values of key and value. -/
def headerNode [Inhabited K] [Inhabited V] (maxLevel : Nat) : Node K V :=
  ⟨default, default, List.replicate maxLevel none⟩

def new [Inhabited K] [Inhabited V] (maxLevel : Int) : Except String (SkipList K V) :=
  if maxLevel ≤ 0 then
    .error ("skiplist: max level must be positive, got " ++ toString maxLevel)
  else .ok ⟨[headerNode maxLevel.toNat], 0, none, 1, 0, maxLevel.toNat⟩

/-- `randomLevel`; `coin n` tells whether the `n`-th number drawn is below `p`. -/
def randomLevel (maxLevel : Nat) (coin : Nat → Bool) : Nat :=
  go (maxLevel - 1) 1
where
  go : Nat → Nat → Nat
    | 0, level => level
    | n + 1, level => if coin level then go n (level + 1) else level

namespace Heap

/-- `x.forward[i]`. -/
def forward (h : Heap K V) (x : Ptr) (i : Nat) : Option (Option Ptr) := do
  let n ← h[x]?
  n.forward[i]?

/-- `x.forward[i] = y`. -/
def setForward (h : Heap K V) (x : Ptr) (i : Nat) (y : Option Ptr) : Option (Heap K V) := do
  let n ← h[x]?
  if i < n.forward.length then some (h.set x { n with forward := n.forward.set i y }) else none

/-- One turn of the loop of `Insert` that links the new node `p`. -/
def link (p : Ptr) (h : Heap K V) (i : Nat) (u : Ptr) : Option (Heap K V) := do
  let next ← h.forward u i
  let h ← h.setForward p i next
  h.setForward u i (some p)

/-- The loop of `Insert` that links the new node `p`, from level `i` on. -/
def linkAll (p : Ptr) : Heap K V → Nat → List Ptr → Option (Heap K V)
  | h, _, [] => some h
  | h, i, u :: update => do
    let h ← link p h i u
    linkAll p h (i + 1) update

/-- The loop of `Delete` that takes the node `x` out, from level `i` on. -/
def unlinkAll (x : Ptr) : Heap K V → Nat → List Ptr → Option (Heap K V)
  | h, _, [] => some h
  | h, i, u :: update => do
    let next ← h.forward u i
    if next ≠ some x then some h
    else
      let h ← h.setForward u i (← h.forward x i)
      unlinkAll x h (i + 1) update

/-- The loop of `Delete` that lowers the level. -/
def lower (h : Heap K V) (header : Ptr) : Nat → Option Nat
  | 0 => some 0
  | 1 => some 1
  | level + 2 => do
    if (← h.forward header (level + 1)) = none then h.lower header (level + 1)
    else some (level + 2)

/-- The nodes behind `x` at level `i`. -/
def chain (h : Heap K V) (i : Nat) : Nat → Option Ptr → Option (List Ptr)
  | 0, _ => none
  | _ + 1, none => some []
  | fuel + 1, some x => do
    let rest ← h.chain i fuel (← h.forward x i)
    some (x :: rest)

variable [LinearOrder K]

/-- The inner loop of a search: go on at level `i` while the next key is smaller. -/
def advance (h : Heap K V) (key : K) (i : Nat) : Nat → Ptr → Option Ptr
  | 0, _ => none
  | fuel + 1, x => do
    match ← h.forward x i with
    | none => some x
    | some y =>
      let n ← h[y]?
      if n.key < key then advance h key i fuel y else some x

/-- A search through the levels below `level`, with the node where it leaves each of them. -/
def descend (h : Heap K V) (key : K) : Nat → Ptr → Option (List Ptr × Ptr)
  | 0, x => some ([], x)
  | i + 1, x => do
    let y ← h.advance key i h.length x
    let (update, z) ← h.descend key i y
    some (update ++ [y], z)

end Heap

namespace SkipList

variable (sl : SkipList K V) (key : K)

/-- The value of a node is overwritten. -/
def assign (x : Ptr) (n : Node K V) (value : V) : SkipList K V :=
  { sl with heap := sl.heap.set x { n with value := value } }

/-- The part of `Insert` for a key that is not there. -/
def addNode (value : V) (coin : Nat → Bool) (update : List Ptr) : Option (SkipList K V) := do
  let lvl := randomLevel sl.maxLevel coin
  let p := sl.heap.length
  let heap := sl.heap ++ [⟨key, value, List.replicate lvl none⟩]
  -- the levels that the list does not have yet begin at the header
  let update := update ++ List.replicate (lvl - sl.level) sl.header
  let heap ← heap.linkAll p 0 (update.take lvl)
  let tail := if (← heap.forward p 0) = none then some p else sl.tail
  some { sl with
    heap := heap, tail := tail, level := max sl.level lvl, length := sl.length + 1 }

def insert [LinearOrder K] (value : V) (coin : Nat → Bool) : Option (SkipList K V) := do
  let (update, x) ← sl.heap.descend key sl.level sl.header
  match ← sl.heap.forward x 0 with
  | none => sl.addNode key value coin update
  | some y =>
    let n ← sl.heap[y]?
    if n.key = key then some (sl.assign y n value) else sl.addNode key value coin update

/-- The part of `Delete` behind the search, for the node `x`. -/
def removeNode (x : Ptr) (update : List Ptr) : Option (SkipList K V) := do
  let heap ← sl.heap.unlinkAll x 0 update
  let level ← heap.lower sl.header sl.level
  let u ← update[0]?
  let tail := if sl.tail = some x then (if u = sl.header then none else some u) else sl.tail
  some { sl with heap := heap, tail := tail, level := level, length := sl.length - 1 }

/-- `Delete`, with the value that it returns if the key was there. -/
def delete [LinearOrder K] : Option (SkipList K V × Option V) := do
  let (update, x) ← sl.heap.descend key sl.level sl.header
  match ← sl.heap.forward x 0 with
  | none => some (sl, none)
  | some y =>
    let n ← sl.heap[y]?
    if n.key ≠ key then some (sl, none)
    else
      let sl ← sl.removeNode y update
      some (sl, some n.value)

def search [LinearOrder K] : Option (Option V) := do
  let (_, x) ← sl.heap.descend key sl.level sl.header
  match ← sl.heap.forward x 0 with
  | none => some none
  | some y =>
    let n ← sl.heap[y]?
    some (if n.key = key then some n.value else none)

def contains [LinearOrder K] : Option Bool := do
  let found ← sl.search key
  some found.isSome

def len : Int := sl.length

/-- The nodes of level `i`, from the header on. -/
def levelChain (i : Nat) : Option (List Ptr) := do
  sl.heap.chain i (sl.heap.length + 1) (← sl.heap.forward sl.header i)

def all : Option (List (K × V)) := do
  (← sl.levelChain 0).mapM fun x => do
    let n ← sl.heap[x]?
    some (n.key, n.value)

def clear [Inhabited K] [Inhabited V] : SkipList K V :=
  { sl with
    heap := sl.heap ++ [headerNode sl.maxLevel]
    header := sl.heap.length
    tail := none
    level := 1
    length := 0 }

def first : Option (Option (K × V)) := do
  match ← sl.heap.forward sl.header 0 with
  | none => some none
  | some x =>
    let n ← sl.heap[x]?
    some (some (n.key, n.value))

def last : Option (Option (K × V)) :=
  match sl.tail with
  | none => some none
  | some x => do
    let n ← sl.heap[x]?
    some (some (n.key, n.value))

end SkipList

structure RangeOptions where
  startInclusive : Bool
  endInclusive : Bool
  limit : Int
  offset : Int

def defaultRangeOptions : RangeOptions := ⟨true, true, 0, 0⟩

section

variable [LinearOrder K]

/-- The loop of `Range` from the node `x` on. -/
def Heap.rangeLoop (h : Heap K V) (start «end» : K) (options : RangeOptions) :
    Nat → Option Ptr → Int → List (K × V) → Option (List (K × V))
  | 0, _, _, _ => none
  | _ + 1, none, _, result => some result
  | fuel + 1, some x, skipped, result => do
    let n ← h[x]?
    if «end» < n.key then some result
    else
      let includeStart := !(n.key = start && !options.startInclusive)
      let includeEnd := !(n.key = «end» && !options.endInclusive)
      if includeStart && includeEnd then
        if skipped < options.offset then
          h.rangeLoop start «end» options fuel (← h.forward x 0) (skipped + 1) result
        else
          let result := result ++ [(n.key, n.value)]
          if 0 < options.limit ∧ options.limit ≤ result.length then some result
          else h.rangeLoop start «end» options fuel (← h.forward x 0) skipped result
      else h.rangeLoop start «end» options fuel (← h.forward x 0) skipped result

def SkipList.range (sl : SkipList K V) (start «end» : K) (opts : Option RangeOptions) :
    Option (List (K × V)) := do
  let options := opts.getD defaultRangeOptions
  if «end» < start then some []
  else
    let (_, x) ← sl.heap.descend start sl.level sl.header
    sl.heap.rangeLoop start «end» options (sl.heap.length + 1) (← sl.heap.forward x 0) 0 []

end

/-- A call that changes the list, with the random numbers that it draws. -/
inductive Op (K V : Type) where
  | insert (key : K) (value : V) (coin : Nat → Bool)
  | delete (key : K)
  | clear

variable [LinearOrder K] [Inhabited K] [Inhabited V]

def SkipList.step (sl : SkipList K V) : Op K V → Option (SkipList K V)
  | .insert key value coin => sl.insert key value coin
  | .delete key => do
    let (sl, _) ← sl.delete key
    some sl
  | .clear => some sl.clear

def SkipList.run (sl : SkipList K V) (ops : List (Op K V)) : Option (SkipList K V) :=
  ops.foldlM SkipList.step sl

end Solocoder.Skip
