import Mathlib.Algebra.Order.Ring.Int
import Mathlib.Data.List.AList
import Mathlib.Data.List.Sort
import Mathlib.Data.List.Dedup

/-!
# The weighted hash ring of `internal/chainhash`

`hashKey` is a parameter. The product of virtual nodes and a weight is the only number that can
leave the 64 bits, and wraps around. The floating-point estimates of the reports are left out, and
reports are listed in the order of their first ranges where Go ranges over a map.
-/

namespace Solocoder.ChainHash

/-- The errors of the package. -/
inductive Err where
  | nodeNotFound
  | nodeAlreadyExists
  | emptyRing
  | invalidWeight
  | invalidVirtualNodes
  | emptyNodeID
  deriving DecidableEq, Repr

/-- `NodeInfo`; its identifier is its key in the map of nodes. -/
structure NodeInfo where
  weight : Int
  addr : String
  deriving DecidableEq, Repr

structure HashRange where
  start : UInt64
  stop : UInt64
  deriving DecidableEq, Repr

/-- `MigrationInfo`, without its estimates. -/
structure MigrationInfo where
  affectedRanges : List HashRange
  fromNode : String
  toNode : String
  deriving DecidableEq, Repr

structure HashRing where
  virtualNodes : Int
  nodes : AList fun _ : String => NodeInfo
  vnodeMap : AList fun _ : UInt64 => String
  ring : List UInt64

def maxHashValue : UInt64 := 18446744073709551615

def generateVirtualKey (nodeID : String) (index : Nat) : String := nodeID ++ "#vn" ++ toString index

def newHashRing (virtualNodes : Int) : Except Err HashRing :=
  if virtualNodes ≤ 0 then .error .invalidVirtualNodes else .ok ⟨virtualNodes, ∅, ∅, []⟩

/-- `sort.Slice` on hashes. -/
def sortHashes (hashes : List UInt64) : List UInt64 := hashes.insertionSort (· ≤ ·)

/-- `sort.Search` for a hash on the sorted ring, from the end of which the search goes on at its
beginning. -/
def searchRing (ring : List UInt64) (hash : UInt64) : Nat :=
  let idx := ring.findIdx (hash ≤ ·)
  if idx = ring.length then 0 else idx

/-- `mergeRanges`, from the second range on. -/
def mergeLoop : HashRange → List HashRange → List HashRange
  | current, [] => [current]
  | current, r :: ranges =>
    if r.start ≤ current.stop + 1 then
      mergeLoop (if r.stop > current.stop then { current with stop := r.stop } else current) ranges
    else current :: mergeLoop r ranges

def mergeRanges (ranges : List HashRange) : List HashRange :=
  if ranges.length ≤ 1 then ranges
  else
    match ranges.insertionSort fun a b => a.start ≤ b.start with
    | [] => []
    | r :: ranges => mergeLoop r ranges

/-- The range that ends at a hash of the sorted list and begins after the hash before it. -/
def rangeOf (hashes : List UInt64) (hash : UInt64) : HashRange :=
  let idx := hashes.findIdx (hash ≤ ·)
  if idx = 0 then ⟨hashes.getLastD 0 + 1, hash⟩ else ⟨hashes.getD (idx - 1) 0 + 1, hash⟩

/-- The ranges that end at the given hashes; `none` is the panic of an index into an empty list. -/
def rangesOf (hashes points : List UInt64) : Option (List HashRange) :=
  if hashes = [] ∧ points ≠ [] then none else some (points.map (rangeOf hashes))

variable (migrations : List (String × HashRange))

/-- The ranges of one map entry, merged. -/
def groupRanges (node : String) : List HashRange :=
  mergeRanges ((migrations.filter (·.1 = node)).map Prod.snd)

/-- The nodes of the map, each once. -/
def groupNodes : List String :=
  (migrations.map Prod.fst).dedup

/-- What a call returns; `none` is a panic. -/
abbrev Result (α : Type) := Option (Except Err α)

namespace HashRing

variable (hashKey : String → UInt64) (hr : HashRing) (nodeID : String) (weight : Int)
  (ranges : List HashRange)

def calculateVirtualNodeCount : Int :=
  (hr.virtualNodes * (if weight ≤ 0 then 1 else weight)).bmod (2 ^ 64)

/-- The hashes of the virtual nodes of a node with the given weight. -/
def virtualHashes : List UInt64 :=
  (List.range (hr.calculateVirtualNodeCount weight).toNat).map fun i =>
    hashKey (generateVirtualKey nodeID i)

def rebuildRing : HashRing := { hr with ring := sortHashes hr.vnodeMap.keys }

/-- The loop that enters virtual nodes into the map. -/
def insertHashes (vnodeMap : AList fun _ : UInt64 => String) (nodeID : String)
    (hashes : List UInt64) : AList fun _ : UInt64 => String :=
  hashes.foldl (fun vnodeMap hash => vnodeMap.insert hash nodeID) vnodeMap

/-- The loop that takes virtual nodes out of the map. -/
def eraseHashes (vnodeMap : AList fun _ : UInt64 => String) (hashes : List UInt64) :
    AList fun _ : UInt64 => String :=
  hashes.foldl (fun vnodeMap hash => vnodeMap.erase hash) vnodeMap

def addNodeWithInfo (info : NodeInfo) : HashRing × Except Err Unit :=
  if nodeID = "" then (hr, .error .emptyNodeID)
  else if info.weight ≤ 0 then (hr, .error .invalidWeight)
  else if nodeID ∈ hr.nodes then (hr, .error .nodeAlreadyExists)
  else
    let hashes := hr.virtualHashes hashKey nodeID info.weight
    ({ hr with
        nodes := hr.nodes.insert nodeID info
        vnodeMap := insertHashes hr.vnodeMap nodeID hashes
        ring := sortHashes (hr.ring ++ hashes) }, .ok ())

def addNode : HashRing × Except Err Unit :=
  hr.addNodeWithInfo hashKey nodeID ⟨weight, ""⟩

/-- The loop of `calculateRemoveMigration` and `calculateWeightMigration` that looks for the next
other node from the index `nextIdx` on; `fuel` bounds its turns. -/
def nextOther (hr : HashRing) (nodeID : String) (idx : Nat) : Nat → Nat → Option String
  | 0, _ => none
  | fuel + 1, nextIdx =>
    if nextIdx = idx then none
    else
      let nextNode := (hr.vnodeMap.lookup (hr.ring.getD nextIdx 0)).getD ""
      if nextNode ≠ nodeID then some nextNode
      else nextOther hr nodeID idx fuel ((nextIdx + 1) % hr.ring.length)

/-- The node that takes over a range that ends at a hash of `nodeID`. -/
def takesOver (tempHash : UInt64) : Option String :=
  let idx := searchRing hr.ring tempHash
  hr.nextOther nodeID idx hr.ring.length ((idx + 1) % hr.ring.length)

/-- The ranges with the nodes that take them over, in the order in which they enter the map. -/
def removeMigrations : List (String × HashRange) :=
  ranges.filterMap fun r => (hr.takesOver nodeID r.stop).map fun node => (node, r)

/-- The reports of ranges that leave `nodeID`. -/
def removeReports : List MigrationInfo :=
  let migrations := hr.removeMigrations nodeID ranges
  (groupNodes migrations).map fun toNode => ⟨groupRanges migrations toNode, nodeID, toNode⟩

def calculateRemoveMigration : Option (List MigrationInfo) :=
  if hr.nodes.keys.length ≤ 1 then some []
  else
    (rangesOf hr.ring (hr.virtualHashes hashKey nodeID weight)).map fun affectedRanges =>
      hr.removeReports nodeID (mergeRanges affectedRanges)

def calculateWeightMigration (oldWeight newWeight : Int) : Option (List MigrationInfo) :=
  if hr.calculateVirtualNodeCount oldWeight = hr.calculateVirtualNodeCount newWeight then some []
  else do
    let oldHashes := (hr.virtualHashes hashKey nodeID oldWeight).dedup
    let newHashes := (hr.virtualHashes hashKey nodeID newWeight).dedup
    let removedRanges ← rangesOf hr.ring (oldHashes.filter (· ∉ newHashes))
    let addedRanges ← rangesOf hr.ring (newHashes.filter (· ∉ oldHashes))
    let added := if addedRanges = [] then [] else [⟨mergeRanges addedRanges, "", nodeID⟩]
    some (hr.removeReports nodeID (mergeRanges removedRanges) ++ added)

def removeNode : HashRing × Result (List MigrationInfo) :=
  if nodeID = "" then (hr, some (.error .emptyNodeID))
  else
    match hr.nodes.lookup nodeID with
    | none => (hr, some (.error .nodeNotFound))
    | some node =>
      match hr.calculateRemoveMigration hashKey nodeID node.weight with
      | none => (hr, none)
      | some migrationInfos =>
        let hr :=
          { hr with
            vnodeMap := eraseHashes hr.vnodeMap (hr.virtualHashes hashKey nodeID node.weight)
            nodes := hr.nodes.erase nodeID }
        (hr.rebuildRing, some (.ok migrationInfos))

def updateNodeWeight (newWeight : Int) : HashRing × Result (List MigrationInfo) :=
  if nodeID = "" then (hr, some (.error .emptyNodeID))
  else if newWeight ≤ 0 then (hr, some (.error .invalidWeight))
  else
    match hr.nodes.lookup nodeID with
    | none => (hr, some (.error .nodeNotFound))
    | some node =>
      if node.weight = newWeight then (hr, some (.ok []))
      else
        match hr.calculateWeightMigration hashKey nodeID node.weight newWeight with
        | none => (hr, none)
        | some migrationInfos =>
          let vnodeMap := eraseHashes hr.vnodeMap (hr.virtualHashes hashKey nodeID node.weight)
          let hr :=
            { hr with
              nodes := hr.nodes.insert nodeID { node with weight := newWeight }
              vnodeMap := insertHashes vnodeMap nodeID (hr.virtualHashes hashKey nodeID newWeight) }
          (hr.rebuildRing, some (.ok migrationInfos))

/-- The owner of a hash. -/
def ownerAt (hash : UInt64) : Except Err String :=
  if hr.ring = [] then .error .emptyRing
  else .ok ((hr.vnodeMap.lookup (hr.ring.getD (searchRing hr.ring hash) 0)).getD "")

def getNode (key : String) : Except Err String := hr.ownerAt (hashKey key)

/-- The node on the ring that owns the end of a range now; `none` is the panic of an index into an empty
ring. -/
def fromNode (stop : UInt64) : Option String :=
  (hr.ring[searchRing hr.ring stop]?).map fun hash => (hr.vnodeMap.lookup hash).getD ""

/-- The ranges with the nodes that own them now, in the order in which they enter the map. -/
def addMigrations : Option (List (String × HashRange)) :=
  ranges.mapM fun r => (hr.fromNode r.stop).map fun node => (node, r)

/-- The reports of `CalculateAddMigration`. -/
def addReports (newHashes : List UInt64) : Option (List MigrationInfo) := do
  let allHashes := sortHashes (hr.ring ++ newHashes)
  let affectedRanges ← rangesOf allHashes newHashes
  let migrations ← hr.addMigrations (mergeRanges affectedRanges)
  some ((groupNodes migrations).map fun node => ⟨groupRanges migrations node, node, nodeID⟩)

def calculateAddMigration : Result (List MigrationInfo) :=
  if nodeID = "" then some (.error .emptyNodeID)
  else if weight ≤ 0 then some (.error .invalidWeight)
  else if nodeID ∈ hr.nodes then some (.error .nodeAlreadyExists)
  -- a negative capacity
  else if hr.calculateVirtualNodeCount weight < 0 then none
  else
    (hr.addReports nodeID (sortHashes (hr.virtualHashes hashKey nodeID weight))).map .ok

/-- A call that changes the ring. -/
inductive Op where
  | addNode (nodeID : String) (weight : Int)
  | removeNode (nodeID : String)
  | updateNodeWeight (nodeID : String) (newWeight : Int)
  deriving DecidableEq, Repr

/-- The ring after a call. -/
def step : Op → HashRing
  | .addNode nodeID weight => (hr.addNode hashKey nodeID weight).1
  | .removeNode nodeID => (hr.removeNode hashKey nodeID).1
  | .updateNodeWeight nodeID newWeight => (hr.updateNodeWeight hashKey nodeID newWeight).1

/-- The ring after a sequence of calls. -/
def run (ops : List Op) : HashRing := ops.foldl (step hashKey) hr

end HashRing

/-- `hashKey` on the first virtual keys of two nodes and on the key `k`. -/
def sampleHash (key : String) : UInt64 :=
  if key = "a#vn0" then 4979336255890596307
  else if key = "a#vn1" then 11845293420662967245
  else if key = "e#vn0" then 15739307372303813490
  else if key = "e#vn1" then 2020369598570706791
  else if key = "k" then 1439981571917024861
  else 0

end Solocoder.ChainHash
