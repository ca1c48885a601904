import Mathlib.Data.List.AList
import Solocoder.Lib.Circle

/-!
# Sharded key-value clusters of `internal/shardkv`

A Go map that is only looked up is a function; one that is also ranged over is an `AList`, and the
order is an argument (`Order`). `hashKey` is a parameter. Calls follow one another, and the
goroutines of a write, which touch different shards, are a loop over these.
-/

namespace Solocoder.ShardKV

abbrev Bytes := List UInt8

/-- The errors of the package. -/
inductive Err where
  | keyNotFound
  | shardDown
  | noAvailable
  | quorumFailed
  | shardExists (shardID : String)
  | shardNotFound (shardID : String)
  | lastShard
  deriving DecidableEq, Repr

structure HashRing where
  virtualNodes : Nat
  ring : List UInt64
  hashMap : UInt64 → Option String
  nodeSet : List String

/-- `fmt.Sprintf("%s#vn%d", nodeID, i)`. -/
def virtualKey (nodeID : String) (i : Nat) : String := nodeID ++ "#vn" ++ toString i

/-- The hashes of the virtual nodes of a node. -/
def virtualHashes (hashKey : String → UInt64) (virtualNodes : Nat) (nodeID : String) :
    List UInt64 :=
  (List.range virtualNodes).map fun i => hashKey (virtualKey nodeID i)

def newHashRing (virtualNodes : Int) : HashRing :=
  ⟨if virtualNodes ≤ 0 then 100 else virtualNodes.toNat, [], fun _ => none, []⟩

namespace HashRing

variable (hashKey : String → UInt64) (hr : HashRing)

def addNode (nodeID : String) : HashRing :=
  if nodeID ∈ hr.nodeSet then hr
  else
    let hashes := virtualHashes hashKey hr.virtualNodes nodeID
    { hr with
      nodeSet := hr.nodeSet ++ [nodeID]
      ring := (hr.ring ++ hashes).insertionSort (· ≤ ·)
      hashMap := fun hash => if hash ∈ hashes then some nodeID else hr.hashMap hash }

def removeNode (nodeID : String) : HashRing :=
  if nodeID ∉ hr.nodeSet then hr
  else
    let hashes := virtualHashes hashKey hr.virtualNodes nodeID
    let hashMap : UInt64 → Option String :=
      fun hash => if hash ∈ hashes then none else hr.hashMap hash
    { hr with
      nodeSet := hr.nodeSet.erase nodeID
      hashMap := hashMap
      ring := hr.ring.filter fun h => (hashMap h).isSome }

def nodeCount : Nat := hr.nodeSet.length

/-- The loop of `GetReplicaNodes` over the nodes that follow one another on the ring. -/
def collectNodes (replicaCount : Nat) : List String → List String → List String
  | [], result => result
  | nodeID :: nodes, result =>
    if result.length < replicaCount then
      if nodeID ∈ result then collectNodes replicaCount nodes result
      else collectNodes replicaCount nodes (result ++ [nodeID])
    else result

/-- `GetReplicaNodes`. The ring is sorted, so `sort.Search` finds the first hash that is not smaller. -/
def getReplicaNodes (key : String) (replicaCount : Nat) : List String :=
  if hr.ring = [] ∨ replicaCount = 0 then []
  else
    let hash := hashKey key
    let idx := hr.ring.findIdx (hash ≤ ·)
    let idx := if idx = hr.ring.length then 0 else idx
    collectNodes replicaCount ((List.range hr.ring.length).map fun i =>
        ((hr.ring[(idx + i) % hr.ring.length]?).bind hr.hashMap).getD "") []

end HashRing

inductive ShardStatus where
  | up
  | down
  | migrating
  deriving DecidableEq, Repr

/-- `Shard`; its identifier is its key in the map of shards. -/
structure Shard where
  status : ShardStatus
  data : AList fun _ : String => Bytes

def newShard : Shard := ⟨.up, ∅⟩

namespace Shard

variable (s : Shard) (key : String)

def get : Except Err Bytes :=
  if s.status = .down then .error .shardDown
  else
    match s.data.lookup key with
    | none => .error .keyNotFound
    | some val => .ok val

def forcePut (value : Bytes) : Shard :=
  { s with data := s.data.insert key value }

def forceDelete : Shard := { s with data := s.data.erase key }

def put (value : Bytes) : Except Err Shard :=
  if s.status = .down then .error .shardDown else .ok (s.forcePut key value)

def delete : Except Err Shard :=
  if s.status = .down then .error .shardDown
  else if s.data.lookup key = none then .error .keyNotFound
  else .ok (s.forceDelete key)

def hasKey : Bool := (s.data.lookup key).isSome

end Shard

/-- `ShardKVConfig`. -/
structure Config where
  virtualNodes : Int
  replicaCount : Int
  writeQuorum : Int
  deriving DecidableEq, Repr

/-- `ShardKVCluster`, with its configuration after the checks of the constructor. -/
structure Cluster where
  replicaCount : Nat
  writeQuorum : Nat
  hashRing : HashRing
  shards : AList fun _ : String => Shard
  downShards : List String

/-- `NewShardKVClusterWithConfig`. -/
def newCluster (config : Config) : Cluster :=
  let virtualNodes := if config.virtualNodes ≤ 0 then 100 else config.virtualNodes
  let replicaCount := if config.replicaCount ≤ 0 then 1 else config.replicaCount
  let writeQuorum := if config.writeQuorum ≤ 0 then 1 else config.writeQuorum
  let writeQuorum := if writeQuorum > replicaCount then replicaCount else writeQuorum
  ⟨replicaCount.toNat, writeQuorum.toNat, newHashRing virtualNodes, ∅, []⟩

/-- The orders in which a call ranges over the map of shards and over the data of each shard. -/
structure Order where
  shards : List String → List String
  keys : String → List String → List String
  shards_perm : ∀ l, (shards l).Perm l
  keys_perm : ∀ shardID l, (keys shardID l).Perm l

namespace Cluster

variable (hashKey : String → UInt64) (c : Cluster) (ord : Order) (key : String) (shardID : String)
  (op : Shard → Except Err Shard) (recoveredShardID : String)

/-- A change of one shard. -/
def modify (f : Shard → Shard) : Cluster :=
  match c.shards.lookup shardID with
  | none => c
  | some shard => { c with shards := c.shards.insert shardID (f shard) }

/-- `GetReplicaNodes` on the ring of the cluster. -/
def replicaNodes (count : Nat) : List String :=
  c.hashRing.getReplicaNodes hashKey key count

/-- `Get` on a shard, without the kind of its error. -/
def shardGet (shardID key : String) : Option Bytes :=
  match c.shards.lookup shardID with
  | none => none
  | some shard => (shard.get key).toOption

/-- One turn of the loop of `migrateOnAdd` over the keys of an old shard. -/
def migrateKeyOnAdd (newShardID oldShardID : String) (c : Cluster) (key : String) : Cluster :=
  let nodes := c.replicaNodes hashKey key c.replicaCount
  if newShardID ∉ nodes then c
  else
    match c.shardGet oldShardID key with
    | none => c
    | some val =>
      let c := c.modify newShardID (·.forcePut key val)
      if oldShardID ∈ nodes then c else c.modify oldShardID (·.forceDelete key)

/-- One turn of the loop of `migrateOnAdd` over the old shards. -/
def migrateShardOnAdd (newShardID : String) (c : Cluster) (oldShardID : String) : Cluster :=
  match c.shards.lookup oldShardID with
  | none => c
  | some shard =>
    if shard.status = .down then c
    else
      (ord.keys oldShardID shard.data.keys).foldl (migrateKeyOnAdd hashKey newShardID oldShardID) c

def migrateOnAdd (c : Cluster) (newShardID : String) : Cluster :=
  (ord.shards (c.shards.keys.filter (· ≠ newShardID))).foldl
    (migrateShardOnAdd hashKey ord newShardID) c

def addShard (c : Cluster) (shardID : String) : Cluster × Except Err Unit :=
  if shardID ∈ c.shards then (c, .error (.shardExists shardID))
  else
    let nodeCount := c.hashRing.nodeCount
    let c :=
      { c with
        shards := c.shards.insert shardID newShard
        hashRing := c.hashRing.addNode hashKey shardID }
    (if nodeCount > 0 then migrateOnAdd hashKey ord c shardID else c, .ok ())

/-- The shard is registered, not down, and does or does not hold the key. -/
def upWith (held : Bool) (shardID : String) : Bool :=
  match c.shards.lookup shardID with
  | none => false
  | some shard => shard.status ≠ .down ∧ shard.hasKey key = held

/-- The loops of `migrateOnRemove` over the shards that may take a copy. -/
def fillReplicas (key : String) (val : Bytes) : List String → Int → Cluster → Cluster × Int
  | [], needed, c => (c, needed)
  | shardID :: shards, needed, c =>
    if needed ≤ 0 then (c, needed)
    else if c.upWith key false shardID then
      fillReplicas key val shards (needed - 1) (c.modify shardID (·.forcePut key val))
    else fillReplicas key val shards needed c

/-- The counter `existingReplicas`. -/
def existingReplicas (remaining nodes : List String) (key : String) : Nat :=
  remaining.countP fun shardID => shardID ∈ nodes ∧ c.upWith key true shardID

/-- One turn of the loop of `migrateOnRemove` over the keys of the removed shard. -/
def migrateKeyOnRemove (removedShardID : String) (remaining : List String) (c : Cluster)
    (key : String) : Cluster :=
  match c.shardGet removedShardID key with
  | none => c
  | some val =>
    let nodes := c.replicaNodes hashKey key c.replicaCount
    let needed : Int := c.replicaCount - c.existingReplicas remaining nodes key
    if needed ≤ 0 then c
    else
      let (c, needed) := fillReplicas key val nodes needed c
      if needed > 0 then (fillReplicas key val (remaining.filter (· ∉ nodes)) needed c).1 else c

def migrateOnRemove (c : Cluster) (removedShardID : String) : Cluster :=
  match c.shards.lookup removedShardID with
  | none => c
  | some shard =>
    let remaining := ord.shards (c.shards.keys.filter (· ≠ removedShardID))
    (ord.keys removedShardID shard.data.keys).foldl
      (migrateKeyOnRemove hashKey removedShardID remaining) c

def removeShard (c : Cluster) (shardID : String) : Cluster × Except Err Unit :=
  if shardID ∉ c.shards then (c, .error (.shardNotFound shardID))
  else if c.hashRing.nodeCount ≤ 1 then (c, .error .lastShard)
  else
    let c := c.modify shardID fun shard => { shard with status := .migrating }
    let c := { c with hashRing := c.hashRing.removeNode hashKey shardID }
    let c := migrateOnRemove hashKey ord c shardID
    ({ c with
        shards := c.shards.erase shardID
        downShards := c.downShards.filter (· ≠ shardID) }, .ok ())

def markShardDown : Cluster × Except Err Unit :=
  if shardID ∉ c.shards then (c, .error (.shardNotFound shardID))
  else
    let c := c.modify shardID fun shard => { shard with status := .down }
    ({ c with downShards := shardID :: c.downShards.filter (· ≠ shardID) }, .ok ())

/-- One turn of the loop of `syncFromReplicas` over the data of another shard, which was copied before
the loop. -/
def syncKey (allData : AList fun _ : String => Bytes) (c : Cluster) (key : String) : Cluster :=
  match allData.lookup key with
  | none => c
  | some val =>
    if recoveredShardID ∈ c.replicaNodes hashKey key c.replicaCount then
      c.modify recoveredShardID (·.forcePut key val)
    else c

/-- One turn of the loop of `syncFromReplicas` over the other shards. -/
def syncShard (c : Cluster) (otherID : String) : Cluster :=
  match c.shards.lookup otherID with
  | none => c
  | some shard =>
    if shard.status = .down then c
    else (ord.keys otherID shard.data.keys).foldl (syncKey hashKey recoveredShardID shard.data) c

def syncFromReplicas (c : Cluster) (recoveredShardID : String) : Cluster :=
  (ord.shards (c.shards.keys.filter (· ≠ recoveredShardID))).foldl
    (syncShard hashKey ord recoveredShardID) c

def markShardUp (c : Cluster) (shardID : String) : Cluster × Except Err Unit :=
  if shardID ∉ c.shards then (c, .error (.shardNotFound shardID))
  else
    let c := syncFromReplicas hashKey ord c shardID
    let c := c.modify shardID fun shard => { shard with status := .up }
    ({ c with downShards := c.downShards.filter (· ≠ shardID) }, .ok ())

/-- The shard is registered and not marked down. -/
def isAvailable : Bool := shardID ∈ c.shards ∧ shardID ∉ c.downShards

def getAvailableReplicaNodes : List String :=
  let baseNodes := c.replicaNodes hashKey key c.replicaCount
  let available := baseNodes.filter c.isAvailable
  if available.length ≥ c.writeQuorum then available
  else
    let extraNodes := c.replicaNodes hashKey key (c.replicaCount + 10)
    let extra := extraNodes.filter fun nid => nid ∉ baseNodes ∧ c.isAvailable nid
    available ++ extra.take (c.writeQuorum - available.length)

/-- The shard that a read or a write of one node uses. -/
def reachable (nodeID : String) : Option Shard :=
  match c.shards.lookup nodeID with
  | none => none
  | some shard =>
    if nodeID ∈ c.downShards then none
    else if shard.status = .down then none
    else some shard

/-- The loop of `Get`. -/
def getLoop (c : Cluster) (key : String) : List String → Option Err → Except Err Bytes
  | [], lastErr => .error (lastErr.getD .keyNotFound)
  | nodeID :: nodes, lastErr =>
    match c.reachable nodeID with
    | none => getLoop c key nodes lastErr
    | some shard =>
      match shard.get key with
      | .ok val => .ok val
      | .error err => getLoop c key nodes (if err ≠ .keyNotFound then some err else lastErr)

def get : Except Err Bytes :=
  let nodes := c.replicaNodes hashKey key (c.replicaCount + 5)
  if nodes = [] then .error .noAvailable else c.getLoop key nodes none

/-- What the goroutines of a write have counted: the shards that took it, those that did not hold the
key, and the first other error. -/
structure Tally where
  accepted : List String
  notFound : List String
  firstErr : Option Err
  deriving DecidableEq, Repr

/-- One goroutine of `Put` or `Delete`. -/
def writeNode (s : Cluster × Tally) (nodeID : String) : Cluster × Tally :=
  match s.1.reachable nodeID with
  | none => s
  | some shard =>
    match op shard with
    | .ok shard =>
      ({ s.1 with shards := s.1.shards.insert nodeID shard },
        { s.2 with accepted := s.2.accepted ++ [nodeID] })
    | .error .keyNotFound => (s.1, { s.2 with notFound := s.2.notFound ++ [nodeID] })
    | .error err => (s.1, { s.2 with firstErr := s.2.firstErr.or (some err) })

/-- The write of one key, before its result is told. -/
def write : Cluster × Tally :=
  (c.getAvailableReplicaNodes hashKey key).foldl (writeNode op) (c, ⟨[], [], none⟩)

def put (c : Cluster) (key : String) (value : Bytes) : Cluster × Except Err Unit :=
  if c.getAvailableReplicaNodes hashKey key = [] then (c, .error .noAvailable)
  else
    let (c, tally) := c.write hashKey key (·.put key value)
    (c,
      if tally.accepted.length ≥ c.writeQuorum then .ok ()
      else .error (tally.firstErr.getD .quorumFailed))

def delete (c : Cluster) (key : String) : Cluster × Except Err Unit :=
  if c.getAvailableReplicaNodes hashKey key = [] then (c, .error .noAvailable)
  else
    let (c, tally) := c.write hashKey key (·.delete key)
    (c,
      if tally.accepted.length ≥ c.writeQuorum then .ok ()
      else if tally.accepted.length + tally.notFound.length ≥ c.writeQuorum ∧ tally.notFound ≠ [] ∧
          tally.accepted = [] then .error .keyNotFound
      else if tally.accepted ≠ [] then .ok ()
      else .error (tally.firstErr.getD .quorumFailed))

/-- A call of the cluster. -/
inductive Op where
  | addShard (shardID : String) (ord : Order)
  | removeShard (shardID : String) (ord : Order)
  | put (key : String) (value : Bytes)
  | delete (key : String)
  | markShardDown (shardID : String)
  | markShardUp (shardID : String) (ord : Order)

/-- A call with the result that it returns. -/
def step : Op → Cluster × Except Err Unit
  | .addShard shardID ord => c.addShard hashKey ord shardID
  | .removeShard shardID ord => c.removeShard hashKey ord shardID
  | .put key value => c.put hashKey key value
  | .delete key => c.delete hashKey key
  | .markShardDown shardID => c.markShardDown shardID
  | .markShardUp shardID ord => c.markShardUp hashKey ord shardID

/-- The state after a sequence of calls. -/
def run (ops : List Op) : Cluster := ops.foldl (fun c op => (c.step hashKey op).1) c

end Cluster

/-- `hashKey` on the keys of two shards with one virtual node each, and on the key `k`. -/
def sampleHash (key : String) : UInt64 :=
  if key = "s1#vn0" then 7774186922897576390
  else if key = "s2#vn0" then 12884468906155559764
  else if key = "k" then 1439981571917024861
  else 0

/-- The maps are ranged over as they are listed. -/
def listOrder : Order := ⟨id, fun _ => id, fun _ => List.Perm.refl _, fun _ _ => List.Perm.refl _⟩

end Solocoder.ShardKV
