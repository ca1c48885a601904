import Mathlib.Algebra.Order.Ring.Int

/-!
# The replicated cache

`Set` gives an entry the next version and notifies the other nodes; a reconciliation copies the
highest version of each key. Messages can get lost. All of `N` is the cluster.
-/

namespace Solocoder.CacheSync

/-- `CacheEntry`, filed under its key. -/
structure CacheEntry (N V : Type) where
  value : V
  version : Nat
  nodeID : N

/-- `MsgUpdateNotify`. -/
structure Message (N K V : Type) where
  fromNodeID : N
  key : K
  value : V
  version : Nat

structure VersionRejectEvent (N K : Type) where
  key : K
  localVersion : Nat
  msgVersion : Nat
  fromNodeID : N

abbrev Cache (N K V : Type) := K → Option (CacheEntry N V)

structure Cluster (N K V : Type) where
  messageBuffer : Nat
  cache : N → Cache N K V
  inbox : N → List (Message N K V)
  /-- The calls of `Set` in their broadcast, with the nodes they have yet to send to. -/
  calls : List (Message N K V × List N)

inductive Event (N K V : Type) where
  /-- `Set`; the messages to nodes that are no targets are dropped. -/
  | set (n : N) (key : K) (value : V) (targets : List N)
  /-- The next message of a broadcast is sent. -/
  | send (call : Nat)
  /-- A node handles the first message of its inbox. -/
  | deliver (n : N)
  /-- A reconciliation copies an entry. -/
  | repair (source n : N) (key : K)

variable {N K V : Type} [DecidableEq N] [DecidableEq K]

def Cache.handleUpdateNotify (cache : Cache N K V) (msg : Message N K V) :
    Except (VersionRejectEvent N K) (Cache N K V) :=
  let entry : CacheEntry N V := ⟨msg.value, msg.version, msg.fromNodeID⟩
  match cache msg.key with
  | some existing =>
    if msg.version ≤ existing.version then
      .error ⟨msg.key, existing.version, msg.version, msg.fromNodeID⟩
    else .ok (Function.update cache msg.key (some entry))
  | none => .ok (Function.update cache msg.key (some entry))

namespace Cluster

def init (messageBuffer : Nat) : Cluster N K V :=
  ⟨messageBuffer, fun _ _ => none, fun _ => [], []⟩

variable (c : Cluster N K V)

/-- The callers of `handleUpdateNotify` ignore its error. -/
def handle (n : N) (msg : Message N K V) : Cluster N K V :=
  match (c.cache n).handleUpdateNotify msg with
  | .ok cache => { c with cache := Function.update c.cache n cache }
  | .error _ => c

/-- The version that `Set` writes, in 64 bits. -/
def newVersion (n : N) (key : K) : Nat :=
  match c.cache n key with
  | some existing => (existing.version + 1) % 2 ^ 64
  | none => 1

def set (n : N) (key : K) (value : V) (targets : List N) : Cluster N K V :=
  let version := c.newVersion n key
  { c with
    cache := Function.update c.cache n (Function.update (c.cache n) key (some ⟨value, version, n⟩))
    calls := (⟨n, key, value, version⟩, targets.filter (· ≠ n)) :: c.calls }

def send (call : Nat) : Cluster N K V :=
  match c.calls[call]? with
  | some (msg, node :: rest) =>
    { c with
      inbox :=
        if (c.inbox node).length < c.messageBuffer then
          Function.update c.inbox node (c.inbox node ++ [msg])
        else c.inbox
      calls := c.calls.set call (msg, rest) }
  | _ => c

def deliver (n : N) : Cluster N K V :=
  match c.inbox n with
  | msg :: rest => handle { c with inbox := Function.update c.inbox n rest } n msg
  | [] => c

def repair (source n : N) (key : K) : Cluster N K V :=
  match c.cache source key with
  | some entry => c.handle n ⟨source, key, entry.value, entry.version⟩
  | none => c

def step : Event N K V → Cluster N K V
  | .set n key value targets => c.set n key value targets
  | .send call => c.send call
  | .deliver n => c.deliver n
  | .repair source n key => c.repair source n key

/-- `mergedVersions` and `mergedSources` after the entries in the order of the visits. -/
def merged (c : Cluster N K V) (visits : List (N × K)) : K → Option (Nat × N) :=
  visits.foldl (fun merged (n, key) =>
    match c.cache n key with
    | some entry =>
      if (merged key).all (·.1 < entry.version) then
        Function.update merged key (some (entry.version, n))
      else merged
    | none => merged) fun _ => none

/-- The node gets the merged version of the key, if it was behind when the versions were read. -/
def repairBehind (visits : List (N × K)) (s : Cluster N K V) (p : N × K) : Cluster N K V :=
  match c.merged visits p.2 with
  | some (highestVersion, source) =>
    if (c.cache p.1 p.2).all (·.version < highestVersion) && source ≠ p.1 then
      s.repair source p.1 p.2
    else s
  | none => s

/-- `runReconciliation`; `visits` and `repairs` are the orders in which its loops range over the
maps. -/
def runReconciliation (nodeIDs : List N) (visits repairs : List (N × K)) : Cluster N K V :=
  if nodeIDs.length < 2 then c else repairs.foldl (c.repairBehind visits) c

end Cluster

end Solocoder.CacheSync
