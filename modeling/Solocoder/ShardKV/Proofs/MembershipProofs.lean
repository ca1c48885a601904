import Solocoder.ShardKV.Proofs.MigrationProofs

/-!
# A cluster whose shards come and go is a map

As long as no shard is marked down, every key is held by its replica nodes and by no other shard,
and all of them hold the same bytes.
-/

namespace Solocoder.ShardKV

open Lib List Function Option AList HashRing Cluster

/-! ## The map that a cluster stands for -/

/-- The keys and values of a cluster, if it has a shard. -/
abbrev Content := Option (String → Option Bytes)

namespace Content

/-- What a call does to the content. -/
def step : Content → Op → Content
  | none, .addShard _ _ => some fun _ => none
  | none, _ => none
  | some m, .put key value => some (update m key (some value))
  | some m, .delete key => some (update m key none)
  | some m, _ => some m

/-- What a list of calls does to the content of a new cluster. -/
def run (ops : List Op) : Content := ops.foldl step none

/-- What a read returns. -/
def get : Content → String → Except Err Bytes
  | none, _ => .error .noAvailable
  | some m, key =>
    match m key with
    | none => .error .keyNotFound
    | some value => .ok value

end Content

namespace Cluster

/-- The call changes the membership or writes, but marks no shard. -/
def Op.unmarked : Op → Bool
  | .markShardDown _ => false
  | .markShardUp _ _ => false
  | _ => true

variable (v : Option Bytes)

def spread (nodes : List String) : String → Option Bytes :=
  fun shardID => if shardID ∈ nodes then v else none

theorem spread_cases (nodes : List String) (id : String) :
    spread v nodes id = none ∨ spread v nodes id = v := by
  rw [spread]
  exact (ite_eq_or_eq _ _ _).symm

/-- A new shard in the order `order` of the nodes: `migrateOnAdd` moves the copies to the replica nodes
of the new order. -/
theorem foldl_moveOnAdd_spread {order olds : List String} {newShardID : String}
    {r : ℕ} (hr : 0 < r) (holds : ∀ id, id ∈ olds ↔ id ∈ order.filter (· ≠ newShardID))
    (hne : olds ≠ []) :
    olds.foldl (moveOnAdd newShardID (order.take r))
        (spread v ((order.filter (· ≠ newShardID)).take r)) = spread v (order.take r) := by
  by_cases hnew : newShardID ∈ order.take r
  · cases v with
    | none =>
      have hnone : ∀ nodes : List String, spread none nodes = fun _ => none :=
        fun nodes => funext fun id => ite_self none
      rw [hnone, hnone]
      exact foldl_fixed' (fun old => moveOnAdd_of_none rfl) olds
    | some val =>
      have hnotMem : newShardID ∉ olds := by simp [holds]
      have hold : ∀ id ∈ (order.filter (· ≠ newShardID)).take r, id ∈ olds :=
        fun id hid => (holds id).2 (mem_of_mem_take hid)
      -- the first of the old replica nodes hands its copy over
      obtain ⟨first, hfirst⟩ : ∃ first, first ∈ (order.filter (· ≠ newShardID)).take r := by
        obtain ⟨old, hold⟩ := exists_mem_of_ne_nil _ hne
        obtain ⟨first, rest, horder⟩ := exists_cons_of_ne_nil (ne_nil_of_mem ((holds old).1 hold))
        rw [horder, take_cons hr]
        exact ⟨first, mem_cons_self⟩
      have hcopy : ∃ old ∈ olds, spread (some val) ((order.filter (· ≠ newShardID)).take r) old = some val :=
        ⟨first, hold first hfirst, if_pos hfirst⟩
      funext id
      rw [foldl_moveOnAdd hnew hnotMem (spread_cases (some val) _), if_pos hcopy]
      by_cases hid : id = newShardID
      · rw [if_pos hid, spread, hid, if_pos hnew]
      · rw [if_neg hid, spread, spread]
        by_cases hmem : id ∈ order.take r
        · rw [if_neg fun hc => hc.2 hmem, if_pos (mem_take_filter_ne hmem hid), if_pos hmem]
        · by_cases hmem' : id ∈ olds
          · rw [if_pos ⟨hmem', hmem⟩, if_neg hmem]
          · rw [if_neg fun hc => hmem' hc.1, if_neg fun hc => hmem' (hold id hc), if_neg hmem]
  · -- the replica nodes stay as they are
    rw [take_filter_ne hnew]
    refine foldl_fixed' (fun old => ?_) olds
    rw [moveOnAdd, if_pos hnew]

/-- A shard leaves the order: `migrateOnRemove` completes the replica nodes of the new order. -/
theorem moveOnRemove_spread {order : List String} {removedShardID id : String}
    (hid : id ≠ removedShardID) (r : ℕ) :
    moveOnRemove removedShardID ((order.filter (· ≠ removedShardID)).take r)
        (spread v (order.take r)) id =
      spread v ((order.filter (· ≠ removedShardID)).take r) id := by
  have hstays : id ∈ order.take r → id ∈ (order.filter (· ≠ removedShardID)).take r :=
    fun hmem => mem_take_filter_ne hmem hid
  by_cases hremoved : removedShardID ∈ order.take r
  · cases v with
    | none => simp [moveOnRemove, spread]
    | some val =>
      have hcopy : spread (some val) (order.take r) removedShardID = some val := if_pos hremoved
      simp only [moveOnRemove, hcopy]
      generalize (order.filter (· ≠ removedShardID)).take r = nodes at hstays ⊢
      by_cases hmem : id ∈ nodes
      · by_cases hold : id ∈ order.take r
        · simp [spread, hmem]
        · simp [spread, hmem]
      · have hold : id ∉ order.take r := fun hold => hmem (hstays hold)
        simp [spread, hold]
  · rw [take_filter_ne hremoved, moveOnRemove, spread, if_neg hremoved]

variable {hashKey : String → UInt64} {c : Cluster} {m : String → Option Bytes} {key : String}

structure Ready (hashKey : String → UInt64) (c : Cluster) : Prop where
  ring : RingInv hashKey c.hashRing
  nodes : ∀ id, id ∈ c.hashRing.nodeSet ↔ id ∈ c.shards
  allUp : c.AllUp
  noneDown : c.downShards = []
  replicas : 0 < c.replicaCount
  quorum : c.writeQuorum ≤ c.replicaCount

theorem Ready.of_shape {c' : Cluster} (h : Ready hashKey c) (hs : SameShape c c') :
    Ready hashKey c' where
  ring := hs.hashRing ▸ h.ring
  nodes id := by rw [hs.hashRing, hs.mem_shards, h.nodes]
  allUp := hs.allUp h.allUp
  noneDown := hs.downShards.trans h.noneDown
  replicas := hs.replicaCount ▸ h.replicas
  quorum := hs.replicaCount ▸ hs.writeQuorum ▸ h.quorum

/-- Every key of `m` is held by its replica nodes and no other shard. -/
structure Stored (hashKey : String → UInt64) (c : Cluster) (m : String → Option Bytes) : Prop
    extends Ready hashKey c where
  columns : ∀ k, c.column k = spread (m k) (c.replicaNodes hashKey k c.replicaCount)

theorem stored_newCluster (config : Config) : Stored hashKey (newCluster config) fun _ => none := by
  refine ⟨⟨ringInv_newHashRing, ?_, ?_, rfl, ?_, ?_⟩, ?_⟩
  · simp [newCluster, newHashRing]
  · intro shardID shard hs
    cases hs
  · show 0 < Int.toNat (if config.replicaCount ≤ 0 then 1 else config.replicaCount)
    split <;> omega
  · have hcap : ∀ q r : ℤ, (if q > r then r else q) ≤ r := by
      intro q r
      split <;> omega
    exact Int.toNat_le_toNat (hcap _ _)
  · intro k
    funext id
    simp [column, value, newCluster, spread]

namespace Stored

section Reach

variable (h : Stored hashKey c m)

include h

variable (k : String)

theorem replicaNodes_eq (r : ℕ) :
    c.replicaNodes hashKey k r = (c.hashRing.order (hashKey k)).take r :=
  h.ring.getReplicaNodes_eq k r

theorem mem_order {id : String} : id ∈ c.hashRing.order (hashKey k) ↔ id ∈ c.shards :=
  (h.ring.mem_order _).trans (h.nodes id)

theorem mem_shards {id : String} {r : ℕ} (hid : id ∈ c.replicaNodes hashKey k r) :
    id ∈ c.shards := by
  rw [h.replicaNodes_eq] at hid
  exact (h.mem_order k).1 (mem_of_mem_take hid)

theorem reachable {id : String} (hid : id ∈ c.shards) : (c.reachable id).isSome := by
  obtain ⟨shard, hs⟩ := isSome_iff_exists.1 (lookup_isSome.2 hid)
  rw [Cluster.reachable, hs, h.noneDown]
  simp [h.allUp hs]

/-- With no shard down, a write goes to the replica nodes: when these are fewer than the quorum asks
for, they are all shards there are. -/
theorem getAvailableReplicaNodes_eq :
    c.getAvailableReplicaNodes hashKey k = c.replicaNodes hashKey k c.replicaCount := by
  have hbase : (c.replicaNodes hashKey k c.replicaCount).filter c.isAvailable =
      c.replicaNodes hashKey k c.replicaCount := by
    rw [filter_eq_self]
    intro id hid
    simp [isAvailable, h.noneDown, h.mem_shards k hid]
  simp only [getAvailableReplicaNodes, hbase]
  split
  · rfl
  · rename_i hfew
    have hquorum := h.quorum
    have hall : c.replicaNodes hashKey k c.replicaCount = c.hashRing.order (hashKey k) := by
      rw [h.replicaNodes_eq] at hfew ⊢
      rw [length_take] at hfew
      exact take_of_length_le (by omega)
    have hextra : (c.replicaNodes hashKey k (c.replicaCount + 10)).filter
        (fun nid => nid ∉ c.replicaNodes hashKey k c.replicaCount ∧ c.isAvailable nid) = [] := by
      rw [filter_eq_nil_iff]
      intro id hid
      rw [h.replicaNodes_eq] at hid
      rw [hall]
      simp [mem_of_mem_take hid]
    rw [hextra, take_nil, append_nil]

end Reach

variable (h : Stored hashKey c m)
include h

theorem write {w : Option Bytes} {op : Shard → Except Err Shard} (hop : Writes key w op) :
    Stored hashKey (c.write hashKey key op).1 (update m key w) := by
  obtain ⟨hshape, hvalue, -⟩ := write_spec hashKey hop c
  refine ⟨h.of_shape hshape, fun k => funext fun id => ?_⟩
  have hreach : id ∈ c.replicaNodes hashKey key c.replicaCount → (c.reachable id).isSome :=
    fun hid => h.reachable (h.mem_shards key hid)
  have hcol : c.value id k = spread (m k) (c.replicaNodes hashKey k c.replicaCount) id :=
    congrFun (h.columns k) id
  rw [column, hvalue, h.getAvailableReplicaNodes_eq, hshape.replicaNodes, hshape.replicaCount, hcol]
  by_cases hk : k = key
  · subst hk
    rw [update_self, spread, spread]
    by_cases hid : id ∈ c.replicaNodes hashKey k c.replicaCount
    · rw [if_pos ⟨rfl, hid, hreach hid⟩, if_pos hid]
    · rw [if_neg fun hc => hid hc.2.1, if_neg hid, if_neg hid]
  · rw [if_neg fun hc => hk hc.1, update_of_ne hk]

theorem get_eq (hne : c.hashRing.nodeSet ≠ []) (k : String) :
    c.get hashKey k = Content.get (some m) k := by
  obtain ⟨id, hid⟩ := exists_mem_of_ne_nil _ hne
  have hcol : ∀ id, c.value id k = if id ∈ c.replicaNodes hashKey k c.replicaCount then m k else none :=
    fun id => congrFun (h.columns k) id
  -- the first node of the order holds the key if any does
  obtain ⟨first, rest, horder⟩ := exists_cons_of_ne_nil
    (ne_nil_of_mem ((h.ring.mem_order (hashKey k)).2 hid))
  have hmem : ∀ r, 0 < r → first ∈ c.replicaNodes hashKey k r := by
    intro r hr
    rw [h.replicaNodes_eq, horder, take_cons hr]
    exact mem_cons_self
  have hfirst : first ∈ c.shards := (h.mem_order k).1 (horder ▸ mem_cons_self)
  have hprobed := hmem (c.replicaCount + 5) (by omega)
  rw [get, if_neg (ne_nil_of_mem hprobed), Content.get]
  cases hm : m k with
  | none =>
    refine getLoop_of_none fun id _ => ?_
    rw [hcol, hm, ite_self]
  | some val =>
    refine getLoop_of_some (fun id _ => ?_) hprobed (h.reachable hfirst) ?_
    · rw [hcol, hm]
      exact (ite_eq_or_eq _ _ _).symm
    · rw [hcol, hm, if_pos (hmem _ h.replicas)]

theorem get_eq_noAvailable (hnil : c.hashRing.nodeSet = []) (k : String) :
    c.get hashKey k = .error .noAvailable := by
  have hempty : c.replicaNodes hashKey k (c.replicaCount + 5) = [] := by
    rw [eq_nil_iff_forall_not_mem]
    intro id hid
    have := (h.nodes id).2 (h.mem_shards k hid)
    rw [hnil] at this
    cases this
  rw [get, if_pos hempty]

/-! ### Changes of the membership -/

theorem addShard {newShardID : String} (hnew : newShardID ∉ c.shards)
    (hsep : Separates hashKey c.hashRing.virtualNodes (c.hashRing.nodeSet ++ [newShardID]))
    (hempty : c.hashRing.nodeSet = [] → ∀ k, m k = none) (ord : Order) :
    Stored hashKey (c.addShard hashKey ord newShardID).1 m := by
  have hnode : newShardID ∉ c.hashRing.nodeSet := fun hn => hnew ((h.nodes _).1 hn)
  obtain ⟨hring, horder⟩ := h.ring.addNode hnode hsep
  have hset : (c.hashRing.addNode hashKey newShardID).nodeSet = c.hashRing.nodeSet ++ [newShardID] := by
    simp [addNode, hnode]
  simp only [Cluster.addShard, if_neg hnew]
  set c1 : Cluster :=
    { c with
      shards := c.shards.insert newShardID newShard
      hashRing := c.hashRing.addNode hashKey newShardID } with hc1
  have hcolumn := column_insert (show c1.shards = _ from rfl) fun k => (value_eq_none hnew).symm
  have hmem : newShardID ∈ c1.shards := (mem_insert _).2 (Or.inl rfl)
  have hnodes1 : ∀ id, id ∈ c1.hashRing.nodeSet ↔ id ∈ c1.shards := by
    intro id
    rw [hset, mem_append, mem_singleton, h.nodes, mem_insert]
    exact or_comm
  have hready : Ready hashKey c1 := ⟨hring, hnodes1, AllUp.insert h.allUp rfl (by simp [newShard]), h.noneDown,
    h.replicas, h.quorum⟩
  split
  · rename_i hpos
    obtain ⟨hshape, hmoved⟩ := foldl_migrateShardOnAdd_spec hashKey ord
      (ord.shards (c1.shards.keys.filter (· ≠ newShardID))) hready.allUp hmem
    have holds : ∀ id, id ∈ ord.shards (c1.shards.keys.filter (· ≠ newShardID)) ↔ id ∈ c.shards := by
      intro id
      rw [(ord.shards_perm _).mem_iff, mem_filter, ← AList.mem_keys, mem_insert,
        decide_eq_true_eq]
      constructor
      · rintro ⟨heq | hid, hne⟩
        · exact absurd heq hne
        · exact hid
      · intro hid
        exact ⟨Or.inr hid, fun heq => hnew (heq ▸ hid)⟩
    rw [migrateOnAdd]
    refine ⟨hready.of_shape hshape, fun k => ?_⟩
    rw [hmoved, hcolumn, hshape.replicaNodes, hshape.replicaCount]
    have hnodes : c1.replicaNodes hashKey k c1.replicaCount =
        (c1.hashRing.order (hashKey k)).take c.replicaCount := hring.getReplicaNodes_eq k _
    rw [h.columns, h.replicaNodes_eq, hnodes, horder]
    refine foldl_moveOnAdd_spread (m k) h.replicas (fun id => ?_) ?_
    · rw [holds, ← horder, h.mem_order]
    · obtain ⟨id, hid⟩ := exists_mem_of_length_pos (show 0 < c.hashRing.nodeSet.length from hpos)
      exact ne_nil_of_mem ((holds id).2 ((h.nodes id).1 hid))
  · rename_i hzero
    have hnil : c.hashRing.nodeSet = [] := by
      rw [nodeCount] at hzero
      exact eq_nil_of_length_eq_zero (by omega)
    refine ⟨hready, fun k => ?_⟩
    rw [hcolumn, h.columns, hempty hnil]
    funext id
    simp [spread]

theorem removeShard {removedShardID : String} (hmem : removedShardID ∈ c.shards)
    (hcount : ¬ c.hashRing.nodeCount ≤ 1) (ord : Order) :
    Stored hashKey (c.removeShard hashKey ord removedShardID).1 m := by
  have hnode := (h.nodes removedShardID).2 hmem
  obtain ⟨hring, horder⟩ := h.ring.removeNode hnode
  have hset : ∀ id, id ∈ (c.hashRing.removeNode hashKey removedShardID).nodeSet ↔
      id ∈ c.shards ∧ id ≠ removedShardID := by
    intro id
    rw [← hring.mem_order 0, horder, mem_filter, decide_eq_true_eq, h.ring.mem_order, h.nodes]
  obtain ⟨shard, hs⟩ := isSome_iff_exists.1 (lookup_isSome.2 hmem)
  simp only [Cluster.removeShard, if_neg (not_not.2 hmem), if_neg hcount, modify, hs]
  set c1 : Cluster :=
    { c with
      shards := c.shards.insert removedShardID { shard with status := .migrating }
      hashRing := c.hashRing.removeNode hashKey removedShardID } with hc1
  have hlookup : c1.shards.lookup removedShardID = some { shard with status := .migrating } :=
    lookup_insert _
  have hcolumn := column_insert (show c1.shards = _ from rfl) fun k => (value_of_lookup hs).symm
  have hshards : ∀ id, id ∈ c1.shards ↔ id ∈ c.shards := by
    intro id
    rw [mem_insert]
    exact or_iff_right_of_imp fun heq => heq ▸ hmem
  have hremaining : ∀ id, id ∈ ord.shards (c1.shards.keys.filter (· ≠ removedShardID)) ↔
      id ∈ c.shards ∧ id ≠ removedShardID := by
    intro id
    rw [(ord.shards_perm _).mem_iff, mem_filter, ← AList.mem_keys, hshards, decide_eq_true_eq]
  have hleaving : Leaving hashKey removedShardID
      (ord.shards (c1.shards.keys.filter (· ≠ removedShardID))) c1 := by
    refine ⟨AllUp.insert h.allUp rfl (by simp), hring, ?_, fun id => (hset id).trans (hremaining id).symm,
      fun id hid => ?_⟩
    · exact (ord.shards_perm _).nodup_iff.2 (c1.shards.keys_nodup.filter _)
    · exact (hshards id).2 ((hremaining id).1 hid).1
  obtain ⟨hshape, hmoved⟩ := hleaving.migrateOnRemove_spec hlookup ord
  simp only [migrateOnRemove, hlookup]
  generalize (ord.keys removedShardID shard.data.keys).foldl _ c1 = c3 at hshape hmoved ⊢
  refine ⟨⟨hshape.hashRing ▸ hring, fun id => ?_, ?_, ?_, hshape.replicaCount ▸ h.replicas,
    hshape.replicaCount ▸ hshape.writeQuorum ▸ h.quorum⟩, fun k => funext fun id => ?_⟩
  · rw [mem_erase, hshape.mem_shards, hshards, hshape.hashRing, hset]
    exact and_comm
  · intro id shard' hs'
    have hid : id ≠ removedShardID := by
      rintro rfl
      rw [lookup_erase] at hs'
      cases hs'
    rw [lookup_erase_ne hid] at hs'
    exact hshape.allUp hleaving.allUp hs'
  · rw [hshape.downShards]
    exact (congrArg (filter _) h.noneDown).trans filter_nil
  · have hnodes : c1.replicaNodes hashKey k c1.replicaCount =
        ((c.hashRing.order (hashKey k)).filter (· ≠ removedShardID)).take c.replicaCount := by
      rw [← horder]
      exact hring.getReplicaNodes_eq k _
    have hmove : c3.column k id = moveOnRemove removedShardID
        (((c.hashRing.order (hashKey k)).filter (· ≠ removedShardID)).take c.replicaCount)
        (spread (m k) ((c.hashRing.order (hashKey k)).take c.replicaCount)) id := by
      rw [hmoved, hcolumn, h.columns, hnodes, h.replicaNodes_eq]
    rw [← hshape.replicaNodes, ← hshape.replicaCount] at hnodes
    refine Eq.trans ?_ (congrFun (congrArg (spread (m k)) hnodes.symm) id)
    rw [hshape.replicaCount, column, value]
    by_cases hid : id = removedShardID
    · subst hid
      rw [lookup_erase, bind_none, spread, if_neg]
      intro hmem'
      have := (mem_filter.1 (mem_of_mem_take hmem')).2
      simp at this
    · rw [lookup_erase_ne hid]
      exact hmove.trans (moveOnRemove_spread (m k) hid _)

end Stored

/-! ### Runs -/

/-- The cluster holds the content, which begins with the first shard. -/
structure Represents (hashKey : String → UInt64) (c : Cluster) (content : Content) : Prop where
  stored : Stored hashKey c (content.getD fun _ => none)
  started : content = none ↔ c.hashRing.nodeSet = []

/-- No two virtual nodes share a point. -/
def KeysSeparated (hashKey : String → UInt64) (c : Cluster) : Prop :=
  Separates hashKey c.hashRing.virtualNodes c.hashRing.nodeSet

theorem addShard_hashRing {newShardID : String} (hnew : newShardID ∉ c.shards) (ord : Order) :
    (c.addShard hashKey ord newShardID).1.hashRing = c.hashRing.addNode hashKey newShardID := by
  simp only [addShard, if_neg hnew]
  split
  · exact (migrateOnAdd_shape hashKey ord _ newShardID).hashRing
  · rfl

theorem removeShard_hashRing {removedShardID : String} (hmem : removedShardID ∈ c.shards)
    (hcount : ¬ c.hashRing.nodeCount ≤ 1) (ord : Order) :
    (c.removeShard hashKey ord removedShardID).1.hashRing =
      c.hashRing.removeNode hashKey removedShardID := by
  simp only [removeShard, if_neg (not_not.2 hmem), if_neg hcount]
  rw [(migrateOnRemove_shape hashKey ord _ removedShardID).hashRing]
  simp only [modify]
  split <;> rfl

namespace Represents

variable {content : Content} (h : Represents hashKey c content)
include h

theorem write {w : Option Bytes} {op : Shard → Except Err Shard} (hop : Writes key w op) :
    Represents hashKey (c.write hashKey key op).1 (content.map fun m => update m key w) := by
  have hring := (write_spec hashKey hop c).shape.hashRing
  have hstored := h.stored.write hop
  refine ⟨?_, ?_⟩
  · cases content with
    | some m => exact hstored
    | none =>
      -- without a shard the write reaches nothing
      have hnil := h.started.1 rfl
      refine { hstored with columns := fun k => ?_ }
      have hnone : ∀ v, spread v ((c.write hashKey key op).1.replicaNodes hashKey k
          (c.write hashKey key op).1.replicaCount) = fun _ => none := by
        intro v
        funext id
        rw [spread, if_neg]
        intro hid
        have := (hstored.nodes id).2 (hstored.mem_shards k hid)
        rw [hring, hnil] at this
        cases this
      rw [hstored.columns, hnone, hnone]
  · rw [hring, ← h.started, map_eq_none_iff]

theorem step {op : Op} (hop : op.unmarked = true)
    (hsep : KeysSeparated hashKey (c.step hashKey op).1) :
    Represents hashKey (c.step hashKey op).1 (content.step op) := by
  cases op with
  | addShard shardID ord =>
    simp only [Cluster.step] at hsep ⊢
    by_cases hmem : shardID ∈ c.shards
    · have hsame : (c.addShard hashKey ord shardID).1 = c := by rw [addShard, if_pos hmem]
      rw [hsame]
      cases content with
      | none =>
        have := (h.stored.nodes shardID).2 hmem
        rw [h.started.1 rfl] at this
        cases this
      | some m => exact h
    · have hnode : shardID ∉ c.hashRing.nodeSet := fun hn => hmem ((h.stored.nodes _).1 hn)
      rw [KeysSeparated, addShard_hashRing hmem] at hsep
      have hset : (c.hashRing.addNode hashKey shardID).nodeSet = c.hashRing.nodeSet ++ [shardID] := by
        simp [addNode, hnode]
      have hvn : (c.hashRing.addNode hashKey shardID).virtualNodes = c.hashRing.virtualNodes := by
        simp [addNode, hnode]
      rw [hset, hvn] at hsep
      have hstored := h.stored.addShard hmem hsep (fun hnil k => by rw [h.started.2 hnil]; rfl) ord
      refine ⟨?_, ?_⟩
      · cases content with
        | none => exact hstored
        | some m => exact hstored
      · rw [addShard_hashRing hmem, hset]
        cases content <;> simp [Content.step]
  | removeShard shardID ord =>
    have hcontent : content.step (.removeShard shardID ord) = content := by cases content <;> rfl
    rw [hcontent]
    simp only [Cluster.step]
    by_cases hmem : shardID ∈ c.shards
    · by_cases hcount : c.hashRing.nodeCount ≤ 1
      · have hsame : (c.removeShard hashKey ord shardID).1 = c := by
          rw [removeShard, if_neg (not_not.2 hmem), if_pos hcount]
        rw [hsame]
        exact h
      · have hnode := (h.stored.nodes shardID).2 hmem
        refine ⟨h.stored.removeShard hmem hcount ord, ?_⟩
        have hlen : (c.hashRing.nodeSet.erase shardID).length = c.hashRing.nodeSet.length - 1 :=
          length_erase_of_mem hnode
        rw [h.started, removeShard_hashRing hmem hcount, removeNode, if_neg (not_not.2 hnode)]
        rw [nodeCount] at hcount
        rw [← length_eq_zero_iff, ← length_eq_zero_iff, hlen]
        omega
    · have hsame : (c.removeShard hashKey ord shardID).1 = c := by rw [removeShard, if_pos hmem]
      rw [hsame]
      exact h
  | put key value =>
    have hcontent : content.step (.put key value) =
        content.map fun m => update m key (some value) := by cases content <;> rfl
    rw [hcontent, Cluster.step, put_fst]
    exact h.write (writes_put key value)
  | delete key =>
    have hcontent : content.step (.delete key) =
        content.map fun m => update m key none := by cases content <;> rfl
    rw [hcontent, Cluster.step, delete_fst]
    exact h.write (writes_delete key)
  | markShardDown shardID => cases hop
  | markShardUp shardID ord => cases hop

theorem run {ops : List Op} (hops : ∀ op ∈ ops, op.unmarked = true)
    (hsep : ∀ pre, pre <+: ops → KeysSeparated hashKey (c.run hashKey pre)) :
    Represents hashKey (c.run hashKey ops) (ops.foldl Content.step content) := by
  induction ops generalizing c content with
  | nil => exact h
  | cons op ops ih =>
    have hstep := hsep [op] (prefix_cons_inj op |>.2 nil_prefix)
    refine ih (h.step (hops op mem_cons_self) hstep)
      (fun op' hop' => hops op' (mem_cons_of_mem _ hop')) ?_
    intro pre hpre
    exact hsep (op :: pre) (prefix_cons_inj op |>.2 hpre)

theorem get_eq (k : String) : c.get hashKey k = content.get k := by
  cases content with
  | none => exact h.stored.get_eq_noAvailable (h.started.1 rfl) k
  | some m => exact h.stored.get_eq (fun hnil => by cases h.started.2 hnil) k

end Represents

theorem represents_newCluster (config : Config) : Represents hashKey (newCluster config) none :=
  ⟨stored_newCluster config, by simp [newCluster, newHashRing]⟩

/-! ## The result -/

/-- If no shard is marked, a key is held by its replica nodes and no other shard, or by none; its
holders hold the same bytes; and a read returns what the content says. -/
theorem cluster_holds_content (hashKey : String → UInt64) (config : Config) (ops : List Op)
    (hops : ∀ op ∈ ops, op.unmarked = true)
    (hsep : ∀ pre, pre <+: ops → KeysSeparated hashKey ((newCluster config).run hashKey pre))
    (c : Cluster) (hc : c = (newCluster config).run hashKey ops) (key : String) :
    ((∀ id, (c.value id key).isSome ↔ id ∈ c.replicaNodes hashKey key c.replicaCount) ∨
        ∀ id, c.value id key = none) ∧
      (∀ id id' val val', c.value id key = some val → c.value id' key = some val' → val = val') ∧
      c.get hashKey key = (Content.run ops).get key := by
  subst hc
  have h := (represents_newCluster config).run hops hsep
  have hcol := fun id => congrFun (h.stored.columns key) id
  refine ⟨?_, ?_, h.get_eq key⟩
  · cases hv : (ops.foldl Content.step none).getD (fun _ => none) key with
    | none =>
      refine Or.inr fun id => ?_
      have := hcol id
      rw [hv, spread, ite_self] at this
      exact this
    | some val =>
      refine Or.inl fun id => ?_
      have := hcol id
      rw [column, spread] at this
      rw [this]
      split <;> simp_all
  · intro id id' val val' hval hval'
    have hone : ∀ {id val}, ((newCluster config).run hashKey ops).value id key = some val →
        (ops.foldl Content.step none).getD (fun _ => none) key = some val := by
      intro id val hval
      have := hcol id
      rw [column, hval, spread] at this
      split at this
      · exact this.symm
      · cases this
    exact Option.some.inj ((hone hval).symm.trans (hone hval'))

theorem separates_sampleHash : Separates sampleHash 1 ["s1", "s2"] := by
  rintro _ ⟨n, hn, i, hi, rfl⟩ _ ⟨n', hn', i', hi', rfl⟩ heq
  obtain rfl : i = 0 := by omega
  obtain rfl : i' = 0 := by omega
  simp only [mem_cons, not_mem_nil, or_false] at hn hn'
  rcases hn with rfl | rfl <;> rcases hn' with rfl | rfl
  · rfl
  · exact absurd heq (by decide)
  · exact absurd heq (by decide)
  · rfl

/-- A key written to the first shard is read from the second one, which came later, after the first has
left. -/
theorem cluster_holds_content_replacedShard :
    (((newCluster ⟨1, 1, 1⟩).run sampleHash [.addShard "s1" listOrder, .put "k" [7],
      .addShard "s2" listOrder, .removeShard "s1" listOrder]).get sampleHash "k") = .ok [7] := by
  refine (cluster_holds_content sampleHash ⟨1, 1, 1⟩ _ ?_ ?_ _ rfl "k").2.2
  · decide
  · intro pre hpre
    have hring : ∀ pre ∈ inits [Op.addShard "s1" listOrder, .put "k" [7],
        .addShard "s2" listOrder, .removeShard "s1" listOrder],
        ((newCluster ⟨1, 1, 1⟩).run sampleHash pre).hashRing.virtualNodes = 1 ∧
          ((newCluster ⟨1, 1, 1⟩).run sampleHash pre).hashRing.nodeSet ⊆ ["s1", "s2"] := by
      decide
    obtain ⟨hvn, hsub⟩ := hring pre ((mem_inits _ _).2 hpre)
    rw [KeysSeparated, hvn]
    exact separates_sampleHash.mono hsub

/-- Without a shard a write is refused, and a read does not report a missing key. -/
theorem not_holds_without_shards :
    ((newCluster ⟨1, 1, 1⟩).put sampleHash "k" [7]).2 = .error .noAvailable ∧
      ((newCluster ⟨1, 1, 1⟩).run sampleHash [.put "k" [7]]).get sampleHash "k" =
        .error .noAvailable := by
  constructor <;> rfl

end Cluster

end Solocoder.ShardKV
