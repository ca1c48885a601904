import Solocoder.Lib.Folds
import Solocoder.ShardKV.Proofs.ColumnProofs
import Solocoder.ShardKV.Proofs.RingProofs

/-!
# What a migration of `internal/shardkv` does to the copies of a key

The turn of a key in `migrateOnAdd` and `migrateOnRemove` changes only its own column.
-/

namespace Solocoder.ShardKV

open Lib List Option

namespace Cluster

variable {hashKey : String → UInt64} {c c' : Cluster} {key : String}

def AllUp (c : Cluster) : Prop :=
  ∀ {shardID shard}, c.shards.lookup shardID = some shard → shard.status ≠ .down

theorem SameShape.allUp (h : SameShape c c') (hup : c.AllUp) : c'.AllUp := by
  intro shardID shard hs
  obtain ⟨shard', hs', hstatus⟩ := h.lookup hs
  exact hstatus ▸ hup hs'

theorem shardGet_eq (hup : c.AllUp) (shardID key : String) :
    c.shardGet shardID key = c.value shardID key := by
  unfold shardGet value
  cases hs : c.shards.lookup shardID with
  | none => rfl
  | some shard =>
    simp only [Shard.get, if_neg (hup hs), bind_some]
    cases shard.data.lookup key <;> rfl

theorem upWith_iff (hup : c.AllUp) {shardID : String} (hmem : shardID ∈ c.shards) (key : String)
    (held : Bool) :
    c.upWith key held shardID = true ↔ (c.value shardID key).isSome = held := by
  obtain ⟨shard, hs⟩ := isSome_iff_exists.1 (AList.lookup_isSome.2 hmem)
  rw [value_of_lookup hs, upWith, hs]
  simp [hup hs, Shard.hasKey]

theorem AllUp.insert (hup : c.AllUp) {shardID : String} {shard : Shard}
    (hc : c'.shards = c.shards.insert shardID shard) (hshard : shard.status ≠ .down) : c'.AllUp := by
  intro id shard' hs
  rw [hc] at hs
  by_cases hid : id = shardID
  · subst hid
    rw [AList.lookup_insert] at hs
    cases hs
    exact hshard
  · rw [AList.lookup_insert_ne hid] at hs
    exact hup hs

theorem column_ext (h : ∀ shardID, c'.value shardID key = c.value shardID key) :
    c'.column key = c.column key := funext h

theorem column_insert {shardID : String} {shard : Shard}
    (hc : c'.shards = c.shards.insert shardID shard)
    (hdata : ∀ k, shard.data.lookup k = c.value shardID k) (k : String) :
    c'.column k = c.column k := by
  refine column_ext fun id => ?_
  rw [value, hc]
  by_cases hid : id = shardID
  · subst hid
    rw [AList.lookup_insert, bind_some, hdata]
  · rw [AList.lookup_insert_ne hid, value]

theorem mem_keys_order {shard : Shard} {shardID : String} (hs : c.shards.lookup shardID = some shard)
    (ord : Order) (k : String) :
    k ∈ ord.keys shardID shard.data.keys ↔ (c.value shardID k).isSome := by
  rw [(ord.keys_perm _ _).mem_iff, ← AList.mem_keys, value_of_lookup hs, AList.lookup_isSome]

theorem nodup_keys_order (ord : Order) (shardID : String) (shard : Shard) :
    (ord.keys shardID shard.data.keys).Nodup :=
  (ord.keys_perm _ _).nodup_iff.2 shard.data.keys_nodup

/-- What the turn of an old shard does to a column: the new shard takes a copy, and the old one gives its
own up when it is no longer a replica. -/
def moveOnAdd (newShardID : String) (nodes : List String) (column : String → Option Bytes)
    (oldShardID : String) : String → Option Bytes :=
  if newShardID ∉ nodes then column
  else
    match column oldShardID with
    | none => column
    | some val => fun shardID =>
      if shardID = oldShardID ∧ oldShardID ∉ nodes then none
      else if shardID = newShardID then some val
      else column shardID

variable {newShardID oldShardID : String}

theorem moveOnAdd_of_none {nodes : List String} {column : String → Option Bytes}
    (h : column oldShardID = none) : moveOnAdd newShardID nodes column oldShardID = column := by
  unfold moveOnAdd
  rw [h, ite_self]

theorem migrateKeyOnAdd_shape (hashKey : String → UInt64) (newShardID oldShardID : String)
    (c : Cluster) (key : String) : SameShape c (migrateKeyOnAdd hashKey newShardID oldShardID c key) := by
  have hput := sameShape_forcePut c newShardID key
  simp only [migrateKeyOnAdd]
  repeat' split
  · exact .refl c
  · exact .refl c
  · exact hput _
  · exact (hput _).trans (sameShape_forceDelete _ _ _)

theorem migrateOnAdd_shape (hashKey : String → UInt64) (ord : Order) (c : Cluster)
    (newShardID : String) : SameShape c (migrateOnAdd hashKey ord c newShardID) := by
  refine .foldl (fun c oldShardID => ?_) _ c
  unfold migrateShardOnAdd
  repeat' split
  · exact .refl c
  · exact .refl c
  · exact .foldl (migrateKeyOnAdd_shape hashKey newShardID oldShardID) _ c

theorem migrateKeyOnAdd_column (hup : c.AllUp) (hnew : newShardID ∈ c.shards) (k : String) :
    (migrateKeyOnAdd hashKey newShardID oldShardID c key).column k =
      if k = key then moveOnAdd newShardID (c.replicaNodes hashKey key c.replicaCount) (c.column k)
        oldShardID
      else c.column k := by
  rw [migrateKeyOnAdd, moveOnAdd, shardGet_eq hup]
  by_cases hk : k = key
  · subst hk
    rw [if_pos rfl, column]
    split
    · rfl
    · cases hval : c.value oldShardID k with
      | none => rfl
      | some val =>
        funext other
        by_cases hold : oldShardID ∈ c.replicaNodes hashKey k c.replicaCount
        · simp [hold, value_forcePut hnew, column]
        · simp [hold, value_forcePut hnew, value_forceDelete, column]
  · rw [if_neg hk]
    refine column_ext fun other => ?_
    repeat' split
    · rfl
    · rfl
    · simp [value_forcePut hnew, hk]
    · simp [value_forcePut hnew, value_forceDelete, hk]

theorem migrateShardOnAdd_spec (hashKey : String → UInt64) (ord : Order) (hup : c.AllUp)
    (hnew : newShardID ∈ c.shards) (oldShardID : String) :
    SameShape c (migrateShardOnAdd hashKey ord newShardID c oldShardID) ∧
      ∀ k, (migrateShardOnAdd hashKey ord newShardID c oldShardID).column k =
        moveOnAdd newShardID (c.replicaNodes hashKey k c.replicaCount) (c.column k) oldShardID := by
  unfold migrateShardOnAdd
  split
  next hs =>
    refine ⟨.refl c, fun k => (moveOnAdd_of_none ?_).symm⟩
    rw [column, value, hs, bind_none]
  next shard hs =>
    rw [if_neg (hup hs)]
    obtain ⟨hshape, hcol⟩ := foldl_view (SameShape c) column
      (fun k m => moveOnAdd newShardID (c.replicaNodes hashKey k c.replicaCount) m oldShardID)
      (fun s k hs => hs.trans (migrateKeyOnAdd_shape hashKey newShardID oldShardID s k))
      (fun s k k' hs hne' => by
        rw [migrateKeyOnAdd_column (hs.allUp hup) (hs.mem_shards.2 hnew), if_neg hne'])
      (fun s k hs => by
        rw [migrateKeyOnAdd_column (hs.allUp hup) (hs.mem_shards.2 hnew), if_pos rfl,
          hs.replicaNodes, hs.replicaCount])
      (nodup_keys_order ord oldShardID shard) (.refl c)
    refine ⟨hshape, fun k => ?_⟩
    rw [hcol]
    split_ifs with hk
    · rfl
    · rw [mem_keys_order hs, not_isSome_iff_eq_none] at hk
      exact (moveOnAdd_of_none (show c.column k oldShardID = none from hk)).symm

theorem foldl_migrateShardOnAdd_spec (hashKey : String → UInt64) (ord : Order) (olds : List String)
    (hup : c.AllUp) (hnew : newShardID ∈ c.shards) :
    SameShape c (olds.foldl (migrateShardOnAdd hashKey ord newShardID) c) ∧
      ∀ k, (olds.foldl (migrateShardOnAdd hashKey ord newShardID) c).column k =
        olds.foldl (moveOnAdd newShardID (c.replicaNodes hashKey k c.replicaCount)) (c.column k) := by
  induction olds generalizing c with
  | nil => exact ⟨.refl c, fun k => rfl⟩
  | cons old olds ih =>
    obtain ⟨hshape, hcol⟩ := migrateShardOnAdd_spec hashKey ord hup hnew old
    obtain ⟨hshape', hcol'⟩ := ih (hshape.allUp hup) (hshape.mem_shards.2 hnew)
    refine ⟨hshape.trans hshape', fun k => ?_⟩
    rw [foldl_cons, foldl_cons, hcol', hcol, hshape.replicaNodes, hshape.replicaCount]

theorem foldl_moveOnAdd {nodes olds : List String} {val : Bytes} (hnew : newShardID ∈ nodes)
    (hne : newShardID ∉ olds) {column : String → Option Bytes}
    (hval : ∀ shardID, column shardID = none ∨ column shardID = some val) (shardID : String) :
    olds.foldl (moveOnAdd newShardID nodes) column shardID =
      if shardID = newShardID then if ∃ old ∈ olds, column old = some val then some val else column shardID
      else if shardID ∈ olds ∧ shardID ∉ nodes then none
      else column shardID := by
  induction olds generalizing column with
  | nil => simp
  | cons old olds ih =>
    obtain ⟨hold, hne⟩ := not_or.1 (mem_cons.not.1 hne)
    rw [foldl_cons]
    rcases hval old with hnone | hsome
    · rw [moveOnAdd_of_none hnone, ih hne hval]
      by_cases heq : shardID = old
      · subst heq
        simp [hnone, Ne.symm hold]
      · simp [hnone, heq]
    · have hmove : ∀ id, moveOnAdd newShardID nodes column old id =
          if id = old ∧ old ∉ nodes then none else if id = newShardID then some val else column id := by
        intro id
        rw [moveOnAdd, if_neg (not_not.2 hnew), hsome]
      have hval' : ∀ id, moveOnAdd newShardID nodes column old id = none ∨
          moveOnAdd newShardID nodes column old id = some val := by
        intro id
        rw [hmove]
        split
        · exact Or.inl rfl
        · split
          · exact Or.inr rfl
          · exact hval id
      rw [ih hne hval', hmove]
      by_cases hid : shardID = newShardID
      · subst hid
        simp [hsome, hold]
      · by_cases heq : shardID = old
        · subst heq
          by_cases hn : shardID ∈ nodes <;> simp [hid, hn]
        · simp [hid, heq]

/-- What the removal of a shard does to the column of a key that it holds: every replica takes a copy
unless it has one. -/
def moveOnRemove (removedShardID : String) (nodes : List String) (column : String → Option Bytes) :
    String → Option Bytes :=
  match column removedShardID with
  | none => column
  | some val => fun shardID => if shardID ∈ nodes ∧ column shardID = none then some val else column shardID

theorem fillReplicas_of_nonpos (key : String) (val : Bytes) (nodes : List String) {needed : ℤ}
    (hle : needed ≤ 0) : fillReplicas key val nodes needed c = (c, needed) := by
  cases nodes with
  | nil => rfl
  | cons node nodes => rw [fillReplicas, if_pos hle]

theorem fillReplicas_shape (key : String) (val : Bytes) (nodes : List String) (needed : ℤ)
    (c : Cluster) : SameShape c (fillReplicas key val nodes needed c).1 := by
  induction nodes generalizing c needed with
  | nil => exact .refl c
  | cons node nodes ih =>
    rw [fillReplicas]
    split_ifs
    · exact .refl c
    · exact (sameShape_forcePut c node key val).trans (ih _ _)
    · exact ih _ _

theorem migrateOnRemove_shape (hashKey : String → UInt64) (ord : Order) (c : Cluster)
    (removedShardID : String) : SameShape c (migrateOnRemove hashKey ord c removedShardID) := by
  rw [migrateOnRemove]
  split
  · exact .refl c
  · refine .foldl (fun c key => ?_) _ c
    have hfill := fillReplicas_shape key
    simp only [migrateKeyOnRemove]
    repeat' split
    · exact .refl c
    · exact .refl c
    · exact (hfill _ _ _ _).trans (hfill _ _ _ _)
    · exact hfill _ _ _ _

theorem value_fillReplicas_of_ne {k : String} (hk : k ≠ key) (val : Bytes) (nodes : List String)
    (needed : ℤ) (hmem : ∀ id ∈ nodes, id ∈ c.shards) (shardID : String) :
    (fillReplicas key val nodes needed c).1.value shardID k = c.value shardID k := by
  induction nodes generalizing c needed with
  | nil => rfl
  | cons node nodes ih =>
    have hrest : ∀ id ∈ nodes, id ∈ c.shards := fun id hid => hmem id (mem_cons_of_mem _ hid)
    rw [fillReplicas]
    split_ifs
    · rfl
    · have hshape := sameShape_forcePut c node key val
      rw [ih _ fun id hid => hshape.mem_shards.2 (hrest id hid),
        value_forcePut (hmem node mem_cons_self), if_neg fun h => hk h.2]
    · exact ih _ hrest

theorem fillReplicas_spec (hup : c.AllUp) (val : Bytes) {nodes : List String} {needed : ℤ}
    (hnodup : nodes.Nodup) (hmem : ∀ id ∈ nodes, id ∈ c.shards)
    (hneeded : (nodes.countP fun id => c.value id key = none) ≤ needed) :
    (fillReplicas key val nodes needed c).2 =
        needed - (nodes.countP fun id => c.value id key = none) ∧
      ∀ shardID, (fillReplicas key val nodes needed c).1.value shardID key =
        if shardID ∈ nodes ∧ c.value shardID key = none then some val else c.value shardID key := by
  induction nodes generalizing c needed with
  | nil => simp [fillReplicas]
  | cons node nodes ih =>
    obtain ⟨hnode, hnodup⟩ := nodup_cons.1 hnodup
    have hmem' : node ∈ c.shards := hmem node mem_cons_self
    have hrest : ∀ id ∈ nodes, id ∈ c.shards := fun id hid => hmem id (mem_cons_of_mem _ hid)
    rw [fillReplicas]
    by_cases hle : needed ≤ 0
    · -- no copy is asked for, so none is missing
      have hcount : (node :: nodes).countP (fun id => c.value id key = none) = 0 := by omega
      rw [if_pos hle, hcount]
      refine ⟨by simp, fun shardID => ?_⟩
      rw [if_neg]
      rintro ⟨hid, hnone⟩
      rw [countP_eq_zero] at hcount
      exact hcount shardID hid (decide_eq_true hnone)
    · rw [if_neg hle]
      have hwith := upWith_iff hup hmem' key false
      rw [isSome_eq_false_iff, isNone_iff_eq_none] at hwith
      by_cases hnone : c.value node key = none
      · rw [if_pos (hwith.2 hnone)]
        have hshape := sameShape_forcePut c node key val
        have hvalue : ∀ id, (c.modify node (·.forcePut key val)).value id key =
            if id = node then some val else c.value id key := by
          intro id
          rw [value_forcePut hmem']
          simp
        have hcount : (node :: nodes).countP (fun id => c.value id key = none) =
            nodes.countP (fun id =>
              (c.modify node (·.forcePut key val)).value id key = none) + 1 := by
          rw [countP_cons_of_pos (by simpa using hnone)]
          refine congrArg (· + 1) (countP_congr fun id hid => ?_)
          have hne : id ≠ node := fun heq => hnode (heq ▸ hid)
          rw [hvalue, if_neg hne]
        have henough : (nodes.countP fun id =>
            (c.modify node (·.forcePut key val)).value id key = none) ≤ needed - 1 := by omega
        obtain ⟨hneeded', hval⟩ := ih (hshape.allUp hup) hnodup
          (fun id hid => hshape.mem_shards.2 (hrest id hid)) henough
        refine ⟨by omega, fun shardID => ?_⟩
        rw [hval, hvalue]
        by_cases heq : shardID = node
        · subst heq
          simp [hnone]
        · simp [heq]
      · rw [if_neg (fun h => hnone (hwith.1 h))]
        have hcount : (node :: nodes).countP (fun id => c.value id key = none) =
            nodes.countP (fun id => c.value id key = none) :=
          countP_cons_of_neg (by simpa using hnone)
        rw [hcount] at hneeded
        obtain ⟨hneeded', hval⟩ := ih hup hnodup hrest hneeded
        refine ⟨by rw [hneeded', hcount], fun shardID => ?_⟩
        rw [hval]
        by_cases heq : shardID = node
        · subst heq
          simp [hnone]
        · simp [heq]

section Remove

variable {removedShardID : String} {remaining : List String}

/-- The removed shard has left the ring, and `remaining` lists the others. -/
structure Leaving (hashKey : String → UInt64) (removedShardID : String) (remaining : List String)
    (c : Cluster) : Prop where
  allUp : c.AllUp
  ring : RingInv hashKey c.hashRing
  nodup : remaining.Nodup
  nodes : ∀ id, id ∈ c.hashRing.nodeSet ↔ id ∈ remaining
  registered : ∀ id ∈ remaining, id ∈ c.shards

theorem Leaving.of_sameShape (h : Leaving hashKey removedShardID remaining c) (hs : SameShape c c') :
    Leaving hashKey removedShardID remaining c' :=
  ⟨hs.allUp h.allUp, hs.hashRing ▸ h.ring, h.nodup, fun id => hs.hashRing ▸ h.nodes id,
    fun id hid => hs.mem_shards.2 (h.registered id hid)⟩

namespace Leaving

variable (h : Leaving hashKey removedShardID remaining c)
include h

section

variable {nodes : List String} (hnodes : c.replicaNodes hashKey key c.replicaCount = nodes)
include hnodes

theorem nodes_eq : nodes = (c.hashRing.order (hashKey key)).take c.replicaCount := by
  rw [← hnodes, replicaNodes, h.ring.getReplicaNodes_eq]

theorem nodes_nodup : nodes.Nodup := by
  rw [h.nodes_eq hnodes]
  exact (HashRing.nodup_order _ _).sublist (take_sublist _ _)

theorem mem_remaining {id : String} (hid : id ∈ nodes) : id ∈ remaining := by
  rw [h.nodes_eq hnodes] at hid
  exact (h.nodes id).1 ((h.ring.mem_order _).1 (List.mem_of_mem_take hid))

theorem existingReplicas_eq :
    c.existingReplicas remaining nodes key = nodes.countP fun id => ¬ c.value id key = none := by
  have hperm : (remaining.filter (· ∈ nodes)).Perm nodes := by
    rw [perm_ext_iff_of_nodup (h.nodup.filter _) (h.nodes_nodup hnodes)]
    intro id
    rw [mem_filter, decide_eq_true_eq]
    exact ⟨And.right, fun hid => ⟨h.mem_remaining hnodes hid, hid⟩⟩
  rw [← hperm.countP_eq, countP_filter]
  refine countP_congr fun id hid => ?_
  have hwith := upWith_iff h.allUp (h.registered id hid) key true
  rw [isSome_iff_ne_none] at hwith
  simp [hwith, and_comm]

theorem missing_le : ((nodes.countP fun id => c.value id key = none : ℕ) : ℤ) ≤
    c.replicaCount - c.existingReplicas remaining nodes key := by
  rw [h.existingReplicas_eq hnodes]
  have hlen : nodes.length ≤ c.replicaCount := by
    rw [h.nodes_eq hnodes]
    exact length_take_le _ _
  have hsum := nodes.length_eq_countP_add_countP fun id => c.value id key = none
  simp only [decide_eq_true_eq] at hsum
  omega

theorem filter_not_mem_nodes (hlt : nodes.length < c.replicaCount) :
    remaining.filter (· ∉ nodes) = [] := by
  rw [filter_eq_nil_iff]
  intro id hid
  rw [h.nodes_eq hnodes] at hlt ⊢
  rw [length_take] at hlt
  rw [take_of_length_le (by omega)]
  simpa using (h.ring.mem_order _).2 ((h.nodes id).2 hid)

theorem migrateKeyOnRemove_eq {val : Bytes} (hval : c.value removedShardID key = some val) :
    migrateKeyOnRemove hashKey removedShardID remaining c key = (fillReplicas key val nodes
      (c.replicaCount - c.existingReplicas remaining nodes key) c).1 := by
  have hneeded := h.missing_le hnodes
  have hexisting := h.existingReplicas_eq hnodes
  have hrest := h.filter_not_mem_nodes hnodes
  have hsum := nodes.length_eq_countP_add_countP fun id => c.value id key = none
  obtain ⟨hleft, -⟩ := fillReplicas_spec h.allUp val (h.nodes_nodup hnodes)
    (fun id hid => h.registered id (h.mem_remaining hnodes hid)) hneeded
  simp only [decide_eq_true_eq] at hsum
  simp only [migrateKeyOnRemove, shardGet_eq h.allUp, hval, hnodes]
  split
  · rename_i hle
    rw [fillReplicas_of_nonpos key val _ hle]
  · split
    · rw [hrest (by omega), fillReplicas]
    · rfl

end

theorem migrateKeyOnRemove_spec (key : String) :
    SameShape c (migrateKeyOnRemove hashKey removedShardID remaining c key) ∧
      ∀ k, (migrateKeyOnRemove hashKey removedShardID remaining c key).column k =
        if k = key then
          moveOnRemove removedShardID (c.replicaNodes hashKey key c.replicaCount) (c.column k)
        else c.column k := by
  cases hval : c.value removedShardID key with
  | none =>
    have heq : migrateKeyOnRemove hashKey removedShardID remaining c key = c := by
      rw [migrateKeyOnRemove, shardGet_eq h.allUp, hval]
    rw [heq]
    refine ⟨.refl c, fun k => ?_⟩
    split_ifs with hk
    · subst hk
      simp only [moveOnRemove, column, hval]
    · rfl
  | some val =>
    have hmem : ∀ id ∈ c.replicaNodes hashKey key c.replicaCount, id ∈ c.shards :=
      fun id hid => h.registered id (h.mem_remaining rfl hid)
    rw [h.migrateKeyOnRemove_eq rfl hval]
    refine ⟨fillReplicas_shape _ _ _ _ _, fun k => funext fun id => ?_⟩
    split_ifs with hk
    · subst hk
      obtain ⟨-, hfill⟩ := fillReplicas_spec h.allUp val (h.nodes_nodup rfl) hmem (h.missing_le rfl)
      simp only [moveOnRemove, column, hval]
      exact hfill id
    · exact value_fillReplicas_of_ne hk val _ _ hmem id

theorem migrateOnRemove_spec {shard : Shard} (hs : c.shards.lookup removedShardID = some shard)
    (ord : Order) :
    SameShape c ((ord.keys removedShardID shard.data.keys).foldl
        (migrateKeyOnRemove hashKey removedShardID remaining) c) ∧
      ∀ k, ((ord.keys removedShardID shard.data.keys).foldl
          (migrateKeyOnRemove hashKey removedShardID remaining) c).column k =
        moveOnRemove removedShardID (c.replicaNodes hashKey k c.replicaCount) (c.column k) := by
  obtain ⟨hshape, hcol⟩ := foldl_view (SameShape c) column
    (fun k => moveOnRemove removedShardID (c.replicaNodes hashKey k c.replicaCount))
    (fun s k hs => hs.trans ((h.of_sameShape hs).migrateKeyOnRemove_spec k).1)
    (fun s k k' hs hne => by rw [((h.of_sameShape hs).migrateKeyOnRemove_spec k).2, if_neg hne])
    (fun s k hs => by
      rw [((h.of_sameShape hs).migrateKeyOnRemove_spec k).2, if_pos rfl, hs.replicaNodes,
        hs.replicaCount])
    (nodup_keys_order ord removedShardID shard) (.refl c)
  refine ⟨hshape, fun k => ?_⟩
  rw [hcol]
  split_ifs with hk
  · rfl
  · rw [mem_keys_order hs, not_isSome_iff_eq_none] at hk
    simp only [moveOnRemove, column, hk]

end Leaving

end Remove

end Cluster

end Solocoder.ShardKV
