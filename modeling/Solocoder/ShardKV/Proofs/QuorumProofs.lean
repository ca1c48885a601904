import Solocoder.ShardKV.Proofs.ColumnProofs

/-!
# Writes that fail

`Put` and `Delete` write to all available replicas before they count the answers, and nothing is
taken back.
-/

namespace Solocoder.ShardKV.Cluster

open List

variable {c : Cluster} {key : String} {op : Shard → Except Err Shard}

theorem accepted_put (key : String) (val : Bytes) (nodes : List String) (s : Cluster × Tally) :
    (nodes.foldl (writeNode (·.put key val)) s).2.accepted =
      s.2.accepted ++ nodes.filter fun id => (s.1.reachable id).isSome := by
  induction nodes generalizing s with
  | nil => simp
  | cons id nodes ih =>
    have hshape := (writeNode_spec (writes_put key val) s id).shape
    rw [foldl_cons, ih]
    simp only [hshape.reachable]
    unfold writeNode
    cases hr : s.1.reachable id with
    | none => simp [hr]
    | some shard =>
      have hput : shard.put key val = .ok (shard.forcePut key val) :=
        if_neg (lookup_of_reachable hr).2
      simp [hr, hput]

theorem eq_of_accepted_eq_nil {nodes : List String} {s : Cluster × Tally}
    (h : (nodes.foldl (writeNode op) s).2.accepted = []) :
    s.2.accepted = [] ∧ (nodes.foldl (writeNode op) s).1 = s.1 := by
  induction nodes generalizing s with
  | nil => exact ⟨h, rfl⟩
  | cons id nodes ih =>
    obtain ⟨haccepted, hfst⟩ := ih h
    rw [foldl_cons, hfst]
    unfold writeNode at haccepted ⊢
    split at haccepted
    · exact ⟨haccepted, rfl⟩
    · split at haccepted
      · simp at haccepted
      · exact ⟨haccepted, rfl⟩
      · exact ⟨haccepted, rfl⟩

variable (hashKey : String → UInt64)

/-- The replicas that a write arrives at. -/
def reached (c : Cluster) (key : String) : List String :=
  (c.getAvailableReplicaNodes hashKey key).filter fun id => (c.reachable id).isSome

theorem put_fails_iff (c : Cluster) (key : String) (val : Bytes) :
    (c.put hashKey key val).2 ≠ .ok () ↔ c.getAvailableReplicaNodes hashKey key = [] ∨
      (c.reached hashKey key).length < c.writeQuorum := by
  have hquorum := (write_spec hashKey (writes_put key val) c).shape.writeQuorum
  have haccepted : (c.write hashKey key (·.put key val)).2.accepted = c.reached hashKey key :=
    accepted_put key val _ (c, ⟨[], [], none⟩)
  rw [put]
  split
  next hnil => simp [hnil]
  next hne =>
    show (if (c.write hashKey key _).2.accepted.length ≥ (c.write hashKey key _).1.writeQuorum then
      Except.ok () else _) ≠ _ ↔ _
    rw [hquorum, haccepted, or_iff_right hne]
    split
    next h => simpa using h
    next h => simpa using h

/-- A `Delete` that fails changes no data. A `Put` fails if no replica is available or it reaches
fewer shards than the quorum, and these then hold the value. -/
theorem failed_write_data (hashKey : String → UInt64) (c : Cluster) (key : String) (val : Bytes) :
    ((c.delete hashKey key).2 ≠ .ok () →
      ∀ shardID k, (c.delete hashKey key).1.value shardID k = c.value shardID k) ∧
    ((c.put hashKey key val).2 ≠ .ok () ↔ c.getAvailableReplicaNodes hashKey key = [] ∨
      (c.reached hashKey key).length < c.writeQuorum) ∧
    ((c.put hashKey key val).2 ≠ .ok () → ∀ shardID k, (c.put hashKey key val).1.value shardID k =
        if k = key ∧ shardID ∈ c.reached hashKey key then some val else c.value shardID k) := by
  refine ⟨?_, put_fails_iff hashKey c key val, ?_⟩
  · intro hfails
    have hnone : (c.write hashKey key (·.delete key)).2.accepted = [] := by
      by_contra hsome
      refine hfails ?_
      have hne : c.getAvailableReplicaNodes hashKey key ≠ [] := by
        intro hnil
        rw [write, hnil] at hsome
        exact hsome rfl
      rw [delete, if_neg hne]
      dsimp only
      split
      · rfl
      · simp [hsome]
    intro shardID k
    rw [delete_fst, write, (eq_of_accepted_eq_nil hnone).2]
  · intro _ shardID k
    rw [put_fst, (write_spec hashKey (writes_put key val) c).value]
    simp only [reached, mem_filter]

/-- Two replicas that both have to be written, one of which is down. -/
def halfDown : Cluster :=
  (newCluster ⟨1, 2, 2⟩).run sampleHash
    [.addShard "s1" listOrder, .addShard "s2" listOrder, .markShardDown "s2"]

theorem not_failed_put_keeps_data : (halfDown.put sampleHash "k" [7]).2 = .error .quorumFailed ∧
      halfDown.value "s1" "k" = none ∧
      (halfDown.put sampleHash "k" [7]).1.value "s1" "k" = some [7] := by
  refine ⟨?_, ?_, ?_⟩ <;> rfl

end Solocoder.ShardKV.Cluster
