import Solocoder.ShardKV.Proofs.MembershipProofs

/-!
# Reads after writes while shards fail and recover

Copies carry no versions, so a recovered shard cannot tell an old copy from a new one. What a write
stores is read back as long as it leaves no other copy of its key behind.
-/

namespace Solocoder.ShardKV

open Lib List Option AList HashRing

namespace Cluster

variable (hashKey : String → UInt64) {c c' c'' : Cluster} {key : String} {w : Option Bytes}

/-- The shards that are down are those in `downShards`. -/
structure Marked (c : Cluster) : Prop where
  registered : ∀ id ∈ c.downShards, id ∈ c.shards
  status : ∀ {id shard}, c.shards.lookup id = some shard → (shard.status = .down ↔ id ∈ c.downShards)

theorem SameShape.marked (h : SameShape c c') (hm : c.Marked) : c'.Marked := by
  refine ⟨fun id hid => h.mem_shards.2 (hm.registered id (h.downShards ▸ hid)), ?_⟩
  intro id shard hs
  obtain ⟨shard', hs', hstatus⟩ := h.lookup hs
  rw [← hstatus, h.downShards]
  exact hm.status hs'

theorem marked_newCluster (config : Config) : (newCluster config).Marked := by
  constructor
  · intro id hid
    cases hid
  · intro id shard hs
    cases hs

theorem Marked.insert (h : c.Marked) {shardID : String} {shard : Shard}
    (hc : c'.shards = c.shards.insert shardID shard)
    (hstatus : shard.status = .down ↔ shardID ∈ c'.downShards)
    (hother : ∀ id, id ≠ shardID → (id ∈ c'.downShards ↔ id ∈ c.downShards)) : c'.Marked := by
  refine ⟨fun id hid => ?_, ?_⟩
  · rw [hc, mem_insert]
    by_cases heq : id = shardID
    · exact Or.inl heq
    · exact Or.inr (h.registered id ((hother id heq).1 hid))
  · intro id shard' hs'
    rw [hc] at hs'
    by_cases heq : id = shardID
    · subst heq
      rw [lookup_insert] at hs'
      cases hs'
      exact hstatus
    · rw [lookup_insert_ne heq] at hs'
      rw [hother id heq]
      exact h.status hs'

theorem Marked.addShard (h : c.Marked) (ord : Order) (shardID : String) :
    (c.addShard hashKey ord shardID).1.Marked := by
  by_cases hmem : shardID ∈ c.shards
  · rw [Cluster.addShard, if_pos hmem]
    exact h
  · have hnot : shardID ∉ c.downShards := fun hid => hmem (h.registered _ hid)
    have hadded : ({ c with
        shards := c.shards.insert shardID newShard
        hashRing := c.hashRing.addNode hashKey shardID } : Cluster).Marked :=
      h.insert rfl (by simp [newShard, hnot]) fun _ _ => Iff.rfl
    simp only [Cluster.addShard, if_neg hmem]
    split
    · exact (migrateOnAdd_shape hashKey ord _ shardID).marked hadded
    · exact hadded

theorem syncKey_shape (recoveredShardID : String) (allData : AList fun _ : String => Bytes)
    (c : Cluster) (key : String) :
    SameShape c (syncKey hashKey recoveredShardID allData c key) := by
  unfold syncKey
  repeat' split
  · exact .refl c
  · exact sameShape_forcePut _ _ _ _
  · exact .refl c

theorem syncFromReplicas_shape (ord : Order) (c : Cluster) (recoveredShardID : String) :
    SameShape c (syncFromReplicas hashKey ord c recoveredShardID) := by
  refine .foldl (fun c otherID => ?_) _ c
  unfold syncShard
  repeat' split
  · exact .refl c
  · exact .refl c
  · exact .foldl (syncKey_shape hashKey recoveredShardID _) _ c

/-- The call reads or writes keys or marks shards, but leaves the membership. -/
def Op.fixed : Op → Bool
  | .addShard _ _ => false
  | .removeShard _ _ => false
  | _ => true

/-- The key that a call writes, and what it writes. -/
def Op.writes : Op → Option (String × Option Bytes)
  | .put key value => some (key, some value)
  | .delete key => some (key, none)
  | _ => none

/-- The shards that accept a call. -/
def accepted (c : Cluster) : Op → List String
  | .put key value => (c.write hashKey key (·.put key value)).2.accepted
  | .delete key => (c.write hashKey key (·.delete key)).2.accepted
  | _ => []

theorem step_of_writes {op : Op} (hop : op.writes = some (key, w)) :
    ∃ shardOp, Writes key w shardOp ∧ (c.step hashKey op).1 = (c.write hashKey key shardOp).1 ∧
      c.accepted hashKey op = (c.write hashKey key shardOp).2.accepted := by
  cases op with
  | put k value =>
    cases hop
    exact ⟨_, writes_put key value, put_fst .., rfl⟩
  | delete k =>
    cases hop
    exact ⟨_, writes_delete key, delete_fst .., rfl⟩
  | _ => cases hop

theorem downShards_modify (c : Cluster) (shardID : String) (f : Shard → Shard) :
    (c.modify shardID f).downShards = c.downShards := by
  unfold modify
  split <;> rfl

theorem Marked.step (h : c.Marked) {op : Op} (hop : op.fixed = true) :
    (c.step hashKey op).1.Marked := by
  have hset : ∀ {c : Cluster}, c.Marked → ∀ {shardID status downShards}, shardID ∈ c.shards →
      (status = .down ↔ shardID ∈ downShards) →
      (∀ id, id ≠ shardID → (id ∈ downShards ↔ id ∈ c.downShards)) →
      ({ c.modify shardID ({ · with status := status }) with downShards } : Cluster).Marked := by
    intro c h shardID status downShards hmem hstatus hother
    obtain ⟨shard, hs⟩ := isSome_iff_exists.1 (lookup_isSome.2 hmem)
    simp only [modify, hs]
    exact h.insert rfl hstatus hother
  cases hw : op.writes with
  | some kw =>
    obtain ⟨shardOp, hwrites, heq, -⟩ := step_of_writes hashKey (c := c) hw
    rw [heq]
    exact (write_spec hashKey hwrites c).shape.marked h
  | none =>
    cases op with
    | markShardDown shardID =>
      rw [Cluster.step, markShardDown]
      split_ifs with hmem
      · refine hset h hmem (by simp) fun id hne => ?_
        simp [hne, downShards_modify]
      · exact h
    | markShardUp shardID ord =>
      rw [Cluster.step, markShardUp]
      split_ifs with hmem
      · have hshape := syncFromReplicas_shape hashKey ord c shardID
        refine hset (hshape.marked h) (hshape.mem_shards.2 hmem) (by simp) fun id hne => ?_
        simp [hne, downShards_modify]
      · exact h
    | _ => contradiction

variable {id : String}

theorem Marked.reachable (h : c.Marked) (hid : c.isAvailable id = true) :
    (c.reachable id).isSome := by
  rw [isAvailable, decide_eq_true_eq] at hid
  obtain ⟨shard, hs⟩ := isSome_iff_exists.1 (lookup_isSome.2 hid.1)
  rw [Cluster.reachable, hs]
  simp [hid.2, (h.status hs).not.2 hid.2]

/-- Every copy of the key is `w`. -/
def Agree (c : Cluster) (key : String) (w : Option Bytes) : Prop :=
  ∀ id, c.value id key = none ∨ c.value id key = w

/-- The copies of the key still agree, and no shard has lost its copy. -/
structure Preserves (key : String) (w : Option Bytes) (c c' : Cluster) : Prop where
  hashRing : c'.hashRing = c.hashRing
  replicaCount : c'.replicaCount = c.replicaCount
  agree : c'.Agree key w
  grows : ∀ id, (c.value id key).isSome → (c'.value id key).isSome

namespace Preserves

theorem refl (h : c.Agree key w) : Preserves key w c c := ⟨rfl, rfl, h, fun _ hid => hid⟩

theorem trans (h : Preserves key w c c') (h' : Preserves key w c' c'') : Preserves key w c c'' :=
  ⟨h'.hashRing.trans h.hashRing, h'.replicaCount.trans h.replicaCount, h'.agree,
    fun id hid => h'.grows id (h.grows id hid)⟩

variable (h : c.Agree key w)
include h

theorem of_value (hring : c'.hashRing = c.hashRing) (hcount : c'.replicaCount = c.replicaCount)
    (hvalue : ∀ id, c'.value id key = c.value id key) : Preserves key w c c' := by
  refine ⟨hring, hcount, fun id => ?_, fun id hid => ?_⟩
  · rw [hvalue]
    exact h id
  · rw [hvalue]
    exact hid

theorem foldl {α : Type} {f : Cluster → α → Cluster}
    (hf : ∀ c a, c.Agree key w → Preserves key w c (f c a)) (l : List α) :
    Preserves key w c (l.foldl f c) := by
  induction l generalizing c with
  | nil => exact refl h
  | cons a l ih =>
    have hstep := hf c a h
    exact hstep.trans (ih hstep.agree)

theorem forcePut (shardID k : String) {val : Bytes} (hval : k = key → some val = w) :
    Preserves key w c (c.modify shardID (·.forcePut k val)) := by
  by_cases hmem : shardID ∈ c.shards
  · have hshape := sameShape_forcePut c shardID k val
    refine ⟨hshape.hashRing, hshape.replicaCount, fun id => ?_, fun id hid => ?_⟩
    · rw [value_forcePut hmem]
      split_ifs with heq
      · exact Or.inr (hval heq.2.symm)
      · exact h id
    · rw [value_forcePut hmem]
      split_ifs
      · rfl
      · exact hid
  · have hsame : c.modify shardID (·.forcePut k val) = c := by
      rw [modify, lookup_eq_none.2 hmem]
    rw [hsame]
    exact refl h

theorem syncFromReplicas (ord : Order) (recoveredShardID : String) :
    Preserves key w c (c.syncFromReplicas hashKey ord recoveredShardID) := by
  refine foldl h (fun c otherID h => ?_) _
  unfold syncShard
  repeat' split
  next => exact refl h
  next => exact refl h
  next shard hs _ =>
    refine foldl h (fun c' k h' => ?_) _
    unfold syncKey
    repeat' split
    next => exact refl h'
    next val hval _ =>
      refine forcePut h' recoveredShardID k fun hk => ?_
      have hcopy : c.value otherID key = some val := by rw [value_of_lookup hs, ← hk, hval]
      exact hcopy.symm.trans ((h otherID).resolve_left (by simp [hcopy]))
    next => exact refl h'

theorem setStatus (shardID : String) (status : ShardStatus) (downShards : List String) :
    Preserves key w c
      { c.modify shardID (fun shard => { shard with status := status }) with
        downShards := downShards } := by
  unfold modify
  split
  next => exact of_value h rfl rfl fun id => rfl
  next shard hs =>
    refine of_value h rfl rfl fun id => ?_
    refine (value_insert c shardID _ id key).trans ?_
    split
    · rename_i heq
      rw [heq, value_of_lookup hs]
    · rfl

end Preserves

theorem Agree.step (h : c.Agree key w) {op : Op} (hop : op.fixed = true)
    (hkey : ∀ v, op.writes ≠ some (key, v)) : Preserves key w c (c.step hashKey op).1 := by
  cases hw : op.writes with
  | some kv =>
    obtain ⟨k, v⟩ := kv
    obtain ⟨shardOp, hwrites, heq, -⟩ := step_of_writes hashKey (c := c) hw
    have hspec := write_spec hashKey hwrites c
    rw [heq]
    refine Preserves.of_value h hspec.shape.hashRing hspec.shape.replicaCount fun id => ?_
    rw [hspec.value, if_neg]
    rintro ⟨rfl, -⟩
    exact hkey v hw
  | none =>
    cases op with
    | markShardDown shardID =>
      rw [Cluster.step, markShardDown]
      split_ifs
      · exact Preserves.setStatus h _ _ _
      · exact Preserves.refl h
    | markShardUp shardID ord =>
      rw [Cluster.step, markShardUp]
      split_ifs
      · have hsync := Preserves.syncFromReplicas hashKey h ord shardID
        exact hsync.trans (Preserves.setStatus hsync.agree _ _ _)
      · exact Preserves.refl h
    | _ => contradiction

theorem Agree.run (h : c.Agree key w) {ops : List Op} (hops : ∀ op ∈ ops, op.fixed = true)
    (hkey : ∀ op ∈ ops, ∀ v, op.writes ≠ some (key, v)) :
    Preserves key w c (c.run hashKey ops) := by
  induction ops generalizing c with
  | nil => exact Preserves.refl h
  | cons op ops ih =>
    have hstep := h.step hashKey (hops op mem_cons_self) (hkey op mem_cons_self)
    exact hstep.trans (ih hstep.agree (fun op' hop' => hops op' (mem_cons_of_mem _ hop'))
      fun op' hop' => hkey op' (mem_cons_of_mem _ hop'))

theorem Marked.run (h : c.Marked) {ops : List Op} (hops : ∀ op ∈ ops, op.fixed = true) :
    (c.run hashKey ops).Marked := by
  induction ops generalizing c with
  | nil => exact h
  | cons op ops ih =>
    exact ih (h.step hashKey (hops op mem_cons_self))
      fun op' hop' => hops op' (mem_cons_of_mem _ hop')

/-- A new cluster with these shards. -/
def withShards (config : Config) (shards : List (String × Order)) : Cluster :=
  (newCluster config).run hashKey (shards.map fun s => .addShard s.1 s.2)

theorem marked_withShards (config : Config) (shards : List (String × Order)) :
    (withShards hashKey config shards).Marked := by
  have hrun : ∀ c : Cluster, c.Marked →
      (c.run hashKey (shards.map fun s => .addShard s.1 s.2)).Marked := by
    induction shards with
    | nil => exact fun c h => h
    | cons s shards ih => exact fun c h => ih _ (h.addShard hashKey s.2 s.1)
  exact hrun _ (marked_newCluster config)

/-- A write of `w` finds no other copy of the key on the shards that it does not write to, and what it
stores lies where reads look. -/
structure Clean (c : Cluster) (key : String) (w : Option Bytes) : Prop where
  others : ∀ id, id ∉ c.getAvailableReplicaNodes hashKey key →
    c.value id key = none ∨ c.value id key = w
  probed : w ≠ none → ∀ id ∈ c.getAvailableReplicaNodes hashKey key,
    id ∈ c.replicaNodes hashKey key (c.replicaCount + 5)

variable {hashKey}

theorem isAvailable_of_mem (hid : id ∈ c.getAvailableReplicaNodes hashKey key) :
    c.isAvailable id = true ∧ ∃ r, id ∈ c.replicaNodes hashKey key r := by
  have hfilter : ∀ {r p}, id ∈ (c.replicaNodes hashKey key r).filter p →
      (p id = true → c.isAvailable id = true) →
      c.isAvailable id = true ∧ ∃ r, id ∈ c.replicaNodes hashKey key r :=
    fun hid hp => ⟨hp (mem_filter.1 hid).2, _, (mem_filter.1 hid).1⟩
  simp only [getAvailableReplicaNodes] at hid
  split_ifs at hid
  · exact hfilter hid (fun h => h)
  · rcases mem_append.1 hid with hid | hid
    · exact hfilter hid (fun h => h)
    · exact hfilter (List.mem_of_mem_take hid) fun h => (of_decide_eq_true h).2

theorem replicaNodes_ne_nil {r r' : ℕ} (hid : id ∈ c.replicaNodes hashKey key r)
    (hr' : 0 < r') : c.replicaNodes hashKey key r' ≠ [] := by
  have hring : c.hashRing.ring ≠ [] := by
    intro hnil
    rw [replicaNodes, getReplicaNodes, if_pos (Or.inl hnil)] at hid
    cases hid
  obtain ⟨p, ps, hps⟩ := exists_cons_of_ne_nil hring
  rw [replicaNodes, getReplicaNodes]
  simp only [hps, length_cons, range_succ_eq_map, map_cons]
  rw [collectNodes_eq _ _ _ (Nat.zero_le r')]
  obtain ⟨r', rfl⟩ : ∃ n, r' = n + 1 := ⟨r' - 1, by omega⟩
  simp [firsts]

variable {op : Shard → Except Err Shard}

theorem Clean.write (h : c.Clean hashKey key w) (hmarked : c.Marked) (hop : Writes key w op) :
    (c.write hashKey key op).1.Agree key w := by
  intro id
  have hspec := write_spec hashKey hop c
  rw [hspec.value]
  by_cases hid : id ∈ c.getAvailableReplicaNodes hashKey key
  · rw [if_pos ⟨rfl, hid, hmarked.reachable (isAvailable_of_mem hid).1⟩]
    exact Or.inr rfl
  · rw [if_neg fun hc => hid hc.2.1]
    exact h.others id hid

theorem get_after_write (hmarked : c.Marked) (hclean : c.Clean hashKey key w)
    (hop : Writes key w op) {after : List Op} (hafter : ∀ op ∈ after, op.fixed = true)
    (hlater : ∀ op ∈ after, ∀ v, op.writes ≠ some (key, v))
    (haccepted : id ∈ (c.write hashKey key op).2.accepted)
    (hup : (((c.write hashKey key op).1.run hashKey after).reachable id).isSome) :
    ((c.write hashKey key op).1.run hashKey after).get hashKey key =
      w.elim (.error .keyNotFound) .ok := by
  have hspec := write_spec hashKey hop c
  obtain ⟨hring, hcount, hagree, hgrows⟩ := (hclean.write hmarked hop).run hashKey hafter hlater
  generalize (c.write hashKey key op).1.run hashKey after = c' at *
  have hnodes : ∀ r, c'.replicaNodes hashKey key r = c.replicaNodes hashKey key r := by
    intro r
    rw [replicaNodes, hring, hspec.shape.hashRing]
    rfl
  have hcount' : c'.replicaCount = c.replicaCount := hcount.trans hspec.shape.replicaCount
  obtain ⟨hmem, hreach⟩ : id ∈ c.getAvailableReplicaNodes hashKey key ∧ (c.reachable id).isSome := by
    rcases hspec.accepted id haccepted with hnil | hid
    · cases hnil
    · exact hid
  obtain ⟨-, r, hr⟩ := isAvailable_of_mem hmem
  rw [get, if_neg]
  · rw [hcount', hnodes]
    cases w with
    | none =>
      exact getLoop_of_none fun id _ => (hagree id).elim (fun h => h) fun h => h
    | some val =>
      refine getLoop_of_some (fun id _ => hagree id)
        (hclean.probed (some_ne_none val) id hmem) hup ?_
      have hvalue : (c.write hashKey key op).1.value id key = some val := by
        rw [hspec.value, if_pos ⟨rfl, hmem, hreach⟩]
      exact (hagree id).resolve_left (isSome_iff_ne_none.1 (hgrows id (by simp [hvalue])))
  · rw [hnodes]
    exact replicaNodes_ne_nil hr (by omega)

/-- What a clean write stores is read back, and what it deletes stays away, as long as a shard that
accepted it is up and no other write of the key follows. -/
theorem clean_write_is_read (hashKey : String → UInt64) (config : Config)
    (shards : List (String × Order)) (before after : List Op) (hbefore : ∀ op ∈ before, op.fixed = true)
    (hafter : ∀ op ∈ after, op.fixed = true) (c : Cluster)
    (hc : c = (withShards hashKey config shards).run hashKey before) (op : Op) (key : String)
    (w : Option Bytes) (hop : op.writes = some (key, w)) (hclean : c.Clean hashKey key w)
    (hlater : ∀ op ∈ after, ∀ v, op.writes ≠ some (key, v)) (id : String)
    (haccepted : id ∈ c.accepted hashKey op)
    (hup : ((c.run hashKey (op :: after)).reachable id).isSome) :
    (c.run hashKey (op :: after)).get hashKey key = w.elim (.error .keyNotFound) .ok := by
  have hmarked : c.Marked := by
    rw [hc]
    exact (marked_withShards hashKey config shards).run hashKey hbefore
  obtain ⟨shardOp, hwrites, hstep, hacc⟩ := step_of_writes hashKey (c := c) hop
  rw [run, foldl_cons, hstep] at hup ⊢
  rw [hacc] at haccepted
  exact get_after_write hmarked hclean hwrites hafter hlater haccepted hup

/-- Two shards that are both replicas of every key, one of which is enough for a write. -/
def twoShards : Cluster := withShards sampleHash ⟨1, 2, 1⟩ [("s1", listOrder), ("s2", listOrder)]

/-- A key that is written while both of its replicas are up is read from the one that stays up. -/
theorem clean_write_is_read_oneReplicaLeft :
    (twoShards.run sampleHash [.put "k" [7], .markShardDown "s1"]).get sampleHash "k" = .ok [7] := by
  refine clean_write_is_read sampleHash ⟨1, 2, 1⟩ [("s1", listOrder), ("s2", listOrder)] []
    [.markShardDown "s1"] (by simp) (by decide) twoShards rfl (.put "k" [7]) "k" (some [7]) rfl
    ⟨?_, ?_⟩ ?_ "s2" (by decide) (by decide)
  · intro id _
    left
    by_cases hmem : id ∈ twoShards.shards
    · have hkeys : twoShards.shards.keys = ["s2", "s1"] := rfl
      rw [AList.mem_keys, hkeys] at hmem
      simp only [mem_cons, not_mem_nil, or_false] at hmem
      rcases hmem with rfl | rfl <;> rfl
    · exact value_eq_none hmem
  · decide
  · intro op hop v hv
    rw [mem_singleton.1 hop] at hv
    cases hv

/-- A deleted key comes back with a shard that was down when it was deleted. -/
theorem not_read_after_recovery :
    let c := twoShards.run sampleHash [.put "k" [7], .markShardDown "s1"]
    (c.delete sampleHash "k").2 = .ok () ∧ c.accepted sampleHash (.delete "k") = ["s2"] ∧
      ((c.run sampleHash [.delete "k", .markShardUp "s1" listOrder]).reachable "s2").isSome ∧
      (c.run sampleHash [.delete "k", .markShardUp "s1" listOrder]).get sampleHash "k" = .ok [7] := by
  refine ⟨?_, ?_, ?_, ?_⟩ <;> rfl

end Cluster

end Solocoder.ShardKV
