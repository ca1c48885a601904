import Solocoder.ShardKV.Cluster

/-!
# The copies of a key

The copies of a key on all shards are a column of the cluster. A write changes the column of its
key, on the shards it reaches, and leaves everything else (`SameShape`).
-/

namespace Solocoder.ShardKV

open List Option AList Shard

namespace Cluster

/-- What a shard holds for the key. -/
def value (c : Cluster) (shardID key : String) : Option Bytes :=
  (c.shards.lookup shardID).bind (·.data.lookup key)

def column (c : Cluster) (key : String) : String → Option Bytes := fun shardID => c.value shardID key

/-- Two clusters that differ only in the data of their shards. -/
structure SameShape (c c' : Cluster) : Prop where
  replicaCount : c'.replicaCount = c.replicaCount
  writeQuorum : c'.writeQuorum = c.writeQuorum
  hashRing : c'.hashRing = c.hashRing
  downShards : c'.downShards = c.downShards
  status : ∀ shardID, (c'.shards.lookup shardID).map status =
    (c.shards.lookup shardID).map status

namespace SameShape

variable {c c' c'' : Cluster} {shardID : String}

theorem refl (c : Cluster) : SameShape c c := ⟨rfl, rfl, rfl, rfl, fun _ => rfl⟩

section

variable (h : SameShape c c')
include h

theorem trans (h' : SameShape c' c'') : SameShape c c'' := by
  refine ⟨h'.replicaCount.trans h.replicaCount, h'.writeQuorum.trans h.writeQuorum,
    h'.hashRing.trans h.hashRing, h'.downShards.trans h.downShards, fun shardID => ?_⟩
  exact (h'.status shardID).trans (h.status shardID)

theorem mem_shards : shardID ∈ c'.shards ↔ shardID ∈ c.shards := by
  rw [← lookup_isSome, ← lookup_isSome, ← isSome_map, h.status, isSome_map]

theorem lookup {shard : Shard} (hs : c'.shards.lookup shardID = some shard) :
    ∃ shard', c.shards.lookup shardID = some shard' ∧ shard'.status = shard.status := by
  have := h.status shardID
  rw [hs, map_some, eq_comm, map_eq_some_iff] at this
  exact this

theorem replicaNodes (hashKey : String → UInt64) (key : String) (r : ℕ) :
    c'.replicaNodes hashKey key r = c.replicaNodes hashKey key r := by
  rw [Cluster.replicaNodes, Cluster.replicaNodes, h.hashRing]

theorem reachable : (c'.reachable shardID).isSome = (c.reachable shardID).isSome := by
  have hstatus := h.status shardID
  rw [Cluster.reachable, Cluster.reachable, h.downShards]
  cases hl : c.shards.lookup shardID with
  | none =>
    rw [hl, map_none, map_eq_none_iff] at hstatus
    rw [hstatus]
  | some shard =>
    rw [hl, map_some, map_eq_some_iff] at hstatus
    obtain ⟨shard', hl', heq⟩ := hstatus
    rw [hl']
    simp only [heq]
    split
    · rfl
    · split <;> rfl

end

theorem insert {shard shard' : Shard} (hs : c.shards.lookup shardID = some shard)
    (hstatus : shard'.status = shard.status) :
    SameShape c { c with shards := c.shards.insert shardID shard' } := by
  refine ⟨rfl, rfl, rfl, rfl, fun other => ?_⟩
  by_cases hne : other = shardID
  · subst hne
    rw [lookup_insert, hs, map_some, map_some, hstatus]
  · rw [lookup_insert_ne hne]

theorem modify {f : Shard → Shard} (hf : ∀ shard, (f shard).status = shard.status) :
    SameShape c (c.modify shardID f) := by
  unfold Cluster.modify
  split
  next => exact refl c
  next shard hs => exact insert hs (hf shard)

theorem foldl {α : Type} {f : Cluster → α → Cluster} (hf : ∀ c a, SameShape c (f c a)) (l : List α)
    (c : Cluster) : SameShape c (l.foldl f c) := by
  induction l generalizing c with
  | nil => exact refl c
  | cons a l ih => exact (hf c a).trans (ih _)

end SameShape

variable {c : Cluster} {shardID key : String}

theorem value_insert (c : Cluster) (shardID : String) (shard : Shard) (other key : String) :
    ({ c with shards := c.shards.insert shardID shard } : Cluster).value other key =
      if other = shardID then shard.data.lookup key else c.value other key := by
  split_ifs with ho
  · subst ho
    simp [value]
  · simp [value, ho]

theorem value_eq_none (h : shardID ∉ c.shards) : c.value shardID key = none := by
  rw [value, lookup_eq_none.2 h, bind_none]

variable {shard : Shard}

theorem value_of_lookup (h : c.shards.lookup shardID = some shard) :
    c.value shardID key = shard.data.lookup key := by
  rw [value, h, bind_some]

theorem lookup_forcePut (s : Shard) (key : String) (val : Bytes) (k : String) :
    (s.forcePut key val).data.lookup k = if k = key then some val else s.data.lookup k := by
  split_ifs with hk
  · subst hk
    simp [forcePut]
  · simp [forcePut, hk]

theorem lookup_forceDelete (s : Shard) (key k : String) :
    (s.forceDelete key).data.lookup k = if k = key then none else s.data.lookup k := by
  split_ifs with hk
  · subst hk
    simp [forceDelete]
  · simp [forceDelete, hk]

theorem value_modify {f : Shard → Shard} {w : Option Bytes}
    (hf : ∀ shard k, (f shard).data.lookup k = if k = key then w else shard.data.lookup k)
    (c : Cluster) (shardID other k : String) : (c.modify shardID f).value other k =
      if other = shardID ∧ k = key ∧ shardID ∈ c.shards then w else c.value other k := by
  unfold modify
  cases hs : c.shards.lookup shardID with
  | none => simp [lookup_eq_none.1 hs]
  | some shard =>
    have hmem : shardID ∈ c.shards := lookup_isSome.1 (by simp [hs])
    simp only [value_insert, hf]
    by_cases ho : other = shardID
    · simp [ho, hmem, value_of_lookup hs]
    · simp [ho]

theorem value_forcePut (h : shardID ∈ c.shards) (val : Bytes) (other k : String) :
    (c.modify shardID (·.forcePut key val)).value other k =
      if other = shardID ∧ k = key then some val else c.value other k := by
  simp [value_modify (lookup_forcePut · key val), h]

theorem value_forceDelete (c : Cluster) (shardID key other k : String) :
    (c.modify shardID (·.forceDelete key)).value other k =
      if other = shardID ∧ k = key then none else c.value other k := by
  rw [value_modify (lookup_forceDelete · key)]
  by_cases h : shardID ∈ c.shards
  · simp [h]
  · simp only [h, and_false, if_false]
    split_ifs with heq
    · rw [heq.1, value_eq_none h]
    · rfl

theorem sameShape_forcePut (c : Cluster) (shardID key : String) (val : Bytes) :
    SameShape c (c.modify shardID (·.forcePut key val)) := SameShape.modify fun _ => rfl

theorem sameShape_forceDelete (c : Cluster) (shardID key : String) :
    SameShape c (c.modify shardID (·.forceDelete key)) := SameShape.modify fun _ => rfl

/-- An operation on one shard after which the shard holds `w` as its copy of the key. -/
structure Writes (key : String) (w : Option Bytes) (op : Shard → Except Err Shard) : Prop where
  ok : ∀ {shard shard'}, op shard = .ok shard' → shard'.status = shard.status ∧
    ∀ k, shard'.data.lookup k = if k = key then w else shard.data.lookup k
  error : ∀ {shard err}, shard.status ≠ .down → op shard = .error err → shard.data.lookup key = w

theorem writes_put (key : String) (val : Bytes) : Writes key (some val) (·.put key val) := by
  constructor
  · intro shard shard' hop
    unfold Shard.put at hop
    split_ifs at hop
    cases hop
    exact ⟨rfl, lookup_forcePut shard key val⟩
  · intro shard err hup hop
    simp [Shard.put, hup] at hop

theorem writes_delete (key : String) : Writes key none (·.delete key) := by
  constructor
  · intro shard shard' hop
    unfold Shard.delete at hop
    split_ifs at hop
    cases hop
    exact ⟨rfl, lookup_forceDelete shard key⟩
  · intro shard err hup hop
    rw [Shard.delete, if_neg hup] at hop
    split at hop
    · assumption
    · cases hop

theorem lookup_of_reachable (h : c.reachable shardID = some shard) :
    c.shards.lookup shardID = some shard ∧ shard.status ≠ .down := by
  rw [reachable] at h
  split at h
  · cases h
  · rename_i shard' hs
    split at h
    · cases h
    · split at h
      · cases h
      · rename_i hup
        cases h
        exact ⟨hs, hup⟩

/-- What a write does: the shards that it reaches hold `w` afterwards, and those that count as having
accepted it are among them. -/
structure WriteSpec (key : String) (w : Option Bytes) (nodes : List String) (s s' : Cluster × Tally) :
    Prop where
  shape : SameShape s.1 s'.1
  value : ∀ shardID k, s'.1.value shardID k =
    if k = key ∧ shardID ∈ nodes ∧ (s.1.reachable shardID).isSome then w else s.1.value shardID k
  accepted : ∀ shardID ∈ s'.2.accepted,
    shardID ∈ s.2.accepted ∨ shardID ∈ nodes ∧ (s.1.reachable shardID).isSome

variable {w : Option Bytes} {op : Shard → Except Err Shard} {nodes : List String}
  (hashKey : String → UInt64)

theorem WriteSpec.cons {nodeID : String} {s s1 s' : Cluster × Tally}
    (hone : WriteSpec key w [nodeID] s s1) (hrest : WriteSpec key w nodes s1 s') :
    WriteSpec key w (nodeID :: nodes) s s' := by
  refine ⟨hone.shape.trans hrest.shape, ?_, ?_⟩
  · intro other k
    rw [hrest.value, hone.value, hone.shape.reachable]
    by_cases hk : k = key
    · by_cases hr : (s.1.reachable other).isSome
      · by_cases hm : other ∈ nodes
        · simp [hk, hr, hm]
        · simp [hk, hr, hm]
      · simp [hr]
    · simp [hk]
  · intro other hother
    rcases hrest.accepted other hother with h | ⟨hmem, hr⟩
    · rcases hone.accepted other h with h | ⟨hmem, hr⟩
      · exact Or.inl h
      · exact Or.inr ⟨mem_cons.2 (Or.inl (mem_singleton.1 hmem)), hr⟩
    · rw [hone.shape.reachable] at hr
      exact Or.inr ⟨mem_cons_of_mem _ hmem, hr⟩

theorem WriteSpec.same {nodeID : String} {c : Cluster} {tally tally' : Tally}
    (hvalue : (c.reachable nodeID).isSome → c.value nodeID key = w)
    (htally : tally'.accepted = tally.accepted) :
    WriteSpec key w [nodeID] (c, tally) (c, tally') := by
  refine ⟨SameShape.refl c, ?_, ?_⟩
  · intro other k
    split
    · rename_i h
      obtain ⟨hk, hmem, hr⟩ := h
      rw [mem_singleton.1 hmem] at hr ⊢
      rw [hk]
      exact hvalue hr
    · rfl
  · intro other hother
    rw [htally] at hother
    exact Or.inl hother

theorem writeNode_spec (hop : Writes key w op) (s : Cluster × Tally) (nodeID : String) :
    WriteSpec key w [nodeID] s (writeNode op s nodeID) := by
  obtain ⟨c, tally⟩ := s
  unfold writeNode
  cases hr : c.reachable nodeID with
  | none => exact WriteSpec.same (by simp [hr]) rfl
  | some shard =>
    obtain ⟨hs, hup⟩ := lookup_of_reachable hr
    have hkeep : ∀ err, op shard = .error err → c.value nodeID key = w :=
      fun err hres => (value_of_lookup hs).trans (hop.error hup hres)
    dsimp only
    split
    next shard' hres =>
      obtain ⟨hstatus, hdata⟩ := hop.ok hres
      refine ⟨SameShape.insert hs hstatus, fun other k => ?_, fun other hother => ?_⟩
      · simp only [value_insert, hdata, mem_singleton]
        by_cases ho : other = nodeID
        · simp [ho, hr, value_of_lookup hs]
        · simp [ho]
      · rcases mem_append.1 hother with h | h
        · exact Or.inl h
        · exact Or.inr ⟨h, by simp [mem_singleton.1 h, hr]⟩
    next hres => exact WriteSpec.same (fun _ => hkeep _ hres) rfl
    next err hres => exact WriteSpec.same (fun _ => hkeep _ hres) rfl

theorem foldl_writeNode_spec (hop : Writes key w op) (nodes : List String) (s : Cluster × Tally) :
    WriteSpec key w nodes s (nodes.foldl (writeNode op) s) := by
  induction nodes generalizing s with
  | nil => exact ⟨SameShape.refl _, fun other k => by simp, fun other h => Or.inl h⟩
  | cons nodeID nodes ih => exact WriteSpec.cons (writeNode_spec hop s nodeID) (ih _)

theorem write_spec (hashKey : String → UInt64) (hop : Writes key w op) (c : Cluster) :
    WriteSpec key w (c.getAvailableReplicaNodes hashKey key) (c, ⟨[], [], none⟩)
      (c.write hashKey key op) := foldl_writeNode_spec hop _ _

theorem put_fst (c : Cluster) (key : String) (val : Bytes) :
    (c.put hashKey key val).1 = (c.write hashKey key (·.put key val)).1 := by
  rw [put]
  split
  next hnil => rw [write, hnil, foldl_nil]
  next => rfl

theorem delete_fst (c : Cluster) (key : String) :
    (c.delete hashKey key).1 = (c.write hashKey key (·.delete key)).1 := by
  rw [delete]
  split
  next hnil => rw [write, hnil, foldl_nil]
  next => rfl

theorem get_of_reachable (h : c.reachable shardID = some shard) :
    shard.get key = (c.value shardID key).elim (.error .keyNotFound) .ok := by
  obtain ⟨hs, hup⟩ := lookup_of_reachable h
  rw [Shard.get, if_neg hup, value_of_lookup hs]
  cases shard.data.lookup key <;> rfl

theorem getLoop_eq (c : Cluster) (key : String) (nodes : List String) :
    c.getLoop key nodes none = (nodes.findSome? fun id =>
      if (c.reachable id).isSome then c.value id key else none).elim (.error .keyNotFound) .ok := by
  induction nodes with
  | nil => rfl
  | cons nodeID nodes ih =>
    rw [getLoop]
    cases hr : c.reachable nodeID with
    | none => simp [hr, ih]
    | some shard =>
      cases hvalue : c.value nodeID key with
      | none => simp [hr, get_of_reachable hr, hvalue, ih]
      | some val => simp [hr, get_of_reachable hr, hvalue]

theorem getLoop_of_none (h : ∀ id ∈ nodes, c.value id key = none) :
    c.getLoop key nodes none = .error .keyNotFound := by
  rw [getLoop_eq, findSome?_eq_none_iff.2 fun id hid => by simp [h id hid]]
  rfl

theorem getLoop_of_some {val : Bytes}
    (h : ∀ id ∈ nodes, c.value id key = none ∨ c.value id key = some val)
    {found : String} (hfound : found ∈ nodes) (hr : (c.reachable found).isSome)
    (hvalue : c.value found key = some val) : c.getLoop key nodes none = .ok val := by
  rw [getLoop_eq]
  cases hfind : nodes.findSome? fun id =>
      if (c.reachable id).isSome then c.value id key else none with
  | none =>
    have hnone := findSome?_eq_none_iff.1 hfind found hfound
    simp [hr, hvalue] at hnone
  | some val' =>
    obtain ⟨id, hid, hsome⟩ := exists_of_findSome?_eq_some hfind
    split_ifs at hsome
    rcases h id hid with hnone | hval
    · rw [hnone] at hsome
      cases hsome
    · rw [hval] at hsome
      exact congrArg Except.ok (some_inj.1 hsome).symm

end Cluster

end Solocoder.ShardKV
