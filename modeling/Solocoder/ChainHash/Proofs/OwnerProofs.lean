import Solocoder.Lib.Numbered
import Solocoder.Lib.Owners
import Solocoder.ChainHash.Ring
import Mathlib.Data.List.GetD

/-!
# The ring of `internal/chainhash` moves as few keys as it can

The ring and its two maps always agree (`RingInv`). A call changes the points of one node only, so
that a key changes its owner to or from that node.
-/

namespace Solocoder.ChainHash

open Lib List Option AList

namespace HashRing

variable {hashKey : String → UInt64} {hr hr' : HashRing} {n m : String} {h : UInt64}

/-! ## Virtual nodes -/

theorem mem_virtualHashes {weight : ℤ} : h ∈ hr.virtualHashes hashKey n weight ↔
    ∃ i < (hr.calculateVirtualNodeCount weight).toNat, hashKey (generateVirtualKey n i) = h := by
  simp [virtualHashes]

/-- `hashKey` tells the virtual keys of the registered nodes apart. -/
def Separated (hashKey : String → UInt64) (hr : HashRing) : Prop :=
  Set.InjOn hashKey {key | ∃ n info, hr.nodes.lookup n = some info ∧
    ∃ i < (hr.calculateVirtualNodeCount info.weight).toNat, key = generateVirtualKey n i}

theorem generateVirtualKey_injective {i j : ℕ}
    (h : generateVirtualKey n i = generateVirtualKey m j) : n = m ∧ i = j :=
  append_toString_injective (t := ['#', 'v']) (x := 'n') rfl (by decide) h

theorem Separated.eq_of_mem (hsep : Separated hashKey hr) {info info' : NodeInfo}
    (hn : hr.nodes.lookup n = some info) (hm : hr.nodes.lookup m = some info')
    (hhn : h ∈ hr.virtualHashes hashKey n info.weight)
    (hhm : h ∈ hr.virtualHashes hashKey m info'.weight) : n = m := by
  obtain ⟨i, hi, rfl⟩ := mem_virtualHashes.1 hhn
  obtain ⟨j, hj, heq⟩ := mem_virtualHashes.1 hhm
  exact (generateVirtualKey_injective
    (hsep ⟨n, info, hn, i, hi, rfl⟩ ⟨m, info', hm, j, hj, rfl⟩ heq.symm)).1

theorem Separated.nodup (hsep : Separated hashKey hr) {info : NodeInfo}
    (hn : hr.nodes.lookup n = some info) : (hr.virtualHashes hashKey n info.weight).Nodup := by
  refine Nodup.map_on ?_ nodup_range
  intro i hi j hj heq
  exact (generateVirtualKey_injective (hsep ⟨n, info, hn, i, mem_range.1 hi, rfl⟩
    ⟨n, info, hn, j, mem_range.1 hj, rfl⟩ heq)).2

theorem lookup_foldl {α β : Type} [DecidableEq α] {f : AList (fun _ : α => β) → α → AList fun _ => β}
    {o : Option β} (hf : ∀ m a b, (f m a).lookup b = if b = a then o else m.lookup b) (l : List α)
    (m : AList fun _ : α => β) (b : α) :
    (l.foldl f m).lookup b = if b ∈ l then o else m.lookup b := by
  induction l generalizing m with
  | nil => simp
  | cons a l ih =>
    rw [foldl_cons, ih, hf]
    by_cases hb : b = a <;> simp [hb]

theorem lookup_insertHashes (vnodeMap : AList fun _ : UInt64 => String) (n : String)
    (hashes : List UInt64) (h : UInt64) : (insertHashes vnodeMap n hashes).lookup h =
      if h ∈ hashes then some n else vnodeMap.lookup h :=
  lookup_foldl (fun m a b => by grind [lookup_insert, lookup_insert_ne]) hashes vnodeMap h

theorem lookup_eraseHashes (vnodeMap : AList fun _ : UInt64 => String) (hashes : List UInt64)
    (h : UInt64) :
    (eraseHashes vnodeMap hashes).lookup h = if h ∈ hashes then none else vnodeMap.lookup h :=
  lookup_foldl (fun m a b => by grind [lookup_erase, lookup_erase_ne]) hashes vnodeMap h

theorem mem_sortHashes {hashes : List UInt64} : h ∈ sortHashes hashes ↔ h ∈ hashes :=
  (perm_insertionSort _ _).mem_iff

/-! ## What a call does -/

/-- The ring with a new node. -/
def added (hashKey : String → UInt64) (hr : HashRing) (n : String) (weight : ℤ) : HashRing :=
  { hr with
    nodes := hr.nodes.insert n ⟨weight, ""⟩
    vnodeMap := insertHashes hr.vnodeMap n (hr.virtualHashes hashKey n weight)
    ring := sortHashes (hr.ring ++ hr.virtualHashes hashKey n weight) }

/-- The ring without a node of the given weight. -/
def removed (hashKey : String → UInt64) (hr : HashRing) (n : String) (weight : ℤ) : HashRing :=
  rebuildRing
    { hr with
      vnodeMap := eraseHashes hr.vnodeMap (hr.virtualHashes hashKey n weight)
      nodes := hr.nodes.erase n }

/-- The ring with another weight for a node. -/
def reweighted (hashKey : String → UInt64) (hr : HashRing) (n : String) (info : NodeInfo)
    (newWeight : ℤ) : HashRing :=
  rebuildRing
    { hr with
      nodes := hr.nodes.insert n { info with weight := newWeight }
      vnodeMap := insertHashes (eraseHashes hr.vnodeMap (hr.virtualHashes hashKey n info.weight)) n
        (hr.virtualHashes hashKey n newWeight) }

theorem virtualHashes_added (weight weight' : ℤ) :
    (hr.added hashKey n weight).virtualHashes hashKey m weight' =
      hr.virtualHashes hashKey m weight' := rfl

theorem addNode_cases (hashKey : String → UInt64) (hr : HashRing) (n : String) (weight : ℤ) :
    (hr.addNode hashKey n weight).1 = hr ∨
      (n ≠ "" ∧ n ∉ hr.nodes) ∧ (hr.addNode hashKey n weight).1 = hr.added hashKey n weight := by
  rw [addNode, addNodeWithInfo]
  split_ifs with hname _ hn
  exacts [.inl rfl, .inl rfl, .inl rfl, .inr ⟨⟨hname, hn⟩, rfl⟩]

theorem removeNode_cases (hashKey : String → UInt64) (hr : HashRing) (n : String) :
    (hr.removeNode hashKey n).1 = hr ∨ ∃ info, hr.nodes.lookup n = some info ∧
      (hr.removeNode hashKey n).1 = hr.removed hashKey n info.weight := by
  rw [removeNode]
  split
  · exact .inl rfl
  split
  · exact .inl rfl
  next info hinfo =>
    split
    exacts [.inl rfl, .inr ⟨info, hinfo, rfl⟩]

theorem updateNodeWeight_cases (hashKey : String → UInt64) (hr : HashRing) (n : String)
    (newWeight : ℤ) :
    (hr.updateNodeWeight hashKey n newWeight).1 = hr ∨ ∃ info, hr.nodes.lookup n = some info ∧
      (hr.updateNodeWeight hashKey n newWeight).1 = hr.reweighted hashKey n info newWeight := by
  rw [updateNodeWeight]
  split_ifs
  · exact .inl rfl
  · exact .inl rfl
  split
  · exact .inl rfl
  next info hinfo =>
    split
    · exact .inl rfl
    split
    exacts [.inl rfl, .inr ⟨info, hinfo, rfl⟩]

/-! ## The invariant -/

/-- The ring lists the hashes of the map of virtual nodes, which are those of the registered nodes. -/
structure RingInv (hashKey : String → UInt64) (hr : HashRing) : Prop where
  sorted : hr.ring.Pairwise (· < ·)
  listed : ∀ h, h ∈ hr.ring ↔ h ∈ hr.vnodeMap
  owner : ∀ h n, hr.vnodeMap.lookup h = some n ↔
    ∃ info, hr.nodes.lookup n = some info ∧ h ∈ hr.virtualHashes hashKey n info.weight
  named : "" ∉ hr.nodes

theorem ringInv_newHashRing {virtualNodes : ℤ} (hnew : newHashRing virtualNodes = .ok hr) :
    RingInv hashKey hr := by
  rw [newHashRing] at hnew
  split at hnew
  · cases hnew
  · cases hnew
    exact ⟨Pairwise.nil, fun h => by simp, fun h n => by simp, notMem_empty _⟩

theorem ringInv_rebuildRing (howner : ∀ h n, hr.vnodeMap.lookup h = some n ↔
      ∃ info, hr.nodes.lookup n = some info ∧ h ∈ hr.virtualHashes hashKey n info.weight)
    (hnamed : "" ∉ hr.nodes) : RingInv hashKey hr.rebuildRing :=
  ⟨pairwise_lt_insertionSort hr.vnodeMap.keys_nodup, fun _ => mem_sortHashes.trans mem_keys.symm,
    howner, hnamed⟩

namespace RingInv

variable (hinv : RingInv hashKey hr)
include hinv

theorem owned : Owned hr.ring hr.vnodeMap.lookup fun m p =>
    ∃ info, hr.nodes.lookup m = some info ∧ p ∈ hr.virtualHashes hashKey m info.weight :=
  ⟨hinv.sorted, fun h => (hinv.listed h).trans lookup_isSome.symm, hinv.owner⟩

theorem lookup_of_mem (hh : h ∈ hr.ring) : ∃ n, hr.vnodeMap.lookup h = some n :=
  isSome_iff_exists.1 ((hinv.owned.listed h).1 hh)

theorem added {weight : ℤ} (hn : n ≠ "" ∧ n ∉ hr.nodes)
    (hsep : Separated hashKey (hr.added hashKey n weight)) :
    RingInv hashKey (hr.added hashKey n weight) := by
  obtain ⟨hname, hn⟩ := hn
  have hself : (hr.added hashKey n weight).nodes.lookup n = some ⟨weight, ""⟩ :=
    lookup_insert _
  have hother : ∀ m, m ≠ n → (hr.added hashKey n weight).nodes.lookup m = hr.nodes.lookup m :=
    fun m hm => lookup_insert_ne hm
  have hnone : hr.nodes.lookup n = none := lookup_eq_none.2 hn
  -- the points of the new node are new
  have hnew : ∀ h ∈ hr.virtualHashes hashKey n weight, ∀ m, ¬ ∃ info,
      hr.nodes.lookup m = some info ∧ h ∈ hr.virtualHashes hashKey m info.weight := by
    rintro h hh m ⟨info, hinfo, hhm⟩
    have hne : m ≠ n := by
      rintro rfl
      cases hnone.symm.trans hinfo
    exact hne (hsep.eq_of_mem ((hother m hne).trans hinfo) hself hhm hh)
  have hnodup := hsep.nodup hself
  rw [virtualHashes_added] at hnodup
  have howned := hinv.owned.insert (n := n) hnodup hnew
  have hlookup : ∀ h, (hr.added hashKey n weight).vnodeMap.lookup h =
      if h ∈ hr.virtualHashes hashKey n weight then some n else hr.vnodeMap.lookup h :=
    lookup_insertHashes _ _ _
  refine ⟨howned.sorted, fun h => ?_, fun h m => ?_, ?_⟩
  · rw [← lookup_isSome, hlookup]
    exact howned.listed h
  · simp only [virtualHashes_added]
    rw [hlookup, howned.owner]
    rcases eq_or_ne m n with rfl | hm
    · simp [hself, hnone]
    · simp [hother m hm, hm]
  · rw [HashRing.added, mem_insert]
    rintro (heq | hempty)
    · exact hname heq.symm
    · exact hinv.named hempty

variable {info : NodeInfo}

section

variable (hinfo : hr.nodes.lookup n = some info)
include hinfo

theorem lookup_erased :
    (eraseHashes hr.vnodeMap (hr.virtualHashes hashKey n info.weight)).lookup h = some m ↔
      m ≠ n ∧ hr.vnodeMap.lookup h = some m := by
  rw [lookup_eraseHashes, hinv.owner]
  exact owner_erase hinv.owner fun p => by simp [hinfo]

theorem removed : RingInv hashKey (hr.removed hashKey n info.weight) := by
  refine ringInv_rebuildRing (fun h m => ?_) fun hempty => hinv.named (mem_erase.1 hempty).2
  rw [hinv.lookup_erased hinfo, hinv.owner]
  by_cases hm : m = n
  · subst hm
    simp
  · rw [lookup_erase_ne hm]
    exact and_iff_right hm

theorem reweighted {newWeight : ℤ}
    (hsep : Separated hashKey (hr.reweighted hashKey n info newWeight)) :
    RingInv hashKey (hr.reweighted hashKey n info newWeight) := by
  have hself : (hr.reweighted hashKey n info newWeight).nodes.lookup n =
      some { info with weight := newWeight } := lookup_insert _
  have hother : ∀ m, m ≠ n →
      (hr.reweighted hashKey n info newWeight).nodes.lookup m = hr.nodes.lookup m :=
    fun m hm => lookup_insert_ne hm
  have hnamed : "" ∉ (hr.reweighted hashKey n info newWeight).nodes := by
    rw [HashRing.reweighted, rebuildRing, mem_insert]
    rintro (rfl | hempty)
    · exact hinv.named (lookup_isSome.1 (by rw [hinfo]; rfl))
    · exact hinv.named hempty
  refine ringInv_rebuildRing (fun h m => ?_) hnamed
  rw [lookup_insertHashes]
  refine (owner_insert (fun p m => (hinv.lookup_erased hinfo : _ ↔ m ≠ n ∧ hr.vnodeMap.lookup p = _))
    ?_).trans ?_
  · rintro p hp m ⟨hne, hm⟩
    obtain ⟨info', hinfo', hhm⟩ := (hinv.owner p m).1 hm
    exact hsep.eq_of_mem ((hother m hne).trans hinfo') hself hhm hp
  · rw [hinv.owner]
    rcases eq_or_ne m n with rfl | hm
    · simp only [ne_eq, not_true, false_and, true_and, false_or, lookup_insert, some_inj,
        exists_eq_left']
      rfl
    · simp only [ne_eq, hm, not_false_iff, true_and, false_and, or_false, lookup_insert_ne hm]
      rfl

end

theorem step {op : Op}
    (hsep : Separated hashKey (hr.step hashKey op)) : RingInv hashKey (hr.step hashKey op) := by
  cases op with
  | addNode n weight =>
    rw [HashRing.step] at hsep ⊢
    rcases addNode_cases hashKey hr n weight with heq | ⟨hn, heq⟩ <;> rw [heq] at hsep ⊢
    exacts [hinv, hinv.added hn hsep]
  | removeNode n =>
    rw [HashRing.step]
    rcases removeNode_cases hashKey hr n with heq | ⟨info, hinfo, heq⟩ <;> rw [heq]
    exacts [hinv, hinv.removed hinfo]
  | updateNodeWeight n newWeight =>
    rw [HashRing.step] at hsep ⊢
    rcases updateNodeWeight_cases hashKey hr n newWeight with heq | ⟨info, hinfo, heq⟩ <;>
      rw [heq] at hsep ⊢
    exacts [hinv, hinv.reweighted hinfo hsep]

theorem run {ops : List Op} (hsep : ∀ pre, pre <+: ops → Separated hashKey (hr.run hashKey pre)) :
    RingInv hashKey (hr.run hashKey ops) := by
  induction ops generalizing hr with
  | nil => exact hinv
  | cons op ops ih =>
    have hstep := hsep [op] ((prefix_cons_inj op).2 nil_prefix)
    refine ih (hinv.step hstep) fun pre hpre => ?_
    exact hsep (op :: pre) ((prefix_cons_inj op).2 hpre)

end RingInv

/-! ## Owners -/

variable {ring : List UInt64}

theorem rotate_searchRing (hs : ring.Pairwise (· < ·)) (h : UInt64) :
    ring.rotate (searchRing ring h) = walk ring h := rotate_search hs h

theorem searchRing_lt (hne : ring ≠ []) (h : UInt64) : searchRing ring h < ring.length := by
  have hpos : 0 < ring.length := length_pos_iff.2 hne
  simp only [searchRing]
  split
  · exact hpos
  · rename_i hend
    exact lt_of_le_of_ne findIdx_le_length hend

theorem head?_walk_eq_getElem (hs : ring.Pairwise (· < ·)) (h : UInt64) :
    (walk ring h).head? = ring[searchRing ring h]? := by
  rw [← rotate_searchRing hs]
  by_cases hne : ring = []
  · rw [hne]
    rfl
  · exact head?_rotate (searchRing_lt hne h)

theorem ownerAt_eq (hs : hr.ring.Pairwise (· < ·)) (h : UInt64) :
    hr.ownerAt h = (walk hr.ring h).head?.elim (.error .emptyRing)
      fun p => .ok ((hr.vnodeMap.lookup p).getD "") := by
  rw [ownerAt, head?_walk_eq_getElem hs]
  split
  · rename_i hnil
    rw [hnil]
    rfl
  · rename_i hne
    have hlt := searchRing_lt hne h
    rw [getElem?_eq_getElem hlt, getD_eq_getElem _ _ hlt]
    rfl

/-- The second ring has the points of the first one, and other points of `n` only. -/
structure MorePoints (n : String) (hr hr' : HashRing) : Prop where
  kept : ∀ {h m}, hr.vnodeMap.lookup h = some m → hr'.vnodeMap.lookup h = some m
  fresh : ∀ {h m}, hr'.vnodeMap.lookup h = some m → m ≠ n → hr.vnodeMap.lookup h = some m

theorem MorePoints.ownerAt (hmore : MorePoints n hr hr') (hinv : RingInv hashKey hr)
    (hinv' : RingInv hashKey hr') (h : UInt64) :
    hr'.ownerAt h = hr.ownerAt h ∨ hr'.ownerAt h = .ok n := by
  have hring : hr.ring = hr'.ring.filter (· ∈ hr.ring) := by
    refine hinv.sorted.eq_of_mem_iff (hinv'.sorted.filter _) fun p => ?_
    rw [mem_filter, decide_eq_true_eq]
    refine ⟨fun hp => ⟨?_, hp⟩, And.right⟩
    obtain ⟨m, hm⟩ := hinv.lookup_of_mem hp
    exact (hinv'.listed p).2 (lookup_isSome.1 (by rw [hmore.kept hm]; rfl))
  rw [ownerAt_eq hinv.sorted, ownerAt_eq hinv'.sorted]
  have hwalk := walk_filter hr'.ring h (· ∈ hr.ring)
  rw [← hring] at hwalk
  rw [hwalk]
  cases hw : walk hr'.ring h with
  | nil => exact Or.inl rfl
  | cons p ps =>
    have hp : p ∈ hr'.ring := mem_walk.1 (hw ▸ mem_cons_self)
    obtain ⟨m, hm⟩ := hinv'.lookup_of_mem hp
    by_cases hmem : p ∈ hr.ring
    · obtain ⟨m', hm'⟩ := hinv.lookup_of_mem hmem
      left
      rw [filter_cons_of_pos (by simpa using hmem)]
      simp only [head?_cons, elim_some, hm', hmore.kept hm']
    · right
      have hmn : m = n := by
        by_contra hne
        exact hmem ((hinv.listed p).2 (lookup_isSome.1 (by rw [hmore.fresh hm hne]; rfl)))
      simp only [head?_cons, elim_some, hm, hmn, getD_some]

section

variable (hinv : RingInv hashKey hr)
include hinv

/-- A node that does not lose virtual nodes keeps its points. -/
theorem RingInv.morePoints (hinv' : RingInv hashKey hr') (hvn : hr'.virtualNodes = hr.virtualNodes)
    (hother : ∀ m, m ≠ n → hr'.nodes.lookup m = hr.nodes.lookup m)
    (hgrow : ∀ info, hr.nodes.lookup n = some info → ∃ info', hr'.nodes.lookup n = some info' ∧
      hr.calculateVirtualNodeCount info.weight ≤ hr.calculateVirtualNodeCount info'.weight) :
    MorePoints n hr hr' := by
  have hhashes : ∀ m w, hr'.virtualHashes hashKey m w = hr.virtualHashes hashKey m w := by
    intro m w
    rw [virtualHashes, virtualHashes, calculateVirtualNodeCount, calculateVirtualNodeCount, hvn]
  constructor
  · intro h m hm
    obtain ⟨info, hinfo, hh⟩ := (hinv.owner h m).1 hm
    rw [hinv'.owner]
    by_cases hne : m = n
    · subst hne
      obtain ⟨info', hinfo', hle⟩ := hgrow info hinfo
      refine ⟨info', hinfo', ?_⟩
      rw [hhashes]
      obtain ⟨i, hi, hhi⟩ := mem_virtualHashes.1 hh
      exact mem_virtualHashes.2 ⟨i, lt_of_lt_of_le hi (Int.toNat_le_toNat hle), hhi⟩
    · refine ⟨info, (hother m hne).trans hinfo, ?_⟩
      rw [hhashes]
      exact hh
  · intro h m hm hne
    obtain ⟨info, hinfo, hh⟩ := (hinv'.owner h m).1 hm
    rw [hhashes] at hh
    exact (hinv.owner h m).2 ⟨info, (hother m hne).symm.trans hinfo, hh⟩

theorem morePoints_added {weight : ℤ} (hn : n ≠ "" ∧ n ∉ hr.nodes)
    (hsep : Separated hashKey (hr.added hashKey n weight)) :
    MorePoints n hr (hr.added hashKey n weight) := by
  refine hinv.morePoints (hinv.added hn hsep) rfl (fun m hm => lookup_insert_ne hm) ?_
  intro info hinfo
  exact absurd (lookup_isSome.1 (by rw [hinfo]; rfl)) hn.2

theorem morePoints_removed {info : NodeInfo} (hinfo : hr.nodes.lookup n = some info) :
    MorePoints n (hr.removed hashKey n info.weight) hr := by
  exact ⟨fun hm => ((hinv.lookup_erased hinfo).1 hm).2,
    fun hm hne => (hinv.lookup_erased hinfo).2 ⟨hne, hm⟩⟩

/-! ## The result -/

/-- The ring lists the hashes of the map of virtual nodes, one for each virtual node of each registered
node. -/
structure ListsVirtualNodes (hashKey : String → UInt64) (hr : HashRing) : Prop where
  sorted : hr.ring.Pairwise (· < ·)
  mapped : ∀ h, h ∈ hr.ring ↔ h ∈ hr.vnodeMap
  counted : hr.ring.Perm
    (hr.nodes.entries.flatMap fun node => hr.virtualHashes hashKey node.1 node.2.weight)

theorem RingInv.listsVirtualNodes (hsep : Separated hashKey hr) : ListsVirtualNodes hashKey hr := by
  refine ⟨hinv.sorted, hinv.listed, ?_⟩
  have hentry : ∀ node : (_ : String) × NodeInfo, node ∈ hr.nodes.entries →
      hr.nodes.lookup node.1 = some node.2 := fun node hnode => mem_lookup_iff.2 hnode
  have hnodup : (hr.nodes.entries.flatMap fun node =>
      hr.virtualHashes hashKey node.1 node.2.weight).Nodup := by
    rw [nodup_flatMap]
    refine ⟨fun node hnode => hsep.nodup (hentry node hnode), ?_⟩
    have hkeys := hr.nodes.keys_nodup
    rw [AList.keys, List.keys, Nodup, pairwise_map] at hkeys
    refine hkeys.imp_of_mem fun {node node'} hnode hnode' hne => ?_
    intro h hh hh'
    exact hne (hsep.eq_of_mem (hentry node hnode) (hentry node' hnode') hh hh')
  rw [perm_ext_iff_of_nodup (hinv.sorted.imp fun h => h.ne) hnodup]
  intro h
  rw [hinv.listed, ← lookup_isSome, isSome_iff_exists, mem_flatMap]
  constructor
  · rintro ⟨n, hn⟩
    obtain ⟨info, hinfo, hh⟩ := (hinv.owner h n).1 hn
    exact ⟨⟨n, info⟩, mem_lookup_iff.1 hinfo, hh⟩
  · rintro ⟨node, hnode, hh⟩
    exact ⟨node.1, (hinv.owner h node.1).2 ⟨node.2, hentry node hnode, hh⟩⟩

/-- A call moves the key only to a node that got points, or away from a node that lost points. -/
def MovesLittle (hashKey : String → UInt64) (hr : HashRing) (key : String) : Op → Prop
  | .addNode n weight =>
    (hr.addNode hashKey n weight).1.getNode hashKey key = hr.getNode hashKey key ∨
      (hr.addNode hashKey n weight).1.getNode hashKey key = .ok n
  | .removeNode n =>
    (hr.removeNode hashKey n).1.getNode hashKey key = hr.getNode hashKey key ∨
      hr.getNode hashKey key = .ok n
  | .updateNodeWeight n newWeight =>
    ∀ info, hr.nodes.lookup n = some info → (info.weight ≤ newWeight →
        (hr.updateNodeWeight hashKey n newWeight).1.getNode hashKey key = hr.getNode hashKey key ∨
          (hr.updateNodeWeight hashKey n newWeight).1.getNode hashKey key = .ok n) ∧
      (newWeight ≤ info.weight →
        (hr.updateNodeWeight hashKey n newWeight).1.getNode hashKey key = hr.getNode hashKey key ∨
          hr.getNode hashKey key = .ok n)

/-- A change of weight changes the number of virtual nodes the same way. -/
def WeightMonotone (hr : HashRing) : Op → Prop
  | .updateNodeWeight n newWeight =>
    ∀ info, hr.nodes.lookup n = some info → (info.weight ≤ newWeight →
        hr.calculateVirtualNodeCount info.weight ≤ hr.calculateVirtualNodeCount newWeight) ∧
      (newWeight ≤ info.weight →
        hr.calculateVirtualNodeCount newWeight ≤ hr.calculateVirtualNodeCount info.weight)
  | _ => True

omit hinv in
/-- While the products of virtual nodes and weights fit into 64 bits, they grow with the weights. -/
theorem weightMonotone_of_lt {newWeight : ℤ} (hpos : 0 < hr.virtualNodes)
    (hweight : ∀ info, hr.nodes.lookup n = some info →
      0 < info.weight ∧ hr.virtualNodes * info.weight < 2 ^ 63)
    (hnew : 0 < newWeight) (hlt : hr.virtualNodes * newWeight < 2 ^ 63) :
    WeightMonotone hr (.updateNodeWeight n newWeight) := by
  have hcount : ∀ w : ℤ, 0 < w → hr.virtualNodes * w < 2 ^ 63 →
      hr.calculateVirtualNodeCount w = hr.virtualNodes * w := by
    intro w hw hlt
    have hnonneg : 0 ≤ hr.virtualNodes * w := by positivity
    rw [calculateVirtualNodeCount, if_neg (by omega)]
    exact Int.bmod_eq_of_le (by omega) (by omega)
  intro info hinfo
  obtain ⟨hw, hlt'⟩ := hweight info hinfo
  rw [hcount _ hw hlt', hcount _ hnew hlt]
  exact ⟨fun hle => Int.mul_le_mul_of_nonneg_left hle hpos.le,
    fun hle => Int.mul_le_mul_of_nonneg_left hle hpos.le⟩

theorem RingInv.movesLittle {op : Op} (hsep : Separated hashKey (hr.step hashKey op))
    (hmono : WeightMonotone hr op) (key : String) : MovesLittle hashKey hr key op := by
  have hinv' := hinv.step hsep
  cases op with
  | addNode n weight =>
    rw [HashRing.step] at hsep hinv'
    rw [MovesLittle]
    rcases addNode_cases hashKey hr n weight with heq | ⟨hn, heq⟩ <;> rw [heq] at hsep hinv' ⊢
    exacts [.inl rfl, (morePoints_added hinv hn hsep).ownerAt hinv hinv' _]
  | removeNode n =>
    rw [HashRing.step] at hinv'
    rw [MovesLittle]
    rcases removeNode_cases hashKey hr n with heq | ⟨info, hinfo, heq⟩ <;> rw [heq] at hinv' ⊢
    exacts [.inl rfl, ((morePoints_removed hinv hinfo).ownerAt hinv' hinv _).imp_left Eq.symm]
  | updateNodeWeight n newWeight =>
    rw [HashRing.step] at hinv'
    intro info hinfo
    obtain ⟨hup, hdown⟩ := hmono info hinfo
    rcases updateNodeWeight_cases hashKey hr n newWeight with heq | ⟨info', hinfo', heq⟩
    · rw [heq]
      exact ⟨fun _ => Or.inl rfl, fun _ => Or.inl rfl⟩
    · cases hinfo.symm.trans hinfo'
      rw [heq] at hinv' ⊢
      refine ⟨fun hle => ?_, fun hle => ?_⟩
      · refine (hinv.morePoints hinv' rfl (fun m hm => lookup_insert_ne hm) ?_).ownerAt hinv hinv' _
        intro info' hinfo'
        cases hinfo.symm.trans hinfo'
        exact ⟨_, lookup_insert _, hup hle⟩
      · refine ((hinv'.morePoints hinv rfl (fun m hm => (lookup_insert_ne hm).symm) ?_).ownerAt
          hinv' hinv _).imp_left Eq.symm
        intro info' hinfo'
        cases (lookup_insert _).symm.trans hinfo'
        exact ⟨info, hinfo, hdown hle⟩

end

theorem separated_of_nodup (hnodup : (hr.nodes.entries.flatMap fun node =>
    hr.virtualHashes hashKey node.1 node.2.weight).Nodup) : Separated hashKey hr := by
  obtain ⟨hself, hpair⟩ := nodup_flatMap.1 hnodup
  rintro _ ⟨n, info, hn, i, hi, rfl⟩ _ ⟨m, info', hm, j, hj, rfl⟩ heq
  have hmemn := mem_lookup_iff.1 hn
  have hmemm := mem_lookup_iff.1 hm
  by_cases hne : n = m
  · subst hne
    cases hn.symm.trans hm
    rw [inj_on_of_nodup_map (hself _ hmemn) (mem_range.2 hi) (mem_range.2 hj) heq]
  · have hsymm : Std.Symm (Function.onFun List.Disjoint fun node : (_ : String) × NodeInfo =>
        hr.virtualHashes hashKey node.1 node.2.weight) := ⟨fun _ _ h => h.symm⟩
    have hdisjoint := hpair.forall hmemn hmemm fun h => hne (congrArg Sigma.fst h)
    exact absurd (mem_virtualHashes.2 ⟨j, hj, heq.symm⟩)
      (hdisjoint (mem_virtualHashes.2 ⟨i, hi, rfl⟩))

/-- On every reachable ring the next call moves a key only to the node that gets points or from the
node that loses points. -/
theorem calls_move_little (hashKey : String → UInt64) (virtualNodes : ℤ) (hr₀ : HashRing)
    (hnew : newHashRing virtualNodes = .ok hr₀) (ops : List Op)
    (hsep : ∀ pre, pre <+: ops → Separated hashKey (hr₀.run hashKey pre)) (hr : HashRing)
    (hrun : hr = hr₀.run hashKey ops) :
    ListsVirtualNodes hashKey hr ∧ ∀ op, Separated hashKey (hr.step hashKey op) →
      WeightMonotone hr op → ∀ key, MovesLittle hashKey hr key op := by
  subst hrun
  have hinv := (ringInv_newHashRing hnew).run hsep
  exact ⟨hinv.listsVirtualNodes (hsep ops (prefix_refl ops)),
    fun op hsep' hmono key => hinv.movesLittle hsep' hmono key⟩

/-- The second virtual node of `a` leaves the key `k` with `a`. -/
theorem calls_move_little_raisedWeight :
    let hr := (⟨1, ∅, ∅, []⟩ : HashRing).run sampleHash [.addNode "a" 1, .addNode "e" 1]
    (hr.updateNodeWeight sampleHash "a" 2).1.getNode sampleHash "k" = hr.getNode sampleHash "k" ∨
      (hr.updateNodeWeight sampleHash "a" 2).1.getNode sampleHash "k" = .ok "a" := by
  intro hr
  refine ((calls_move_little sampleHash 1 _ rfl [.addNode "a" 1, .addNode "e" 1] ?_ hr rfl).2
    (.updateNodeWeight "a" 2) ?_ ?_ "k" ⟨1, ""⟩ rfl).1 (by decide)
  · intro pre hpre
    have hnodup : ∀ pre ∈ inits [Op.addNode "a" 1, .addNode "e" 1],
        (((⟨1, ∅, ∅, []⟩ : HashRing).run sampleHash pre).nodes.entries.flatMap fun node =>
          ((⟨1, ∅, ∅, []⟩ : HashRing).run sampleHash pre).virtualHashes sampleHash node.1
            node.2.weight).Nodup := by decide
    exact separated_of_nodup (hnodup pre ((mem_inits _ _).2 hpre))
  · exact separated_of_nodup (by decide)
  · refine weightMonotone_of_lt (by decide) (fun info hinfo => ?_) (by decide) (by decide)
    cases hinfo
    decide

/-- Twice `2 ^ 62` is negative as an `int`, so that `e` loses its points when its weight is raised.
-/
theorem not_moves_little_hugeWeight :
    let hr := (⟨2, ∅, ∅, []⟩ : HashRing).run sampleHash [.addNode "a" 1, .addNode "e" 1]
    hr.nodes.lookup "e" = some ⟨1, ""⟩ ∧ hr.getNode sampleHash "k" = .ok "e" ∧
      (hr.updateNodeWeight sampleHash "e" (2 ^ 62)).1.nodes.lookup "e" = some ⟨2 ^ 62, ""⟩ ∧
      (hr.updateNodeWeight sampleHash "e" (2 ^ 62)).1.getNode sampleHash "k" = .ok "a" := by
  refine ⟨?_, ?_, ?_, ?_⟩ <;> rfl

end HashRing

end Solocoder.ChainHash
