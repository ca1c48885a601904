import Solocoder.Lib.Numbered
import Solocoder.Lib.Owners
import Solocoder.ShardKV.Cluster

/-!
# The order of the nodes on the ring of `internal/shardkv`

Every key sees the nodes of the ring in one order (`HashRing.order`), of which `GetReplicaNodes`
takes the first few. Adding or removing a node keeps the order of the others.
-/

namespace Solocoder.ShardKV

open Lib List Option HashRing

theorem virtualKey_injective {n m : String} {i j : ℕ} (h : virtualKey n i = virtualKey m j) :
    n = m ∧ i = j := append_toString_injective (t := ['#', 'v']) (x := 'n') rfl (by decide) h

variable (hashKey : String → UInt64)

/-- The points of the virtual nodes are distinct. -/
def Separates (virtualNodes : ℕ) (nodes : List String) : Prop :=
  Set.InjOn hashKey {key | ∃ n ∈ nodes, ∃ i < virtualNodes, key = virtualKey n i}

/-- The ring lists the points of its nodes in order, each with its owner. -/
structure RingInv (hr : HashRing) : Prop where
  sorted : hr.ring.Pairwise (· < ·)
  nodup : hr.nodeSet.Nodup
  positive : 0 < hr.virtualNodes
  owner : ∀ h n, hr.hashMap h = some n ↔
    n ∈ hr.nodeSet ∧ h ∈ virtualHashes hashKey hr.virtualNodes n
  listed : ∀ h, h ∈ hr.ring ↔ (hr.hashMap h).isSome

variable {hashKey} {virtualNodes : ℕ} {n : String} {nodes : List String}

theorem mem_virtualHashes {h : UInt64} :
    h ∈ virtualHashes hashKey virtualNodes n ↔ ∃ i < virtualNodes, hashKey (virtualKey n i) = h := by
  simp [virtualHashes]

section

variable (hsep : Separates hashKey virtualNodes nodes)
include hsep

theorem Separates.mono {nodes' : List String}
    (hsub : nodes' ⊆ nodes) : Separates hashKey virtualNodes nodes' := by
  refine Set.InjOn.mono ?_ hsep
  rintro key ⟨n, hn, i, hi, rfl⟩
  exact ⟨n, hsub hn, i, hi, rfl⟩

theorem Separates.eq_of_mem {m : String}
    (hn : n ∈ nodes) (hm : m ∈ nodes) {h : UInt64} (hhn : h ∈ virtualHashes hashKey virtualNodes n)
    (hhm : h ∈ virtualHashes hashKey virtualNodes m) : n = m := by
  obtain ⟨i, hi, rfl⟩ := mem_virtualHashes.1 hhn
  obtain ⟨j, hj, heq⟩ := mem_virtualHashes.1 hhm
  exact (virtualKey_injective (hsep ⟨n, hn, i, hi, rfl⟩ ⟨m, hm, j, hj, rfl⟩ heq.symm)).1

theorem Separates.nodup (hn : n ∈ nodes) : (virtualHashes hashKey virtualNodes n).Nodup := by
  refine Nodup.map_on ?_ nodup_range
  intro i hi j hj heq
  exact (virtualKey_injective (hsep ⟨n, hn, i, mem_range.1 hi, rfl⟩
    ⟨n, hn, j, mem_range.1 hj, rfl⟩ heq)).2

end

namespace HashRing

variable (hr : HashRing) (h : UInt64)

def ownerOf : String := (hr.hashMap h).getD ""

def order : List String := firsts ((walk hr.ring h).map hr.ownerOf)

theorem nodup_order : (hr.order h).Nodup := nodup_firsts _

theorem collectNodes_eq (r : ℕ) (nodes result : List String) (hle : result.length ≤ r) :
    collectNodes r nodes result =
      result ++ ((firsts nodes).filter (· ∉ result)).take (r - result.length) := by
  induction nodes generalizing result with
  | nil => simp [collectNodes, firsts]
  | cons n nodes ih =>
    rw [collectNodes]
    by_cases hlt : result.length < r
    · rw [if_pos hlt]
      by_cases hn : n ∈ result
      · rw [if_pos hn, ih result hle, firsts, filter_cons_of_neg (by simpa using hn),
          List.filter_filter]
        refine congrArg (result ++ take _ ·) (filter_congr fun m _ => ?_)
        by_cases hm : m = n
        · simp [hm, hn]
        · simp [hm]
      · have hlen : (result ++ [n]).length = result.length + 1 := by simp
        rw [if_neg hn, ih _ (by omega), firsts, filter_cons_of_pos (by simpa using hn), hlen,
          List.filter_filter, append_assoc, singleton_append,
          show r - result.length = (r - (result.length + 1)) + 1 by omega, take_succ_cons]
        simp
    · rw [if_neg hlt, show r - result.length = 0 by omega, take_zero, append_nil]

theorem map_range_rotate {α β : Type} (l : List α) (n : ℕ) (f : Option α → β) :
    ((range l.length).map fun i => f l[(n + i) % l.length]?) =
      (l.rotate n).map (fun a => f (some a)) := by
  refine ext_getElem? fun i => ?_
  by_cases hi : i < l.length
  · rw [getElem?_map, getElem?_range hi, getElem?_map, getElem?_rotate hi, Nat.add_comm i n]
    have hlt : (n + i) % l.length < l.length := Nat.mod_lt _ (by omega)
    rw [map_some, getElem?_eq_getElem hlt, map_some]
  · rw [getElem?_eq_none (by simpa using hi), getElem?_eq_none (by simpa using hi)]

theorem order_of_owned {hr hr' : HashRing} {own own' : String → UInt64 → Prop} {n : String}
    (hown : Owned hr.ring hr.hashMap own) (hown' : Owned hr'.ring hr'.hashMap own')
    (h : ∀ m p, own' m p ↔ m ≠ n ∧ own m p) (p : UInt64) :
    hr'.order p = (hr.order p).filter (· ≠ n) := by
  obtain ⟨hring, howner⟩ : hr'.ring = hr.ring.filter (hr.ownerOf · ≠ n) ∧
      ∀ q ∈ hr'.ring, hr'.ownerOf q = hr.ownerOf q := hown.eq_filter "" hown' h
  rw [order, order, ← firsts_filter, List.filter_map,
    map_congr_left fun q hq => howner q (mem_walk.1 hq), hring, walk_filter]
  rfl

end HashRing

namespace RingInv

variable {hr : HashRing} {n : String} (hinv : RingInv hashKey hr)
include hinv

theorem getReplicaNodes_eq (key : String) (r : ℕ) :
    hr.getReplicaNodes hashKey key r = (hr.order (hashKey key)).take r := by
  rw [getReplicaNodes]
  by_cases hempty : hr.ring = [] ∨ r = 0
  · rw [if_pos hempty]
    rcases hempty with hnil | rfl
    · simp [order, walk, hnil, firsts]
    · rw [take_zero]
  · rw [if_neg hempty]
    rw [collectNodes_eq _ _ _ (Nat.zero_le r)]
    simp only [map_range_rotate hr.ring _ fun p => (p.bind hr.hashMap).getD "",
      rotate_search hinv.sorted]
    simp [order]
    rfl

theorem hashMap_of_mem {h : UInt64} (hh : h ∈ hr.ring) : hr.hashMap h = some (hr.ownerOf h) := by
  obtain ⟨m, hm⟩ := isSome_iff_exists.1 ((hinv.listed h).1 hh)
  rw [ownerOf, hm, getD_some]

theorem mem_order (h : UInt64) : n ∈ hr.order h ↔ n ∈ hr.nodeSet := by
  rw [order, mem_firsts, List.mem_map]
  constructor
  · rintro ⟨p, hp, rfl⟩
    exact ((hinv.owner _ _).1 (hinv.hashMap_of_mem (mem_walk.1 hp))).1
  · intro hn
    -- every node has a first point
    have hp : hr.hashMap (hashKey (virtualKey n 0)) = some n :=
      (hinv.owner _ _).2 ⟨hn, mem_virtualHashes.2 ⟨0, hinv.positive, rfl⟩⟩
    refine ⟨hashKey (virtualKey n 0), mem_walk.2 ((hinv.listed _).2 (by rw [hp]; rfl)), ?_⟩
    rw [ownerOf, hp, getD_some]

theorem owned : Owned hr.ring hr.hashMap fun m p =>
    m ∈ hr.nodeSet ∧ p ∈ virtualHashes hashKey hr.virtualNodes m :=
  ⟨hinv.sorted, hinv.listed, hinv.owner⟩

theorem addNode (hn : n ∉ hr.nodeSet)
    (hsep : Separates hashKey hr.virtualNodes (hr.nodeSet ++ [n])) :
    RingInv hashKey (hr.addNode hashKey n) ∧
      ∀ h, hr.order h = ((hr.addNode hashKey n).order h).filter (· ≠ n) := by
  have hmemn : n ∈ hr.nodeSet ++ [n] := by simp
  -- the points of the new node are new
  have howned := hinv.owned.insert (n := n) (hsep.nodup hmemn) fun p hp m hm =>
    hn (hsep.eq_of_mem hmemn (mem_append_left _ hm.1) hp hm.2 ▸ hm.1)
  have hinv' : RingInv hashKey (hr.addNode hashKey n) := by
    rw [HashRing.addNode, if_neg hn]
    refine ⟨howned.sorted, ?_, hinv.positive, fun p m => (howned.owner p m).trans ?_, howned.listed⟩
    · rw [nodup_append']
      exact ⟨hinv.nodup, nodup_singleton n, by simpa using hn⟩
    · rcases eq_or_ne m n with rfl | hne
      · simp [hn]
      · simp [hne]
  refine ⟨hinv', order_of_owned hinv'.owned hinv.owned fun m p => ?_⟩
  rw [HashRing.addNode, if_neg hn]
  rcases eq_or_ne m n with rfl | hne
  · simp [hn]
  · simp [hne]

theorem removeNode (hn : n ∈ hr.nodeSet) : RingInv hashKey (hr.removeNode hashKey n) ∧
    ∀ h, (hr.removeNode hashKey n).order h = (hr.order h).filter (· ≠ n) := by
  have howned := hinv.owned.erase (n := n) fun p => (and_iff_right hn).symm
  have hinv' : RingInv hashKey (hr.removeNode hashKey n) := by
    rw [HashRing.removeNode, if_neg (not_not.2 hn)]
    refine ⟨howned.sorted, hinv.nodup.erase n, hinv.positive, fun p m => ?_, howned.listed⟩
    rw [howned.owner, hinv.nodup.mem_erase_iff, and_assoc]
  refine ⟨hinv', order_of_owned hinv.owned hinv'.owned fun m p => ?_⟩
  rw [HashRing.removeNode, if_neg (not_not.2 hn), hinv.nodup.mem_erase_iff, and_assoc]

end RingInv

theorem ringInv_newHashRing {virtualNodes : ℤ} : RingInv hashKey (newHashRing virtualNodes) := by
  refine ⟨Pairwise.nil, nodup_nil, ?_, by simp [newHashRing], by simp [newHashRing]⟩
  show 0 < if virtualNodes ≤ 0 then 100 else virtualNodes.toNat
  split <;> omega

end Solocoder.ShardKV
