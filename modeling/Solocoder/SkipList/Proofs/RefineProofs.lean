import Solocoder.SkipList.Proofs.ShapeProofs
import Mathlib.Data.Finmap

/-!
# The skip list as a finite map

After any run of `Insert`, `Delete` and `Clear` the skip list answers as the finite map does that
the same calls make.
-/

namespace Solocoder.Skip

open List Option Heap SkipList Finmap Shape

variable {K V : Type} [Inhabited K] [Inhabited V] [LinearOrder K]

/-- What a list stands for. -/
abbrev Map (K V : Type) := Finmap fun _ : K => V

/-- The lowest level of the skip list holds the entries of the map. -/
structure Refines (sl : SkipList K V) (c : Nat → List Ptr) (m : Map K V) : Prop where
  shape : Shape sl c
  content : ∀ k v, (k, v) ∈ sl.heap.pairs (c 0) ↔ m.lookup k = some v

omit [LinearOrder K] in
theorem Heap.mem_pairs {h : Heap K V} {l : List Ptr} {k : K} {v : V} :
    (k, v) ∈ h.pairs l ↔ ∃ p ∈ l, (h.node p).key = k ∧ (h.node p).value = v := by
  simp only [pairs, entry, List.mem_map, Prod.mk.injEq]

theorem Heap.Sorted.eq_of_key_eq {h : Heap K V} {l : List Ptr} (hl : h.Sorted l) {p q : Ptr}
    (hp : p ∈ l) (hq : q ∈ l) (heq : (h.node p).key = (h.node q).key) : p = q := by
  refine inj_on_of_nodup_map (f := fun p => (h.node p).key) ?_ hp hq heq
  exact pairwise_map.mpr (hl.imp fun hlt => ne_of_lt hlt)

namespace Refines

variable {sl : SkipList K V} {c : Nat → List Ptr} {m : Map K V} (h : Refines sl c m)
include h

theorem maxLevel_pos : 0 < sl.maxLevel :=
  Nat.lt_of_lt_of_le h.shape.level_pos h.shape.level_le

theorem lookup_eq_some {p : Ptr} (hp : p ∈ c 0) :
    m.lookup (sl.heap.node p).key = some (sl.heap.node p).value :=
  (h.content _ _).mp (mem_pairs.mpr ⟨p, hp, rfl, rfl⟩)

theorem lookup_eq_none {key : K} (hkey : ∀ p ∈ c 0, (sl.heap.node p).key ≠ key) :
    m.lookup key = none := by
  cases hlookup : m.lookup key with
  | none => rfl
  | some v =>
    obtain ⟨p, hp, hpkey, -⟩ := mem_pairs.mp ((h.content key v).mpr hlookup)
    exact absurd hpkey (hkey p hp)

theorem search_cases (key : K) :
    (∃ y ∈ c 0, (sl.heap.node y).key = key ∧ sl.heap[y]? = some (sl.heap.node y) ∧
      sl.heap.forward (pred sl c key 0) 0 = some (some y)) ∨
    ((∀ p ∈ c 0, (sl.heap.node p).key ≠ key) ∧
      (sl.heap.forward (pred sl c key 0) 0 = some none ∨
        ∃ y, (sl.heap.node y).key ≠ key ∧ sl.heap[y]? = some (sl.heap.node y) ∧
          sl.heap.forward (pred sl c key 0) 0 = some (some y))) := by
  rw [h.shape.forward_pred key h.maxLevel_pos]
  cases hhead : (sl.heap.notBelow key (c 0)).head? with
  | none =>
    refine Or.inr ⟨h.shape.sorted.key_ne fun y hy => ?_, Or.inl rfl⟩
    rw [hhead] at hy
    cases hy
  | some y =>
    have hy : y ∈ c 0 := mem_of_mem_filter (mem_of_head? hhead)
    have hnode := getElem?_eq_node (h.shape.valid y hy)
    by_cases hkey : (sl.heap.node y).key = key
    · exact Or.inl ⟨y, hy, hkey, hnode, rfl⟩
    · refine Or.inr ⟨h.shape.sorted.key_ne fun z hz => ?_, Or.inr ⟨y, hkey, hnode, rfl⟩⟩
      rw [hhead] at hz
      cases hz
      exact hkey

theorem search_eq (key : K) : sl.search key = some (m.lookup key) := by
  unfold search
  rw [h.shape.descend_eq key]
  simp only [bind_eq_bind, bind_some]
  rcases h.search_cases key with ⟨y, hy, rfl, hnode, hnext⟩ |
    ⟨habsent, hnext | ⟨y, hkey, hnode, hnext⟩⟩
  · simp [hnext, hnode, h.lookup_eq_some hy]
  · simp [hnext, h.lookup_eq_none habsent]
  · simp [hnext, hnode, if_neg hkey, h.lookup_eq_none habsent]

theorem contains_eq (key : K) : sl.contains key = some (decide (key ∈ m)) := by
  unfold SkipList.contains
  rw [h.search_eq]
  simp only [bind_eq_bind, bind_some, Option.some.injEq]
  rw [Bool.eq_iff_iff, decide_eq_true_eq]
  exact lookup_isSome

theorem levelChain_eq {i : Nat} (hi : i < sl.maxLevel) : sl.levelChain i = some (c i) := by
  have hchain := h.shape.chain i hi
  have hfirst : sl.heap.forward sl.header i = some (c i).head? := hchain.next_eq
  unfold levelChain
  simp only [bind_eq_bind, hfirst, bind_some]
  exact chain_eq hchain (Nat.lt_succ_of_lt (h.shape.length_lt i))

theorem all_eq : sl.all = some (sl.heap.pairs (c 0)) := by
  have hmap : ∀ l : List Ptr, (∀ p ∈ l, p < sl.heap.length) → (l.mapM fun x => do
        let n ← sl.heap[x]?
        some (n.key, n.value)) = some (sl.heap.pairs l) := by
    intro l hl
    induction l with
    | nil => rfl
    | cons x l ih =>
      rw [forall_mem_cons] at hl
      rw [mapM_cons, ih hl.2, getElem?_eq_node hl.1]
      rfl
  unfold SkipList.all
  rw [h.levelChain_eq h.maxLevel_pos]
  exact hmap (c 0) h.shape.valid

theorem first_eq : sl.first = some (sl.heap.pairs (c 0)).head? := by
  have hfirst : sl.heap.forward sl.header 0 = some (c 0).head? :=
    (h.shape.chain 0 h.maxLevel_pos).next_eq
  have hvalid := h.shape.valid
  unfold first
  simp only [bind_eq_bind, hfirst, bind_some]
  cases hlist : c 0 with
  | nil => rfl
  | cons x l =>
    rw [hlist] at hvalid
    simp only [head?_cons, getElem?_eq_node (hvalid x mem_cons_self), bind_some]
    rfl

theorem last_eq : sl.last = some (sl.heap.pairs (c 0)).getLast? := by
  unfold last pairs
  rw [h.shape.tail, getLast?_map]
  cases hlast : (c 0).getLast? with
  | none => rfl
  | some x =>
    have hx := h.shape.valid x (mem_of_getLast? hlast)
    simp [getElem?_eq_node hx, entry]

theorem sorted_pairs : ((sl.heap.pairs (c 0)).map Prod.fst).Pairwise (· < ·) := by
  unfold Heap.pairs
  rw [List.map_map, pairwise_map]
  exact h.shape.sorted

theorem len_eq : sl.len = m.keys.card := by
  have hnodup : ((sl.heap.pairs (c 0)).map Prod.fst).Nodup :=
    h.sorted_pairs.imp fun hlt => ne_of_lt hlt
  have hkeys : m.keys = ((sl.heap.pairs (c 0)).map Prod.fst).toFinset := by
    ext k
    rw [Finmap.mem_keys, ← Finmap.lookup_isSome, isSome_iff_exists, List.mem_toFinset, List.mem_map]
    constructor
    · rintro ⟨v, hv⟩
      exact ⟨(k, v), (h.content k v).mpr hv, rfl⟩
    · rintro ⟨⟨k', v⟩, hmem, rfl⟩
      exact ⟨v, (h.content k' v).mp hmem⟩
  rw [hkeys, toFinset_card_of_nodup hnodup]
  unfold len pairs
  rw [h.shape.length, length_map, length_map]

theorem assign_spec {y : Ptr} (hy : y ∈ c 0) (value : V) :
    Refines (sl.assign y (sl.heap.node y) value) c (m.insert (sl.heap.node y).key value) := by
  have hlt := h.shape.valid y hy
  have hforward : ∀ x j, forward (sl.assign y (sl.heap.node y) value).heap x j =
      sl.heap.forward x j := by
    intro x j
    refine (forward_set hlt).trans ?_
    split
    next hx =>
      unfold forward
      rw [hx, getElem?_eq_node hlt]
      rfl
    · rfl
  have hnode : ∀ x, node (sl.assign y (sl.heap.node y) value).heap x =
      if x = y then { sl.heap.node y with value := value } else sl.heap.node x :=
    fun x => node_set hlt
  have hkey : ∀ x, (node (sl.assign y (sl.heap.node y) value).heap x).key =
      (sl.heap.node x).key := by
    intro x
    rw [hnode]
    split <;> simp_all
  constructor
  · exact
    { h.shape with
      chain := fun i hi => (h.shape.chain i hi).congr (hforward _ i) fun x _ => hforward x i
      valid := fun p hp => by
        unfold assign
        rw [length_set]
        exact h.shape.valid p hp
      sorted := h.shape.sorted.imp fun {p q} hpq => by rwa [hkey, hkey] }
  · intro k v
    rw [mem_pairs]
    by_cases hk : k = (sl.heap.node y).key
    · subst hk
      rw [lookup_insert, Option.some.injEq]
      constructor
      · rintro ⟨p, hp, hpkey, rfl⟩
        rw [hkey] at hpkey
        rw [h.shape.sorted.eq_of_key_eq hp hy hpkey, hnode, if_pos rfl]
      · rintro rfl
        exact ⟨y, hy, hkey y, by rw [hnode, if_pos rfl]⟩
    · rw [lookup_insert_of_ne _ hk, ← h.content, mem_pairs]
      refine exists_congr fun p => and_congr_right fun hp => ?_
      rw [hkey]
      refine and_congr_right fun hpkey => ?_
      have hpy : p ≠ y := by
        rintro rfl
        exact hk hpkey.symm
      rw [hnode, if_neg hpy]

theorem addNode_spec {key : K} (value : V) (coin : Nat → Bool)
    (hnew : ∀ p ∈ c 0, (sl.heap.node p).key ≠ key) :
    ∃ sl' c', sl.addNode key value coin ((range sl.level).map (pred sl c key)) = some sl' ∧
      Refines sl' c' (m.insert key value) := by
  obtain ⟨hpos, hlvl⟩ := randomLevel_bounds h.maxLevel_pos coin
  obtain ⟨heap, hlink, hins⟩ := h.shape.exists_inserted key value hlvl
  refine ⟨_, _, h.shape.addNode_eq hlink hins, hins.shape h.shape hnew hpos hlvl, ?_⟩
  intro k v
  have hmem : ∀ p, p ∈ inserted sl c key (randomLevel sl.maxLevel coin) 0 ↔
      p = sl.heap.length ∨ p ∈ c 0 := by
    have hsplit := h.shape.sorted.below_append_notBelow key
    unfold inserted
    rw [if_pos (Nat.lt_of_lt_of_le Nat.zero_lt_one hpos)]
    nth_rewrite 3 [← hsplit]
    simp only [mem_append, mem_cons]
    tauto
  have hold : heap.pairs (c 0) = sl.heap.pairs (c 0) :=
    map_congr_left fun p hp => hins.entry_old p (h.shape.valid p hp).ne
  have hpairs : (k, v) ∈ heap.pairs (inserted sl c key (randomLevel sl.maxLevel coin) 0) ↔
      (key = k ∧ value = v) ∨ (k, v) ∈ sl.heap.pairs (c 0) := by
    rw [← hold]
    simp only [pairs, List.mem_map, hmem, or_and_right, exists_or, exists_eq_left,
      hins.entry_new, Prod.mk.injEq]
  rw [hpairs, h.content]
  by_cases hk : k = key
  · subst hk
    simp [lookup_insert, h.lookup_eq_none hnew]
  · simp [lookup_insert_of_ne _ hk, Ne.symm hk]

theorem insert_spec (key : K) (value : V) (coin : Nat → Bool) :
    ∃ sl' c', sl.insert key value coin = some sl' ∧ Refines sl' c' (m.insert key value) := by
  unfold SkipList.insert
  rw [h.shape.descend_eq key]
  simp only [bind_eq_bind, bind_some]
  rcases h.search_cases key with ⟨y, hy, rfl, hnode, hnext⟩ |
    ⟨habsent, hnext | ⟨y, hkey, hnode, hnext⟩⟩
  · simp only [hnext, bind_some, hnode, if_true]
    exact ⟨_, c, rfl, h.assign_spec hy value⟩
  · simp only [hnext, bind_some]
    exact h.addNode_spec value coin habsent
  · simp only [hnext, bind_some, hnode, if_neg hkey]
    exact h.addNode_spec value coin habsent

theorem removeNode_spec {x : Ptr} (hx : x ∈ c 0) : ∃ sl', sl.removeNode x
        ((range sl.level).map (pred sl c (sl.heap.node x).key)) = some sl' ∧
      Refines sl' (fun i => (c i).erase x) (m.erase (sl.heap.node x).key) := by
  obtain ⟨heap, hunlink, hrem⟩ := h.shape.exists_removed (x := x) rfl
  obtain ⟨sl', heq, rfl, hshape⟩ := hrem.shape h.shape hx rfl hunlink
  refine ⟨sl', heq, hshape, fun k v => ?_⟩
  have hsame : sl'.heap.pairs ((c 0).erase x) = sl.heap.pairs ((c 0).erase x) :=
    map_congr_left fun p _ => hrem.same.entry p
  rw [hsame, mem_pairs]
  simp only [h.shape.sorted.nodup.mem_erase_iff]
  by_cases hk : k = (sl.heap.node x).key
  · subst hk
    rw [lookup_erase]
    constructor
    · rintro ⟨p, ⟨hpx, hp⟩, hpkey, -⟩
      exact absurd (h.shape.sorted.eq_of_key_eq hp hx hpkey) hpx
    · exact nofun
  · rw [lookup_erase_ne hk, ← h.content, mem_pairs]
    refine exists_congr fun p => and_congr_left fun hpkey => and_iff_right ?_
    rintro rfl
    exact hk hpkey.1.symm

theorem erase_absent {key : K}
    (habsent : ∀ p ∈ c 0, (sl.heap.node p).key ≠ key) : Refines sl c (m.erase key) := by
  refine ⟨h.shape, fun k v => ?_⟩
  rw [h.content]
  by_cases hk : k = key
  · rw [hk, lookup_erase, h.lookup_eq_none habsent]
  · rw [lookup_erase_ne hk]

theorem delete_spec (key : K) :
    ∃ sl' c', sl.delete key = some (sl', m.lookup key) ∧ Refines sl' c' (m.erase key) := by
  unfold delete
  rw [h.shape.descend_eq key]
  simp only [bind_eq_bind, bind_some]
  rcases h.search_cases key with ⟨y, hy, rfl, hnode, hnext⟩ |
    ⟨habsent, hnext | ⟨y, hkey, hnode, hnext⟩⟩
  · obtain ⟨sl', heq, hrefines⟩ := h.removeNode_spec hy
    refine ⟨sl', _, ?_, hrefines⟩
    simp [hnext, bind_some, hnode, heq, h.lookup_eq_some hy]
  · refine ⟨sl, c, ?_, h.erase_absent habsent⟩
    simp [hnext, bind_some, h.lookup_eq_none habsent]
  · refine ⟨sl, c, ?_, h.erase_absent habsent⟩
    simp [hnext, hnode, hkey, h.lookup_eq_none habsent]

end Refines

end Solocoder.Skip
