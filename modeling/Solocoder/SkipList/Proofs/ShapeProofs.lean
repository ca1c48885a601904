import Solocoder.SkipList.Proofs.UpdateProofs
import Mathlib.Order.Nat

/-!
# The calls keep the levels

`Insert` puts its node into the lowest levels, `Delete` takes it out of all of them, and `Clear`
starts again.
-/

namespace Solocoder.Skip

open List Option Heap

variable {K V : Type} [Inhabited K] [Inhabited V]

namespace Heap

variable (h : Heap K V) (n : Node K V)

def pairs (l : List Ptr) : List (K × V) := l.map h.entry

omit [Inhabited K] [Inhabited V] in
theorem getElem?_concat (x : Ptr) : (h ++ [n])[x]? = if x = h.length then some n else h[x]? := by
  rcases Nat.lt_trichotomy x h.length with hlt | rfl | hgt
  · rw [getElem?_append_left hlt, if_neg hlt.ne]
  · simp
  · rw [if_neg hgt.ne', getElem?_eq_none hgt.le, getElem?_eq_none (by simpa [Nat.succ_le_iff])]

omit [Inhabited K] [Inhabited V] in
theorem forward_concat (x : Ptr) (j : Nat) :
    forward (h ++ [n]) x j = if x = h.length then n.forward[j]? else h.forward x j := by
  unfold forward
  rw [getElem?_concat]
  split <;> rfl

theorem entry_concat (x : Ptr) :
    entry (h ++ [n]) x = if x = h.length then (n.key, n.value) else h.entry x := by
  unfold entry node
  rw [getElem?_concat]
  split <;> rfl

end Heap

theorem randomLevel_bounds {maxLevel : Nat} (h : 1 ≤ maxLevel) (coin : Nat → Bool) :
    1 ≤ randomLevel maxLevel coin ∧ randomLevel maxLevel coin ≤ maxLevel := by
  have hgo : ∀ n level, level ≤ randomLevel.go coin n level ∧
      randomLevel.go coin n level ≤ level + n := by
    intro n
    induction n with
    | zero => exact fun level => ⟨le_refl _, le_refl _⟩
    | succ n ih =>
      intro level
      unfold randomLevel.go
      split
      · have := ih (level + 1)
        omega
      · omega
  have := hgo (maxLevel - 1) 1
  unfold randomLevel
  omega

variable [LinearOrder K]

namespace Shape

variable {sl : SkipList K V} {c : Nat → List Ptr}

/-- The levels with the new node `p` in the lowest `lvl` of them. -/
def inserted (sl : SkipList K V) (c : Nat → List Ptr) (key : K) (lvl : Nat) (i : Nat) : List Ptr :=
  if i < lvl then sl.heap.below key (c i) ++ sl.heap.length :: sl.heap.notBelow key (c i) else c i

variable (h : Shape sl c)
include h

theorem pred_lt (key : K) (i : Nat) : pred sl c key i < sl.heap.length := by
  have hmem := getLastD_mem_cons (a := sl.header) (l := sl.heap.below key (c i))
  rcases mem_cons.mp hmem with heq | hmem
  · unfold pred
    rw [heq]
    exact h.header_lt
  · exact h.valid_at i _ (mem_of_mem_filter hmem)

theorem pred_eq_header (key : K) {i : Nat} (hi : sl.level ≤ i) : pred sl c key i = sl.header := by
  unfold pred
  rw [h.empty i hi]
  rfl

theorem update_eq (key : K) (lvl : Nat) :
    ((range sl.level).map (pred sl c key) ++
        replicate (lvl - sl.level) sl.header).take lvl =
      (range' 0 lvl).map (pred sl c key) := by
  have hhigh : replicate (lvl - sl.level) sl.header =
      ((range (lvl - sl.level)).map (sl.level + ·)).map (pred sl c key) := by
    rw [List.map_map]
    refine (eq_replicate_iff.mpr ⟨by simp, fun p hp => ?_⟩).symm
    obtain ⟨j, -, rfl⟩ := mem_map.mp hp
    exact h.pred_eq_header key (Nat.le_add_right _ _)
  rw [hhigh, ← map_append, ← range_add, ← map_take, take_range,
    Nat.min_eq_left (by omega), range_eq_range']

theorem inserted_sublist (key : K) (lvl i : Nat) :
    (inserted sl c key lvl (i + 1)).Sublist (inserted sl c key lvl i) := by
  unfold inserted
  split
  next hi =>
    rw [if_pos (by omega)]
    exact ((h.sublist i).filter _).append (((h.sublist i).filter _).cons_cons _)
  · split
    · refine (h.sublist i).trans ?_
      nth_rewrite 1 [← (h.sorted_at i).below_append_notBelow key]
      exact (Sublist.refl _).append (sublist_cons_self _ _)
    · exact h.sublist i

/-- The heap after the loop of `Insert`, with the new node behind all others. -/
structure Inserted (sl : SkipList K V) (c : Nat → List Ptr) (key : K) (value : V) (lvl : Nat)
    (heap : Heap K V) : Prop where
  length : heap.length = sl.heap.length + 1
  entry_new : heap.entry sl.heap.length = (key, value)
  entry_old : ∀ x, x ≠ sl.heap.length → heap.entry x = sl.heap.entry x
  forward_pred : ∀ j < lvl, heap.forward (pred sl c key j) j = some (some sl.heap.length)
  forward_new : ∀ j < lvl, heap.forward sl.heap.length j = sl.heap.forward (pred sl c key j) j
  forward_old : ∀ x j, x ≠ sl.heap.length → (j < lvl → x ≠ pred sl c key j) →
    heap.forward x j = sl.heap.forward x j

theorem exists_inserted (key : K) (value : V) {lvl : Nat} (hlvl : lvl ≤ sl.maxLevel) :
    ∃ heap, linkAll sl.heap.length (sl.heap ++ [⟨key, value, replicate lvl none⟩]) 0
        ((range' 0 lvl).map (pred sl c key)) = some heap ∧
      Inserted sl c key value lvl heap := by
  set heap0 := sl.heap ++ [(⟨key, value, replicate lvl none⟩ : Node K V)]
  have hforward0 : ∀ x j, x ≠ sl.heap.length → heap0.forward x j = sl.heap.forward x j := by
    intro x j hx
    rw [forward_concat, if_neg hx]
  have hne : ∀ j, pred sl c key j ≠ sl.heap.length := fun j => Nat.ne_of_lt (h.pred_lt key j)
  have hpred : ∀ j, 0 ≤ j → j < 0 + lvl →
      ∃ next, heap0.forward (pred sl c key j) j = some next := by
    intro j _ hj
    rw [hforward0 _ _ (hne j)]
    exact ⟨_, h.forward_pred key (by omega)⟩
  have hnew : ∀ j, 0 ≤ j → j < 0 + lvl → ∃ old, heap0.forward sl.heap.length j = some old := by
    intro j _ hj
    rw [forward_concat, if_pos rfl]
    exact ⟨none, List.getElem?_eq_some_iff.mpr ⟨by simpa using hj, by simp⟩⟩
  obtain ⟨heap, hlink, hsame, hforward⟩ := linkAll_spec hpred hnew hne
  refine ⟨heap, hlink, ?_, ?_, fun x hx => ?_, fun j hj => ?_, fun j hj => ?_,
    fun x j hx hj => ?_⟩
  · rw [hsame.length, length_append, length_singleton]
  · rw [hsame.entry, entry_concat, if_pos rfl]
  · rw [hsame.entry, entry_concat, if_neg hx]
  · rw [hforward, if_pos (by omega), if_pos rfl]
  · rw [hforward, if_pos (by omega), if_neg (Ne.symm (hne j)), if_pos rfl, hforward0 _ _ (hne j)]
  · rw [hforward, hforward0 x j hx]
    split
    next hlt =>
      have hpred := hj (by omega)
      rw [if_neg hpred]
    · rfl

namespace Inserted

variable {key : K} {value : V} {lvl : Nat} {heap : Heap K V}
  (hins : Inserted sl c key value lvl heap)
include hins

theorem chain {i : Nat} (hi : i < sl.maxLevel) :
    Lib.Chain (heap.forward · i) sl.header (inserted sl c key lvl i) := by
  have hne : ∀ x ∈ sl.header :: c i, x ≠ sl.heap.length :=
    forall_mem_cons.mpr ⟨h.header_lt.ne, fun x hx => (h.valid_at i x hx).ne⟩
  have hsplit := (h.sorted_at i).below_append_notBelow key
  unfold inserted
  split
  next hlt =>
    refine (h.chain_split key hi).insert ?_ (hins.forward_pred i hlt) (hins.forward_new i hlt) ?_
    · rw [hsplit]
      exact h.nodup i
    · rw [hsplit]
      exact fun x hx hpred => hins.forward_old x i (hne x hx) fun _ => hpred
  next hge =>
    have hold : ∀ x ∈ sl.header :: c i, heap.forward x i = sl.heap.forward x i :=
      fun x hx => hins.forward_old x i (hne x hx) fun hlt => absurd hlt hge
    exact (h.chain i hi).congr (hold _ mem_cons_self) fun x hx => hold x (mem_cons_of_mem _ hx)

theorem sorted (hnew : ∀ p ∈ c 0, (sl.heap.node p).key ≠ key) :
    heap.Sorted (sl.heap.below key (c 0) ++ sl.heap.length :: sl.heap.notBelow key (c 0)) := by
  have hkey : ∀ x ∈ c 0, (heap.node x).key = (sl.heap.node x).key :=
    fun x hx => congrArg Prod.fst (hins.entry_old x (h.valid x hx).ne)
  have hkey_new : (heap.node sl.heap.length).key = key := congrArg Prod.fst hins.entry_new
  have hold : heap.Sorted (c 0) := by
    refine h.sorted.imp_of_mem fun {x y} hx hy hxy => ?_
    rwa [hkey x hx, hkey y hy]
  have hbelow : ∀ x ∈ sl.heap.below key (c 0), (heap.node x).key < key := by
    intro x hx
    rw [hkey x (mem_of_mem_filter hx)]
    exact lt_of_mem_below hx
  have habove : ∀ x ∈ sl.heap.notBelow key (c 0), key < (heap.node x).key := by
    intro x hx
    have hmem := mem_of_mem_filter hx
    rw [hkey x hmem]
    exact lt_of_le_of_ne (le_of_mem_notBelow hx) (Ne.symm (hnew x hmem))
  refine pairwise_append.mpr ⟨hold.filter _, ?_, ?_⟩
  · refine pairwise_cons.mpr ⟨fun x hx => ?_, hold.filter _⟩
    rw [hkey_new]
    exact habove x hx
  · intro x hx y hy
    rcases mem_cons.mp hy with rfl | hy
    · rw [hkey_new]
      exact hbelow x hx
    · exact lt_trans (hbelow x hx) (habove y hy)

theorem shape (hnew : ∀ p ∈ c 0, (sl.heap.node p).key ≠ key) (hpos : 1 ≤ lvl)
    (hlvl : lvl ≤ sl.maxLevel) :
    Shape { sl with
      heap := heap
      tail := if (sl.heap.notBelow key (c 0)).head? = none then some sl.heap.length else sl.tail
      level := max sl.level lvl
      length := sl.length + 1 } (inserted sl c key lvl) := by
  have hzero : inserted sl c key lvl 0 =
      sl.heap.below key (c 0) ++ sl.heap.length :: sl.heap.notBelow key (c 0) := if_pos hpos
  have hsplit := (h.sorted_at 0).below_append_notBelow key
  have hmem : ∀ x ∈ inserted sl c key lvl 0, x = sl.heap.length ∨ x ∈ c 0 := by
    intro x hx
    rw [hzero, mem_append, mem_cons] at hx
    rcases hx with hx | rfl | hx
    · exact Or.inr (mem_of_mem_filter hx)
    · exact Or.inl rfl
    · exact Or.inr (mem_of_mem_filter hx)
  constructor
  · exact Nat.le_trans h.level_pos (Nat.le_max_left _ _)
  · exact Nat.max_le.mpr ⟨h.level_le, hlvl⟩
  · exact fun i hi => hins.chain h hi
  · exact fun i => h.inserted_sublist key lvl i
  · intro i hi
    have hi := Nat.max_le.mp hi
    unfold inserted
    rw [if_neg (by omega)]
    exact h.empty i hi.1
  · intro x hx
    rw [hins.length]
    rcases hmem x hx with rfl | hx
    · exact Nat.lt_succ_self _
    · exact Nat.lt_succ_of_lt (h.valid x hx)
  · rw [hzero]
    exact hins.sorted h hnew
  · intro hx
    rcases hmem _ hx with heq | hx
    · exact Nat.ne_of_lt h.header_lt heq
    · exact h.header_notMem hx
  · have hlast : sl.tail = (sl.heap.below key (c 0) ++ sl.heap.notBelow key (c 0)).getLast? := by
      rw [hsplit, h.tail]
    rw [hzero, hlast]
    cases hlist : sl.heap.notBelow key (c 0) with
    | nil => simp
    | cons y r => simp
  · dsimp only
    rw [hzero, h.length]
    nth_rewrite 1 [← hsplit]
    rw [length_append, length_append, length_cons]
    omega

end Inserted

theorem addNode_eq {key : K} {value : V} {coin : Nat → Bool} {heap : Heap K V}
    (hlink : linkAll sl.heap.length (sl.heap ++ [⟨key, value,
        replicate (randomLevel sl.maxLevel coin) none⟩]) 0
      ((range' 0 (randomLevel sl.maxLevel coin)).map (pred sl c key)) = some heap)
    (hins : Inserted sl c key value (randomLevel sl.maxLevel coin) heap) :
    sl.addNode key value coin ((range sl.level).map (pred sl c key)) = some { sl with
        heap := heap
        tail := if (sl.heap.notBelow key (c 0)).head? = none then some sl.heap.length else sl.tail
        level := max sl.level (randomLevel sl.maxLevel coin)
        length := sl.length + 1 } := by
  have hmax : 1 ≤ sl.maxLevel := Nat.le_trans h.level_pos h.level_le
  have hfirst : heap.forward sl.heap.length 0 = some (sl.heap.notBelow key (c 0)).head? := by
    rw [hins.forward_new 0 (randomLevel_bounds hmax coin).1]
    exact h.forward_pred key hmax
  unfold SkipList.addNode
  simp only [h.update_eq, bind_eq_bind, hlink, bind_some, hfirst]

theorem sublist_of_le {i j : Nat} (hij : i ≤ j) : (c j).Sublist (c i) := by
  induction hij with
  | refl => exact Sublist.refl _
  | step _ ih => exact (h.sublist _).trans ih

theorem exists_height (x : Ptr) : ∃ t ≤ sl.level, ∀ j, x ∈ c j ↔ j < t := by
  have htop : ∃ j, x ∉ c j := ⟨sl.level, by rw [h.empty _ (le_refl _)]; exact not_mem_nil⟩
  classical
  refine ⟨Nat.find htop, Nat.find_min' htop ?_, fun j => ⟨fun hj => ?_, fun hj => ?_⟩⟩
  · rw [h.empty _ (le_refl _)]
    exact not_mem_nil
  · by_contra hge
    exact Nat.find_spec htop ((h.sublist_of_le (Nat.le_of_not_lt hge)).subset hj)
  · exact not_not.mp (Nat.find_min htop hj)

theorem split_at_key {key : K} {x : Ptr} {i : Nat} (hx : x ∈ c i)
    (hkey : (sl.heap.node x).key = key) :
    ∃ r, sl.heap.notBelow key (c i) = x :: r ∧ c i = sl.heap.below key (c i) ++ x :: r ∧
      (c i).erase x = sl.heap.below key (c i) ++ r := by
  obtain ⟨r, hr⟩ := (h.sorted_at i).notBelow_eq_cons hx hkey
  have hsplit : c i = sl.heap.below key (c i) ++ x :: r := by
    rw [← hr]
    exact ((h.sorted_at i).below_append_notBelow key).symm
  have hnot : x ∉ sl.heap.below key (c i) := by
    intro hmem
    have := lt_of_mem_below hmem
    rw [hkey] at this
    exact lt_irrefl _ this
  refine ⟨r, hr, hsplit, ?_⟩
  nth_rewrite 1 [hsplit]
  rw [erase_append_right _ hnot, erase_cons_head]

/-- The heap after the loop of `Delete` for the node `x`. -/
structure Removed (sl : SkipList K V) (c : Nat → List Ptr) (key : K) (x : Ptr)
    (heap : Heap K V) : Prop where
  same : Same sl.heap heap
  forward_pred : ∀ j, x ∈ c j → heap.forward (pred sl c key j) j = sl.heap.forward x j
  forward_other : ∀ z j, (x ∈ c j → z ≠ pred sl c key j) → heap.forward z j = sl.heap.forward z j

theorem exists_removed {key : K} {x : Ptr} (hkey : (sl.heap.node x).key = key) :
    ∃ heap, unlinkAll x sl.heap 0 ((range sl.level).map (pred sl c key)) = some heap ∧
      Removed sl c key x heap := by
  obtain ⟨t, htlevel, ht⟩ := h.exists_height x
  have hpred : ∀ j < t, sl.heap.forward (pred sl c key j) j = some (some x) := by
    intro j hj
    obtain ⟨r, hr, -⟩ := h.split_at_key ((ht j).mpr hj) hkey
    rw [h.forward_pred key (by have := h.level_le; omega), hr]
    rfl
  have hnext : ∀ j < t, ∃ next, sl.heap.forward x j = some next := by
    intro j hj
    have hchain : Lib.Chain (sl.heap.forward · j) sl.header (c j ++ []) := by
      rw [append_nil]
      exact h.chain j (by have := h.level_le; omega)
    obtain ⟨l, hl, -⟩ := hchain.resume (mem_cons_of_mem _ ((ht j).mpr hj))
    exact ⟨_, hl.next_eq⟩
  have hstop : t < sl.level →
      ∃ next, sl.heap.forward (pred sl c key t) t = some next ∧ next ≠ some x := by
    intro hlt
    refine ⟨_, h.forward_pred key (by have := h.level_le; omega), fun heq => ?_⟩
    exact absurd ((ht t).mp (mem_of_mem_filter (mem_of_head? heq))) (lt_irrefl t)
  obtain ⟨heap, hunlink, hsame, hforward⟩ := unlinkAll_spec hpred hnext htlevel hstop
  refine ⟨heap, by rw [range_eq_range']; exact hunlink, hsame, fun j hj => ?_, fun z j hz => ?_⟩
  · rw [hforward, if_pos ⟨(ht j).mp hj, rfl⟩]
  · rw [hforward, if_neg]
    exact fun hj => hz ((ht j).mpr hj.1) hj.2

namespace Removed

variable {key : K} {x : Ptr} {heap : Heap K V}

theorem chain (hrem : Removed sl c key x heap) (hkey : (sl.heap.node x).key = key) {i : Nat}
    (hi : i < sl.maxLevel) : Lib.Chain (heap.forward · i) sl.header ((c i).erase x) := by
  by_cases hx : x ∈ c i
  · obtain ⟨r, hr, -, herase⟩ := h.split_at_key hx hkey
    have hchain := h.chain_split key hi
    have hsub : (sl.header :: (sl.heap.below key (c i) ++ r)).Sublist (sl.header :: c i) := by
      rw [← herase]
      exact erase_sublist.cons_cons _
    rw [hr] at hchain
    rw [herase]
    refine hchain.remove ((h.nodup i).sublist hsub) (hrem.forward_pred i hx) ?_
    exact fun y _ hy => hrem.forward_other y i fun _ => hy
  · rw [erase_of_not_mem hx]
    have hold : ∀ z, heap.forward z i = sl.heap.forward z i :=
      fun z => hrem.forward_other z i fun hmem => absurd hmem hx
    exact (h.chain i hi).congr (hold _) fun z _ => hold z

theorem tail_eq (hx : x ∈ c 0) (hkey : (sl.heap.node x).key = key) :
    (if sl.tail = some x then
      (if pred sl c key 0 = sl.header then none else some (pred sl c key 0)) else sl.tail) =
      ((c 0).erase x).getLast? := by
  obtain ⟨r, -, hsplit, herase⟩ := h.split_at_key hx hkey
  have hlast : sl.tail = (x :: r).getLast? := by
    rw [h.tail, hsplit, getLast?_append]
    rfl
  rw [herase, hlast]
  have hnodup := (h.sorted_at 0).nodup
  rw [hsplit] at hnodup
  have hxr := (nodup_cons.mp (nodup_append.mp hnodup).2.1).1
  have hheader : sl.header ∉ sl.heap.below key (c 0) :=
    fun hmem => h.header_notMem (mem_of_mem_filter hmem)
  cases r with
  | nil =>
    -- the last node goes, and the one before it becomes the tail
    rw [append_nil, getLast?_singleton, if_pos rfl]
    unfold pred
    generalize sl.heap.below key (c 0) = l at hheader ⊢
    cases l with
    | nil => simp
    | cons a l =>
      have hne : l.getLastD a ≠ sl.header :=
        fun heq => hheader (heq ▸ getLastD_mem_cons)
      rw [getLastD_cons, if_neg hne, getLast?_cons, getLastD_eq_getLast?]
  | cons y r =>
    have hne : (x :: y :: r).getLast? ≠ some x := by
      exact fun heq => hxr (mem_of_getLast? heq)
    rw [if_neg hne, getLast?_append]
    rfl

theorem shape (hrem : Removed sl c key x heap) (hx : x ∈ c 0) (hkey : (sl.heap.node x).key = key)
    (hunlink : unlinkAll x sl.heap 0 ((range sl.level).map (pred sl c key)) = some heap) :
    ∃ sl', sl.removeNode x ((range sl.level).map (pred sl c key)) = some sl' ∧
      sl'.heap = heap ∧ Shape sl' fun i => (c i).erase x := by
  have hchain : ∀ i < sl.maxLevel, Lib.Chain (heap.forward · i) sl.header ((c i).erase x) :=
    fun i hi => hrem.chain h hkey hi
  obtain ⟨level, hlower, hpos, hle, hempty⟩ := lower_spec (h := heap) sl.header
    (fun j => ((c j).erase x).head?) h.level_pos
    fun j hj => (hchain j (Nat.lt_of_lt_of_le hj h.level_le)).next_eq
  have hfirst : ((range sl.level).map (pred sl c key))[0]? = some (pred sl c key 0) := by
    rw [getElem?_map, getElem?_range h.level_pos]
    rfl
  refine ⟨{ sl with
    heap := heap
    tail := if sl.tail = some x then
      (if pred sl c key 0 = sl.header then none else some (pred sl c key 0)) else sl.tail
    level := level
    length := sl.length - 1 }, ?_, rfl, ?_⟩
  · unfold SkipList.removeNode
    simp only [bind_eq_bind, hunlink, bind_some, hlower, hfirst]
  · constructor
    · exact hpos
    · exact Nat.le_trans hle h.level_le
    · exact hchain
    · exact fun i => (h.sublist i).erase x
    · intro i hi
      by_cases hlt : i < sl.level
      · exact head?_eq_none_iff.mp (hempty i hi hlt)
      · rw [h.empty i (Nat.le_of_not_lt hlt)]
        rfl
    · intro p hp
      rw [hrem.same.length]
      exact h.valid p (mem_of_mem_erase hp)
    · have hkey : ∀ p, (heap.node p).key = (sl.heap.node p).key :=
        fun p => congrArg Prod.fst (hrem.same.entry p)
      exact (h.sorted.sublist erase_sublist).imp fun {p q} hpq => by rwa [hkey, hkey]
    · exact fun hmem => h.header_notMem (mem_of_mem_erase hmem)
    · exact tail_eq h hx hkey
    · dsimp only
      have hlength := length_pos_of_mem hx
      rw [h.length, length_erase_of_mem hx]
      omega

end Removed

end Shape

end Solocoder.Skip
