import Solocoder.Lib.Chains
import Solocoder.Lib.Separators
import Solocoder.SkipList.List
import Mathlib.Data.List.Perm.Subperm

/-!
# The levels of a skip list

The chain of a level is part of the chain below it, and the lowest one is sorted. A search leaves
each level at the last node with a smaller key.
-/

namespace Solocoder.Skip

open List Option Heap

variable {K V : Type} [Inhabited K] [Inhabited V]

namespace Heap

/-- The record at an address. -/
def node (h : Heap K V) (p : Ptr) : Node K V := (h[p]?).getD (headerNode 0)

variable {h : Heap K V} {l : List Ptr}

theorem getElem?_eq_node {p : Ptr} (hp : p < h.length) : h[p]? = some (h.node p) := by
  unfold node
  rw [getElem?_eq_getElem hp]
  rfl

omit [Inhabited K] [Inhabited V] in
theorem lt_of_forward {x : Ptr} {i : Nat} {y : Option Ptr} (hx : h.forward x i = some y) :
    x < h.length := by
  unfold forward at hx
  obtain ⟨n, hn, -⟩ := bind_eq_some_iff.mp hx
  exact (List.getElem?_eq_some_iff.mp hn).1

variable [LinearOrder K]

def isBelow (h : Heap K V) (key : K) (p : Ptr) : Bool := (h.node p).key < key

def below (h : Heap K V) (key : K) (l : List Ptr) : List Ptr := l.filter (h.isBelow key)

def notBelow (h : Heap K V) (key : K) (l : List Ptr) : List Ptr :=
  l.filter fun p => !h.isBelow key p

/-- The keys ascend. -/
def Sorted (h : Heap K V) (l : List Ptr) : Prop :=
  l.Pairwise fun p q => (h.node p).key < (h.node q).key

theorem Sorted.below_append_notBelow (hl : h.Sorted l) (key : K) :
    h.below key l ++ h.notBelow key l = l := by
  refine Lib.filter_append_filter_not (hl.imp fun {p q} hpq hq => ?_)
  unfold isBelow at *
  simp only [decide_eq_true_eq] at *
  exact lt_trans hpq hq

theorem Sorted.nodup (hl : h.Sorted l) : l.Nodup :=
  hl.imp fun {p q} hpq heq => absurd hpq (by rw [heq]; exact lt_irrefl _)

section

variable {key : K} {x : Ptr}

theorem lt_of_mem_below (hx : x ∈ h.below key l) : (h.node x).key < key := by
  have := (mem_filter.mp hx).2
  unfold isBelow at this
  simpa using this

theorem le_of_mem_notBelow (hx : x ∈ h.notBelow key l) : key ≤ (h.node x).key := by
  have := (mem_filter.mp hx).2
  unfold isBelow at this
  simpa using this

theorem Sorted.notBelow_eq_cons (hl : h.Sorted l) (hx : x ∈ l)
    (hkey : (h.node x).key = key) : ∃ r, h.notBelow key l = x :: r := by
  have hmem : x ∈ h.notBelow key l := by
    refine mem_filter.mpr ⟨hx, ?_⟩
    unfold isBelow
    simp [hkey]
  cases hlist : h.notBelow key l with
  | nil =>
    rw [hlist] at hmem
    cases hmem
  | cons y r =>
    rw [hlist] at hmem
    rcases mem_cons.mp hmem with rfl | hrest
    · exact ⟨r, rfl⟩
    · have hsorted : h.Sorted (y :: r) := hlist ▸ hl.filter _
      have hlt := (pairwise_cons.mp hsorted).1 x hrest
      have hle : key ≤ (h.node y).key :=
        le_of_mem_notBelow (l := l) (by rw [hlist]; exact mem_cons_self)
      rw [hkey] at hlt
      exact absurd hlt (not_lt.mpr hle)

theorem Sorted.key_ne (hl : h.Sorted l)
    (hhead : ∀ y, (h.notBelow key l).head? = some y → (h.node y).key ≠ key) :
    ∀ p ∈ l, (h.node p).key ≠ key := by
  intro p hp heq
  obtain ⟨r, hr⟩ := hl.notBelow_eq_cons hp heq
  exact hhead p (by rw [hr]; rfl) heq

end

theorem advance_eq {key : K} {i fuel : Nat} {x : Ptr} {r : List Ptr}
    (hchain : Lib.Chain (h.forward · i) x (l ++ r)) (hvalid : ∀ p ∈ l ++ r, p < h.length)
    (hl : ∀ p ∈ l, (h.node p).key < key) (hr : ∀ p, r.head? = some p → ¬ (h.node p).key < key)
    (hfuel : l.length < fuel) : h.advance key i fuel x = some (l.getLastD x) := by
  induction l generalizing x fuel with
  | nil =>
    obtain ⟨fuel, rfl⟩ := Nat.exists_eq_add_one.2 hfuel
    have hnext : h.forward x i = some r.head? := hchain.next_eq
    unfold advance
    rw [hnext]
    cases r with
    | nil => rfl
    | cons y r =>
      have hy := getElem?_eq_node (hvalid y mem_cons_self)
      simp only [bind_eq_bind, bind_some, head?_cons, hy, if_neg (hr y rfl)]
      rfl
  | cons a l ih =>
    obtain ⟨fuel, rfl⟩ := Nat.exists_eq_add_one.2 (Nat.zero_lt_of_lt hfuel)
    have hnext : h.forward x i = some (some a) := hchain.1
    unfold advance
    have ha := getElem?_eq_node (hvalid a mem_cons_self)
    rw [hnext]
    simp only [bind_eq_bind, bind_some, ha, if_pos (hl a mem_cons_self)]
    rw [getLastD_cons]
    exact ih hchain.2 (fun p hp => hvalid p (mem_cons_of_mem a hp))
      (fun p hp => hl p (mem_cons_of_mem a hp)) (Nat.lt_of_succ_lt_succ hfuel)

end Heap

variable [LinearOrder K]

/-- The levels of a skip list; `c i` are the nodes of level `i`. -/
structure Shape (sl : SkipList K V) (c : Nat → List Ptr) : Prop where
  level_pos : 1 ≤ sl.level
  level_le : sl.level ≤ sl.maxLevel
  chain : ∀ i < sl.maxLevel, Lib.Chain (sl.heap.forward · i) sl.header (c i)
  sublist : ∀ i, (c (i + 1)).Sublist (c i)
  empty : ∀ i, sl.level ≤ i → c i = []
  valid : ∀ p ∈ c 0, p < sl.heap.length
  sorted : sl.heap.Sorted (c 0)
  header_notMem : sl.header ∉ c 0
  tail : sl.tail = (c 0).getLast?
  length : sl.length = (c 0).length

namespace Shape

variable {sl : SkipList K V} {c : Nat → List Ptr} (h : Shape sl c)
include h

theorem sublist_zero (i : Nat) : (c i).Sublist (c 0) := by
  induction i with
  | zero => exact Sublist.refl _
  | succ i ih => exact (h.sublist i).trans ih

theorem sorted_at (i : Nat) : sl.heap.Sorted (c i) :=
  h.sorted.sublist (h.sublist_zero i)

theorem valid_at (i : Nat) : ∀ p ∈ c i, p < sl.heap.length :=
  fun p hp => h.valid p ((h.sublist_zero i).subset hp)

theorem header_lt : sl.header < sl.heap.length :=
  lt_of_forward (h.chain 0 (Nat.lt_of_lt_of_le h.level_pos h.level_le)).next_eq

theorem nodup (i : Nat) : (sl.header :: c i).Nodup :=
  nodup_cons.mpr
    ⟨fun hmem => h.header_notMem ((h.sublist_zero i).subset hmem), (h.sorted_at i).nodup⟩

theorem length_lt (i : Nat) : (c i).length < sl.heap.length := by
  have hsubset : sl.header :: c i ⊆ range sl.heap.length := by
    rw [cons_subset, mem_range]
    exact ⟨h.header_lt, fun p hp => mem_range.mpr (h.valid_at i p hp)⟩
  have := (subperm_of_subset (h.nodup i) hsubset).length_le
  rwa [length_cons, length_range] at this

def pred (sl : SkipList K V) (c : Nat → List Ptr) (key : K) (i : Nat) : Ptr :=
  (sl.heap.below key (c i)).getLastD sl.header

variable {i : Nat}

theorem chain_split (key : K) (hi : i < sl.maxLevel) :
    Lib.Chain (sl.heap.forward · i) sl.header
      (sl.heap.below key (c i) ++ sl.heap.notBelow key (c i)) := by
  rw [(h.sorted_at i).below_append_notBelow key]
  exact h.chain i hi

theorem descend_eq_of_mem (key : K) (hi : i ≤ sl.maxLevel) {x : Ptr}
    (hx : x ∈ sl.header :: sl.heap.below key (c i)) :
    sl.heap.descend key i x =
      some ((range i).map (pred sl c key), if i = 0 then x else pred sl c key 0) := by
  induction i generalizing x with
  | zero => rfl
  | succ i ih =>
    have hx : x ∈ sl.header :: sl.heap.below key (c i) := by
      rcases mem_cons.mp hx with rfl | hx
      · exact mem_cons_self
      · exact mem_cons_of_mem _ (((h.sublist i).filter _).subset hx)
    -- the search goes on from `x`, which is in the chain of this level too
    obtain ⟨l, hchain, hlast, hsuffix⟩ := (h.chain_split key (i := i) (by omega)).resume hx
    have hadvance : sl.heap.advance key i sl.heap.length x = some (pred sl c key i) := by
      unfold pred
      rw [← hlast]
      refine advance_eq hchain ?_ ?_ ?_ ?_
      · intro p hp
        apply h.valid_at i
        rcases mem_append.mp hp with hp | hp
        · exact mem_of_mem_filter (hsuffix.subset hp)
        · exact mem_of_mem_filter hp
      · exact fun p hp => lt_of_mem_below (hsuffix.subset hp)
      · exact fun p hp => not_lt.mpr (le_of_mem_notBelow (mem_of_head? hp))
      · calc l.length ≤ (sl.heap.below key (c i)).length := hsuffix.length_le
          _ ≤ (c i).length := length_filter_le _ _
          _ < sl.heap.length := h.length_lt i
    have hrest := ih (by omega) (x := pred sl c key i) getLastD_mem_cons
    unfold descend
    simp only [bind_eq_bind, hadvance, bind_some, hrest]
    rw [range_succ, map_append, map_singleton, if_neg (Nat.succ_ne_zero i)]
    split
    next hzero =>
      subst hzero
      rfl
    · rfl

theorem descend_eq (key : K) :
    sl.heap.descend key sl.level sl.header =
      some ((range sl.level).map (pred sl c key), pred sl c key 0) := by
  rw [h.descend_eq_of_mem key h.level_le mem_cons_self, if_neg]
  have := h.level_pos
  omega

theorem chain_pred (key : K) (hi : i < sl.maxLevel) :
    Lib.Chain (sl.heap.forward · i) (pred sl c key i) (sl.heap.notBelow key (c i)) :=
  (h.chain_split key hi).behind

theorem forward_pred (key : K) (hi : i < sl.maxLevel) :
    sl.heap.forward (pred sl c key i) i = some (sl.heap.notBelow key (c i)).head? :=
  (h.chain_pred key hi).next_eq

end Shape

end Solocoder.Skip
