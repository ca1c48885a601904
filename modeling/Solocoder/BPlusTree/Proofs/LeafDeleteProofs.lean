import Solocoder.BPlusTree.Proofs.LeafProofs
import Solocoder.BPlusTree.Proofs.RemoveProofs

/-!
# `Delete`

The entry goes from its leaf, and the separator before the leaf follows its first key. A leaf with
an entry too few borrows one or is merged, which takes a node from the levels above.
-/

namespace Solocoder.BPlus

open Lib BPlusTree List Function Option Shape Apart

variable {K V : Type}

namespace BPlusTree

variable {t : BPlusTree K V} {u v r : Ptr} {mk : K} {mv : V} {i : Nat}

theorem borrowFromLeftLeaf_eq {kl : List K} {vl : List V} (hp : (t.heap v).parent = some r)
    (hkl : (t.heap u).keys = kl ++ [mk]) (hvl : (t.heap u).values = vl ++ [mv]) (huv : u ≠ v) :
    t.borrowFromLeftLeaf v u (i + 1) = ((t.setEntries u kl vl).setEntries v
      (mk :: (t.heap v).keys) (mv :: (t.heap v).values)).setSeparator r i mk := by
  have hlend : ((t.modify u fun n =>
      { n with keys := n.keys.dropLast, values := n.values.dropLast }).modify v fun n =>
        { n with keys := mk :: n.keys, values := mv :: n.values }) =
      (t.setEntries u kl vl).setEntries v (mk :: (t.heap v).keys) (mv :: (t.heap v).values) := by
    unfold setEntries modify
    simp [hkl, hvl, update_of_ne huv.symm]
  simp only [borrowFromLeftLeaf, hkl, hvl, getLast?_concat, bind_eq_bind, bind_some, hlend]
  simp [setEntries_of_ne huv.symm, hp]

theorem borrowFromRightLeaf_eq {k0 : K} {kr : List K} {vr : List V}
    (hp : (t.heap u).parent = some r) (hi : i < (t.heap r).keys.length)
    (hkr : (t.heap v).keys = mk :: k0 :: kr) (hvr : (t.heap v).values = mv :: vr) (huv : v ≠ u)
    (hru : r ≠ u) (hrv : r ≠ v) :
    t.borrowFromRightLeaf u v i = ((t.setEntries v (k0 :: kr) vr).setEntries u
      ((t.heap u).keys ++ [mk]) ((t.heap u).values ++ [mv])).setSeparator r i k0 := by
  have hlend : ((t.modify v fun n =>
      { n with keys := n.keys.tail, values := n.values.tail }).modify u fun n =>
        { n with keys := n.keys ++ [mk], values := n.values ++ [mv] }) =
      (t.setEntries v (k0 :: kr) vr).setEntries u ((t.heap u).keys ++ [mk])
        ((t.heap u).values ++ [mv]) := by
    unfold setEntries modify
    simp [hkr, hvr, update_of_ne huv.symm]
  simp only [borrowFromRightLeaf, hkr, hvr, head?_cons, bind_eq_bind, bind_some, hlend]
  simp [setEntries_of_ne huv, setEntries_of_ne huv.symm, setEntries_of_ne hru, setEntries_of_ne hrv, hp, hi]

/-- The tree in which the leaf `left` has taken over all of `right` and its place in the chain. -/
def absorbLeaf (t : BPlusTree K V) (left right : Ptr) : BPlusTree K V :=
  (t.modify left fun n =>
    { n with keys := n.keys ++ (t.heap right).keys, values := n.values ++ (t.heap right).values
             next := (t.heap right).next }).setPrev (t.heap right).next left

theorem absorbLeaf_heap (t : BPlusTree K V) {left right : Ptr} (hn : (t.heap right).next ≠ some left)
    (q : Ptr) : (t.absorbLeaf left right).heap q =
      if q = left then
        { t.heap left with
          keys := (t.heap left).keys ++ (t.heap right).keys
          values := (t.heap left).values ++ (t.heap right).values
          next := (t.heap right).next }
      else
        { t.heap q with
          prev := if (t.heap right).next = some q then some left else (t.heap q).prev } := by
  unfold absorbLeaf
  rw [setPrev_heap]
  by_cases hq : q = left
  · subst hq
    simp [hn]
  · rw [modify_of_ne hq]
    split <;> rfl

theorem mergeLeaf_eq (t : BPlusTree K V) (left right parent : Ptr) (i : Nat) :
    t.mergeLeaf left right parent i =
      removeChildFromInternal t.fresh ⟨t.absorbLeaf left right, parent, i, i + 1⟩ := by
  have hfresh : (t.absorbLeaf left right).fresh = t.fresh := (setPrev_rest _ _ _).1
  rw [← hfresh]
  rfl

end BPlusTree

variable [LinearOrder K]

def Taken (key : K) (E E' : List (K × V)) : Prop :=
  ∃ E1 w E2, E = E1 ++ (key, w) :: E2 ∧ E' = E1 ++ E2

/-- The shape of a tree whose leaf `p` may have an entry too few. -/
structure Short (t : BPlusTree K V) (m : Nat) (Ls : List (List Ptr)) (L : List Ptr) (S : List K)
    (p : Ptr) : Prop where
  half : 1 ≤ m
  maxKeys : t.maxKeys = 2 * m
  upper : Upper t.heap m t.root Ls L S
  leaves : Leaves t.heap (m - 1) (2 * m) L S
  others : ∀ q ∈ L, q ≠ p → m ≤ (t.heap q).keys.length
  nodup : (L ++ Ls.flatten).Nodup
  bound : ∀ q ∈ L ++ Ls.flatten, q < t.fresh

section Short

variable {t : BPlusTree K V} {m : Nat} {Ls : List (List Ptr)} {L A B : List Ptr} {p : Ptr}
  {S SA SB : List K}

theorem Short.shape (hs : Short t m Ls L S p) (hp : m ≤ (t.heap p).keys.length) :
    Shape t m Ls L S := by
  refine ⟨hs.half, hs.maxKeys, hs.upper, ⟨fun q hq => ?_, hs.leaves.linked, hs.leaves.sorted⟩,
    hs.nodup, hs.bound⟩
  refine { hs.leaves.leaf q hq with min := (leastLeaf_le m Ls).trans ?_ }
  by_cases hqp : q = p
  · rw [hqp]
    exact hp
  · exact hs.others q hq hqp

variable {ka kb : List K} {key : K} {va vb : List V} {w : V} (hk : (t.heap p).keys = ka ++ key :: kb)
  (hv : (t.heap p).values = va ++ w :: vb) (hva : va.length = ka.length)
include hk hv hva

/-- A leaf gives up an entry. -/
theorem Leaves.remove {lo hi : Nat} (hl : Leaves t.heap lo hi (A ++ p :: B) (SA ++ SB))
    (hnd : (A ++ p :: B).Nodup) (hlen : SA.length = A.length) :
    Leaves (t.setEntries p (ka ++ kb) (va ++ vb)).heap (lo - 1) hi (A ++ p :: B) (SA ++ SB) := by
  have hp := hl.leaf p (by simp)
  have hvals := hp.values
  have hmin := hp.min
  have hmax := hp.max
  have hsort := hl.sorted
  rw [line_split hlen, hk] at hsort
  rw [hk] at hmin hmax
  rw [hk, hv] at hvals
  simp only [length_append, length_cons] at hmin hmax hvals
  refine hl.setEntries hnd hlen ?_ (Nat.sub_le _ _) ?_ ?_ ?_
  · simp only [length_append]
    omega
  · simp only [length_append]
    omega
  · simp only [length_append]
    omega
  · refine hsort.sublist ((Sublist.refl _).append (Sublist.append ?_ (Sublist.refl _)))
    exact ((Sublist.refl ka).append (sublist_cons_self key kb)).map mark

theorem Shape.short {L1 : List Ptr} (hs : Shape t m (L1 :: Ls) (A ++ p :: B) (SA ++ SB))
    (hlen : SA.length = A.length) : Short (t.setEntries p (ka ++ kb) (va ++ vb)) m (L1 :: Ls)
      (A ++ p :: B) (SA ++ SB) p := by
  refine ⟨hs.half, hs.maxKeys, (LeafStep.setEntries (by simp)).upper hs.upper hs.nodup hs.bound,
    hs.leaves.remove hk hv hva (nodup_append.1 hs.nodup).1 hlen, fun q hq hqp => ?_, hs.nodup,
    hs.bound⟩
  rw [setEntries_of_ne hqp]
  exact (hs.leaves.leaf q hq).min

omit [LinearOrder K] in
theorem entries_remove (hnd : (A ++ p :: B).Nodup) : Taken key (entries t.heap (A ++ p :: B))
    (entries (t.setEntries p (ka ++ kb) (va ++ vb)).heap (A ++ p :: B)) := by
  refine ⟨entries t.heap A ++ ka.zip va, w, kb.zip vb ++ entries t.heap B, ?_, ?_⟩
  · rw [entries_split, hk, hv, zip_middle hva.symm]
    simp only [append_assoc, cons_append]
  · rw [entries_setEntries hnd, zip_append hva.symm]
    simp only [append_assoc]

end Short

/-! ## Two neighbouring leaves -/

section Pairs

variable {t t2 : BPlusTree K V} {h : Ptr → Node K V} {m : Nat} {Ls : List (List Ptr)}
  {L1 L A B : List Ptr} {u v p r : Ptr} {s : K} {S SA SB : List K} {i : Nat}

omit [LinearOrder K] in
theorem line_pair (hlen : SA.length = A.length) :
    line h (A ++ u :: v :: B) (SA ++ s :: SB) = lefts (marks h A) (SA.map sep) ++
      ((h u).keys.map mark ++ sep s :: ((h v).keys.map mark ++
        rights (SB.map sep) (marks h B))) := by
  rw [line_split hlen, map_cons]
  rfl

omit [LinearOrder K] in
theorem entries_pair : entries h (A ++ u :: v :: B) = entries h A ++
    ((h u).keys.zip (h u).values ++ ((h v).keys.zip (h v).values ++ entries h B)) := by
  rw [entries_split]
  rfl

theorem pairwise_raise {α : Type} [LinearOrder α] {X Y : List α} {b b' c : α} (hb : b ≤ b')
    (hc : b' < c) (hs : (X ++ b :: c :: Y).Pairwise (· < ·)) :
    (X ++ b' :: c :: Y).Pairwise (· < ·) := by
  obtain ⟨h1, h2, h3⟩ := pairwise_append.1 hs
  obtain ⟨-, h4⟩ := pairwise_cons.1 h2
  refine pairwise_append.2 ⟨h1, pairwise_cons.2 ⟨forall_mem_cons.2 ⟨hc, ?_⟩, h4⟩, fun x hx => ?_⟩
  · exact fun y hy => hc.trans ((pairwise_cons.1 h4).1 y hy)
  · obtain ⟨hxb, hxY⟩ := forall_mem_cons.1 (h3 x hx)
    exact forall_mem_cons.2 ⟨hxb.trans_le hb, hxY⟩

theorem Short.pair (hs : Short t m (L1 :: Ls) L S p) (hst : LeafStep t t2 L)
    (hp : Pair t m Ls L1 L S r A u v B SA s SB i) : Pair t2 m Ls L1 L S r A u v B SA s SB i := by
  refine hp.congr hst.root (fun q hq => hst.rest q (hs.bound q (mem_append_right _ hq)) fun h => ?_)
    fun q hq => hst.parent q (hs.bound q hq)
  exact (nodup_append.1 hs.nodup).2.2 q h q hq rfl

theorem Short.raise {k : List K} {k0 : K} (hs : Short t m (L1 :: Ls) L S p)
    (hp : Pair t m Ls L1 L S r A u v B SA s SB i) (hk : (t.heap v).keys = k0 :: k) :
    ∃ t', t.setSeparator r i k0 = some t' ∧ Short t' m (L1 :: Ls) L (SA ++ k0 :: SB) p ∧
      (∀ q ∈ L, t'.heap q = t.heap q) ∧ t'.count = t.count := by
  obtain ⟨t', ht', h1, h2⟩ :=
    hp.setSeparator hs.nodup (fun q hq => hs.bound q (mem_append_right _ hq)) k0
  obtain ⟨rfl, rfl, hlen, -⟩ := hp
  have hap := of_nodup hs.nodup
  have hold : ∀ q ∈ A ++ u :: v :: B, t'.heap q = t.heap q := fun q hq =>
    h2.rest q (hs.bound q (mem_append_left _ hq))
      (fun h => (mem_append.1 h).elim (hap.low q hq) (hap.lows q hq)) (by simp)
  have hsort : (line t.heap (A ++ u :: v :: B) (SA ++ k0 :: SB)).Pairwise (· < ·) := by
    have hsort := hs.leaves.sorted
    rw [line_pair hlen, hk, ← append_assoc] at hsort ⊢
    have hle : sep s ≤ sep k0 := by
      have hlt := (pairwise_cons.1 (pairwise_append.1 hsort).2.1).1 (mark k0) (by simp)
      rcases (sep_lt_mark.1 hlt).lt_or_eq with h | rfl
      · exact (sep_lt_sep.2 h).le
      · exact le_rfl
    exact pairwise_raise hle (sep_lt_mark.2 le_rfl) hsort
  refine ⟨t', ht', ?_, hold, h2.count⟩
  have hleaves : Leaves t.heap (m - 1) (2 * m) (A ++ u :: v :: B) (SA ++ k0 :: SB) :=
    ⟨hs.leaves.leaf, hs.leaves.linked, hsort⟩
  exact
    { half := hs.half
      maxKeys := h2.maxKeys.trans hs.maxKeys
      upper := h1
      leaves := hleaves.congr fun q hq => by rw [hold q hq]
      others := fun q hq hqp => by rw [hold q hq]; exact hs.others q hq hqp
      nodup := hs.nodup
      bound := fun q hq => (hs.bound q hq).trans_le h2.fresh }

theorem Short.parent {A' B' a b : List Ptr} {SA' SB' k1 k2 : List K}
    (hs : Short t m (L1 :: Ls) (A ++ v :: B) S p)
    (hl : Located t.heap m t.root Ls L1 A v B S A' r B' a b SA' SB' k1 k2) :
    (t.heap v).parent = some r ∧ t.findNodeIndex v = some a.length := by
  have hpar := (hl.internal r (by simp)).parents v (by simp [hl.children])
  refine ⟨hpar, findNodeIndex_eq hpar hl.children ?_⟩
  have hnd := (nodup_append.1 hs.nodup).1.sublist hl.children_sublist
  exact fun h => ne_around hnd (.inl h) rfl

/-- `updateParentSeparatorAfterLeafDelete` sets the separator before the leaf to its first key. -/
theorem updateParentSeparator_spec (hs : Short t m (L1 :: Ls) (A ++ p :: B) S p) :
    ∃ t' S', t.updateParentSeparatorAfterLeafDelete p = some t' ∧
      Short t' m (L1 :: Ls) (A ++ p :: B) S' p ∧
      (∀ q ∈ A ++ p :: B, t'.heap q = t.heap q) ∧ t'.count = t.count := by
  obtain ⟨A', r, B', a, b, SA', SB', k1, k2, hl⟩ := hs.upper.locate rfl
  obtain ⟨hpar, hidx⟩ := hs.parent hl
  have hkeep : t.updateParentSeparatorAfterLeafDelete p = some t →
      ∃ t' S', t.updateParentSeparatorAfterLeafDelete p = some t' ∧
        Short t' m (L1 :: Ls) (A ++ p :: B) S' p ∧
        (∀ q ∈ A ++ p :: B, t'.heap q = t.heap q) ∧ t'.count = t.count :=
    fun h => ⟨t, S, h, hs, fun _ _ => rfl, rfl⟩
  rcases eq_nil_or_concat a with ha | ⟨a', l, ha⟩
  · refine hkeep ?_
    simp [updateParentSeparatorAfterLeafDelete, hidx, ha]
  · cases hk : (t.heap p).keys with
    | nil =>
      refine hkeep ?_
      simp [updateParentSeparatorAfterLeafDelete, hk]
    | cons k0 k =>
      obtain rfl : a = a' ++ [l] := by simpa using ha
      obtain ⟨A0, s, k1', rfl, rfl, hl'⟩ := hl.left_pair
      obtain ⟨SA, SB, hP⟩ := hl'.pair
      rw [append_assoc] at hs ⊢
      obtain ⟨t', h1, h2⟩ := hs.raise hP hk
      refine ⟨t', _, ?_, h2⟩
      simp [updateParentSeparatorAfterLeafDelete, hpar, hidx, hk, h1]

/-- Entries are moved between the leaves `u` and `v`. -/
structure LeafShift (t t2 : BPlusTree K V) (u v : Ptr) (ku kv : List K) (vu vv : List V) : Prop where
  fresh : t2.fresh = t.fresh
  root : t2.root = t.root
  maxKeys : t2.maxKeys = t.maxKeys
  count : t2.count = t.count
  left : t2.heap u = { t.heap u with keys := ku, values := vu }
  right : t2.heap v = { t.heap v with keys := kv, values := vv }
  old : ∀ q, q ≠ u → q ≠ v → t2.heap q = t.heap q

section Redistribute

variable {ku kv : List K} {vu vv : List V}

omit [LinearOrder K] in
theorem LeafShift.fixed (hsh : LeafShift t t2 u v ku kv vu vv) (q : Ptr) :
    t2.heap q = { t.heap q with keys := (t2.heap q).keys, values := (t2.heap q).values } := by
  by_cases hu : q = u
  · rw [hu, hsh.left]
  · by_cases hv : q = v
    · rw [hv, hsh.right]
    · rw [hsh.old q hu hv]

omit [LinearOrder K] in
theorem LeafShift.step (hsh : LeafShift t t2 u v ku kv vu vv) : LeafStep t t2 (A ++ u :: v :: B) := by
  refine ⟨hsh.fresh.ge, hsh.root, hsh.maxKeys, fun q _ => by rw [hsh.fixed], fun q _ hq => ?_⟩
  exact hsh.old q (fun e => hq (by simp [e])) fun e => hq (by simp [e])

theorem Short.other {S : List K} {q : Ptr} (hs : Short t m Ls (A ++ u :: v :: B) S p)
    (hp : p = u ∨ p = v) (hq : q ∈ A ∨ q ∈ B) : Leaf t.heap m (2 * m) q := by
  have hqL : q ∈ A ++ u :: v :: B := mem_around (hq.imp_right (mem_cons_of_mem v))
  have hqp : q ≠ p := by
    obtain ⟨e1, e2⟩ := ne_around_pair (nodup_append.1 hs.nodup).1 hq
    rcases hp with rfl | rfl <;> assumption
  exact { hs.leaves.leaf q hqL with min := hs.others q hqL hqp }

/-- Entries have moved between two leaves, and the key between them was replaced. -/
theorem Short.redistribute (hs : Short t m (L1 :: Ls) L S p)
    (hpr : Pair t m Ls L1 L S r A u v B SA s SB i) (hp : p = u ∨ p = v) {s' : K}
    (hsh : LeafShift t t2 u v ku kv vu vv)
    (hku : vu.length = ku.length ∧ m ≤ ku.length ∧ ku.length ≤ 2 * m)
    (hkv : vv.length = kv.length ∧ m ≤ kv.length ∧ kv.length ≤ 2 * m)
    (hent : ku.zip vu ++ kv.zip vv =
      (t.heap u).keys.zip (t.heap u).values ++ (t.heap v).keys.zip (t.heap v).values)
    (hsort : (lefts (marks t.heap A) (SA.map sep) ++ (ku.map mark ++ sep s' ::
      (kv.map mark ++ rights (SB.map sep) (marks t.heap B)))).Pairwise (· < ·)) :
    ∃ t' S', t2.setSeparator r i s' = some t' ∧ Shape t' m (L1 :: Ls) L S' ∧
      entries t'.heap L = entries t.heap L ∧ t'.count = t.count := by
  have hb2 : ∀ q ∈ L ++ (L1 :: Ls).flatten, q < t2.fresh := hsh.fresh ▸ hs.bound
  obtain rfl := hpr.level
  have hndL := (nodup_append.1 hs.nodup).1
  obtain ⟨t', ht', h1, h2⟩ :=
    (hs.pair hsh.step hpr).setSeparator hs.nodup (fun q hq => hb2 q (mem_append_right _ hq)) s'
  have hsame : ∀ q, q ∈ A ∨ q ∈ B → SameEntries (t.heap q) (t2.heap q) := fun q hq =>
    .of_eq (hsh.old q (ne_around_pair hndL hq).1 (ne_around_pair hndL hq).2)
  have hleaf : ∀ q, q ∈ A ∨ q ∈ B → Leaf t2.heap m (2 * m) q := fun q hq =>
    (hs.other hp hq).congr (hsame q hq)
  have hul := hs.leaves.leaf u (by simp)
  have hvl := hs.leaves.leaf v (by simp)
  have hleaves : Leaves t2.heap (leastLeaf m (L1 :: Ls)) (2 * m) (A ++ u :: v :: B) (SA ++ s' :: SB) := by
    refine ⟨fun q hq => ?_, hs.leaves.linked.congr fun q hq => ?_, ?_⟩
    · rw [mem_append, mem_cons, mem_cons] at hq
      rcases hq with hq | rfl | rfl | hq
      · exact hleaf q (.inl hq)
      · exact .of_eq hsh.left hul.leaf hul.children hku.1 hku.2.1 hku.2.2
      · exact .of_eq hsh.right hvl.leaf hvl.children hkv.1 hkv.2.1 hkv.2.2
      · exact hleaf q (.inr hq)
    · rw [hsh.fixed]
      exact ⟨rfl, rfl⟩
    · rw [line_pair hpr.lenA, hsh.left, hsh.right, marks_congr fun q hq => hsame q (.inl hq),
        marks_congr fun q hq => hsame q (.inr hq)]
      exact hsort
  obtain ⟨h3, h4⟩ := of_frame hs.half (hsh.maxKeys.trans hs.maxKeys) h1 h2 hs.nodup
    (fun q hq => hb2 q (mem_append_left _ hq)) hleaves
  refine ⟨t', _, ht', h3, h4.trans ?_, h2.count.trans hsh.count⟩
  rw [entries_pair, entries_pair, hsh.left, hsh.right, entries_congr fun q hq => hsame q (.inl hq),
    entries_congr fun q hq => hsame q (.inr hq), ← append_assoc (ku.zip vu), hent]
  simp [append_assoc]

omit [LinearOrder K] in
theorem leafShift_setEntries (huv : u ≠ v) :
    LeafShift t ((t.setEntries u ku vu).setEntries v kv vv) u v ku kv vu vv :=
  { fresh := rfl, root := rfl, maxKeys := rfl, count := rfl
    left := by rw [setEntries_of_ne huv, setEntries_self]
    right := by rw [setEntries_self, setEntries_of_ne huv.symm]
    old := fun q h1 h2 => by rw [setEntries_of_ne h2, setEntries_of_ne h1] }

omit [LinearOrder K] in
theorem LeafShift.symm (hsh : LeafShift t t2 u v ku kv vu vv) : LeafShift t t2 v u kv ku vv vu :=
  { hsh with left := hsh.right, right := hsh.left, old := fun q h1 h2 => hsh.old q h2 h1 }

end Redistribute

section Rebalance

omit [LinearOrder K] in
theorem Pair.ne (hp : Pair t m Ls L1 L S r A u v B SA s SB i)
    (hnd : (L ++ (L1 :: Ls).flatten).Nodup) : u ≠ v ∧ r ≠ u ∧ r ≠ v := by
  obtain ⟨rfl, -, -, _, _, _, _, _, _, _, _, -, hl⟩ := hp
  have hap := of_nodup hnd
  have hrL : r ∈ L1 := by simp [hl.level]
  refine ⟨?_, fun e => hap.low u (by simp) (e ▸ hrL), fun e => hap.low v (by simp) (e ▸ hrL)⟩
  rintro rfl
  exact ne_around (nodup_append.1 hnd).1 (.inr (by simp)) rfl

theorem Short.borrow_left (hs : Short t m (L1 :: Ls) L S v)
    (hp : Pair t m Ls L1 L S r A u v B SA s SB i) (hu : m < (t.heap u).keys.length)
    (hv : (t.heap v).keys.length + 1 = m) :
    ∃ t' S', t.borrowFromLeftLeaf v u (i + 1) = some t' ∧ Shape t' m (L1 :: Ls) L S' ∧
      entries t'.heap L = entries t.heap L ∧ t'.count = t.count := by
  obtain ⟨huv, -, -⟩ := hp.ne hs.nodup
  obtain ⟨-, hpar, -⟩ := hp.parent_eq
  obtain ⟨rfl, rfl⟩ := And.intro hp.level hp.seps
  have hul := hs.leaves.leaf u (by simp)
  have hvl := hs.leaves.leaf v (by simp)
  obtain ⟨kl, mk, hkl⟩ := exists_getLast (Nat.zero_lt_of_lt hu)
  obtain ⟨vl, mv, hvl'⟩ := exists_getLast (l := (t.heap u).values)
    (by rw [hul.values]; exact Nat.zero_lt_of_lt hu)
  have hlu := hul.values
  have hmax := hul.max
  have hlv := hvl.values
  rw [hkl, hvl'] at hlu
  rw [hkl] at hu hmax
  simp only [length_append, length_singleton] at hlu hu hmax
  rw [borrowFromLeftLeaf_eq hpar hkl hvl' huv]
  refine hs.redistribute hp (.inr rfl) (leafShift_setEntries huv) ⟨by omega, by omega, by omega⟩
    ⟨by simpa using hlv, by simp only [length_cons]; omega,
      by simp only [length_cons]; omega⟩ ?_ ?_
  · rw [hkl, hvl', zip_middle (by omega)]
    simp
  · have hsort := hs.leaves.sorted
    rw [line_pair hp.lenA, hkl] at hsort
    refine pairwise_separate (by rintro rfl; simp at hu; omega) (hsort.sublist ?_)
    refine (Sublist.refl _).append ?_
    simp only [map_append, map_cons, map_nil, append_assoc, cons_append, nil_append]
    exact (Sublist.refl _).append ((sublist_cons_self _ _).cons_cons _)

theorem Short.borrow_right (hs : Short t m (L1 :: Ls) L S u)
    (hp : Pair t m Ls L1 L S r A u v B SA s SB i) (hv : m < (t.heap v).keys.length)
    (hu : (t.heap u).keys.length + 1 = m) :
    ∃ t' S', t.borrowFromRightLeaf u v i = some t' ∧ Shape t' m (L1 :: Ls) L S' ∧
      entries t'.heap L = entries t.heap L ∧ t'.count = t.count := by
  obtain ⟨huv, hru, hrv⟩ := hp.ne hs.nodup
  obtain ⟨hpar, -, hkey⟩ := hp.parent_eq
  obtain ⟨rfl, rfl⟩ := And.intro hp.level hp.seps
  have hul := hs.leaves.leaf u (by simp)
  have hvl := hs.leaves.leaf v (by simp)
  obtain ⟨mk, k', hk'⟩ := exists_cons_of_length_pos (Nat.zero_lt_of_lt hv)
  obtain ⟨k0, kr, rfl⟩ : ∃ k0 kr, k' = k0 :: kr := by
    rw [hk', length_cons] at hv
    exact exists_cons_of_length_pos (by omega)
  obtain ⟨mv, vr, hvr⟩ := exists_cons_of_length_pos (l := (t.heap v).values)
    (by rw [hvl.values]; exact Nat.zero_lt_of_lt hv)
  have hlv := hvl.values
  have hmax := hvl.max
  have hlu := hul.values
  rw [hk', hvr] at hlv
  rw [hk'] at hv hmax
  simp only [length_cons] at hlv hv hmax
  rw [borrowFromRightLeaf_eq hpar (List.getElem?_eq_some_iff.1 hkey).1 hk' hvr huv.symm hru hrv]
  refine hs.redistribute hp (.inl rfl) (leafShift_setEntries huv.symm).symm
    ⟨by simpa using hlu, by simp only [length_append, length_singleton]; omega,
      by simp only [length_append, length_singleton]; omega⟩
    ⟨by simp only [length_cons]; omega, by simp only [length_cons]; omega,
      by simp only [length_cons]; omega⟩ ?_ ?_
  · rw [hk', hvr, zip_middle hlu.symm]
    simp
  · have hsort := hs.leaves.sorted
    rw [line_pair hp.lenA, hk'] at hsort
    refine pairwise_separate (by simp) (hsort.sublist ?_)
    refine (Sublist.refl _).append ?_
    simp only [map_append, map_cons, append_assoc, cons_append, nil_append]
    exact (Sublist.refl _).append (sublist_cons_self _ _)

omit [LinearOrder K] in
theorem Linked.next_right (hl : Linked h none (A ++ u :: v :: B) none) : (h v).next = B.head? := by
  have hl' : Linked h none ((A ++ [u]) ++ v :: B) none := by simpa using hl
  exact hl'.around.2

theorem Short.absorb (hs : Short t m (L1 :: Ls) (A ++ u :: v :: B) (SA ++ s :: SB) p)
    (hp : p = u ∨ p = v) (hlen : SA.length = A.length)
    (hsum : (t.heap u).keys.length + (t.heap v).keys.length + 1 = 2 * m) :
    LeafStep t (t.absorbLeaf u v) (A ++ u :: v :: B) ∧
      Leaves (t.absorbLeaf u v).heap m (2 * m) (A ++ u :: B) (SA ++ SB) ∧
      entries (t.absorbLeaf u v).heap (A ++ u :: B) = entries t.heap (A ++ u :: v :: B) := by
  have hndL := (nodup_append.1 hs.nodup).1
  have hB : B.Nodup := (hndL.sublist ((sublist_cons_self v B).trans
    ((sublist_cons_self u _).trans (sublist_append_right A _))))
  have hn := hs.leaves.linked.next_right
  have hnu : (t.heap v).next ≠ some u := by
    rw [hn]
    intro e
    exact ne_around hndL (.inr (mem_cons_of_mem v (mem_of_mem_head? e))) rfl
  have hheap := t.absorbLeaf_heap hnu
  have hul := hs.leaves.leaf u (by simp)
  have hvl := hs.leaves.leaf v (by simp)
  obtain ⟨hfresh, hroot, hmax, -⟩ : (t.absorbLeaf u v).fresh = t.fresh ∧
      (t.absorbLeaf u v).root = t.root ∧ (t.absorbLeaf u v).maxKeys = t.maxKeys ∧
      (t.absorbLeaf u v).count = t.count := setPrev_rest _ _ _
  generalize t.absorbLeaf u v = t2 at hheap hfresh hroot hmax ⊢
  have hold : ∀ q, q ∈ A ∨ q ∈ B → t2.heap q =
      { t.heap q with prev := if B.head? = some q then some u else (t.heap q).prev } := by
    intro q hq
    rw [hheap, if_neg (ne_around_pair hndL hq).1, hn]
  have hsame : ∀ q, q ∈ A ∨ q ∈ B → SameEntries (t.heap q) (t2.heap q) := by
    intro q hq
    rw [hold q hq]
    exact ⟨rfl, rfl, rfl, rfl⟩
  have hu2 : t2.heap u =
      { t.heap u with
        keys := (t.heap u).keys ++ (t.heap v).keys
        values := (t.heap u).values ++ (t.heap v).values
        next := (t.heap v).next } := by
    rw [hheap, if_pos rfl]
  have hleaf : ∀ q, q ∈ A ∨ q ∈ B → Leaf t2.heap m (2 * m) q := fun q hq =>
    (hs.other hp hq).congr (hsame q hq)
  refine ⟨⟨hfresh.ge, hroot, hmax, fun q _ => ?_, fun q _ hq => ?_⟩, ⟨fun q hq => ?_, ?_, ?_⟩, ?_⟩
  · rw [hheap]
    split
    · next e => rw [e]
    · rfl
  · have hqu : q ≠ u := fun e => hq (by simp [e])
    have hqn : (t.heap v).next ≠ some q := by
      rw [hn]
      exact fun e => hq (by simp [mem_of_mem_head? e])
    rw [hheap, if_neg hqu, if_neg hqn]
  · rw [mem_append, mem_cons] at hq
    rcases hq with hq | rfl | hq
    · exact hleaf q (.inl hq)
    · have h1 := hul.values
      have h2 := hvl.values
      refine .of_eq hu2 hul.leaf hul.children ?_ ?_ ?_
      all_goals
        simp only [length_append]
        omega
    · exact hleaf q (.inr hq)
  · refine hs.leaves.linked.merge hB (fun q hq => ?_) ?_ fun q hq => ?_
    · have hqB : B.head? ≠ some q := fun e =>
        (nodup_append.1 hndL).2.2 q hq q (by simp [mem_of_mem_head? e]) rfl
      rw [hold q (.inl hq), if_neg hqB]
      exact ⟨rfl, rfl⟩
    · rw [hu2]
      exact ⟨rfl, hn⟩
    · rw [hold q (.inr hq)]
      exact ⟨rfl, rfl⟩
  · have hsort := hs.leaves.sorted
    rw [line_pair hlen] at hsort
    rw [line_split hlen, hu2, marks_congr fun q hq => hsame q (.inl hq),
      marks_congr fun q hq => hsame q (.inr hq), map_append, append_assoc]
    refine hsort.sublist ((Sublist.refl _).append ((Sublist.refl _).append ?_))
    exact sublist_cons_self _ _
  · rw [entries_split, entries_pair, hu2, entries_congr fun q hq => hsame q (.inl hq),
      entries_congr fun q hq => hsame q (.inr hq), zip_append hul.values.symm]
    simp [append_assoc]

theorem Short.merge (hs : Short t m (L1 :: Ls) L S p)
    (hp : Pair t m Ls L1 L S r A u v B SA s SB i) (hpuv : p = u ∨ p = v)
    (hsum : (t.heap u).keys.length + (t.heap v).keys.length + 1 = 2 * m) :
    ∃ t' Ls', t.mergeLeaf u v r i = some t' ∧ Shape t' m Ls' (A ++ u :: B) (SA ++ SB) ∧
      entries t'.heap (A ++ u :: B) = entries t.heap L ∧ t'.count = t.count := by
  have hsub := hp.sublist
  obtain ⟨rfl, rfl⟩ := And.intro hp.level hp.seps
  obtain ⟨hstep, hleaves, hent⟩ := hs.absorb hpuv hp.lenA hsum
  have hcount : (t.absorbLeaf u v).count = t.count := (setPrev_rest _ _ _).2.2.2
  have hfresh : (t.absorbLeaf u v).fresh = t.fresh := (setPrev_rest _ _ _).1
  have hmax : (t.absorbLeaf u v).maxKeys = 2 * m := hstep.maxKeys.trans hs.maxKeys
  have hb2 : ∀ q ∈ A ++ u :: v :: B ++ (L1 :: Ls).flatten, q < (t.absorbLeaf u v).fresh :=
    hfresh ▸ hs.bound
  have hfuel : Ls.length < t.fresh :=
    Nat.lt_of_succ_lt (hs.upper.length_levels hs.nodup hs.bound)
  obtain ⟨t', Ls', h1, h2, h3⟩ :=
    removeChildFromInternal_spec hs.half Ls hmax (hs.pair hstep hp) hs.nodup hb2 hfuel
  obtain ⟨h4, h5⟩ := of_frame hs.half hmax h2 h3 (hs.nodup.sublist (hsub.append (.refl _)))
    (fun q hq => hb2 q (mem_append_left _ (hsub.subset hq)))
    ⟨fun q hq => (hleaves.leaf q hq).mono (leastLeaf_le m Ls'), hleaves.linked, hleaves.sorted⟩
  refine ⟨t', Ls', ?_, h4, h5.trans hent, h3.count.trans hcount⟩
  rw [mergeLeaf_eq]
  exact h1

/-- Neighbours in the chain with the same parent are neighbours among its children. -/
theorem Short.siblings {A' B' a b : List Ptr} {SA' SB' k1 k2 : List K}
    (hs : Short t m (L1 :: Ls) (A ++ p :: B) S p)
    (hl : Located t.heap m t.root Ls L1 A p B S A' r B' a b SA' SB' k1 k2) :
    ((t.heap p).prev.filter fun q => decide ((t.heap q).parent = (t.heap p).parent)) = a.getLast? ∧
      ((t.heap p).next.filter fun q => decide ((t.heap q).parent = (t.heap p).parent)) = b.head? := by
  obtain ⟨hprev, hnext⟩ := hs.leaves.linked.around
  have hri := hl.internal r (by simp)
  have hpar := hri.parents p (by simp [hl.children])
  have hap := of_nodup hs.nodup
  -- a leaf below another node has another parent
  have hother : ∀ q c, q ∈ A' ∨ q ∈ B' → c ∈ (t.heap q).children → (t.heap c).parent ≠ some r := by
    intro q c hq hc e
    rw [(hl.internal q (mem_around hq)).parents c hc] at e
    exact hap.ne_of_mem hl.level hq (Option.some.inj e)
  rw [hprev, hnext, hpar, hl.left, hl.right]
  constructor
  · rcases eq_nil_or_concat a with ha | ⟨a', l, ha⟩
    · rw [ha, append_nil, getLast?_nil, filter_eq_none_iff]
      intro c hc
      obtain ⟨q, hq, hcq⟩ := mem_flatMap.1 (mem_of_mem_getLast? hc)
      simpa using hother q c (.inl hq) hcq
    · have hl' := hri.parents l (by simp [hl.children, ha])
      simp [ha, hl']
  · cases b with
    | nil =>
      rw [head?_nil, filter_eq_none_iff]
      intro c hc
      obtain ⟨q, hq, hcq⟩ := mem_flatMap.1 (mem_of_mem_head? hc)
      simpa using hother q c (.inr hq) hcq
    | cons q b =>
      have hq' := hri.parents q (by simp [hl.children])
      simp [hq']

theorem rebalanceLeaf_spec (hs : Short t m (L1 :: Ls) (A ++ p :: B) S p)
    (hshort : (t.heap p).keys.length + 1 = m) :
    ∃ t' Ls' L' S', t.rebalanceLeaf p = some t' ∧ Shape t' m Ls' L' S' ∧
      entries t'.heap L' = entries t.heap (A ++ p :: B) ∧ t'.count = t.count := by
  obtain ⟨A', r, B', a, b, SA', SB', k1, k2, hl⟩ := hs.upper.locate rfl
  obtain ⟨hpar, hidx⟩ := hs.parent hl
  obtain ⟨hleft, hright⟩ := hs.siblings hl
  have hothers : ∀ q, q ∈ A ∨ q ∈ B → m ≤ (t.heap q).keys.length := fun q hq =>
    hs.others q (mem_around hq) (ne_around (nodup_append.1 hs.nodup).1 hq)
  have heq : t.rebalanceLeaf p = t.rebalance a.getLast? b.head?
      (t.borrowFromLeftLeaf p · a.length) (t.borrowFromRightLeaf p · a.length)
      (t.mergeWithLeftLeaf p · a.length) (t.mergeWithRightLeaf p · a.length) (some t) := by
    simp only [rebalanceLeaf, hidx, hleft, hright]
    rfl
  rcases rebalance_cases hs.half hs.maxKeys hl hothers heq with
    ⟨l, C, SA, s, SB, i, hP, hai, ⟨hlm, hout⟩ | ⟨hlm, hout⟩⟩ |
    ⟨q, D, SA, s, SB, hP, ⟨hqm, hout⟩ | ⟨hqm, hout⟩⟩
  · obtain ⟨t', S', h1, h2⟩ := hs.borrow_left hP hlm hshort
    exact ⟨t', _, _, S', by rw [hout, hai, h1], h2⟩
  · obtain ⟨t', Ls', h1, h2⟩ := hs.merge hP (.inr rfl) (by omega)
    exact ⟨t', Ls', _, _, by simp [hout, hai, mergeWithLeftLeaf, hpar, h1], h2⟩
  · obtain ⟨t', S', h1, h2⟩ := hs.borrow_right hP hqm hshort
    exact ⟨t', _, _, S', by rw [hout, h1], h2⟩
  · obtain ⟨t', Ls', h1, h2⟩ := hs.merge hP (.inl rfl) (by omega)
    exact ⟨t', Ls', _, _, by simp [hout, mergeWithRightLeaf, hpar, h1], h2⟩

end Rebalance

end Pairs

/-! ## The deletion -/

variable {t : BPlusTree K V} {m : Nat} {Ls : List (List Ptr)} {L A B : List Ptr} {p : Ptr}
  {S SA SB ka kb : List K} {va vb : List V} {key : K} {w : V}

theorem deleteFromLeaf_spec (hs : Shape t m Ls (A ++ p :: B) (SA ++ SB))
    (hlen : SA.length = A.length) (hk : (t.heap p).keys = ka ++ key :: kb)
    (hv : (t.heap p).values = va ++ w :: vb) (hva : va.length = ka.length) :
    ∃ t' Ls' L' S', t.deleteFromLeaf p ka.length = some t' ∧ Shape t' m Ls' L' S' ∧
      Taken key (entries t.heap (A ++ p :: B)) (entries t'.heap L') ∧ t'.count = t.count := by
  have hnd := (nodup_append.1 hs.nodup).1
  have htaken := entries_remove hk hv hva hnd
  have hremv : removeAt (va ++ w :: vb) ka.length = some (va ++ vb) := by
    rw [← hva]
    exact removeAt_append va vb w
  have hdel : t.deleteFromLeaf p ka.length =
      let t1 := t.setEntries p (ka ++ kb) (va ++ vb)
      if p = t.root then some t1
      else (t1.updateParentSeparatorAfterLeafDelete p).bind fun t2 =>
        if (t2.heap p).keys.length < t2.minKeys then t2.rebalanceLeaf p else some t2 := by
    simp only [deleteFromLeaf, hk, hv, removeAt_append, hremv, bind_eq_bind, bind_some]
    rfl
  rw [hdel]
  cases Ls with
  | nil =>
    -- the root is a leaf, which may have any number of entries
    obtain ⟨hL, hS, -⟩ := hs.upper
    obtain ⟨rfl, rfl, rfl⟩ : A = [] ∧ p = t.root ∧ B = [] := by
      cases A <;> simp_all
    simp only [if_true]
    exact ⟨_, [], _, _, rfl, hs.setEntries (hs.leaves.remove hk hv hva hnd hlen), htaken, rfl⟩
  | cons L1 Ls =>
    have hroot : p ≠ t.root := by
      rintro rfl
      obtain ⟨S1, hup, -⟩ := hs.upper
      exact (nodup_append.1 hs.nodup).2.2 t.root (by simp) t.root hup.root_mem rfl
    simp only [if_neg hroot]
    obtain ⟨t2, S2, h1, h2, h3, h4⟩ := updateParentSeparator_spec (hs.short hk hv hva hlen)
    have hent : entries t2.heap (A ++ p :: B) = _ := entries_congr fun q hq => .of_eq (h3 q hq)
    have hcount : t2.count = t.count := h4
    rw [← hent] at htaken
    rw [h1, bind_some, minKeys_eq h2.maxKeys]
    by_cases hlt : (t2.heap p).keys.length < m
    · rw [if_pos hlt]
      have hge := (h2.leaves.leaf p (by simp)).min
      obtain ⟨t', Ls', L', S', h5, h6, h7, h8⟩ := rebalanceLeaf_spec h2 (by omega)
      exact ⟨t', Ls', L', S', h5, h6, h7 ▸ htaken, h8.trans hcount⟩
    · rw [if_neg hlt]
      exact ⟨t2, _, _, S2, rfl, h2.shape (not_lt.1 hlt), htaken, hcount⟩

/-- `Delete` keeps the shape and takes the entry with the key, or returns `false` if there is none.
-/
theorem delete_spec (hi : Counted t m Ls L S) (key : K) :
    (∃ t' Ls' L' S', t.delete key = some (t', true) ∧ Counted t' m Ls' L' S' ∧
      Taken key (entries t.heap L) (entries t'.heap L')) ∨
    t.delete key = some (t, false) ∧ key ∉ (entries t.heap L).map Prod.fst := by
  by_cases hc : t.count = 0
  · have hnil : entries t.heap L = [] := length_eq_zero_iff.1 (hi.count.symm.trans hc)
    simp [delete, hc, hnil]
  · have hs := hi.toShape
    obtain ⟨A, p, B, SA, SB, rfl, rfl, hA, hB, hX, hY, hf⟩ := hs.findLeaf key
    by_cases hmem : key ∈ (t.heap p).keys
    · left
      obtain ⟨ka, kb, va, w, vb, hk, hv, hva, hka, -⟩ := hs.exists_entry hA hmem
      obtain ⟨t', Ls', L', S', h1, h2, h3, h4⟩ := deleteFromLeaf_spec hs hA hk hv hva
      refine ⟨{ t' with count := t'.count - 1 }, Ls', L', S', ?_, ⟨h2.recount _, ?_⟩, h3⟩
      · simp [delete, hc, hf, hk, idxOf?_append hka, h1]
      · have hcount := hi.count
        obtain ⟨E1, w', E2, hE, hE'⟩ := h3
        rw [hE] at hcount
        simp only [length_append, length_cons] at hcount
        show t'.count - 1 = (entries t'.heap L').length
        rw [hE', length_append]
        omega
    · right
      have hidx : (t.heap p).keys.idxOf? key = none := by simpa using hmem
      refine ⟨by simp [delete, hf, hidx], fun h => ?_⟩
      obtain ⟨⟨_, v⟩, he, rfl⟩ := mem_map.1 h
      exact hmem (of_mem_zip ((mem_entries_iff hA hB hX hY).1 he)).1

end Solocoder.BPlus
