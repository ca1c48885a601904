import Solocoder.BPlusTree.Proofs.InsertProofs
import Solocoder.BPlusTree.Proofs.LeafProofs

/-!
# `Insert`

A new entry goes into the leaf that `findLeaf` arrives at. The upper half of a leaf that is then too
full moves to a new leaf, which the levels above take up.
-/

namespace Solocoder.BPlus

open Lib List Option

variable {K V : Type} [LinearOrder K]

def Put (key : K) (value : V) (E E' : List (K × V)) : Prop :=
  ∃ E1 E2, (E = E1 ++ E2 ∨ ∃ w, E = E1 ++ (key, w) :: E2) ∧ E' = E1 ++ (key, value) :: E2

theorem exists_lower_cut (key : K) {k : List K} (hk : k.Pairwise (· < ·)) :
    ∃ k1 k2, k = k1 ++ k2 ∧ (∀ x ∈ k1, x < key) ∧ ∀ x ∈ k2, key ≤ x := by
  obtain ⟨k1, k2, h, h1, h2⟩ := exists_cut (p := (· < key)) (fun h => h.trans) hk
  exact ⟨k1, k2, h, h1, fun x hx => not_lt.1 (h2 x hx)⟩

namespace BPlusTree

variable {t : BPlusTree K V} {leaf : Ptr} {key : K} {w : V} {ka kb : List K} {va vb : List V}

def addEntry (t : BPlusTree K V) (leaf : Ptr) (keys : List K) (values : List V) : BPlusTree K V :=
  { t.setEntries leaf keys values with count := t.count + 1 }

theorem insert_of_mem (value : V) (hf : t.findLeaf key = some leaf)
    (hk : (t.heap leaf).keys = ka ++ key :: kb) (hv : (t.heap leaf).values = va ++ w :: vb) (hlen : va.length = ka.length)
    (ha : ∀ x ∈ ka, x < key) (hb : ∀ x ∈ key :: kb, key ≤ x) :
    t.insert key value = some (t.setEntries leaf (ka ++ key :: kb) (va ++ value :: vb)) := by
  have hset : setAt (va ++ w :: vb) ka.length value = some (va ++ value :: vb) := by
    rw [← hlen]
    exact setAt_append va vb w value
  have hentries : (t.modify leaf fun n => { n with values := va ++ value :: vb }) =
      t.setEntries leaf (ka ++ key :: kb) (va ++ value :: vb) :=
    modify_congr (by rw [← hk])
  simp [insert, hf, hk, hv, lowerBound_append ha hb, hset, hentries]

theorem insert_of_notMem (value : V) (hf : t.findLeaf key = some leaf)
    (hk : (t.heap leaf).keys = ka ++ kb) (hv : (t.heap leaf).values = va ++ vb) (hlen : va.length = ka.length)
    (ha : ∀ x ∈ ka, x < key) (hb : ∀ x ∈ kb, key < x) :
    t.insert key value =
      if t.maxKeys < (ka ++ key :: kb).length then
        (t.addEntry leaf (ka ++ key :: kb) (va ++ value :: vb)).splitLeaf leaf
      else some (t.addEntry leaf (ka ++ key :: kb) (va ++ value :: vb)) := by
  have hkey : ¬ (ka ++ kb)[ka.length]? = some key := by
    cases kb with
    | nil => simp
    | cons x kb => simpa using (hb x (by simp)).ne'
  have hins : insertAt (va ++ vb) ka.length value = some (va ++ value :: vb) := by
    rw [← hlen]
    exact insertAt_append va vb value
  simp only [insert, hf, hk, hv, lowerBound_append ha fun x hx => (hb x hx).le, hkey, if_false,
    insertAt_append, hins, bind_eq_bind, bind_some]
  rfl

/-- The tree between the split of a leaf and the call of `insertIntoParent` for it. -/
def splitLeafTree (t : BPlusTree K V) (leaf : Ptr) (kl kr : List K) (vl vr : List V) :
    BPlusTree K V :=
  let t' := t.alloc
    { keys := kr, isLeaf := true, parent := none, next := (t.heap leaf).next, prev := some leaf,
      children := [], values := vr }
  (t'.setPrev (t.heap leaf).next t.fresh).modify leaf fun n =>
    { n with next := some t.fresh, keys := kl, values := vl }

theorem splitLeaf_eq {kl kr : List K} {vl vr : List V} {mk : K}
    (hk : (t.heap leaf).keys = kl ++ mk :: kr) (hv : (t.heap leaf).values = vl ++ vr)
    (hlen : vl.length = kl.length) (hmid : (kl ++ mk :: kr).length / 2 = kl.length)
    (hl : leaf ≠ t.fresh) :
    t.splitLeaf leaf = (t.splitLeafTree leaf kl (mk :: kr) vl vr).insertIntoParent (t.fresh + 1) leaf
      mk t.fresh := by
  have hkr : (kl ++ mk :: kr).drop kl.length = mk :: kr := by simp
  have hvl : (vl ++ vr).take kl.length = vl := by rw [← hlen]; simp
  have hvr : (vl ++ vr).drop kl.length = vr := by rw [← hlen]; simp
  have hfresh : (t.splitLeafTree leaf kl (mk :: kr) vl vr).fresh = t.fresh + 1 :=
    (setPrev_rest _ _ _).1
  -- the record of the leaf keeps its lists until the last assignment
  have htree : (((t.alloc
      { keys := mk :: kr, isLeaf := true, parent := none, next := (t.heap leaf).next,
        prev := some leaf, children := [], values := vr }).setPrev (t.heap leaf).next
          t.fresh).modify leaf fun n =>
      { n with next := some t.fresh, keys := n.keys.take kl.length, values := n.values.take kl.length }) =
      t.splitLeafTree leaf kl (mk :: kr) vl vr := by
    unfold splitLeafTree
    refine modify_congr ?_
    simp only [setPrev_heap, alloc_of_ne hl]
    split <;> simp [hk, hv, hvl]
  simp only [splitLeaf, hk, hv, hmid, hkr, hvr, head?_cons, bind_some, htree, hfresh]

omit [LinearOrder K] in
theorem splitLeafTree_heap (t : BPlusTree K V) {leaf : Ptr} (kl kr : List K) (vl vr : List V)
    (hl : leaf ≠ t.fresh) (hn : (t.heap leaf).next ≠ some t.fresh)
    (hnl : (t.heap leaf).next ≠ some leaf) (q : Ptr) :
    (t.splitLeafTree leaf kl kr vl vr).heap q =
      if q = leaf then { t.heap leaf with next := some t.fresh, keys := kl, values := vl }
      else if q = t.fresh then
        { keys := kr, isLeaf := true, parent := none, next := (t.heap leaf).next, prev := some leaf,
          children := [], values := vr }
      else if (t.heap leaf).next = some q then { t.heap q with prev := some t.fresh }
      else t.heap q := by
  unfold splitLeafTree
  by_cases h1 : q = leaf
  · subst h1
    simp [setPrev_heap, hnl, alloc_of_ne hl]
  · rw [if_neg h1, modify_of_ne h1, setPrev_heap]
    by_cases h2 : q = t.fresh
    · subst h2
      simp [hn]
    · rw [if_neg h2, alloc_of_ne h2]

end BPlusTree

open BPlusTree

section Insert

variable {t : BPlusTree K V} {m : Nat} {Ls : List (List Ptr)} {A B : List Ptr} {p : Ptr}
  {SA SB ka kb : List K} {va vb : List V} {key : K} {value w : V}

theorem line_insert (hX : ∀ x ∈ lefts (marks t.heap A) (SA.map sep), x < mark key)
    (hY : ∀ x ∈ rights (SB.map sep) (marks t.heap B), mark key < x)
    (hk : (t.heap p).keys = ka ++ kb) (ha : ∀ x ∈ ka, x < key) (hb : ∀ x ∈ kb, key < x)
    (hlen : SA.length = A.length) (hs : (line t.heap (A ++ p :: B) (SA ++ SB)).Pairwise (· < ·)) :
    (lefts (marks t.heap A) (SA.map sep) ++
      ((ka ++ key :: kb).map mark ++ rights (SB.map sep) (marks t.heap B))).Pairwise (· < ·) := by
  rw [line_split hlen, hk, map_append] at hs
  have hins : ((lefts (marks t.heap A) (SA.map sep) ++ ka.map mark) ++ mark key ::
      (kb.map mark ++ rights (SB.map sep) (marks t.heap B))).Pairwise (· < ·) := by
    refine pairwise_insert (by simpa only [append_assoc] using hs) (forall_mem_append.2 ⟨hX, ?_⟩)
      (forall_mem_append.2 ⟨?_, hY⟩)
    · exact forall_mem_map.2 fun y hy => mark_lt_mark.2 (ha y hy)
    · exact forall_mem_map.2 fun y hy => mark_lt_mark.2 (hb y hy)
  simpa only [map_append, map_cons, append_assoc, cons_append] using hins

/-- The tree between the split of a leaf and the call of `insertIntoParent`. -/
structure SplitLeafAt (t t2 : BPlusTree K V) (p : Ptr) (kl kr : List K) (vl vr : List V) : Prop where
  fresh : t2.fresh = t.fresh + 1
  root : t2.root = t.root
  maxKeys : t2.maxKeys = t.maxKeys
  count : t2.count = t.count + 1
  left : t2.heap p = { t.heap p with next := some t.fresh, keys := kl, values := vl }
  new : t2.heap t.fresh =
    { keys := kr, isLeaf := true, parent := none, next := (t.heap p).next, prev := some p,
      children := [], values := vr }
  old : ∀ q, q ≠ p → q ≠ t.fresh → t2.heap q =
    { t.heap q with prev := if (t.heap p).next = some q then some t.fresh else (t.heap q).prev }

omit [LinearOrder K] in
theorem splitLeafAt_addEntry (hp : p < t.fresh) (hn : (t.heap p).next ≠ some t.fresh)
    (hnp : (t.heap p).next ≠ some p) (ks kl kr : List K) (vs vl vr : List V) :
    SplitLeafAt t ((t.addEntry p ks vs).splitLeafTree p kl kr vl vr) p kl kr vl vr := by
  have hnext : ((t.addEntry p ks vs).heap p).next = (t.heap p).next := by simp [addEntry]
  have hheap := (t.addEntry p ks vs).splitLeafTree_heap kl kr vl vr hp.ne
    (by rw [hnext]; exact hn) (by rw [hnext]; exact hnp)
  rw [hnext] at hheap
  obtain ⟨h1, h2, h3, h4⟩ := setPrev_rest ((t.addEntry p ks vs).alloc
    { keys := kr, isLeaf := true, parent := none, next := ((t.addEntry p ks vs).heap p).next
      prev := some p, children := [], values := vr }) ((t.addEntry p ks vs).heap p).next t.fresh
  have hfresh : (t.addEntry p ks vs).fresh = t.fresh := rfl
  rw [hfresh] at hheap
  refine
    { fresh := h1, root := h2, maxKeys := h3, count := h4, left := ?_, new := ?_
      old := fun q e1 e2 => ?_ }
  · rw [hheap, if_pos rfl]
    simp [addEntry]
  · rw [hheap, if_neg hp.ne', if_pos rfl]
  · rw [hheap, if_neg e1, if_neg e2]
    have hq : (t.addEntry p ks vs).heap q = t.heap q := by simp [addEntry, setEntries_of_ne e1]
    rw [hq]
    split <;> rfl

section SplitLeaf

variable {t2 : BPlusTree K V} {kl kr : List K} {mk : K} {vl vr : List V}

section

variable (hsp : SplitLeafAt t t2 p kl kr vl vr) (hs : Shape t m Ls (A ++ p :: B) (SA ++ SB))
include hsp hs

theorem SplitLeafAt.step : LeafStep t t2 (A ++ p :: B) := by
  refine ⟨by rw [hsp.fresh]; exact Nat.le_succ _, hsp.root, hsp.maxKeys, fun q hq => ?_, fun q hq hqL => ?_⟩
  · by_cases hqp : q = p
    · rw [hqp, hsp.left]
    · rw [hsp.old q hqp hq.ne]
  · have hqp : q ≠ p := fun e => hqL (by simp [e])
    have hqn : (t.heap p).next ≠ some q := by
      rw [(hs.next_ne rfl).1]
      exact fun e => hqL (by simp [mem_of_mem_head? e])
    rw [hsp.old q hqp hq.ne, if_neg hqn]

theorem SplitLeafAt.same : ∀ q, q ∈ A ∨ q ∈ B → SameEntries (t.heap q) (t2.heap q) := by
  intro q hq
  rw [hsp.old q (ne_around (nodup_append.1 hs.nodup).1 hq)
    (hs.bound q (mem_append_left _ (mem_around hq))).ne]
  exact ⟨rfl, rfl, rfl, rfl⟩

theorem SplitLeafAt.entries_eq (hlen : kl.length = vl.length) :
    entries t2.heap (A ++ p :: t.fresh :: B) =
      entries t.heap A ++ ((kl ++ kr).zip (vl ++ vr) ++ entries t.heap B) := by
  have hsame := hsp.same hs
  rw [entries_split, hsp.left, zip_append hlen]
  have hnew : entries t2.heap (t.fresh :: B) = kr.zip vr ++ entries t2.heap B := by
    rw [entries, flatMap_cons, hsp.new, ← entries]
  rw [hnew, entries_congr fun q hq => hsame q (.inl hq), entries_congr fun q hq => hsame q (.inr hq)]
  simp [append_assoc]

end

theorem SplitLeafAt.leaves (hsp : SplitLeafAt t t2 p kl (mk :: kr) vl vr)
    (hs : Shape t m Ls (A ++ p :: B) (SA ++ SB)) (hlen : SA.length = A.length)
    (hkl : kl.length = m) (hkr : kr.length = m) (hvl : vl.length = m) (hvr : vr.length = m + 1)
    (hsort : (lefts (marks t.heap A) (SA.map sep) ++
      ((kl ++ mk :: kr).map mark ++ rights (SB.map sep) (marks t.heap B))).Pairwise (· < ·)) :
    Leaves t2.heap m (2 * m) (A ++ p :: t.fresh :: B) (SA ++ mk :: SB) := by
  have hm := hs.half
  have hndL := (nodup_append.1 hs.nodup).1
  have hsame := hsp.same hs
  have hbound : ∀ q, q ∈ A ∨ q ∈ B → q < t.fresh := fun q hq =>
    hs.bound q (mem_append_left _ (mem_around hq))
  have hne : ∀ q, q ∈ A ∨ q ∈ B → q ≠ p := fun _ => ne_around hndL
  have hleaf : ∀ q, q ∈ A ∨ q ∈ B → Leaf t2.heap m (2 * m) q := by
    intro q hq
    have hqL : q ∈ A ++ p :: B := mem_around hq
    have hql := (hs.leaves.leaf q hqL).congr (hsame q hq)
    rwa [hs.upper.leastLeaf_eq hqL (by simp) (hne q hq)] at hql
  have hpl := hs.leaves.leaf p (by simp)
  refine ⟨fun q hq => ?_, ?_, ?_⟩
  · rw [mem_append, mem_cons, mem_cons] at hq
    rcases hq with hq | rfl | rfl | hq
    · exact hleaf q (.inl hq)
    · refine .of_eq hsp.left hpl.leaf hpl.children ?_ ?_ ?_
      all_goals
        dsimp only
        omega
    · refine .of_eq hsp.new rfl rfl ?_ ?_ ?_
      all_goals
        simp only [length_cons]
        omega
    · exact hleaf q (.inr hq)
  · have hn := (hs.next_ne rfl).1
    have hB : B.Nodup := (nodup_cons.1 (nodup_append.1 hndL).2.1).2
    refine hs.leaves.linked.split hB (fun q hq => ?_) ?_ ?_ fun q hq => ?_
    · have hqn : (t.heap p).next ≠ some q := by
        rw [hn]
        intro e
        exact (nodup_append.1 hndL).2.2 q hq q (by simp [mem_of_mem_head? e]) rfl
      rw [hsp.old q (hne q (.inl hq)) (hbound q (.inl hq)).ne, if_neg hqn]
      exact ⟨rfl, rfl⟩
    · rw [hsp.left]
      exact ⟨rfl, rfl⟩
    · rw [hsp.new]
      exact ⟨rfl, hn⟩
    · rw [hsp.old q (hne q (.inr hq)) (hbound q (.inr hq)).ne, hn]
      exact ⟨rfl, rfl⟩
  · have hlines := pairwise_separate (by rintro rfl; simp at hkl; omega) hsort
    rw [line_split hlen, hsp.left, marks_congr fun q hq => hsame q (.inl hq)]
    have hnew : marks t2.heap (t.fresh :: B) = (mk :: kr).map mark :: marks t.heap B := by
      rw [← marks_congr fun q hq => hsame q (.inr hq), marks, map_cons, hsp.new, ← marks]
    rw [hnew]
    exact hlines

theorem Shape.split_leaf (hs : Shape t m Ls (A ++ p :: B) (SA ++ SB)) (hlen : SA.length = A.length)
    (hkl : kl.length = m) (hkr : kr.length = m) (hvl : vl.length = m) (hvr : vr.length = m + 1)
    (hsort : (lefts (marks t.heap A) (SA.map sep) ++
      ((kl ++ mk :: kr).map mark ++ rights (SB.map sep) (marks t.heap B))).Pairwise (· < ·)) :
    ∃ t' Ls', (t.addEntry p (kl ++ mk :: kr) (vl ++ vr)).splitLeaf p = some t' ∧
      Shape t' m Ls' (A ++ p :: t.fresh :: B) (SA ++ mk :: SB) ∧ t'.count = t.count + 1 ∧
      entries t'.heap (A ++ p :: t.fresh :: B) =
        entries t.heap A ++ ((kl ++ mk :: kr).zip (vl ++ vr) ++ entries t.heap B) := by
  have hm := hs.half
  have hpf : p < t.fresh := hs.bound p (by simp)
  obtain ⟨-, hnf, hnp⟩ := hs.next_ne rfl
  have hsplit : (t.addEntry p (kl ++ mk :: kr) (vl ++ vr)).splitLeaf p =
      ((t.addEntry p (kl ++ mk :: kr) (vl ++ vr)).splitLeafTree p kl (mk :: kr) vl vr).insertIntoParent
        (t.fresh + 1) p mk t.fresh :=
    splitLeaf_eq (by simp [addEntry]) (by simp [addEntry]) (hvl.trans hkl.symm)
      (by simp only [length_append, length_cons]; omega) hpf.ne
  have hsp := splitLeafAt_addEntry hpf hnf hnp (kl ++ mk :: kr) kl (mk :: kr) (vl ++ vr) vl vr
  rw [hsplit]
  generalize (t.addEntry p (kl ++ mk :: kr) (vl ++ vr)).splitLeafTree p kl (mk :: kr) vl vr = t2
    at hsp ⊢
  have hleaves := hsp.leaves hs hlen hkl hkr hvl hvr hsort
  have hent := hsp.entries_eq hs (hkl.trans hvl.symm)
  have hup := (hsp.step hs).upper hs.upper hs.nodup hs.bound
  have hmax : t2.maxKeys = 2 * m := hsp.maxKeys.trans hs.maxKeys
  have hnd : (t.fresh :: (A ++ p :: B) ++ Ls.flatten).Nodup := by
    rw [cons_append, nodup_cons]
    exact ⟨fun h => absurd rfl (hs.bound _ h).ne, hs.nodup⟩
  have hb : ∀ q ∈ t.fresh :: (A ++ p :: B) ++ Ls.flatten, q < t2.fresh := by
    rw [hsp.fresh]
    exact forall_mem_cons.2 ⟨Nat.lt_succ_self _, fun q hq => Nat.lt_succ_of_lt (hs.bound q hq)⟩
  have hseps : (SA ++ mk :: SB).Pairwise (· < ·) := by
    refine pairwise_map_sep.1 (hleaves.sorted.sublist (sublist_weave ?_))
    have hL := hs.upper.length
    simp only [marks, length_map, length_append, length_cons] at hL ⊢
    omega
  obtain ⟨t', Ls', h1, h2, h3⟩ := insertIntoParent_spec hm Ls hmax hup hlen hseps hnd hb
    (Nat.lt_succ_of_lt (hs.upper.length_levels hs.nodup hs.bound))
  have hperm := perm_second A p t.fresh B
  obtain ⟨h4, h5⟩ := Shape.of_frame hm hmax h2 h3
    ((hperm.append_right Ls.flatten).nodup_iff.2 hnd)
    (fun q hq => hb q (mem_append_left _ (hperm.mem_iff.1 hq)))
    ⟨fun q hq => (hleaves.leaf q hq).mono (leastLeaf_le m Ls'), hleaves.linked, hleaves.sorted⟩
  exact ⟨t', Ls', h1, h4, h3.count.trans hsp.count, h5.trans hent⟩

end SplitLeaf

omit [LinearOrder K] in
theorem put_zip {E F : List (K × V)} (h : va.length = ka.length) :
    E ++ ((ka ++ key :: kb).zip (va ++ value :: vb) ++ F) =
      (E ++ ka.zip va) ++ (key, value) :: (kb.zip vb ++ F) := by
  rw [zip_middle h.symm]
  simp [append_assoc]

/-- `Insert` never fails, keeps the shape of the tree and puts the entry in. -/
theorem insert_spec {L : List Ptr} {S : List K} (hi : Counted t m Ls L S) (key : K) (value : V) :
    ∃ t' Ls' L' S', t.insert key value = some t' ∧ Counted t' m Ls' L' S' ∧
      Put key value (entries t.heap L) (entries t'.heap L') := by
  have hs := hi.toShape
  obtain ⟨A, p, B, SA, SB, rfl, rfl, hA, -, hX, hY, hf⟩ := hs.findLeaf key
  have hnd := (nodup_append.1 hs.nodup).1
  have hp := hs.leaves.leaf p (by simp)
  have hsort := hs.leaves.sorted
  obtain ⟨ka, kb, hk, ha, hb⟩ := exists_lower_cut key (sorted_keys hA hsort)
  have hvals := hp.values
  rw [hk, length_append] at hvals
  obtain ⟨va, vb, hv, hva, hvb⟩ := exists_halves hvals
  have hmax := hp.max
  have hmin := hp.min
  rw [hk, length_append] at hmax hmin
  have hcount := hi.count
  rw [entries_split, hk, hv] at hcount ⊢
  by_cases hmem : ∃ kb', kb = key :: kb'
  · -- the key is there: its value is replaced
    obtain ⟨kb', rfl⟩ := hmem
    obtain ⟨w, vb', rfl⟩ : ∃ w vb', vb = w :: vb' :=
      exists_cons_of_length_pos (by rw [hvb]; exact Nat.succ_pos _)
    have hins := insert_of_mem value hf hk hv hva ha hb
    rw [put_zip hva] at hcount ⊢
    rw [line_split hA, hk] at hsort
    have hlen : (va ++ value :: vb').length = (ka ++ key :: kb').length := by
      simp only [length_append, length_cons] at hvb ⊢
      omega
    have hleaves := hs.leaves.setEntries hnd hA hlen le_rfl (by simpa using hmin)
      (by simpa using hmax) hsort
    have hent : entries (t.setEntries p (ka ++ key :: kb') (va ++ value :: vb')).heap (A ++ p :: B) =
        _ := (entries_setEntries hnd).trans (put_zip hva)
    refine ⟨_, Ls, _, _, hins, ⟨hs.setEntries hleaves, ?_⟩, _, _, .inr ⟨w, rfl⟩, hent⟩
    refine hcount.trans ?_
    rw [hent]
    simp
  · -- the key is new
    have hb' : ∀ x ∈ kb, key < x := by
      have hsk := sorted_keys hA hsort
      rw [hk] at hsk
      cases kb with
      | nil => simp
      | cons y kb' =>
        have hy : key < y := lt_of_le_of_ne (hb y (by simp)) fun e => hmem ⟨kb', by rw [e]⟩
        refine forall_mem_cons.2 ⟨hy, fun x hx => hy.trans ?_⟩
        exact (pairwise_cons.1 (pairwise_append.1 hsk).2.1).1 x hx
    have hins := insert_of_notMem value hf hk hv hva ha hb'
    have hline := line_insert hX hY hk ha hb' hA hsort
    rw [zip_append hva.symm] at hcount ⊢
    obtain ⟨E, hE⟩ : ∃ E, entries t.heap A ++
        ((ka ++ key :: kb).zip (va ++ value :: vb) ++ entries t.heap B) = E := ⟨_, rfl⟩
    have hc : t.count + 1 = E.length := by
      rw [← hE, put_zip hva, hcount]
      simp only [length_append, length_cons]
      omega
    have hput : Put key value (entries t.heap A ++ ((ka.zip va ++ kb.zip vb) ++ entries t.heap B)) E :=
      ⟨entries t.heap A ++ ka.zip va, kb.zip vb ++ entries t.heap B, .inl (by simp [append_assoc]),
        hE.symm.trans (put_zip hva)⟩
    rw [hs.maxKeys] at hins
    by_cases hover : 2 * m < (ka ++ key :: kb).length
    · rw [if_pos hover] at hins
      simp only [length_append, length_cons] at hover
      obtain ⟨kl, mk, kr, hkk, hkl, hkr⟩ : ∃ kl mk kr, ka ++ key :: kb = kl ++ mk :: kr ∧
          kl.length = m ∧ kr.length = m :=
        exists_middle (by simp only [length_append, length_cons]; omega)
      obtain ⟨vl, vr, hvv, hvl, hvr⟩ : ∃ vl vr, va ++ value :: vb = vl ++ vr ∧
          vl.length = m ∧ vr.length = m + 1 :=
        exists_halves (by simp only [length_append, length_cons]; omega)
      rw [hkk, hvv] at hins hE
      rw [hkk] at hline
      obtain ⟨t', Ls', h1, h2, h3, h4⟩ := hs.split_leaf hA hkl hkr hvl hvr hline
      rw [hE] at h4
      exact ⟨t', Ls', _, _, hins.trans h1, ⟨h2, by rw [h3, h4, hc]⟩, h4 ▸ hput⟩
    · rw [if_neg hover] at hins
      have hlen : (va ++ value :: vb).length = (ka ++ key :: kb).length := by
        simp only [length_append, length_cons]
        omega
      have hleaves := hs.leaves.setEntries hnd hA hlen le_rfl
        (by simp only [length_append, length_cons]; omega) (not_lt.1 hover) hline
      have hent : entries (t.addEntry p (ka ++ key :: kb) (va ++ value :: vb)).heap (A ++ p :: B) =
          E := (entries_setEntries hnd).trans hE
      exact ⟨_, Ls, _, _, hins, ⟨(hs.setEntries hleaves).recount _, by rw [hent]; exact hc⟩,
        hent ▸ hput⟩

end Insert

end Solocoder.BPlus
