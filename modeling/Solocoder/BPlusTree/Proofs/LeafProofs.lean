import Solocoder.BPlusTree.Proofs.ShapeProofs

/-!
# The leaves and the way to them

The keys of the leaves and all separators stand in one sorted line, a separator before an entry with
the same key. `findLeaf` arrives at the leaf where the key belongs.
-/

namespace Solocoder.BPlus

open Lib List BPlusTree

variable {K V : Type}

/-- A leaf with at least `lo` and at most `hi` entries. -/
structure Leaf (h : Ptr → Node K V) (lo hi : Nat) (p : Ptr) : Prop where
  leaf : (h p).isLeaf = true
  children : (h p).children = []
  values : (h p).values.length = (h p).keys.length
  min : lo ≤ (h p).keys.length
  max : (h p).keys.length ≤ hi

def leastLeaf (m : Nat) : List (List Ptr) → Nat
  | [] => 0
  | _ :: _ => m

/-- The nodes `L` are linked in this order, behind `pr` and before `nx`. -/
def Linked (h : Ptr → Node K V) : Option Ptr → List Ptr → Option Ptr → Prop
  | _, [], _ => True
  | pr, p :: L, nx => (h p).prev = pr ∧ (h p).next = L.head?.or nx ∧ Linked h (some p) L nx

def marks (h : Ptr → Node K V) (L : List Ptr) : List (List (K ×ₗ Bool)) :=
  L.map fun p => (h p).keys.map mark

def line (h : Ptr → Node K V) (L : List Ptr) (S : List K) : List (K ×ₗ Bool) :=
  weave (marks h L) (S.map sep)

def entries (h : Ptr → Node K V) (L : List Ptr) : List (K × V) :=
  L.flatMap fun p => (h p).keys.zip (h p).values

variable {h h' : Ptr → Node K V} {m : Nat} {root : Ptr} {Ls : List (List Ptr)}
  {L A B : List Ptr} {S : List K} {p : Ptr}

section Linked

variable {pr nx : Option Ptr}

theorem linked_append {A B : List Ptr} : Linked h pr (A ++ B) nx ↔
      Linked h pr A (B.head?.or nx) ∧ Linked h (A.getLast?.or pr) B nx := by
  induction A generalizing pr with
  | nil => simp [Linked]
  | cons p A ih =>
    have hlast : (p :: A).getLast?.or pr = A.getLast?.or (some p) := by
      rw [getLast?_cons]
      cases A.getLast? <;> rfl
    simp only [cons_append, Linked, ih, hlast, head?_append, Option.or_assoc, and_assoc]

theorem linked_cons {p : Ptr} {L : List Ptr} : Linked h pr (p :: L) nx ↔
      (h p).prev = pr ∧ (h p).next = L.head?.or nx ∧ Linked h (some p) L nx := Iff.rfl

theorem Linked.congr {L : List Ptr} (hl : Linked h pr L nx)
    (hp : ∀ p ∈ L, (h' p).prev = (h p).prev ∧ (h' p).next = (h p).next) : Linked h' pr L nx := by
  induction L generalizing pr with
  | nil => trivial
  | cons p L ih =>
    obtain ⟨h1, h2, h3⟩ := hl
    obtain ⟨h4, h5⟩ := hp p (by simp)
    exact ⟨h4.trans h1, h5.trans h2, ih h3 fun q hq => hp q (by simp [hq])⟩

/-- Another node takes the place before the nodes `B`. -/
theorem Linked.relink {r : Ptr} (hl : Linked h pr B nx) (hnd : B.Nodup)
    (hB : ∀ q ∈ B, (h' q).next = (h q).next ∧
      (h' q).prev = if B.head? = some q then some r else (h q).prev) : Linked h' (some r) B nx := by
  cases B with
  | nil => trivial
  | cons q B =>
    obtain ⟨-, h2, h3⟩ := hl
    have hq := hB q (by simp)
    refine ⟨by simpa using hq.2, hq.1.trans h2, h3.congr fun x hx => ?_⟩
    have hqx : q ≠ x := fun e => (nodup_cons.1 hnd).1 (e ▸ hx)
    have hx' := hB x (by simp [hx])
    simp only [head?_cons, Option.some.injEq, hqx, if_false] at hx'
    exact ⟨hx'.2, hx'.1⟩

theorem Linked.split {r : Ptr} (hl : Linked h none (A ++ p :: B) none) (hnd : B.Nodup)
    (hA : ∀ q ∈ A, (h' q).prev = (h q).prev ∧ (h' q).next = (h q).next)
    (hp : (h' p).prev = (h p).prev ∧ (h' p).next = some r)
    (hr : (h' r).prev = some p ∧ (h' r).next = B.head?)
    (hB : ∀ q ∈ B, (h' q).next = (h q).next ∧
      (h' q).prev = if B.head? = some q then some r else (h q).prev) :
    Linked h' none (A ++ p :: r :: B) none := by
  obtain ⟨hlA, hlp, -, hlB⟩ := linked_append.1 hl
  exact linked_append.2 ⟨hlA.congr hA, hp.1.trans hlp, hp.2, hr.1, by simpa using hr.2,
    hlB.relink hnd hB⟩

theorem Linked.merge {r : Ptr} (hl : Linked h none (A ++ p :: r :: B) none) (hnd : B.Nodup)
    (hA : ∀ q ∈ A, (h' q).prev = (h q).prev ∧ (h' q).next = (h q).next)
    (hp : (h' p).prev = (h p).prev ∧ (h' p).next = B.head?)
    (hB : ∀ q ∈ B, (h' q).next = (h q).next ∧
      (h' q).prev = if B.head? = some q then some p else (h q).prev) :
    Linked h' none (A ++ p :: B) none := by
  obtain ⟨hlA, hlp, -, -, -, hlB⟩ := linked_append.1 hl
  exact linked_append.2 ⟨hlA.congr hA, hp.1.trans hlp, by simpa using hp.2, hlB.relink hnd hB⟩

theorem Linked.around (hl : Linked h none (A ++ p :: B) none) :
    (h p).prev = A.getLast? ∧ (h p).next = B.head? := by
  have hp := (linked_append.1 hl).2
  simp only [linked_cons, Option.or_none] at hp
  exact ⟨hp.1, hp.2.1⟩

end Linked

def SameEntries (n n' : Node K V) : Prop :=
  n'.keys = n.keys ∧ n'.values = n.values ∧ n'.isLeaf = n.isLeaf ∧ n'.children = n.children

theorem SameEntries.of_eq {n n' : Node K V} (h : n' = n) : SameEntries n n' := by
  subst h
  exact ⟨rfl, rfl, rfl, rfl⟩

theorem Leaf.of_eq {lo hi : Nat} {p : Ptr} {n : Node K V} (hp : h p = n) (hleaf : n.isLeaf = true)
    (hchildren : n.children = []) (hvalues : n.values.length = n.keys.length)
    (hmin : lo ≤ n.keys.length) (hmax : n.keys.length ≤ hi) : Leaf h lo hi p := by
  subst hp
  exact ⟨hleaf, hchildren, hvalues, hmin, hmax⟩

theorem Leaf.congr {lo hi : Nat} {p : Ptr} (hl : Leaf h lo hi p) (hs : SameEntries (h p) (h' p)) :
    Leaf h' lo hi p := by
  obtain ⟨h1, h2, h3, h4⟩ := hs
  exact
    { leaf := h3.trans hl.leaf
      children := h4.trans hl.children
      values := by rw [h1, h2]; exact hl.values
      min := by rw [h1]; exact hl.min
      max := by rw [h1]; exact hl.max }

theorem Leaf.mono {lo lo' hi : Nat} {p : Ptr} (hl : Leaf h lo hi p) (hle : lo' ≤ lo) :
    Leaf h lo' hi p :=
  { hl with min := hle.trans hl.min }

theorem marks_congr (hs : ∀ p ∈ L, SameEntries (h p) (h' p)) : marks h' L = marks h L :=
  map_congr_left fun p hp => by rw [(hs p hp).1]

theorem entries_congr (hs : ∀ p ∈ L, SameEntries (h p) (h' p)) : entries h' L = entries h L :=
  flatMap_congr fun p hp => by rw [(hs p hp).1, (hs p hp).2.1]

theorem entries_split : entries h (A ++ p :: B) =
    entries h A ++ ((h p).keys.zip (h p).values ++ entries h B) := by
  simp only [entries, flatMap_append, flatMap_cons]

section OneLeaf

variable {t t' : BPlusTree K V} {ks : List K} {vs : List V}

theorem leastLeaf_le (m : Nat) (Ls : List (List Ptr)) : leastLeaf m Ls ≤ m := by
  cases Ls
  · exact Nat.zero_le m
  · exact le_rfl

theorem Upper.leastLeaf_eq (hu : Upper h m root Ls L S) {p q : Ptr} (hp : p ∈ L) (hq : q ∈ L)
    (hne : p ≠ q) : leastLeaf m Ls = m := by
  obtain ⟨_, _, rfl⟩ := hu.exists_cons hp hq hne
  rfl

/-- Records of leaves were changed or added, but no parent pointer. -/
structure LeafStep (t t' : BPlusTree K V) (L : List Ptr) : Prop where
  fresh : t.fresh ≤ t'.fresh
  root : t'.root = t.root
  maxKeys : t'.maxKeys = t.maxKeys
  parent : ∀ p < t.fresh, (t'.heap p).parent = (t.heap p).parent
  rest : ∀ p < t.fresh, p ∉ L → t'.heap p = t.heap p

theorem LeafStep.upper (hst : LeafStep t t' L) (hu : Upper t.heap m t.root Ls L S)
    (hnd : (L ++ Ls.flatten).Nodup) (hb : ∀ p ∈ L ++ Ls.flatten, p < t.fresh) :
    Upper t'.heap m t'.root Ls L S := by
  rw [hst.root]
  refine hu.congr (fun p hp => .of_eq (hst.rest p (hb p (mem_append_right _ hp)) fun h => ?_))
    fun p hp => hst.parent p (hb p hp)
  exact (nodup_append.1 hnd).2.2 p h p hp rfl

theorem zip_middle {α β : Type} {ka kb : List α} {va vb : List β} (h : ka.length = va.length)
    (k : α) (v : β) : (ka ++ k :: kb).zip (va ++ v :: vb) = ka.zip va ++ (k, v) :: kb.zip vb := by
  rw [zip_append h, zip_cons_cons]

/-- The tree with these entries in the leaf `p`. -/
def BPlusTree.setEntries (t : BPlusTree K V) (p : Ptr) (ks : List K) (vs : List V) :
    BPlusTree K V :=
  t.modify p fun n => { n with keys := ks, values := vs }

@[simp] theorem setEntries_self :
    (t.setEntries p ks vs).heap p = { t.heap p with keys := ks, values := vs } := modify_self

theorem setEntries_of_ne {q : Ptr} (h : q ≠ p) : (t.setEntries p ks vs).heap q = t.heap q :=
  modify_of_ne h

theorem LeafStep.setEntries {L : List Ptr} (hp : p ∈ L) : LeafStep t (t.setEntries p ks vs) L := by
  refine ⟨le_rfl, rfl, rfl, fun q _ => ?_, fun q _ hq => setEntries_of_ne fun e => hq (e ▸ hp)⟩
  by_cases hq : q = p
  · rw [hq, setEntries_self]
  · rw [setEntries_of_ne hq]

theorem entries_setEntries (hnd : (A ++ p :: B).Nodup) :
    entries (t.setEntries p ks vs).heap (A ++ p :: B) =
      entries t.heap A ++ (ks.zip vs ++ entries t.heap B) := by
  have hold : ∀ q, q ∈ A ∨ q ∈ B → SameEntries (t.heap q) ((t.setEntries p ks vs).heap q) :=
    fun q hq => .of_eq (setEntries_of_ne (ne_around hnd hq))
  rw [entries_split, setEntries_self, entries_congr fun q hq => hold q (.inl hq),
    entries_congr fun q hq => hold q (.inr hq)]

end OneLeaf

variable [LinearOrder K]

/-- The leaves of a tree, with their chain and their order. -/
structure Leaves (h : Ptr → Node K V) (lo hi : Nat) (L : List Ptr) (S : List K) : Prop where
  leaf : ∀ p ∈ L, Leaf h lo hi p
  linked : Linked h none L none
  sorted : (line h L S).Pairwise (· < ·)

/-- The shape of a tree with the leaves `L`, the separators `S` between them and the levels `Ls`
above them. -/
structure Shape (t : BPlusTree K V) (m : Nat) (Ls : List (List Ptr)) (L : List Ptr) (S : List K) :
    Prop where
  half : 1 ≤ m
  maxKeys : t.maxKeys = 2 * m
  upper : Upper t.heap m t.root Ls L S
  leaves : Leaves t.heap (leastLeaf m Ls) (2 * m) L S
  nodup : (L ++ Ls.flatten).Nodup
  bound : ∀ p ∈ L ++ Ls.flatten, p < t.fresh

/-- A tree of this shape that counts its entries. -/
structure Counted (t : BPlusTree K V) (m : Nat) (Ls : List (List Ptr)) (L : List Ptr) (S : List K) :
    Prop extends Shape t m Ls L S where
  count : t.count = (entries t.heap L).length

section Line

omit [LinearOrder K] in
theorem line_split {SA SB : List K} (hlen : SA.length = A.length) :
    line h (A ++ p :: B) (SA ++ SB) =
      lefts (marks h A) (SA.map sep) ++ ((h p).keys.map mark ++ rights (SB.map sep) (marks h B)) := by
  rw [line, marks, map_append, map_append, map_cons, weave_split (by simpa using hlen)]
  rfl

omit [LinearOrder K] in
theorem Upper.sublist_line (hu : Upper h m root Ls L S) : (S.map sep).Sublist (line h L S) :=
  sublist_weave (by simpa [marks] using hu.length)

theorem Upper.sorted_seps (hu : Upper h m root Ls L S) (hs : (line h L S).Pairwise (· < ·)) :
    S.Pairwise (· < ·) :=
  pairwise_map_sep.1 (hs.sublist hu.sublist_line)

theorem sorted_keys {SA SB : List K} (hlen : SA.length = A.length)
    (hs : (line h (A ++ p :: B) (SA ++ SB)).Pairwise (· < ·)) :
    (h p).keys.Pairwise (· < ·) := by
  rw [line_split hlen] at hs
  exact pairwise_map_mark.1 (pairwise_append.1 (pairwise_append.1 hs).2.1).1

end Line

/-- A sorted list is cut where a property of its smaller elements ends. -/
theorem exists_cut {p : K → Prop} (hp : ∀ {x y}, x < y → p y → p x) {k : List K}
    (hk : k.Pairwise (· < ·)) : ∃ k1 k2, k = k1 ++ k2 ∧ (∀ x ∈ k1, p x) ∧ ∀ x ∈ k2, ¬ p x := by
  classical
  have hcut := filter_append_filter_not (p := (decide <| p ·))
    (hk.imp fun hxy => by simpa using hp hxy)
  exact ⟨_, _, hcut.symm, by simp, by simp⟩

/-- The nodes that `findLeafFrom` passes are those where the key belongs, level by level. -/
theorem Upper.descend (hu : Upper h m root Ls L S) (hs : S.Pairwise (· < ·)) (key : K) :
    ∃ A p B SA SB, L = A ++ p :: B ∧ S = SA ++ SB ∧ SA.length = A.length ∧ SB.length = B.length ∧
      (∀ s ∈ SA, s ≤ key) ∧ (∀ s ∈ SB, key < s) ∧
      ∀ f, findLeafFrom h key (Ls.length + f) root = findLeafFrom h key f p := by
  induction Ls generalizing L S with
  | nil =>
    obtain ⟨rfl, rfl, -⟩ := hu
    exact ⟨[], root, [], [], [], rfl, rfl, rfl, rfl, by simp, by simp, fun f => by simp⟩
  | cons L1 Ls ih =>
    obtain ⟨S1, hup, hint, rfl, rfl⟩ := hu
    have hlen := hup.length
    have hs1 : S1.Pairwise (· < ·) := hs.sublist (sublist_weave (by simpa using hlen))
    obtain ⟨A', r, B', SA', SB', rfl, rfl, hlA, hlB, h1, h2, h3⟩ := ih hup hs1
    have hri := hint r (by simp)
    rw [map_append, map_cons, weave_split (by simpa using hlA)] at hs ⊢
    obtain ⟨hsA, hsr, -⟩ := pairwise_append.1 hs
    obtain ⟨hsk, hsB, -⟩ := pairwise_append.1 hsr
    -- the child behind the keys up to `key`
    obtain ⟨k1, k2, hk, hk1, hk2⟩ :=
      exists_cut (p := (· ≤ key)) (fun h => h.le.trans) hsk
    simp only [not_le] at hk2
    have har := hri.arity
    rw [hk, length_append] at har
    obtain ⟨c1, p, c2, hc, hc1, hc2⟩ : ∃ c1 p c2, (h r).children = c1 ++ p :: c2 ∧
        c1.length = k1.length ∧ c2.length = k2.length := by
      refine ⟨(h r).children.take k1.length, (h r).children[k1.length],
        (h r).children.drop (k1.length + 1), by simp, ?_, ?_⟩
      · rw [length_take]
        omega
      · rw [length_drop]
        omega
    refine ⟨A'.flatMap (fun q => (h q).children) ++ c1, p, c2 ++ B'.flatMap fun q => (h q).children,
      lefts (A'.map fun q => (h q).keys) SA' ++ k1, k2 ++ rights SB' (B'.map fun q => (h q).keys),
      ?_, ?_, ?_, ?_, ?_, ?_, ?_⟩
    · rw [flatMap_append, flatMap_cons, hc]
      simp only [append_assoc, cons_append]
    · rw [hk]
      simp only [append_assoc]
    · rw [length_append, length_append, length_lefts (by simpa using hlA),
        length_flatMap, map_map, hc1]
      congr 2
      exact map_congr_left fun q hq => (hint q (by simp [hq])).arity.symm
    · rw [length_append, length_append, length_rights (by simpa using hlB),
        length_flatMap, map_map, hc2]
      congr 2
      exact map_congr_left fun q hq => (hint q (by simp [hq])).arity.symm
    · refine forall_mem_append.2 ⟨?_, hk1⟩
      exact lefts_forall (fun x y hxy hy => hxy.le.trans hy) hsA h1
    · refine forall_mem_append.2 ⟨hk2, ?_⟩
      exact rights_forall (fun x y hxy hx => hx.trans hxy) hsB h2
    · intro f
      have hidx : upperBound (h r).keys key = c1.length := by
        rw [hk, upperBound_append hk1 hk2, hc1]
      have hstep : findLeafFrom h key (f + 1) r = findLeafFrom h key f p := by
        simp [findLeafFrom, hri.inner, hidx, hc]
      rw [length_cons, Nat.add_right_comm, Nat.add_assoc, h3, hstep]

namespace Shape

variable {t : BPlusTree K V}

theorem findLeaf (hs : Shape t m Ls L S) (key : K) :
    ∃ A p B SA SB, L = A ++ p :: B ∧ S = SA ++ SB ∧ SA.length = A.length ∧ SB.length = B.length ∧
      (∀ x ∈ lefts (marks t.heap A) (SA.map sep), x < mark key) ∧
      (∀ x ∈ rights (SB.map sep) (marks t.heap B), mark key < x) ∧ t.findLeaf key = some p := by
  obtain ⟨A, p, B, SA, SB, rfl, rfl, hA, hB, h1, h2, h3⟩ :=
    hs.upper.descend (hs.upper.sorted_seps hs.leaves.sorted) key
  have hline := hs.leaves.sorted
  rw [line_split hA] at hline
  obtain ⟨hlA, hlr, -⟩ := pairwise_append.1 hline
  obtain ⟨-, hlB, -⟩ := pairwise_append.1 hlr
  refine ⟨A, p, B, SA, SB, rfl, rfl, hA, hB, ?_, ?_, ?_⟩
  · refine lefts_forall (fun x y hxy hy => hxy.trans hy) hlA fun x hx => ?_
    obtain ⟨s, hs', rfl⟩ := mem_map.1 hx
    exact sep_lt_mark.2 (h1 s hs')
  · refine rights_forall (fun x y hxy hx => hx.trans hxy) hlB fun x hx => ?_
    obtain ⟨s, hs', rfl⟩ := mem_map.1 hx
    exact mark_lt_sep.2 (h2 s hs')
  · obtain ⟨f, hf⟩ := Nat.exists_eq_add_of_lt (hs.upper.length_levels hs.nodup hs.bound)
    have hleaf := (hs.leaves.leaf p (by simp)).leaf
    rw [findLeaf, hf, Nat.add_assoc, h3]
    simp [findLeafFrom, hleaf]

omit [LinearOrder K] in
theorem map_fst_entries {lo hi : Nat} (hl : ∀ p ∈ L, Leaf t.heap lo hi p) :
    (entries t.heap L).map Prod.fst = L.flatMap fun p => (t.heap p).keys := by
  rw [entries, map_flatMap]
  exact flatMap_congr fun p hp => map_fst_zip (hl p hp).values.ge

omit [LinearOrder K] in
theorem mem_marks {q : Ptr} {x : K} (hq : q ∈ L) (hx : x ∈ (t.heap q).keys) :
    mark x ∈ (marks t.heap L).flatten :=
  mem_flatten.2 ⟨_, mem_map.2 ⟨q, hq, rfl⟩, mem_map.2 ⟨x, hx, rfl⟩⟩

section Beside

variable {SA SB : List K} {key : K} (hA : SA.length = A.length) (hB : SB.length = B.length)
  (hX : ∀ x ∈ lefts (marks t.heap A) (SA.map sep), x < mark key)
  (hY : ∀ x ∈ rights (SB.map sep) (marks t.heap B), mark key < x)
include hA hB hX hY

theorem ne_of_beside :
    (∀ q ∈ A, ∀ x ∈ (t.heap q).keys, x < key) ∧ ∀ q ∈ B, ∀ x ∈ (t.heap q).keys, key < x := by
  constructor
  · intro q hq x hx
    refine mark_lt_mark.1 (hX _ ?_)
    exact (flatten_sublist_lefts (by simpa [marks] using hA)).subset (mem_marks hq hx)
  · intro q hq x hx
    refine mark_lt_mark.1 (hY _ ?_)
    exact (flatten_sublist_rights (by simpa [marks] using hB)).subset (mem_marks hq hx)

/-- An entry with the key can only be in the leaf that `findLeaf` arrives at. -/
theorem mem_entries_iff {v : V} : (key, v) ∈ entries t.heap (A ++ p :: B) ↔
    (key, v) ∈ (t.heap p).keys.zip (t.heap p).values := by
  obtain ⟨hlt, hgt⟩ := ne_of_beside hA hB hX hY
  refine ⟨fun h => ?_, fun h => mem_flatMap.2 ⟨p, by simp, h⟩⟩
  obtain ⟨q, hq, hv⟩ := mem_flatMap.1 h
  have hk := (of_mem_zip hv).1
  rw [mem_append, mem_cons] at hq
  rcases hq with hq | rfl | hq
  · exact absurd (hlt q hq key hk) (lt_irrefl key)
  · exact hv
  · exact absurd (hgt q hq key hk) (lt_irrefl key)

end Beside

theorem exists_entry {SA SB : List K} {key : K} (hs : Shape t m Ls (A ++ p :: B) (SA ++ SB))
    (hA : SA.length = A.length) (hkey : key ∈ (t.heap p).keys) :
    ∃ ka kb va w vb, (t.heap p).keys = ka ++ key :: kb ∧ (t.heap p).values = va ++ w :: vb ∧
      va.length = ka.length ∧ key ∉ ka ∧ key ∉ kb := by
  obtain ⟨ka, kb, hk⟩ := append_of_mem hkey
  have hsk := sorted_keys hA hs.leaves.sorted
  have hvals := (hs.leaves.leaf p (by simp)).values
  rw [hk] at hsk
  rw [hk, length_append] at hvals
  obtain ⟨va, vb, hv, hva, hvb⟩ := exists_halves hvals
  obtain ⟨w, vb', rfl⟩ := exists_cons_of_length_pos
    (by rw [hvb]; exact Nat.succ_pos _ : 0 < vb.length)
  refine ⟨ka, kb, va, w, vb', hk, hv, hva, fun h => ?_, fun h => ?_⟩
  · exact lt_irrefl key ((pairwise_append.1 hsk).2.2 key h key (by simp))
  · exact lt_irrefl key ((pairwise_cons.1 (pairwise_append.1 hsk).2.1).1 key h)

theorem sorted_entries (hs : Shape t m Ls L S) :
    ((entries t.heap L).map Prod.fst).Pairwise (· < ·) := by
  rw [map_fst_entries hs.leaves.leaf, ← pairwise_map_mark]
  have hsub : (marks t.heap L).flatten.Sublist (line t.heap L S) :=
    flatten_sublist_weave (by simpa [marks] using hs.upper.length)
  have hmarks : (marks t.heap L).flatten = (L.flatMap fun p => (t.heap p).keys).map mark := by
    rw [map_flatMap, marks, flatMap_def]
  rw [← hmarks]
  exact hs.leaves.sorted.sublist hsub

end Shape

section Steps

variable {t t' t2 t3 : BPlusTree K V} {Ls3 : List (List Ptr)} {T : List Ptr}

theorem Leaves.congr {lo hi : Nat} (hl : Leaves h lo hi L S)
    (hs : ∀ p ∈ L, h' p = { h p with parent := (h' p).parent }) : Leaves h' lo hi L S := by
  have hs' : ∀ p ∈ L, SameEntries (h p) (h' p) := fun p hp => by
    rw [hs p hp]
    exact ⟨rfl, rfl, rfl, rfl⟩
  refine ⟨fun p hp => (hl.leaf p hp).congr (hs' p hp), hl.linked.congr fun p hp => ?_, ?_⟩
  · rw [hs p hp]
    exact ⟨rfl, rfl⟩
  · rw [line, marks_congr hs']
    exact hl.sorted

theorem Shape.of_frame (hm : 1 ≤ m) (hmax : t2.maxKeys = 2 * m)
    (hu : Upper t3.heap m t3.root Ls3 L S) (hf : Frame t2 t3 Ls Ls3 T)
    (hnd : (L ++ Ls.flatten).Nodup) (hb : ∀ p ∈ L, p < t2.fresh)
    (hl : Leaves t2.heap (leastLeaf m Ls3) (2 * m) L S) :
    Shape t3 m Ls3 L S ∧ entries t3.heap L = entries t2.heap L := by
  obtain ⟨hnd1, -, hnd2⟩ := nodup_append.1 hnd
  have hsame : ∀ p ∈ L, t3.heap p = { t2.heap p with parent := (t3.heap p).parent } := fun p hp =>
    hf.content p (hb p hp) fun h => hnd2 p hp p h rfl
  have hent : entries t3.heap L = entries t2.heap L := entries_congr fun p hp => by
    rw [hsame p hp]
    exact ⟨rfl, rfl, rfl, rfl⟩
  refine ⟨?_, hent⟩
  exact
    { half := hm
      maxKeys := hf.maxKeys.trans hmax
      upper := hu
      leaves := hl.congr hsame
      nodup := by
        refine nodup_append.2 ⟨hnd1, hf.nodup, ?_⟩
        rintro p hp q hq rfl
        rcases hf.nodes p hq with h | h
        · exact hnd2 p hp p h rfl
        · exact absurd (hb p hp) (not_lt.2 h)
      bound := fun p hp => (mem_append.1 hp).elim (fun h => (hb p h).trans_le hf.fresh) (hf.bound p) }

end Steps

section OneLeaf

variable {t : BPlusTree K V} {h h' : Ptr → Node K V} {m lo lo' hi : Nat} {Ls : List (List Ptr)}
  {A B : List Ptr} {p : Ptr} {S SA SB : List K} {ks : List K} {vs : List V}

theorem Leaves.setEntries (hl : Leaves t.heap lo hi (A ++ p :: B) (SA ++ SB))
    (hnd : (A ++ p :: B).Nodup) (hlen : SA.length = A.length) (hks : vs.length = ks.length)
    (hlo : lo' ≤ lo) (hmin : lo' ≤ ks.length) (hmax : ks.length ≤ hi)
    (hs : (lefts (marks t.heap A) (SA.map sep) ++
      (ks.map mark ++ rights (SB.map sep) (marks t.heap B))).Pairwise (· < ·)) :
    Leaves (t.setEntries p ks vs).heap lo' hi (A ++ p :: B) (SA ++ SB) := by
  have hold : ∀ q, q ∈ A ∨ q ∈ B → (t.setEntries p ks vs).heap q = t.heap q := fun q hq =>
    setEntries_of_ne (ne_around hnd hq)
  have hsame : ∀ q, q ∈ A ∨ q ∈ B → SameEntries (t.heap q) ((t.setEntries p ks vs).heap q) :=
    fun q hq => .of_eq (hold q hq)
  have hpl := hl.leaf p (by simp)
  refine ⟨forall_around ?_ fun q hq => ?_, hl.linked.congr (forall_around ?_ fun q hq => ?_), ?_⟩
  · exact .of_eq setEntries_self hpl.leaf hpl.children hks hmin hmax
  · exact ((hl.leaf q (mem_around hq)).congr (hsame q hq)).mono hlo
  · rw [setEntries_self]
    exact ⟨rfl, rfl⟩
  · rw [hold q hq]
    exact ⟨rfl, rfl⟩
  · rw [line_split hlen, setEntries_self, marks_congr fun q hq => hsame q (.inl hq),
      marks_congr fun q hq => hsame q (.inr hq)]
    exact hs

theorem Shape.recount {L : List Ptr} (hs : Shape t m Ls L S) (c : Nat) :
    Shape { t with count := c } m Ls L S :=
  ⟨hs.half, hs.maxKeys, hs.upper, hs.leaves, hs.nodup, hs.bound⟩

theorem Shape.setEntries (hs : Shape t m Ls (A ++ p :: B) (SA ++ SB))
    (hl : Leaves (t.setEntries p ks vs).heap (leastLeaf m Ls) (2 * m) (A ++ p :: B) (SA ++ SB)) :
    Shape (t.setEntries p ks vs) m Ls (A ++ p :: B) (SA ++ SB) :=
  ⟨hs.half, hs.maxKeys, (LeafStep.setEntries (by simp)).upper hs.upper hs.nodup hs.bound, hl,
    hs.nodup, hs.bound⟩

theorem Shape.next_ne {L : List Ptr} {S : List K} (hs : Shape t m Ls L S) (hL : L = A ++ p :: B) :
    (t.heap p).next = B.head? ∧ (t.heap p).next ≠ some t.fresh ∧ (t.heap p).next ≠ some p := by
  subst hL
  have hn := hs.leaves.linked.around.2
  refine ⟨hn, ?_, ?_⟩
  · rw [hn]
    intro h
    exact absurd rfl (hs.bound t.fresh (by simp [mem_of_mem_head? h])).ne
  · rw [hn]
    intro h
    exact ne_around (nodup_append.1 hs.nodup).1 (.inr (mem_of_mem_head? h)) rfl

end OneLeaf

end Solocoder.BPlus
