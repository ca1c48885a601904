import Solocoder.BPlusTree.Proofs.RefineProofs

/-!
# The structure of reachable trees

What the levels of a tree say, said again of its nodes: depth, filling, parents and children,
separators and subtrees, and the chain of leaves.
-/

namespace Solocoder.BPlus

open Lib List

variable {K V : Type}

section Structure

/-- `q` is `n` levels below `p`. -/
def Under (h : Ptr → Node K V) (p : Ptr) : Nat → Ptr → Prop
  | 0, q => q = p
  | n + 1, q => ∃ r, Under h p n r ∧ q ∈ (h r).children

/-- `q` is `p` or below it. -/
def Below (h : Ptr → Node K V) (p q : Ptr) : Prop := ∃ n, Under h p n q

/-- The leaves in the subtree of `p` from left to right, as deep as the fuel goes. -/
def leavesBelow (h : Ptr → Node K V) : Nat → Ptr → List Ptr
  | 0, _ => []
  | fuel + 1, p => if (h p).isLeaf then [p] else (h p).children.flatMap (leavesBelow h fuel)

/-- The leaves from left to right. -/
def BPlusTree.leaves (t : BPlusTree K V) : List Ptr := leavesBelow t.heap t.fresh t.root

/-- Following the pointers `next` visits the nodes `L` and then ends. -/
def Walk (next : Ptr → Option Ptr) : Option Ptr → List Ptr → Prop
  | o, [] => o = none
  | o, p :: L => o = some p ∧ Walk next (next p) L

/-- The structural invariant of the package. -/
structure WellFormed [LinearOrder K] (t : BPlusTree K V) : Prop where
  depth : ∃ d, ∀ n p, Under t.heap t.root n p → (t.heap p).isLeaf = true → n = d
  fill : ∀ p : Ptr, Below t.heap t.root p → p ≠ t.root →
    t.maxKeys / 2 ≤ (t.heap p).keys.length ∧ (t.heap p).keys.length ≤ t.maxKeys
  root : (t.heap t.root).keys.length ≤ t.maxKeys
  arity : ∀ p : Ptr, Below t.heap t.root p → (t.heap p).isLeaf = false →
    (t.heap p).children.length = (t.heap p).keys.length + 1 ∧
      ∀ c ∈ (t.heap p).children, (t.heap c).parent = some p
  sorted : ∀ p : Ptr, Below t.heap t.root p → (t.heap p).keys.Pairwise (· < ·)
  separators : ∀ p : Ptr, Below t.heap t.root p →
    ∀ (i : Nat) (s : K), (t.heap p).keys[i]? = some s →
    ∀ (j : Nat) (c : Ptr), (t.heap p).children[j]? = some c →
    ∀ q : Ptr, Below t.heap c q → ∀ x ∈ (t.heap q).keys, (j ≤ i → x < s) ∧ (i < j → s ≤ x)
  leaves : ∀ p : Ptr, p ∈ t.leaves ↔ Below t.heap t.root p ∧ (t.heap p).isLeaf = true
  next : Walk (fun p => (t.heap p).next) t.leaves.head? t.leaves
  prev : Walk (fun p => (t.heap p).prev) t.leaves.getLast? t.leaves.reverse

/-- The subtree of `p` has the height `n`, and all nodes below `p` are filled. -/
def Tall (h : Ptr → Node K V) (m : Nat) : Nat → Ptr → Prop
  | 0, p => (h p).isLeaf = true ∧ (h p).children = [] ∧ (h p).keys.length ≤ 2 * m
  | n + 1, p => (h p).isLeaf = false ∧ (h p).children.length = (h p).keys.length + 1 ∧
      (h p).keys.length ≤ 2 * m ∧
      ∀ c ∈ (h p).children, (h c).parent = some p ∧ m ≤ (h c).keys.length ∧ Tall h m n c

def inorder (h : Ptr → Node K V) : Nat → Ptr → List (K ×ₗ Bool)
  | 0, p => (h p).keys.map mark
  | n + 1, p => weave ((h p).children.map (inorder h n)) ((h p).keys.map sep)

variable {h : Ptr → Node K V} {m n k : Nat} {root p q : Ptr} {Ls : List (List Ptr)} {L : List Ptr}
  {S : List K}

theorem Upper.tall (hu : Upper h m root Ls L S) (hL : ∀ p ∈ L, Tall h m n p)
    (hfill : Ls ≠ [] → ∀ p ∈ L, m ≤ (h p).keys.length) : Tall h m (n + Ls.length) root := by
  induction Ls generalizing L S n with
  | nil =>
    obtain ⟨rfl, -, -⟩ := hu
    exact hL root (by simp)
  | cons L1 Ls ih =>
    obtain ⟨S1, hup, hint, rfl, rfl⟩ := hu
    have hchild : ∀ p ∈ L1, ∀ c ∈ (h p).children, c ∈ L1.flatMap fun p => (h p).children :=
      fun p hp c hc => mem_flatMap.2 ⟨p, hp, hc⟩
    have htall : Tall h m (n + 1 + Ls.length) root := by
      refine ih hup (fun p hp => ?_) (fun hne p hp => ?_)
      · have hi := hint p hp
        refine ⟨hi.inner, hi.arity, hi.max, fun c hc => ⟨hi.parents c hc, ?_, ?_⟩⟩
        · exact hfill (cons_ne_nil _ _) c (hchild p hp c hc)
        · exact hL c (hchild p hp c hc)
      · have hmin := (hint p hp).min
        cases Ls with
        | nil => exact absurd rfl hne
        | cons L2 Ls => exact hmin
    rw [length_cons, Nat.add_comm Ls.length, ← Nat.add_assoc]
    exact htall

/-- The lines of a level, between the separators of the level, are the line of the root. -/
theorem Upper.inorder_eq (hu : Upper h m root Ls L S) (n : Nat) :
    weave (L.map (inorder h n)) (S.map sep) = inorder h (n + Ls.length) root := by
  induction Ls generalizing L S n with
  | nil =>
    obtain ⟨rfl, rfl, -⟩ := hu
    simp
  | cons L1 Ls ih =>
    obtain ⟨S1, hup, hint, rfl, rfl⟩ := hu
    have hseps : (weave (L1.map fun p => (h p).keys) S1).map sep =
        weave (L1.map fun p => (h p).keys.map sep) (S1.map sep) := by
      rw [map_weave, map_map]
      rfl
    rw [hseps, map_flatMap, weave_flatMap (by simpa using hup.length)
      (fun p hp => by simpa using (hint p hp).arity), length_cons, Nat.add_comm Ls.length,
      ← Nat.add_assoc]
    exact ih hup (n + 1)

theorem Upper.leaves_eq (hu : Upper h m root Ls L S) (n : Nat) :
    L.flatMap (leavesBelow h n) = leavesBelow h (n + Ls.length) root := by
  induction Ls generalizing L S n with
  | nil =>
    obtain ⟨rfl, rfl, -⟩ := hu
    simp
  | cons L1 Ls ih =>
    obtain ⟨S1, hup, hint, rfl, rfl⟩ := hu
    rw [flatMap_assoc, length_cons, Nat.add_comm Ls.length, ← Nat.add_assoc, ← ih hup]
    refine flatMap_congr fun p hp => ?_
    simp [leavesBelow, (hint p hp).inner]

theorem Tall.under (ht : Tall h m k p) (hq : Under h p n q) : ∃ j, k = n + j ∧ Tall h m j q := by
  induction n generalizing q with
  | zero =>
    obtain rfl := hq
    exact ⟨k, (Nat.zero_add k).symm, ht⟩
  | succ n ih =>
    obtain ⟨r, hr, hc⟩ := hq
    obtain ⟨j, rfl, hj⟩ := ih hr
    cases j with
    | zero => simp [hj.2.1] at hc
    | succ j => exact ⟨j, by omega, (hj.2.2.2 q hc).2.2⟩

theorem Tall.isLeaf_iff (ht : Tall h m k p) : (h p).isLeaf = true ↔ k = 0 := by
  cases k with
  | zero => simp [ht.1]
  | succ k => simp [ht.1]

theorem Tall.max (ht : Tall h m k p) : (h p).keys.length ≤ 2 * m := by
  cases k with
  | zero => exact ht.2.2
  | succ k => exact ht.2.2.1

theorem Tall.fill (ht : Tall h m k p) (hq : Below h p q) (hne : q ≠ p) : m ≤ (h q).keys.length := by
  obtain ⟨n, hq⟩ := hq
  cases n with
  | zero => exact absurd hq hne
  | succ n =>
    obtain ⟨r, hr, hc⟩ := hq
    obtain ⟨j, -, hj⟩ := ht.under hr
    cases j with
    | zero => simp [hj.2.1] at hc
    | succ j => exact (hj.2.2.2 q hc).2.1

theorem under_add {a b : Nat} {r : Ptr} (hq : Under h p a q) (hr : Under h q b r) :
    Under h p (a + b) r := by
  induction b generalizing r with
  | zero =>
    obtain rfl := hr
    exact hq
  | succ b ih =>
    obtain ⟨s, hs, hc⟩ := hr
    exact ⟨s, ih hs, hc⟩

theorem below_iff : Below h p q ↔ q = p ∨ ∃ c ∈ (h p).children, Below h c q := by
  constructor
  · rintro ⟨n, hq⟩
    induction n generalizing q with
    | zero => exact .inl hq
    | succ n ih =>
      right
      obtain ⟨r, hr, hqr⟩ := hq
      rcases ih hr with rfl | ⟨c, hc, j, hj⟩
      · exact ⟨q, hqr, 0, rfl⟩
      · exact ⟨c, hc, j + 1, r, hj, hqr⟩
  · rintro (rfl | ⟨c, hc, n, hn⟩)
    · exact ⟨0, rfl⟩
    · exact ⟨1 + n, under_add ⟨p, rfl, hc⟩ hn⟩

theorem Tall.length_inorder (ht : Tall h m (k + 1) p) :
    ((h p).children.map (inorder h k)).length = ((h p).keys.map sep).length + 1 := by
  simpa using ht.2.1

theorem Tall.sublist_inorder (ht : Tall h m (n + k) p) (hq : Under h p n q) :
    (inorder h k q).Sublist (inorder h (n + k) p) := by
  induction n generalizing q k with
  | zero =>
    obtain rfl := hq
    rw [Nat.zero_add]
  | succ n ih =>
    obtain ⟨r, hr, hc⟩ := hq
    rw [Nat.add_right_comm, Nat.add_assoc] at ht ⊢
    refine List.Sublist.trans ?_ (ih ht hr)
    obtain ⟨j, hj, htr⟩ := ht.under hr
    obtain rfl : j = k + 1 := by omega
    exact (sublist_flatten_of_mem (mem_map_of_mem hc)).trans
      (flatten_sublist_weave htr.length_inorder)

theorem Tall.mem_inorder (ht : Tall h m k p) {x : K} (hx : x ∈ (h p).keys) :
    mark x ∈ inorder h k p ∨ sep x ∈ inorder h k p := by
  cases k with
  | zero => exact .inl (mem_map_of_mem hx)
  | succ k =>
    right
    exact (sublist_weave ht.length_inorder).subset (mem_map_of_mem hx)

theorem Tall.mem_leavesBelow (ht : Tall h m k p) {fuel : Nat} (hf : k < fuel) :
    q ∈ leavesBelow h fuel p ↔ Below h p q ∧ (h q).isLeaf = true := by
  induction k generalizing p fuel with
  | zero =>
    obtain ⟨fuel, rfl⟩ := Nat.exists_eq_succ_of_ne_zero hf.ne'
    obtain ⟨hleaf, hnil, -⟩ := ht
    rw [below_iff, hnil]
    simp only [leavesBelow, hleaf, if_true, mem_singleton, not_mem_nil, false_and,
      exists_false, or_false]
    constructor
    · rintro rfl
      exact ⟨rfl, hleaf⟩
    · rintro ⟨rfl, -⟩
      rfl
  | succ k ih =>
    obtain ⟨fuel, rfl⟩ := Nat.exists_eq_succ_of_ne_zero (Nat.ne_zero_of_lt hf)
    obtain ⟨hinner, -, -, hc⟩ := ht
    have hmem : q ∈ leavesBelow h (fuel + 1) p ↔
        ∃ c ∈ (h p).children, Below h c q ∧ (h q).isLeaf = true := by
      simp only [leavesBelow, hinner, Bool.false_eq_true, if_false, mem_flatMap]
      exact exists_congr fun c => and_congr_right fun hcp =>
        ih (hc c hcp).2.2 (Nat.lt_of_succ_lt_succ hf)
    rw [hmem, below_iff]
    constructor
    · rintro ⟨c, hcp, hq, hl⟩
      exact ⟨.inr ⟨c, hcp, hq⟩, hl⟩
    · rintro ⟨rfl | ⟨c, hcp, hq⟩, hl⟩
      · rw [hinner] at hl
        cases hl
      · exact ⟨c, hcp, hq, hl⟩

theorem Tall.leavesBelow_eq (ht : Tall h m k p) {fuel : Nat} (hf : k < fuel) :
    leavesBelow h fuel p = leavesBelow h (1 + k) p := by
  induction k generalizing p fuel with
  | zero =>
    obtain ⟨fuel, rfl⟩ := Nat.exists_eq_succ_of_ne_zero hf.ne'
    simp [leavesBelow, ht.1]
  | succ k ih =>
    obtain ⟨fuel, rfl⟩ := Nat.exists_eq_succ_of_ne_zero (Nat.ne_zero_of_lt hf)
    obtain ⟨hinner, -, -, hc⟩ := ht
    simp only [leavesBelow, hinner, Bool.false_eq_true, if_false]
    exact flatMap_congr fun c hcp => ih (hc c hcp).2.2 (Nat.lt_of_succ_lt_succ hf)

theorem Linked.walk_next {pr : Option Ptr} (hl : Linked h pr L none) :
    Walk (fun p => (h p).next) L.head? L := by
  induction L generalizing pr with
  | nil => rfl
  | cons p L ih =>
    obtain ⟨-, hn, hl⟩ := hl
    rw [Option.or_none] at hn
    refine ⟨rfl, ?_⟩
    show Walk _ (h p).next L
    rw [hn]
    exact ih hl

theorem Linked.walk_prev {nx : Option Ptr} (hl : Linked h none L nx) :
    Walk (fun p => (h p).prev) L.getLast? L.reverse := by
  induction L using reverseRecOn generalizing nx with
  | nil => rfl
  | append_singleton L p ih =>
    obtain ⟨hL, hp, -⟩ := linked_append.1 hl
    rw [Option.or_none] at hp
    rw [reverse_append, getLast?_concat]
    refine ⟨rfl, ?_⟩
    show Walk _ (h p).prev L.reverse
    rw [hp]
    exact ih hL

end Structure

section Reachable

variable [LinearOrder K] {t : BPlusTree K V} {m : Nat} {Ls : List (List Ptr)} {L : List Ptr}
  {S : List K}

section

variable (hs : Shape t m Ls L S)
include hs

theorem Shape.tall : Tall t.heap m Ls.length t.root := by
  have hu := hs.upper.tall (n := 0) (fun p hp => ?_) (fun hne p hp => ?_)
  · rwa [Nat.zero_add] at hu
  · have hl := hs.leaves.leaf p hp
    exact ⟨hl.leaf, hl.children, hl.max⟩
  · have hmin := (hs.leaves.leaf p hp).min
    cases Ls with
    | nil => exact absurd rfl hne
    | cons L1 Ls => exact hmin

theorem Shape.sorted_inorder : (inorder t.heap Ls.length t.root).Pairwise (· < ·) := by
  have hsort := hs.leaves.sorted
  have hline : line t.heap L S = inorder t.heap (0 + Ls.length) t.root := hs.upper.inorder_eq 0
  rwa [hline, Nat.zero_add] at hsort

theorem Shape.leaves_eq : t.leaves = L := by
  have hflat : L.flatMap (leavesBelow t.heap 1) = L := by
    have hsingle : L.flatMap (leavesBelow t.heap 1) = L.flatMap fun p => [p] :=
      flatMap_congr fun p hp => by simp [leavesBelow, (hs.leaves.leaf p hp).leaf]
    rw [hsingle]
    simp
  have hd := hs.upper.length_levels hs.nodup hs.bound
  rw [BPlusTree.leaves, hs.tall.leavesBelow_eq hd, ← hs.upper.leaves_eq, hflat]

section

variable {p : Ptr} (hp : Below t.heap t.root p)
include hp

theorem Shape.below : ∃ k, Tall t.heap m k p ∧ (inorder t.heap k p).Pairwise (· < ·) := by
  obtain ⟨n, hn⟩ := hp
  have ht := hs.tall
  have hsort := hs.sorted_inorder
  obtain ⟨k, hk, htp⟩ := ht.under hn
  rw [hk] at ht hsort
  exact ⟨k, htp, hsort.sublist (ht.sublist_inorder hn)⟩

theorem Shape.sorted_below : (t.heap p).keys.Pairwise (· < ·) := by
  obtain ⟨k, ht, hsort⟩ := hs.below hp
  cases k with
  | zero => exact pairwise_map_mark.1 hsort
  | succ k => exact pairwise_map_sep.1 (hsort.sublist (sublist_weave ht.length_inorder))

theorem Shape.separators {i j : Nat}
    {s : K} (hi : (t.heap p).keys[i]? = some s) {c : Ptr} (hj : (t.heap p).children[j]? = some c)
    {q : Ptr} (hq : Below t.heap c q) {x : K} (hx : x ∈ (t.heap q).keys) :
    (j ≤ i → x < s) ∧ (i < j → s ≤ x) := by
  obtain ⟨k, ht, hsort⟩ := hs.below hp
  cases k with
  | zero => simp [ht.2.1] at hj
  | succ k =>
    have htc := (ht.2.2.2 c (mem_of_getElem? hj)).2.2
    obtain ⟨n, hn⟩ := hq
    obtain ⟨j', rfl, htq⟩ := htc.under hn
    have hsub := (htc.sublist_inorder hn).subset
    have hrel : ∀ y ∈ inorder t.heap (n + j') c,
        (j ≤ i → y < sep s) ∧ (i < j → sep s < y) := fun y hy =>
      rel_of_pairwise_weave hsort ht.length_inorder (by simp [hj]) (by simp [hi]) hy
    rcases htq.mem_inorder hx with h | h
    · obtain ⟨h1, h2⟩ := hrel _ (hsub h)
      exact ⟨fun hji => mark_lt_sep.1 (h1 hji), fun hij => sep_lt_mark.1 (h2 hij)⟩
    · obtain ⟨h1, h2⟩ := hrel _ (hsub h)
      exact ⟨fun hji => sep_lt_sep.1 (h1 hji), fun hij => (sep_lt_sep.1 (h2 hij)).le⟩

end

theorem Shape.wellFormed : WellFormed t := by
  have ht := hs.tall
  have hL := hs.leaves_eq
  have hhalf : t.maxKeys / 2 = m := by
    rw [hs.maxKeys]
    omega
  have hlink := hs.leaves.linked
  exact
    { depth := by
        refine ⟨Ls.length, fun n p hp hleaf => ?_⟩
        obtain ⟨k, hk, htp⟩ := ht.under hp
        rw [hk, htp.isLeaf_iff.1 hleaf, Nat.add_zero]
      fill := fun p hp hne => by
        obtain ⟨k, htp, -⟩ := hs.below hp
        rw [hhalf, hs.maxKeys]
        exact ⟨ht.fill hp hne, htp.max⟩
      root := by
        rw [hs.maxKeys]
        exact ht.max
      arity := fun p hp hinner => by
        obtain ⟨k, htp, -⟩ := hs.below hp
        cases k with
        | zero => simp [htp.1] at hinner
        | succ k => exact ⟨htp.2.1, fun c hc => (htp.2.2.2 c hc).1⟩
      sorted := fun p hp => hs.sorted_below hp
      separators := fun p hp i s hi j c hj q hq x hx => hs.separators hp hi hj hq hx
      leaves := fun p => ht.mem_leavesBelow (hs.upper.length_levels hs.nodup hs.bound)
      next := by
        rw [hL]
        exact hlink.walk_next
      prev := by
        rw [hL]
        exact hlink.walk_prev }

end

/-- Every tree that updates reach from the empty one has the structure of a B+ tree. -/
theorem reachable_wellFormed (maxKeys : Int) (ops : List (Op K V)) :
    ∃ t, (BPlusTree.newBPlusTreeWithConfig maxKeys).updates ops = some t ∧
      t.maxKeys = (BPlusTree.newBPlusTreeWithConfig maxKeys : BPlusTree K V).maxKeys ∧
      2 ≤ t.maxKeys ∧ t.maxKeys % 2 = 0 ∧ WellFormed t := by
  obtain ⟨m, hnew⟩ := represents_new (K := K) (V := V) maxKeys
  obtain ⟨t, ht, Ls, L, S, hr, -⟩ := hnew.updates ops
  obtain ⟨Ls0, L0, S0, hn, -⟩ := hnew
  have hm := hr.half
  have hmax := hr.maxKeys
  refine ⟨t, ht, hmax.trans hn.maxKeys.symm, by omega, by omega, hr.toShape.wellFormed⟩

end Reachable

end Solocoder.BPlus
