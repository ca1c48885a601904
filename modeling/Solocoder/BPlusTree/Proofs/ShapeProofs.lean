import Mathlib.Data.List.Nodup
import Mathlib.Data.List.Perm.Subperm
import Solocoder.Lib.Weave
import Solocoder.BPlusTree.Tree

/-!
# The levels of a tree

The nodes of a level are the children of the level above in one line, and the keys between them are
the keys of that level, woven with its separators. An operation changes one level and passes the
change on to the level above.
-/

namespace Solocoder.BPlus

open Lib List

variable {K V : Type}

namespace BPlusTree

variable {t : BPlusTree K V} {p q : Ptr} {f : Node K V → Node K V} {n : Node K V}

@[simp] theorem modify_self : (t.modify p f).heap p = f (t.heap p) := by
  simp [modify]

theorem modify_of_ne (h : q ≠ p) : (t.modify p f).heap q = t.heap q := by
  simp [modify, h]

theorem modify_congr {g : Node K V → Node K V} (h : f (t.heap p) = g (t.heap p)) :
    t.modify p f = t.modify p g := by
  simp [modify, h]

@[simp] theorem alloc_self : (t.alloc n).heap t.fresh = n := by
  simp [alloc]

theorem alloc_of_ne (h : q ≠ t.fresh) : (t.alloc n).heap q = t.heap q := by
  simp [alloc, h]

@[simp] theorem setParent_self : (t.setParent q p).heap q = { t.heap q with parent := some p } := by
  simp [setParent]

theorem setParent_of_ne {c : Ptr} (h : q ≠ c) : (t.setParent c p).heap q = t.heap q :=
  modify_of_ne h

theorem setParents_heap (t : BPlusTree K V) (cs : List Ptr) (p q : Ptr) :
    (t.setParents cs p).heap q =
      if q ∈ cs then { t.heap q with parent := some p } else t.heap q := by
  induction cs generalizing t with
  | nil => simp [setParents]
  | cons c cs ih =>
    show ((t.setParent c p).setParents cs p).heap q = _
    rw [ih]
    by_cases hc : q = c
    · subst hc
      simp
    · rw [setParent_of_ne hc]
      simp [hc]

theorem setParents_rest (t : BPlusTree K V) (cs : List Ptr) (p : Ptr) :
    (t.setParents cs p).fresh = t.fresh ∧ (t.setParents cs p).root = t.root ∧
      (t.setParents cs p).maxKeys = t.maxKeys ∧ (t.setParents cs p).count = t.count := by
  induction cs generalizing t with
  | nil => exact ⟨rfl, rfl, rfl, rfl⟩
  | cons c cs ih => exact ih (t.setParent c p)

theorem setPrev_heap (t : BPlusTree K V) (o : Option Ptr) (p q : Ptr) : (t.setPrev o p).heap q =
      if o = some q then { t.heap q with prev := some p } else t.heap q := by
  cases o with
  | none => rfl
  | some c =>
    by_cases hq : q = c
    · subst hq
      simp [setPrev]
    · have hcq : ¬ c = q := fun h => hq h.symm
      simp [setPrev, modify_of_ne hq, hcq]

theorem setPrev_rest (t : BPlusTree K V) (o : Option Ptr) (p : Ptr) :
    (t.setPrev o p).fresh = t.fresh ∧ (t.setPrev o p).root = t.root ∧
      (t.setPrev o p).maxKeys = t.maxKeys ∧ (t.setPrev o p).count = t.count := by
  cases o <;> exact ⟨rfl, rfl, rfl, rfl⟩

end BPlusTree

section Slices

variable {α : Type}

theorem insertAt_append (a b : List α) (x : α) : insertAt (a ++ b) a.length x = some (a ++ x :: b) := by
  unfold insertAt
  rw [if_pos (by simp)]
  congr 1
  induction a with
  | nil => rfl
  | cons y a ih => simp [ih]

theorem setAt_append (a b : List α) (x y : α) : setAt (a ++ x :: b) a.length y = some (a ++ y :: b) := by
  unfold setAt
  simp

theorem removeAt_append (a b : List α) (x : α) : removeAt (a ++ x :: b) a.length = some (a ++ b) := by
  unfold removeAt
  have hmin : min a.length ((a ++ x :: b).length - 1) = a.length := by
    simp only [length_append, length_cons]
    omega
  rw [hmin, eraseIdx_append_of_length_le le_rfl]
  simp

theorem exists_middle {l : List α} {m : Nat} (h : l.length = 2 * m + 1) :
    ∃ a x b, l = a ++ x :: b ∧ a.length = m ∧ b.length = m := by
  refine ⟨l.take m, l[m], l.drop (m + 1), ?_, ?_, ?_⟩
  · simp
  · rw [length_take]
    omega
  · rw [length_drop]
    omega

theorem perm_second (a : List α) (x y : α) (b : List α) :
    (a ++ x :: y :: b).Perm (y :: (a ++ x :: b)) := by
  have h : ((a ++ [x]) ++ y :: b).Perm (y :: ((a ++ [x]) ++ b)) := perm_middle
  simpa using h

theorem exists_halves {l : List α} {m n : Nat} (h : l.length = m + n) :
    ∃ a b, l = a ++ b ∧ a.length = m ∧ b.length = n := by
  refine ⟨l.take m, l.drop m, by simp, ?_, ?_⟩
  · rw [length_take]
    omega
  · rw [length_drop]
    omega

variable {a b : List α} {x y z : α}

theorem mem_around (hx : x ∈ a ∨ x ∈ b) : x ∈ a ++ y :: b := by
  rcases hx with hx | hx <;> simp [hx]

theorem forall_around {P : α → Prop} (hy : P y) (h : ∀ x, x ∈ a ∨ x ∈ b → P x) :
    ∀ x ∈ a ++ y :: b, P x := by
  intro x hx
  rw [mem_append, mem_cons] at hx
  rcases hx with hx | rfl | hx
  exacts [h x (.inl hx), hy, h x (.inr hx)]

theorem ne_around (hnd : (a ++ y :: b).Nodup) (hx : x ∈ a ∨ x ∈ b) : x ≠ y := by
  rw [nodup_middle, nodup_cons, mem_append] at hnd
  rintro rfl
  exact hnd.1 hx

theorem ne_around_pair (hnd : (a ++ y :: z :: b).Nodup) (hx : x ∈ a ∨ x ∈ b) : x ≠ y ∧ x ≠ z :=
  ⟨ne_around hnd (hx.imp_right (mem_cons_of_mem z)),
    ne_around (a := a ++ [y]) (by simpa using hnd) (hx.imp_left (mem_append_left [y]))⟩

variable [LinearOrder α]

theorem lowerBound_append {key : α} (ha : ∀ x ∈ a, x < key) (hb : ∀ x ∈ b, key ≤ x) :
    lowerBound (a ++ b) key = a.length := by
  induction a with
  | nil =>
    cases b with
    | nil => rfl
    | cons x b =>
      have : ¬ x < key := not_lt.2 (hb x (mem_cons_self ..))
      simp [lowerBound, this]
  | cons x a ih =>
    have hx : x < key := ha x (mem_cons_self ..)
    simp [lowerBound, hx, ih fun y hy => ha y (mem_cons_of_mem x hy)]

theorem upperBound_append {key : α} (ha : ∀ x ∈ a, x ≤ key) (hb : ∀ x ∈ b, key < x) :
    upperBound (a ++ b) key = a.length := by
  induction a with
  | nil =>
    cases b with
    | nil => rfl
    | cons x b =>
      have : ¬ x ≤ key := not_le.2 (hb x (mem_cons_self ..))
      simp [upperBound, this]
  | cons x a ih =>
    have hx : x ≤ key := ha x (mem_cons_self ..)
    simp [upperBound, hx, ih fun y hy => ha y (mem_cons_of_mem x hy)]

theorem idxOf?_append (hx : x ∉ a) : (a ++ x :: b).idxOf? x = some a.length := by
  rw [idxOf?_eq_some_iff]
  refine ⟨by simp, by simp, fun j hj => ?_⟩
  simp only [getElem_append_left hj]
  exact fun h => hx (by simpa using h ▸ getElem_mem hj)

end Slices

/-- An inner node with at least `lo` and at most `hi` keys. -/
structure Internal (h : Ptr → Node K V) (lo hi : Nat) (p : Ptr) : Prop where
  inner : (h p).isLeaf = false
  arity : (h p).children.length = (h p).keys.length + 1
  min : lo ≤ (h p).keys.length
  max : (h p).keys.length ≤ hi
  parents : ∀ c ∈ (h p).children, (h c).parent = some p

/-- The least number of keys of an inner node with the levels `Ls` above it. -/
def least (m : Nat) : List (List Ptr) → Nat
  | [] => 1
  | _ :: _ => m

/-- The levels `Ls`, the nearest first, lie above the level `L` whose nodes the keys `S` separate.
Every node but the root has between `m` and `2 * m` keys. -/
def Upper (h : Ptr → Node K V) (m : Nat) (root : Ptr) :
    List (List Ptr) → List Ptr → List K → Prop
  | [], L, S => L = [root] ∧ S = [] ∧ (h root).parent = none
  | L1 :: Ls, L, S => ∃ S1, Upper h m root Ls L1 S1 ∧
      (∀ p ∈ L1, Internal h (least m Ls) (2 * m) p) ∧
      L = L1.flatMap (fun p => (h p).children) ∧ S = weave (L1.map fun p => (h p).keys) S1

theorem length_le_of_nodup {l : List Ptr} (hnd : l.Nodup) {b : Nat} (hb : ∀ p ∈ l, p < b) :
    l.length ≤ b := by
  have hsub : l ⊆ range b := fun p hp => mem_range.2 (hb p hp)
  have hle := (hnd.subperm hsub).length_le
  rwa [length_range] at hle

def SameShape (n n' : Node K V) : Prop :=
  n'.keys = n.keys ∧ n'.isLeaf = n.isLeaf ∧ n'.children = n.children

theorem SameShape.refl (n : Node K V) : SameShape n n := ⟨rfl, rfl, rfl⟩

theorem SameShape.of_eq {n n' : Node K V} (h : n' = n) : SameShape n n' := h ▸ .refl n

theorem SameShape.trans {n n' n'' : Node K V} (h : SameShape n n') (h' : SameShape n' n'') :
    SameShape n n'' :=
  ⟨h'.1.trans h.1, h'.2.1.trans h.2.1, h'.2.2.trans h.2.2⟩

variable {h h' : Ptr → Node K V} {m lo hi : Nat} {root : Ptr} {Ls : List (List Ptr)}
  {L L1 : List Ptr} {S : List K} {b A B A' B' a : List Ptr} {p q r : Ptr} {SA SB k1 k2 : List K}

theorem Internal.of_shape {n : Node K V} (hs : SameShape n (h p)) (hinner : n.isLeaf = false)
    (harity : n.children.length = n.keys.length + 1) (hmin : lo ≤ n.keys.length)
    (hmax : n.keys.length ≤ hi) (hpar : ∀ c ∈ n.children, (h c).parent = some p) :
    Internal h lo hi p := by
  obtain ⟨h1, h2, h3⟩ := hs
  rw [← h2] at hinner
  rw [← h1] at harity hmin hmax
  rw [← h3] at harity hpar
  exact ⟨hinner, harity, hmin, hmax, hpar⟩

theorem Internal.congr (hi' : Internal h lo hi p) (hs : SameShape (h p) (h' p))
    (hp : ∀ c ∈ (h p).children, (h' c).parent = (h c).parent) : Internal h' lo hi p :=
  .of_shape hs hi'.inner hi'.arity hi'.min hi'.max fun c hc =>
    (hp c hc).trans (hi'.parents c hc)

theorem Internal.mono {lo' : Nat} (hi' : Internal h lo hi p) (hle : lo' ≤ lo) :
    Internal h lo' hi p :=
  { hi' with min := hle.trans hi'.min }

namespace Upper

variable (hu : Upper h m root Ls L S)
include hu

/-- The levels above depend on the records of their nodes and on the parent pointers of the level
itself. -/
theorem congr (hs : ∀ p ∈ Ls.flatten, SameShape (h p) (h' p))
    (hp : ∀ p ∈ L ++ Ls.flatten, (h' p).parent = (h p).parent) : Upper h' m root Ls L S := by
  induction Ls generalizing L S with
  | nil =>
    obtain ⟨rfl, rfl, hr⟩ := hu
    exact ⟨rfl, rfl, by rw [hp root (by simp)]; exact hr⟩
  | cons L1 Ls ih =>
    obtain ⟨S1, hup, hint, rfl, rfl⟩ := hu
    have hs1 : ∀ p ∈ L1, SameShape (h p) (h' p) := fun p hp1 =>
      hs p (mem_append_left _ hp1)
    refine ⟨S1, ih hup (fun p hp1 => hs p (mem_append_right _ hp1))
      (fun p hp1 => hp p (mem_append_right _ hp1)), fun p hp1 => ?_, ?_, ?_⟩
    · refine (hint p hp1).congr (hs1 p hp1) fun c hc => hp c (mem_append_left _ ?_)
      exact mem_flatMap.2 ⟨p, hp1, hc⟩
    · exact flatMap_congr fun p hp1 => (hs1 p hp1).2.2.symm
    · congr 1
      exact map_congr_left fun p hp1 => (hs1 p hp1).1.symm

theorem length : L.length = S.length + 1 := by
  induction Ls generalizing L S with
  | nil => obtain ⟨rfl, rfl, -⟩ := hu; rfl
  | cons L1 Ls ih =>
    obtain ⟨S1, hup, hint, rfl, rfl⟩ := hu
    have hlen := length_weave (K := L1.map fun p => (h p).keys) (S := S1) (by simpa using ih hup)
    rw [hlen, length_flatMap, map_map]
    exact congrArg sum (map_congr_left fun p hp => (hint p hp).arity)

theorem root_mem : root ∈ L ++ Ls.flatten := by
  induction Ls generalizing L S with
  | nil => obtain ⟨rfl, -, -⟩ := hu; simp
  | cons L1 Ls ih =>
    obtain ⟨S1, hup, -⟩ := hu
    exact mem_append_right _ (by simpa using ih hup)

theorem length_levels (hnd : (L ++ Ls.flatten).Nodup) {b : Nat}
    (hb : ∀ p ∈ L ++ Ls.flatten, p < b) : Ls.length < b := by
  have hne : Ls.length < (L ++ Ls.flatten).length := by
    clear hnd hb
    induction Ls generalizing L S with
    | nil => obtain ⟨rfl, -, -⟩ := hu; simp
    | cons L1 Ls ih =>
      have hlen := hu.length
      obtain ⟨S1, hup, -⟩ := hu
      have := ih hup
      simp only [length_cons, flatten_cons, length_append] at this ⊢
      omega
  exact hne.trans_le (length_le_of_nodup hnd hb)

end Upper

/-- Above two nodes there is another level. -/
theorem Upper.exists_cons (hu : Upper h m root Ls L S) (hp : p ∈ L) (hq : q ∈ L) (hne : p ≠ q) :
    ∃ L1 Ls', Ls = L1 :: Ls' := by
  cases Ls with
  | nil =>
    obtain ⟨rfl, -, -⟩ := hu
    exact absurd ((mem_singleton.1 hp).trans (mem_singleton.1 hq).symm) hne
  | cons L1 Ls => exact ⟨L1, Ls, rfl⟩

theorem Upper.least_eq (hu : Upper h m root Ls L S) (hp : p ∈ L) (hq : q ∈ L) (hne : p ≠ q) :
    least m Ls = m := by
  obtain ⟨_, _, rfl⟩ := hu.exists_cons hp hq hne
  rfl

/-- The node `p` of a level, between `A` and `B`, as a child of the node `r` of the level above. -/
structure Located (h : Ptr → Node K V) (m : Nat) (root : Ptr) (Ls : List (List Ptr))
    (L1 A : List Ptr) (p : Ptr) (B : List Ptr) (S : List K) (A' : List Ptr) (r : Ptr)
    (B' a b : List Ptr) (SA SB k1 k2 : List K) : Prop where
  level : L1 = A' ++ r :: B'
  upper : Upper h m root Ls (A' ++ r :: B') (SA ++ SB)
  internal : ∀ q ∈ A' ++ r :: B', Internal h (least m Ls) (2 * m) q
  lenA : SA.length = A'.length
  lenB : SB.length = B'.length
  children : (h r).children = a ++ p :: b
  keys : (h r).keys = k1 ++ k2
  lena : k1.length = a.length
  lenb : k2.length = b.length
  left : A = A'.flatMap (fun q => (h q).children) ++ a
  right : B = b ++ B'.flatMap fun q => (h q).children
  seps : S = (lefts (A'.map fun q => (h q).keys) SA ++ k1) ++
    (k2 ++ rights SB (B'.map fun q => (h q).keys))
  lenS : (lefts (A'.map fun q => (h q).keys) SA ++ k1).length = A.length

section

variable (hl : Located h m root Ls L1 A p B S A' r B' a b SA SB k1 k2)
include hl

theorem Located.eq_flatMap : A ++ p :: B = L1.flatMap fun q => (h q).children := by
  rw [hl.level, hl.left, hl.right, flatMap_append, flatMap_cons, hl.children]
  simp [append_assoc]

theorem Located.child_mem {c : Ptr} (hq : q ∈ L1) (hc : c ∈ (h q).children) : c ∈ A ++ p :: B := by
  rw [hl.eq_flatMap]
  exact mem_flatMap.2 ⟨q, hq, hc⟩

theorem Located.children_sublist : (a ++ p :: b).Sublist (A ++ p :: B) := by
  rw [hl.left, hl.right]
  exact (sublist_append_right _ a).append ((sublist_append_left b _).cons_cons p)

theorem Located.whole : Upper h m root (L1 :: Ls) (A ++ p :: B) S := by
  refine ⟨SA ++ SB, hl.level ▸ hl.upper, hl.level ▸ hl.internal, hl.eq_flatMap, ?_⟩
  rw [hl.seps, hl.level, map_append, map_cons, weave_split (by simpa using hl.lenA), hl.keys]
  simp [append_assoc]

end

theorem Located.right_pair (hl : Located h m root Ls L1 A p B S A' r B' a (q :: b) SA SB k1 k2) :
    ∃ B0 s k2', B = q :: B0 ∧
      Located h m root Ls L1 A p (q :: B0) S A' r B' a (q :: b) SA SB k1 (s :: k2') := by
  have hB : B = q :: (b ++ B'.flatMap fun q => (h q).children) := hl.right
  cases k2 with
  | nil => exact absurd hl.lenb (by simp)
  | cons s k2' => exact ⟨_, s, k2', hB, hB ▸ hl⟩

theorem Located.left_pair (hl : Located h m root Ls L1 A p B S A' r B' (a ++ [q]) b SA SB k1 k2) :
    ∃ A0 s k1', A = A0 ++ [q] ∧ k1 = k1' ++ [s] ∧
      Located h m root Ls L1 A0 q (p :: B) S A' r B' a (p :: b) SA SB k1' (s :: k2) := by
  have hlena := hl.lena
  obtain ⟨k1', s, rfl⟩ : ∃ k1' s, k1 = k1' ++ [s] := by
    rcases eq_nil_or_concat k1 with rfl | ⟨k1', s, rfl⟩
    · simp at hlena
    · exact ⟨k1', s, by simp⟩
  have hA : A = (A'.flatMap (fun q => (h q).children) ++ a) ++ [q] := by
    rw [hl.left, append_assoc]
  refine ⟨_, s, k1', hA, rfl,
    { hl with
      children := by simpa using hl.children
      keys := by simpa using hl.keys
      lena := by simpa using hlena
      lenb := by simpa using hl.lenb
      left := rfl
      right := by rw [hl.right, cons_append]
      seps := by simpa using hl.seps
      lenS := ?_ }⟩
  have hlenS := hl.lenS
  rw [hA] at hlenS
  simp only [length_append, length_singleton] at hlenS ⊢
  omega

/-- No node stands on two of the levels, or twice on the middle one. -/
structure Apart (L L1 : List Ptr) (Ls : List (List Ptr)) : Prop where
  nodup : L1.Nodup
  low : ∀ p ∈ L, p ∉ L1
  lows : ∀ p ∈ L, p ∉ Ls.flatten
  mid : ∀ p ∈ L1, p ∉ Ls.flatten

theorem Apart.of_nodup (hnd : (L ++ (L1 :: Ls).flatten).Nodup) : Apart L L1 Ls := by
  obtain ⟨-, hnd1, hL⟩ := nodup_append.1 hnd
  obtain ⟨hnd2, -, hL1⟩ := nodup_append.1 hnd1
  exact
    { nodup := hnd2
      low := fun p hp hp' => hL p hp p (mem_append_left _ hp') rfl
      lows := fun p hp hp' => hL p hp p (mem_append_right _ hp') rfl
      mid := fun p hp hp' => hL1 p hp p hp' rfl }

theorem Apart.ne_of_mem (hap : Apart L L1 Ls) (hL : L1 = A' ++ r :: B') (hq : q ∈ A' ∨ q ∈ B') :
    q ≠ r :=
  ne_around (hL ▸ hap.nodup) hq

theorem Upper.locate (hu : Upper h m root (L1 :: Ls) L S) (hL : L = A ++ p :: B) :
    ∃ A' r B' a b SA SB k1 k2, Located h m root Ls L1 A p B S A' r B' a b SA SB k1 k2 := by
  obtain ⟨S1, hup, hint, rfl, rfl⟩ := hu
  obtain ⟨A', r, B', a, b, rfl, hr, hA, hB⟩ := flatMap_split hL
  have hlen := hup.length
  simp only [length_append, length_cons] at hlen
  -- the keys are cut where the children are
  have hS1 : S1 = S1.take A'.length ++ S1.drop A'.length := (take_append_drop _ _).symm
  have hSA : (S1.take A'.length).length = A'.length := by rw [length_take]; omega
  have hSB : (S1.drop A'.length).length = B'.length := by rw [length_drop]; omega
  have hkr : (h r).keys = (h r).keys.take a.length ++ (h r).keys.drop a.length :=
    (take_append_drop _ _).symm
  have har := (hint r (by simp)).arity
  rw [hr] at har
  simp only [length_append, length_cons] at har
  have hka : ((h r).keys.take a.length).length = a.length := by rw [length_take]; omega
  have hkb : ((h r).keys.drop a.length).length = b.length := by rw [length_drop]; omega
  refine ⟨A', r, B', a, b, _, _, _, _,
    { level := rfl, upper := hS1 ▸ hup, internal := hint, lenA := hSA, lenB := hSB, children := hr
      keys := hkr, lena := hka, lenb := hkb, left := hA, right := hB, seps := ?_, lenS := ?_ }⟩
  · conv_lhs => rw [hS1]
    rw [map_append, map_cons, weave_split (by simpa using hSA)]
    conv_lhs => rw [hkr]
    simp only [append_assoc]
  · rw [hA, length_append, length_append, length_lefts (by simpa using hSA), length_flatMap, map_map]
    congr 2
    exact map_congr_left fun q hq => (hint q (by simp [hq])).arity.symm

theorem Located.congr (hl : Located h m root Ls L1 A p B S A' r B' a b SA SB k1 k2)
    (hs : ∀ q ∈ (L1 :: Ls).flatten, SameShape (h q) (h' q))
    (hp : ∀ q ∈ A ++ p :: B ++ (L1 :: Ls).flatten, (h' q).parent = (h q).parent) :
    Located h' m root Ls L1 A p B S A' r B' a b SA SB k1 k2 := by
  have hs1 : ∀ q ∈ L1, SameShape (h q) (h' q) := fun q hq => hs q (mem_append_left _ hq)
  have hs' : ∀ q ∈ A' ++ r :: B', SameShape (h q) (h' q) := fun q hq => hs1 q (hl.level ▸ hq)
  have hA : ∀ q ∈ A', SameShape (h q) (h' q) := fun q hq => hs' q (by simp [hq])
  have hB : ∀ q ∈ B', SameShape (h q) (h' q) := fun q hq => hs' q (by simp [hq])
  have hr := hs' r (by simp)
  refine
    { hl with
      upper := hl.upper.congr (fun q hq => hs q (mem_append_right _ hq)) fun q hq => ?_
      internal := fun q hq => (hl.internal q hq).congr (hs' q hq) fun c hc => ?_
      children := hr.2.2.trans hl.children
      keys := hr.1.trans hl.keys
      left := ?_
      right := ?_
      seps := ?_
      lenS := ?_ }
  · rw [← hl.level] at hq
    exact hp q (mem_append_right _ (by simpa using hq))
  · exact hp c (mem_append_left _ (hl.child_mem (hl.level ▸ hq) hc))
  · rw [flatMap_congr fun q hq => (hA q hq).2.2]
    exact hl.left
  · rw [flatMap_congr fun q hq => (hB q hq).2.2]
    exact hl.right
  · rw [map_congr_left fun q hq => (hA q hq).1, map_congr_left fun q hq => (hB q hq).1]
    exact hl.seps
  · rw [map_congr_left fun q hq => (hA q hq).1]
    exact hl.lenS

/-- A node whose record and whose children's parent pointers are the same on two heaps. -/
structure Kept (h h' : Ptr → Node K V) (lo hi : Nat) (p : Ptr) : Prop where
  internal : Internal h lo hi p
  same : SameShape (h p) (h' p)
  parents : ∀ c ∈ (h p).children, (h' c).parent = (h c).parent

theorem Kept.internal' (hk : Kept h h' lo hi p) : Internal h' lo hi p :=
  hk.internal.congr hk.same hk.parents

theorem kept_eq (hkept : ∀ q, q ∈ A ∨ q ∈ B → Kept h h' lo hi q) :
    ((A.flatMap fun q => (h' q).children) = A.flatMap (fun q => (h q).children) ∧
      (B.flatMap fun q => (h' q).children) = B.flatMap fun q => (h q).children) ∧
      (A.map fun q => (h' q).keys) = A.map (fun q => (h q).keys) ∧
      (B.map fun q => (h' q).keys) = B.map fun q => (h q).keys :=
  ⟨⟨flatMap_congr fun q hq => (hkept q (.inl hq)).same.2.2,
      flatMap_congr fun q hq => (hkept q (.inr hq)).same.2.2⟩,
    map_congr_left fun q hq => (hkept q (.inl hq)).same.1,
    map_congr_left fun q hq => (hkept q (.inr hq)).same.1⟩

theorem Upper.extend1 (hu : Upper h' m root Ls (A ++ r :: B) (SA ++ SB))
    (hlen : SA.length = A.length) (hr : Internal h' (least m Ls) (2 * m) r)
    (hkept : ∀ q, q ∈ A ∨ q ∈ B → Kept h h' (least m Ls) (2 * m) q) :
    Upper h' m root ((A ++ r :: B) :: Ls)
      (A.flatMap (fun q => (h q).children) ++ ((h' r).children ++ B.flatMap fun q => (h q).children))
      (lefts (A.map fun q => (h q).keys) SA ++
        ((h' r).keys ++ rights SB (B.map fun q => (h q).keys))) := by
  obtain ⟨⟨hcA, hcB⟩, hkA, hkB⟩ := kept_eq hkept
  refine ⟨SA ++ SB, hu, forall_around hr fun q hq => (hkept q hq).internal', ?_, ?_⟩
  · rw [flatMap_append, flatMap_cons, hcA, hcB]
  · rw [map_append, map_cons, weave_split (by simpa using hlen), hkA, hkB]

theorem Upper.extend2 {r2 : Ptr} {s : K}
    (hu : Upper h' m root Ls (A ++ r :: r2 :: B) (SA ++ s :: SB)) (hlen : SA.length = A.length)
    (hr : Internal h' (least m Ls) (2 * m) r) (hr2 : Internal h' (least m Ls) (2 * m) r2)
    (hkept : ∀ q, q ∈ A ∨ q ∈ B → Kept h h' (least m Ls) (2 * m) q) :
    Upper h' m root ((A ++ r :: r2 :: B) :: Ls) (A.flatMap (fun q => (h q).children) ++
        ((h' r).children ++ ((h' r2).children ++ B.flatMap fun q => (h q).children)))
      (lefts (A.map fun q => (h q).keys) SA ++
        ((h' r).keys ++ s :: ((h' r2).keys ++ rights SB (B.map fun q => (h q).keys)))) := by
  obtain ⟨⟨hcA, hcB⟩, hkA, hkB⟩ := kept_eq hkept
  refine ⟨SA ++ s :: SB, hu, ?_, ?_, ?_⟩
  · exact forall_mem_append.2 ⟨fun q hq => (hkept q (.inl hq)).internal',
      forall_mem_cons.2 ⟨hr, forall_mem_cons.2 ⟨hr2, fun q hq => (hkept q (.inr hq)).internal'⟩⟩⟩
  · rw [flatMap_append, flatMap_cons, flatMap_cons, hcA, hcB]
  · rw [map_append, map_cons, map_cons, weave_split (by simpa using hlen), hkA, hkB, rights_cons]

/-- What an operation on the levels `Ls` leaves alone: it changes the records of their nodes and the
parent pointers of `T`, and replaces `Ls` by the same and new nodes. -/
structure Frame (t t' : BPlusTree K V) (Ls Ls' : List (List Ptr)) (T : List Ptr) : Prop where
  maxKeys : t'.maxKeys = t.maxKeys
  count : t'.count = t.count
  fresh : t.fresh ≤ t'.fresh
  nodup : Ls'.flatten.Nodup
  bound : ∀ p ∈ Ls'.flatten, p < t'.fresh
  nodes : ∀ p ∈ Ls'.flatten, p ∈ Ls.flatten ∨ t.fresh ≤ p
  content : ∀ p < t.fresh, p ∉ Ls.flatten →
    t'.heap p = { t.heap p with parent := (t'.heap p).parent }
  rest : ∀ p < t.fresh, p ∉ Ls.flatten → p ∉ T → t'.heap p = t.heap p

theorem Frame.same {t t' : BPlusTree K V} {Ls Ls' : List (List Ptr)} {T : List Ptr}
    (hf : Frame t t' Ls Ls' T) (hp : p < t.fresh) (hpLs : p ∉ Ls.flatten) :
    SameShape (t.heap p) (t'.heap p) := by
  rw [hf.content p hp hpLs]
  exact ⟨rfl, rfl, rfl⟩

/-- A change of one level, passed on to the levels above. -/
theorem Frame.cons {t t2 t3 : BPlusTree K V} {Ls Ls3 : List (List Ptr)} {L' T T2 : List Ptr}
    (hfr : Frame t2 t3 Ls Ls3 T2) (hmax : t2.maxKeys = t.maxKeys) (hcount : t2.count = t.count)
    (hfresh : t.fresh ≤ t2.fresh) (hap : Apart L L1 Ls) (hb : ∀ p ∈ (L1 :: Ls).flatten, p < t.fresh)
    (hnodup : L'.Nodup) (hL' : ∀ p ∈ L', p ∈ L1 ∨ t.fresh ≤ p ∧ p < t2.fresh)
    (hT2 : ∀ p ∈ T2, p ∈ L1 ∨ t.fresh ≤ p)
    (hcontent : ∀ p < t.fresh, p ∉ L1 → t2.heap p = { t.heap p with parent := (t2.heap p).parent })
    (hrest : ∀ p < t.fresh, p ∉ L1 → p ∉ T → t2.heap p = t.heap p) :
    Frame t t3 (L1 :: Ls) (L' :: Ls3) T := by
  have hlt : ∀ p ∈ L', p < t2.fresh := by
    intro p hp
    rcases hL' p hp with h | h
    · exact (hb p (mem_append_left _ h)).trans_le hfresh
    · exact h.2
  refine
    { maxKeys := hfr.maxKeys.trans hmax, count := hfr.count.trans hcount
      fresh := hfresh.trans hfr.fresh
      nodup := ?_, bound := ?_, nodes := ?_, content := ?_, rest := ?_ }
  · rw [flatten_cons, nodup_append]
    refine ⟨hnodup, hfr.nodup, ?_⟩
    rintro x hx y hy rfl
    rcases hfr.nodes _ hy with h | h
    · rcases hL' x hx with hx | hx
      · exact hap.mid x hx h
      · exact absurd (hb x (mem_append_right _ h)) (not_lt.2 hx.1)
    · exact absurd (hlt x hx) (not_lt.2 h)
  · exact forall_mem_append.2 ⟨fun p hp => (hlt p hp).trans_le hfr.fresh, hfr.bound⟩
  · exact forall_mem_append.2 ⟨fun p hp => (hL' p hp).imp (mem_append_left _) And.left,
      fun p hp => (hfr.nodes p hp).imp (mem_append_right _) hfresh.trans⟩
  · intro p hp hpL
    simp only [flatten_cons, mem_append, not_or] at hpL
    rw [hfr.content p (hp.trans_le hfresh) hpL.2, hcontent p hp hpL.1]
  · intro p hp hpL hpT
    simp only [flatten_cons, mem_append, not_or] at hpL
    rw [hfr.rest p (hp.trans_le hfresh) hpL.2 fun h => (hT2 p h).elim hpL.1 (not_le.2 hp)]
    exact hrest p hp hpL.1 hpT

end Solocoder.BPlus
