import Solocoder.BPlusTree.Proofs.ShapeProofs

/-!
# Deletion above the leaves

`removeChildFromInternal` takes a merged node and its separator from the node above, which may then
borrow a key or be merged in turn. The proof is an induction on the levels above.
-/

namespace Solocoder.BPlus

open Lib List Function Option

variable {K V : Type}

namespace BPlusTree

variable {t : BPlusTree K V}
  {r moved internal parent : Ptr} {k1 k2 : List K} {s : K} {a b : List Ptr} {i : Nat}

theorem dropChild_eq {x y : Ptr} (hk : (t.heap r).keys = k1 ++ s :: k2)
    (hc : (t.heap r).children = a ++ x :: y :: b) (hlen : k1.length = a.length) :
    t.dropChild r k1.length (k1.length + 1) =
      some (t.modify r fun n => { n with keys := k1 ++ k2, children := a ++ x :: b }) := by
  have hchildren : removeAt (a ++ x :: y :: b) (k1.length + 1) = some (a ++ x :: b) := by
    rw [hlen]
    simpa using removeAt_append (a ++ [x]) b y
  simp [dropChild, hk, hc, removeAt_append, hchildren]

theorem setSeparator_eq (hk : (t.heap r).keys = k1 ++ s :: k2) (s' : K) :
    t.setSeparator r k1.length s' =
      some (t.modify r fun n => { n with keys := k1 ++ s' :: k2 }) := by
  simp [setSeparator, hk, setAt_append]

/-- The tree in which `lender` has passed the child `moved` to `borrower`. -/
def lend (t : BPlusTree K V) (lender borrower : Ptr) (kl kb : List K) (cl cb : List Ptr)
    (moved : Ptr) : BPlusTree K V :=
  ((t.modify lender fun n => { n with keys := kl, children := cl }).modify borrower fun n =>
    { n with keys := kb, children := cb }).setParent moved borrower

section Lend

variable {lender borrower q : Ptr} {kl kb : List K} {cl cb : List Ptr}

theorem lend_lender (h1 : lender ≠ borrower) (h2 : lender ≠ moved) :
    (t.lend lender borrower kl kb cl cb moved).heap lender =
      { t.heap lender with keys := kl, children := cl } := by
  rw [lend, setParent_of_ne h2, modify_of_ne h1, modify_self]

theorem lend_borrower (h1 : lender ≠ borrower) (h2 : borrower ≠ moved) :
    (t.lend lender borrower kl kb cl cb moved).heap borrower =
      { t.heap borrower with keys := kb, children := cb } := by
  rw [lend, setParent_of_ne h2, modify_self, modify_of_ne h1.symm]

theorem lend_of_ne (h1 : q ≠ lender) (h2 : q ≠ borrower) :
    (t.lend lender borrower kl kb cl cb moved).heap q =
      { t.heap q with parent := if q = moved then some borrower else (t.heap q).parent } := by
  unfold lend
  by_cases hm : q = moved
  · subst hm
    simp [modify_of_ne h1, modify_of_ne h2]
  · rw [setParent_of_ne hm, modify_of_ne h2, modify_of_ne h1, if_neg hm]

end Lend

theorem borrowFromLeftInternal_eq {leftSibling : Ptr} {kl : List K} {mk : K} {cl : List Ptr}
    (hp : (t.heap internal).parent = some parent) (hs : (t.heap parent).keys[i]? = some s)
    (hkl : (t.heap leftSibling).keys = kl ++ [mk])
    (hcl : (t.heap leftSibling).children = cl ++ [moved]) (hne : leftSibling ≠ internal) :
    t.borrowFromLeftInternal internal leftSibling (i + 1) =
      (t.lend leftSibling internal kl (s :: (t.heap internal).keys) cl
        (moved :: (t.heap internal).children) moved).setSeparator parent i mk := by
  simp only [borrowFromLeftInternal, hp, hs, hkl, hcl, getLast?_concat, bind_eq_bind, bind_some]
  unfold lend modify
  simp [hkl, hcl, update_of_ne hne.symm]

theorem borrowFromRightInternal_eq {rightSibling : Ptr} {kr : List K} {mk : K} {cr : List Ptr}
    (hp : (t.heap internal).parent = some parent) (hs : (t.heap parent).keys[i]? = some s)
    (hkr : (t.heap rightSibling).keys = mk :: kr)
    (hcr : (t.heap rightSibling).children = moved :: cr) (hne : rightSibling ≠ internal) :
    t.borrowFromRightInternal internal rightSibling i =
      (t.lend rightSibling internal kr ((t.heap internal).keys ++ [s]) cr
        ((t.heap internal).children ++ [moved]) moved).setSeparator parent i mk := by
  simp only [borrowFromRightInternal, hp, hs, hkr, hcr, head?_cons, bind_eq_bind, bind_some]
  unfold lend modify
  simp [hkr, hcr, update_of_ne hne.symm]

/-- The tree in which `left` has taken over all of `right`. -/
def absorb (t : BPlusTree K V) (left right : Ptr) (s : K) : BPlusTree K V :=
  (t.modify left fun n =>
    { n with keys := (t.heap left).keys ++ s :: (t.heap right).keys
             children := (t.heap left).children ++ (t.heap right).children }).setParents
    (t.heap right).children left

theorem absorb_heap (t : BPlusTree K V) {u v : Ptr} (s : K) (hu : u ∉ (t.heap v).children)
    (q : Ptr) : (t.absorb u v s).heap q =
      if q = u then
        { t.heap u with
          keys := (t.heap u).keys ++ s :: (t.heap v).keys
          children := (t.heap u).children ++ (t.heap v).children }
      else if q ∈ (t.heap v).children then { t.heap q with parent := some u } else t.heap q := by
  unfold absorb
  rw [setParents_heap]
  by_cases hq : q = u
  · subst hq
    simp [hu]
  · rw [if_neg hq, modify_of_ne hq]

theorem mergeInternal_eq {left right : Ptr} (hs : (t.heap parent).keys[i]? = some s) :
    t.mergeInternal left right parent i = some ⟨t.absorb left right s, parent, i, i + 1⟩ := by
  simp only [mergeInternal, hs, bind_eq_bind, bind_some, absorb, modify, append_assoc,
    singleton_append]

theorem findNodeIndex_eq {p : Ptr} (hp : (t.heap p).parent = some r)
    (hc : (t.heap r).children = a ++ p :: b) (hpa : p ∉ a) : t.findNodeIndex p = some a.length := by
  simp [findNodeIndex, hp, hc, idxOf?_append hpa]

/-- What is done with the siblings of a node that has a key too few. -/
def rebalance {α : Type} (t : BPlusTree K V) (left right : Option Ptr)
    (borrowLeft borrowRight mergeLeft mergeRight : Ptr → α) (alone : α) : α :=
  match t.lender left, t.lender right, left, right with
  | some l, _, _, _ => borrowLeft l
  | none, some r, _, _ => borrowRight r
  | none, none, some l, _ => mergeLeft l
  | none, none, none, some r => mergeRight r
  | none, none, none, none => alone

/-- The siblings of an inner node are its neighbours among the children of its parent. -/
theorem rebalanceInternal_eq (hp : (t.heap internal).parent = some parent)
    (hc : (t.heap parent).children = a ++ internal :: b) (ha : internal ∉ a) :
    t.rebalanceInternal internal = t.rebalance a.getLast? b.head?
      (fun l => (t.borrowFromLeftInternal internal l a.length).map .inl)
      (fun r => (t.borrowFromRightInternal internal r a.length).map .inl)
      (fun l => (t.mergeWithLeftInternal internal l a.length).map .inr)
      (fun r => (t.mergeWithRightInternal internal r a.length).map .inr) (some (.inl t)) := by
  have hleft : (if 0 < a.length then (a ++ internal :: b)[a.length - 1]? else none) = a.getLast? := by
    rcases eq_nil_or_concat a with rfl | ⟨a', l, rfl⟩
    · rfl
    · simp
  have hright : (if a.length < (a ++ internal :: b).length - 1 then
      (a ++ internal :: b)[a.length + 1]? else none) = b.head? := by
    cases b with
    | nil => simp
    | cons q b =>
      simp
  simp only [rebalanceInternal, findNodeIndex_eq hp hc ha, hp, hc, hleft, hright,
    bind_eq_bind, bind_some]
  all_goals rfl

theorem collapseRoot_of_keys (h : (t.heap t.root).keys ≠ []) : t.collapseRoot = t := by
  unfold collapseRoot
  split
  · contradiction
  · rfl

theorem collapseRoot_of_nil {c : Ptr} (hk : (t.heap t.root).keys = [])
    (hc : (t.heap t.root).children = [c]) :
    t.collapseRoot = { t.modify c fun n => { n with parent := none } with root := c } := by
  simp [collapseRoot, hk, hc]

end BPlusTree

open BPlusTree

section Pairs

variable {t t1 : BPlusTree K V} {m i : Nat} {Ls : List (List Ptr)} {L1 L A B A' B' a b : List Ptr}
  {u v p r : Ptr} {s : K} {S SA SB SA' SB' k1 k2 : List K}

/-- The node `r` and a neighbour below the same parent, as they are found in `rebalanceInternal`. -/
structure Pair (t : BPlusTree K V) (m : Nat) (Ls : List (List Ptr)) (L1 L : List Ptr) (S : List K)
    (p : Ptr) (A : List Ptr) (u v : Ptr) (B : List Ptr) (SA : List K) (s : K) (SB : List K)
    (i : Nat) : Prop where
  level : L = A ++ u :: v :: B
  seps : S = SA ++ s :: SB
  lenA : SA.length = A.length
  located : ∃ A' B' a b SA' SB' k1 k2, k1.length = i ∧
    Located t.heap m t.root Ls L1 A u (v :: B) (SA ++ s :: SB) A' p B' a (v :: b) SA' SB' k1 (s :: k2)

theorem Located.pair
    (hl : Located t.heap m t.root Ls L1 A u (v :: B) S A' r B' a (v :: b) SA' SB' k1 (s :: k2)) :
    ∃ SA SB, Pair t m Ls L1 (A ++ u :: v :: B) S r A u v B SA s SB a.length := by
  have hS := hl.seps
  rw [cons_append] at hS
  refine ⟨_, _, ⟨rfl, hS, hl.lenS, A', B', a, b, SA', SB', k1, k2, hl.lena, ?_⟩⟩
  rw [← hS]
  exact hl

theorem Located.seps_pair {h : Ptr → Node K V} {root : Ptr} {s0 : K}
    (hl : Located h m root Ls L1 A u (v :: B) (SA ++ s0 :: SB) A' r B' a (v :: b) SA' SB' k1
      (s :: k2)) (hlen : SA.length = A.length) :
    SA = lefts (A'.map fun q => (h q).keys) SA' ++ k1 ∧
      SB = k2 ++ rights SB' (B'.map fun q => (h q).keys) := by
  obtain ⟨h1, h2⟩ := append_inj hl.seps (hlen.trans hl.lenS.symm)
  exact ⟨h1, (cons.inj h2).2⟩

/-- The node `r` is changed, but for its parent pointer. -/
theorem Located.modify {f : Node K V → Node K V}
    (hl : Located t.heap m t.root Ls L1 A u B S A' r B' a b SA' SB' k1 k2)
    (hnd : (A ++ u :: B ++ (L1 :: Ls).flatten).Nodup) (hb : ∀ p ∈ (L1 :: Ls).flatten, p < t.fresh)
    (ht : t.modify r f = t1) (hf : ∀ n, (f n).parent = n.parent) :
    (∀ q, (t1.heap q).parent = (t.heap q).parent) ∧
      Upper t1.heap m t1.root Ls (A' ++ r :: B') (SA' ++ SB') ∧
      (∀ q, q ∈ A' ∨ q ∈ B' → Kept t.heap t1.heap (least m Ls) (2 * m) q) ∧
      Frame t t1 (L1 :: Ls) (L1 :: Ls) [] := by
  subst ht
  have hap := Apart.of_nodup hnd
  have hrL : r ∈ L1 := by simp [hl.level]
  have hpar : ∀ q, ((t.modify r f).heap q).parent = (t.heap q).parent := by
    intro q
    by_cases hq : q = r
    · rw [hq, modify_self, hf]
    · rw [modify_of_ne hq]
  have hold : ∀ {q}, q ∉ (L1 :: Ls).flatten → (t.modify r f).heap q = t.heap q := fun hq =>
    modify_of_ne fun h => hq (by simp [h, hrL])
  refine ⟨hpar, ?_, fun q hq => ?_, ?_⟩
  · exact hl.upper.congr (fun p hp => .of_eq (modify_of_ne fun h => hap.mid r hrL (h ▸ hp)))
      fun p _ => hpar p
  · exact ⟨hl.internal q (mem_around hq), .of_eq (modify_of_ne (hap.ne_of_mem hl.level hq)), fun c _ => hpar c⟩
  · exact
      { maxKeys := rfl, count := rfl, fresh := le_rfl, nodup := (nodup_append.1 hnd).2.1, bound := hb
        nodes := fun p hp => .inl hp, content := fun p _ hp => by rw [hold hp]
        rest := fun p _ hp _ => hold hp }

/-- The key between two neighbours is replaced. -/
theorem Pair.setSeparator (hp : Pair t m Ls L1 L S r A u v B SA s SB i)
    (hnd : (L ++ (L1 :: Ls).flatten).Nodup) (hb : ∀ p ∈ (L1 :: Ls).flatten, p < t.fresh) (s' : K) :
    ∃ t1, t.setSeparator r i s' = some t1 ∧ Upper t1.heap m t1.root (L1 :: Ls) L (SA ++ s' :: SB) ∧
      Frame t t1 (L1 :: Ls) (L1 :: Ls) [] := by
  obtain ⟨rfl, rfl, hlen, A', B', a, b, SA', SB', k1, k2, rfl, hl⟩ := hp
  obtain ⟨hSA, hSB⟩ := hl.seps_pair hlen
  have hri := hl.internal r (by simp)
  obtain ⟨t1, ht⟩ : ∃ t1, t.modify r (fun n => { n with keys := k1 ++ s' :: k2 }) = t1 := ⟨_, rfl⟩
  obtain ⟨hpar, hup, hkept, hframe⟩ := hl.modify hnd hb ht fun _ => rfl
  have hr1 : t1.heap r = { t.heap r with keys := k1 ++ s' :: k2 } := ht ▸ modify_self
  refine ⟨t1, ht ▸ setSeparator_eq hl.keys s', ?_, hframe⟩
  have hlen' : (k1 ++ s' :: k2).length = (t.heap r).keys.length := by
    rw [hl.keys]
    simp
  have hint : Internal t1.heap (least m Ls) (2 * m) r :=
    .of_shape (.of_eq hr1) hri.inner (hri.arity.trans (by rw [hlen'])) (hri.min.trans hlen'.ge)
      (hlen'.trans_le hri.max) fun c hc => (hpar c).trans (hri.parents c hc)
  have hext := hup.extend1 hl.lenA hint hkept
  rw [hr1, hl.children, ← hl.level] at hext
  rw [hSA, hSB, hl.left, hl.right]
  simpa only [append_assoc, cons_append] using hext

section

variable (hp : Pair t m Ls L1 L S p A u v B SA s SB i)
include hp

theorem Pair.parent_eq :
    (t.heap u).parent = some p ∧ (t.heap v).parent = some p ∧ (t.heap p).keys[i]? = some s := by
  obtain ⟨-, -, -, _, _, _, _, _, _, _, _, rfl, hl⟩ := hp
  have hpi := hl.internal p (by simp)
  exact ⟨hpi.parents u (by simp [hl.children]), hpi.parents v (by simp [hl.children]),
    by simp [hl.keys]⟩

theorem Pair.congr (hroot : t1.root = t.root) (hs : ∀ q ∈ (L1 :: Ls).flatten, t1.heap q = t.heap q)
    (hpar : ∀ q ∈ L ++ (L1 :: Ls).flatten, (t1.heap q).parent = (t.heap q).parent) :
    Pair t1 m Ls L1 L S p A u v B SA s SB i := by
  obtain ⟨rfl, rfl, hlen, A', B', a, b, SA', SB', k1, k2, hk, hl⟩ := hp
  refine ⟨rfl, rfl, hlen, A', B', a, b, SA', SB', k1, k2, hk, ?_⟩
  rw [hroot]
  exact hl.congr (fun q hq => .of_eq (hs q hq)) hpar

theorem Pair.sublist : (A ++ u :: B).Sublist L := by
  rw [hp.level]
  exact (Sublist.refl A).append ((sublist_cons_self v B).cons_cons u)

end

theorem exists_getLast {α : Type} {l : List α} (hl : 0 < l.length) : ∃ l' x, l = l' ++ [x] := by
  rcases eq_nil_or_concat l with h | ⟨l', x, h⟩
  · simp [h] at hl
  · exact ⟨l', x, by simpa using h⟩

end Pairs

/-! ## Two neighbours -/

/-- A level on which the neighbours `u` and `v`, separated by `s`, may have a key too few. -/
structure Weak (h : Ptr → Node K V) (m : Nat) (root : Ptr) (Ls : List (List Ptr)) (A : List Ptr)
    (u v : Ptr) (B : List Ptr) (SA : List K) (s : K) (SB : List K) : Prop where
  upper : Upper h m root Ls (A ++ u :: v :: B) (SA ++ s :: SB)
  lenA : SA.length = A.length
  others : ∀ q, q ∈ A ∨ q ∈ B → Internal h m (2 * m) q
  left : Internal h (m - 1) (2 * m) u
  right : Internal h (m - 1) (2 * m) v

/-- Keys and children are moved between the neighbours `u` and `v`. -/
structure Shift (t t' : BPlusTree K V) (u v : Ptr) (ku kv : List K) (cu cv : List Ptr) : Prop where
  fresh : t'.fresh = t.fresh
  root : t'.root = t.root
  maxKeys : t'.maxKeys = t.maxKeys
  count : t'.count = t.count
  left : t'.heap u = { t.heap u with keys := ku, children := cu }
  right : t'.heap v = { t.heap v with keys := kv, children := cv }
  moved : ∀ c ∈ (t.heap u).children ++ (t.heap v).children,
    t'.heap c = { t.heap c with parent := (t'.heap c).parent }
  rest : ∀ q, q ≠ u → q ≠ v → q ∉ (t.heap u).children ++ (t.heap v).children → t'.heap q = t.heap q

section Neighbours

variable {t t2 t3 : BPlusTree K V} {m : Nat} {Ls Ls3 : List (List Ptr)} {A B T : List Ptr}
  {u v : Ptr} {s : K} {SA SB ku kv : List K} {cu cv : List Ptr}

def below (h : Ptr → Node K V) (L : List Ptr) : List Ptr := L.flatMap fun q => (h q).children

variable {L : List Ptr} {h : Ptr → Node K V}

theorem mem_below {q c : Ptr} (hq : q ∈ L) (hc : c ∈ (h q).children) : c ∈ below h L :=
  mem_flatMap.2 ⟨q, hq, hc⟩

theorem mem_below_pair {c : Ptr} (hc : c ∈ (h u).children ++ (h v).children) :
    c ∈ below h (A ++ u :: v :: B) :=
  (mem_append.1 hc).elim (mem_below (by simp)) (mem_below (by simp))

theorem nodup_children_of_below (hnd : (below h L).Nodup) {q : Ptr}
    (hq : q ∈ L) : (h q).children.Nodup :=
  (nodup_flatMap.1 hnd).1 q hq

theorem below_pair (h : Ptr → Node K V) (A : List Ptr) (u v : Ptr) (B : List Ptr) :
    below h (A ++ u :: v :: B) = (A.flatMap fun q => (h q).children) ++
      ((h u).children ++ ((h v).children ++ B.flatMap fun q => (h q).children)) := by
  simp [below]

theorem Weak.line {root : Ptr} (hw : Weak h m root Ls A u v B SA s SB) :
    weave ((A ++ u :: v :: B).map fun q => (h q).keys) (SA ++ s :: SB) =
      lefts (A.map fun q => (h q).keys) SA ++
        (((h u).keys ++ s :: (h v).keys) ++ rights SB (B.map fun q => (h q).keys)) := by
  rw [map_append, map_cons, weave_split (by simpa using hw.lenA)]
  simp

/-- The nodes of a level, what is below them and the levels above are distinct and in use. -/
structure Placed (t : BPlusTree K V) (L : List Ptr) (Ls : List (List Ptr)) : Prop where
  nodup : (below t.heap L ++ (L :: Ls).flatten).Nodup
  bound : ∀ p ∈ below t.heap L ++ (L :: Ls).flatten, p < t.fresh

/-- What was below the level `L` is below the levels `Ls'`. -/
structure Settled (t t' : BPlusTree K V) (m : Nat) (Ls Ls' : List (List Ptr)) (L : List Ptr)
    (S : List K) : Prop where
  upper : Upper t'.heap m t'.root Ls' (below t.heap L) (weave (L.map fun q => (t.heap q).keys) S)
  frame : Frame t t' (L :: Ls) Ls' (below t.heap L)

theorem Placed.apart (hpl : Placed t L Ls) : Apart (below t.heap L) L Ls := .of_nodup hpl.nodup

theorem Placed.ne (hpl : Placed t (A ++ u :: v :: B) Ls) : u ≠ v :=
  (hpl.apart.ne_of_mem rfl (.inr (by simp)) : v ≠ u).symm

section

variable (hs : Shift t t2 u v ku kv cu cv)
include hs

section

variable (hpl : Placed t (A ++ u :: v :: B) Ls)
include hpl

theorem Shift.above {p : Ptr}
    (hp : p ∈ (A ++ u :: v :: B) ++ Ls.flatten) (hpu : p ≠ u) (hpv : p ≠ v) :
    t2.heap p = t.heap p := by
  refine hs.rest p hpu hpv fun hc => ?_
  have hlow : p ∈ below t.heap (A ++ u :: v :: B) := mem_below_pair hc
  exact (mem_append.1 hp).elim (hpl.apart.low p hlow) (hpl.apart.lows p hlow)

/-- The other nodes of the level, after the levels above have changed too. -/
theorem Shift.kept
    (hw : Weak t.heap m t.root Ls A u v B SA s SB) (hfr : Frame t2 t3 Ls Ls3 T) (hT : ∀ p ∈ T, p ∈ A ++ u :: v :: B) :
    (∀ c ∈ below t.heap (A ++ u :: v :: B), t3.heap c = t2.heap c) ∧
      (∀ p ∈ A ++ u :: v :: B, SameShape (t2.heap p) (t3.heap p)) ∧
      ∀ q, q ∈ A ∨ q ∈ B → Kept t.heap t3.heap m (2 * m) q := by
  have hap := hpl.apart
  have hlow : ∀ c ∈ below t.heap (A ++ u :: v :: B), t3.heap c = t2.heap c := fun c hc =>
    hfr.rest c (hs.fresh ▸ hpl.bound c (mem_append_left _ hc)) (hap.lows c hc) fun h =>
      hap.low c hc (hT c h)
  have hmid : ∀ p ∈ A ++ u :: v :: B, SameShape (t2.heap p) (t3.heap p) := fun p hp =>
    hfr.same (hs.fresh ▸ hpl.bound p (mem_append_right _ (mem_append_left _ hp))) (hap.mid p hp)
  refine ⟨hlow, hmid, fun q hq => ?_⟩
  have hqL : q ∈ A ++ u :: v :: B := mem_around (hq.imp_right (mem_cons_of_mem v))
  obtain ⟨hqu, hqv⟩ := ne_around_pair hap.nodup hq
  have hqi := hw.others q hq
  refine ⟨hqi, ?_, fun c hc => ?_⟩
  · exact (SameShape.of_eq (hs.above hpl (mem_append_left _ hqL) hqu hqv)).trans (hmid q hqL)
  · have hcL := mem_below hqL hc
    have hpar := hqi.parents c hc
    rw [hlow c hcL, hs.rest c (fun h => hap.low c hcL (by simp [h]))
      (fun h => hap.low c hcL (by simp [h])) fun h => ?_]
    -- a child of `u` or `v` has another parent
    rcases mem_append.1 h with h | h
    · exact hqu (some.inj (hpar.symm.trans (hw.left.parents c h)))
    · exact hqv (some.inj (hpar.symm.trans (hw.right.parents c h)))

theorem Shift.frame {L' : List Ptr} (hfr : Frame t2 t3 Ls Ls3 T) (hT : ∀ p ∈ T, p ∈ A ++ u :: v :: B)
    (hL' : L'.Sublist (A ++ u :: v :: B)) :
    Frame t t3 ((A ++ u :: v :: B) :: Ls) (L' :: Ls3) (below t.heap (A ++ u :: v :: B)) := by
  refine hfr.cons hs.maxKeys hs.count hs.fresh.ge hpl.apart
    (fun p hp => hpl.bound p (mem_append_right _ hp)) (hpl.apart.nodup.sublist hL')
    (fun p hp => .inl (hL'.subset hp)) (fun p hp => .inl (hT p hp)) ?_ ?_
  · intro p hp hpL
    by_cases hpc : p ∈ (t.heap u).children ++ (t.heap v).children
    · rw [hs.moved p hpc]
    · rw [hs.rest p (fun h => hpL (by simp [h])) (fun h => hpL (by simp [h])) hpc]
  · intro p hp hpL hpT
    exact hs.rest p (fun h => hpL (by simp [h])) (fun h => hpL (by simp [h])) fun h =>
      hpT (mem_below_pair h)

end

theorem Shift.pair {L1 : List Ptr} {S : List K} {p : Ptr} {i : Nat} (hpl : Placed t L (L1 :: Ls))
    (hp : Pair t m Ls L1 L S p A u v B SA s SB i) : Pair t2 m Ls L1 L S p A u v B SA s SB i := by
  obtain rfl := hp.level
  have hap := hpl.apart
  refine hp.congr hs.root (fun q hq => ?_) fun q hq => ?_
  · exact hs.above hpl (mem_append_right _ hq) (fun h => hap.mid u (by simp) (h ▸ hq))
      fun h => hap.mid v (by simp) (h ▸ hq)
  · by_cases hqu : q = u
    · rw [hqu, hs.left]
    · by_cases hqv : q = v
      · rw [hqv, hs.right]
      · rw [hs.above hpl hq hqu hqv]

/-- The left neighbour, after the levels above have changed too. -/
theorem Shift.internal {n : Nat} (hsame : SameShape (t2.heap u) (t3.heap u))
    (hinner : (t.heap u).isLeaf = false)
    (hku : n ≤ ku.length ∧ ku.length ≤ 2 * m ∧ cu.length = ku.length + 1)
    (hpu : ∀ c ∈ cu, (t3.heap c).parent = some u) : Internal t3.heap n (2 * m) u := by
  rw [hs.left] at hsame
  exact .of_shape hsame hinner hku.2.2 hku.1 hku.2.1 hpu

theorem Shift.symm : Shift t t2 v u kv ku cv cu :=
  { hs with
    left := hs.right
    right := hs.left
    moved := fun c hc => hs.moved c (by simpa [or_comm] using hc)
    rest := fun q h1 h2 hq => hs.rest q h2 h1 fun h => hq (by simpa [or_comm] using h) }

end

theorem shift_lend {moved : Ptr} (hmoved : moved ∈ (t.heap u).children) (ku kv : List K)
    (cu cv : List Ptr) (huv : u ≠ v)
    (hkid : ∀ c ∈ (t.heap u).children ++ (t.heap v).children, c ≠ u ∧ c ≠ v) :
    Shift t (t.lend u v ku kv cu cv moved) u v ku kv cu cv := by
  obtain ⟨hmu, hmv⟩ := hkid moved (mem_append_left _ hmoved)
  refine
    { fresh := rfl, root := rfl, maxKeys := rfl, count := rfl, left := lend_lender huv hmu.symm
      right := lend_borrower huv hmv.symm, moved := fun c hc => ?_, rest := fun q h1 h2 hq => ?_ }
  · rw [lend_of_ne (hkid c hc).1 (hkid c hc).2]
  · rw [lend_of_ne h1 h2, if_neg fun h : q = moved => hq (mem_append_left _ (h ▸ hmoved))]

theorem shift_absorb (s : K) (huv : u ≠ v)
    (hkid : ∀ c ∈ (t.heap u).children ++ (t.heap v).children, c ≠ u ∧ c ≠ v) :
    Shift t (t.absorb u v s) u v ((t.heap u).keys ++ s :: (t.heap v).keys) (t.heap v).keys
      ((t.heap u).children ++ (t.heap v).children) (t.heap v).children := by
  have hheap := t.absorb_heap s fun h => (hkid u (mem_append_right _ h)).1 rfl
  have hv : v ∉ (t.heap v).children := fun h => (hkid v (mem_append_right _ h)).2 rfl
  obtain ⟨h1, h2, h3, h4⟩ := setParents_rest (t.modify u fun n =>
    { n with keys := (t.heap u).keys ++ s :: (t.heap v).keys
             children := (t.heap u).children ++ (t.heap v).children }) (t.heap v).children u
  refine
    { fresh := h1, root := h2, maxKeys := h3, count := h4, left := by simp [hheap]
      right := by simp [hheap, huv.symm, hv], moved := fun c hc => ?_, rest := fun q e1 _ hq => ?_ }
  · rw [hheap, if_neg (hkid c hc).1]
    split <;> simp_all
  · rw [hheap, if_neg e1, if_neg fun h => hq (mem_append_right _ h)]

/-- Keys and children have moved between the neighbours, and the key between them was replaced. -/
theorem redistribute_spec (hs : Shift t t2 u v ku kv cu cv)
    (hw : Weak t.heap m t.root Ls A u v B SA s SB) (hpl : Placed t (A ++ u :: v :: B) Ls) {s' : K} (hu : Upper t3.heap m t3.root Ls (A ++ u :: v :: B) (SA ++ s' :: SB))
    (hfr : Frame t2 t3 Ls Ls []) (hkeys : (t.heap u).keys ++ s :: (t.heap v).keys = ku ++ s' :: kv)
    (hkids : (t.heap u).children ++ (t.heap v).children = cu ++ cv)
    (hku : m ≤ ku.length ∧ ku.length ≤ 2 * m ∧ cu.length = ku.length + 1)
    (hkv : m ≤ kv.length ∧ kv.length ≤ 2 * m ∧ cv.length = kv.length + 1)
    (hpu : ∀ c ∈ cu, (t2.heap c).parent = some u) (hpv : ∀ c ∈ cv, (t2.heap c).parent = some v) :
    Settled t t3 m Ls ((A ++ u :: v :: B) :: Ls) (A ++ u :: v :: B) (SA ++ s :: SB) := by
  obtain ⟨hlow, hmid, hkept⟩ := hs.kept hpl hw hfr (by simp)
  have hleast : least m Ls = m := hu.least_eq (p := u) (q := v) (by simp) (by simp) hpl.ne
  have hcc : ∀ c ∈ cu ++ cv, c ∈ below t.heap (A ++ u :: v :: B) := fun c hc =>
    mem_below_pair (hkids ▸ hc)
  have hui := hs.internal (hmid u (by simp)) hw.left.inner ⟨hleast.trans_le hku.1, hku.2⟩
    fun c hc => by rw [hlow c (hcc c (mem_append_left _ hc))]; exact hpu c hc
  have hvi := hs.symm.internal (hmid v (by simp)) hw.right.inner ⟨hleast.trans_le hkv.1, hkv.2⟩
    fun c hc => by rw [hlow c (hcc c (mem_append_right _ hc))]; exact hpv c hc
  have hkept' : ∀ q, q ∈ A ∨ q ∈ B → Kept t.heap t3.heap (least m Ls) (2 * m) q := by
    rw [hleast]
    exact hkept
  constructor
  · have hext := hu.extend2 hw.lenA hui hvi hkept'
    rw [(hmid u (by simp)).1, (hmid u (by simp)).2.2, (hmid v (by simp)).1, (hmid v (by simp)).2.2,
      hs.left, hs.right] at hext
    rw [hw.line, hkeys, below_pair, ← append_assoc (t.heap u).children, hkids]
    simpa only [append_assoc, cons_append] using hext
  · exact hs.frame hpl hfr (by simp) (Sublist.refl _)

section Borrow

variable {L1 : List Ptr} {p : Ptr} {S : List K} {i : Nat}

theorem Placed.kids_ne (hpl : Placed t (A ++ u :: v :: B) Ls) {c : Ptr}
    (hc : c ∈ (t.heap u).children ++ (t.heap v).children) : c ≠ u ∧ c ≠ v := by
  have hlow : c ∈ below t.heap (A ++ u :: v :: B) := mem_below_pair hc
  exact ⟨fun e => hpl.apart.low c hlow (by simp [e]), fun e => hpl.apart.low c hlow (by simp [e])⟩

variable (hp : Pair t m Ls L1 L S p A u v B SA s SB i)
  (hw : Weak t.heap m t.root (L1 :: Ls) A u v B SA s SB) (hpl : Placed t L (L1 :: Ls))
include hp hw hpl

/-- One of two neighbours passes a child to the other, and the key between them is replaced. -/
theorem Pair.lend_spec {lender borrower moved : Ptr} {kl kb : List K} {cl cb : List Ptr} {s' : K}
    (huv : lender = u ∧ borrower = v ∨ lender = v ∧ borrower = u)
    (hs : Shift t (t.lend lender borrower kl kb cl cb moved) u v ku kv cu cv)
    (hkeys : (t.heap u).keys ++ s :: (t.heap v).keys = ku ++ s' :: kv)
    (hkids : (t.heap u).children ++ (t.heap v).children = cu ++ cv)
    (hku : m ≤ ku.length ∧ ku.length ≤ 2 * m ∧ cu.length = ku.length + 1)
    (hkv : m ≤ kv.length ∧ kv.length ≤ 2 * m ∧ cv.length = kv.length + 1)
    (hcu : ∀ c ∈ cu, c = moved ∧ borrower = u ∨ c ≠ moved ∧ c ∈ (t.heap u).children)
    (hcv : ∀ c ∈ cv, c = moved ∧ borrower = v ∨ c ≠ moved ∧ c ∈ (t.heap v).children) :
    ∃ t', (t.lend lender borrower kl kb cl cb moved).setSeparator p i s' = some t' ∧
      Settled t t' m (L1 :: Ls) (L :: L1 :: Ls) L S := by
  obtain ⟨t', ht', h1, h2⟩ := (hs.pair hpl hp).setSeparator (nodup_append.1 hpl.nodup).2.1
    (fun q hq => hpl.bound q (mem_append_right _ (mem_append_right _ hq))) s'
  obtain ⟨rfl, rfl, -, -⟩ := hp
  -- a child has the parent that it had, or is the one that was passed on
  have hparent : ∀ {c x : Ptr}, c ∈ cu ++ cv → (∀ c ∈ (t.heap x).children, (t.heap c).parent = some x) →
      (c = moved ∧ borrower = x ∨ c ≠ moved ∧ c ∈ (t.heap x).children) →
      ((t.lend lender borrower kl kb cl cb moved).heap c).parent = some x := by
    intro c x hc hx hcases
    obtain ⟨h3, h4⟩ : c ≠ lender ∧ c ≠ borrower := by
      obtain ⟨h3, h4⟩ := hpl.kids_ne (hkids ▸ hc)
      rcases huv with ⟨rfl, rfl⟩ | ⟨rfl, rfl⟩
      · exact ⟨h3, h4⟩
      · exact ⟨h4, h3⟩
    rw [lend_of_ne h3 h4]
    rcases hcases with ⟨rfl, rfl⟩ | ⟨hne, hc⟩
    · exact if_pos rfl
    · exact (if_neg hne).trans (hx c hc)
  exact ⟨t', ht', redistribute_spec hs hw hpl h1 h2 hkeys hkids hku hkv
    (fun c hc => hparent (mem_append_left _ hc) hw.left.parents (hcu c hc))
    fun c hc => hparent (mem_append_right _ hc) hw.right.parents (hcv c hc)⟩

theorem Pair.borrow_left (hu : m < (t.heap u).keys.length) (hv : (t.heap v).keys.length + 1 = m) :
    ∃ t', t.borrowFromLeftInternal v u (i + 1) = some t' ∧
      Settled t t' m (L1 :: Ls) (L :: L1 :: Ls) L S := by
  obtain ⟨-, hpv, hkey⟩ := hp.parent_eq
  obtain rfl := hp.level
  have har := hw.left.arity
  obtain ⟨kl, mk, hkl⟩ := exists_getLast (Nat.zero_lt_of_lt hu)
  obtain ⟨cl, mc, hcl⟩ := exists_getLast (l := (t.heap u).children) (by omega)
  have hs := shift_lend (v := v) (by simp [hcl] : mc ∈ (t.heap u).children) kl
    (s :: (t.heap v).keys) cl (mc :: (t.heap v).children) hpl.ne fun c hc => hpl.kids_ne hc
  rw [borrowFromLeftInternal_eq hpv hkey hkl hcl hpl.ne]
  have har' := hw.right.arity
  have hmax := hw.left.max
  rw [hkl] at har hu hmax
  rw [hcl] at har
  simp only [length_append, length_singleton] at har hu hmax
  refine hp.lend_spec hw hpl (.inl ⟨rfl, rfl⟩) hs (by rw [hkl]; simp)
    (by rw [hcl]; simp) ⟨by omega, by omega, by omega⟩
    ⟨by simp; omega, by simp; omega, by simp; omega⟩
    (fun c hc => .inr ⟨?_, by simp [hcl, hc]⟩) fun c hc => ?_
  · have hndu := nodup_children_of_below (nodup_append.1 hpl.nodup).1
      (by simp : u ∈ A ++ u :: v :: B)
    rw [hcl] at hndu
    exact (nodup_append.1 hndu).2.2 c hc mc (by simp)
  · by_cases hcm : c = mc
    · exact .inl ⟨hcm, rfl⟩
    · exact .inr ⟨hcm, by simpa [hcm] using hc⟩

theorem Pair.borrow_right (hv : m < (t.heap v).keys.length) (hu : (t.heap u).keys.length + 1 = m) :
    ∃ t', t.borrowFromRightInternal u v i = some t' ∧
      Settled t t' m (L1 :: Ls) (L :: L1 :: Ls) L S := by
  obtain ⟨hpu, -, hkey⟩ := hp.parent_eq
  obtain rfl := hp.level
  have har' := hw.right.arity
  obtain ⟨mk, kr, hkr⟩ := exists_cons_of_length_pos (Nat.zero_lt_of_lt hv)
  obtain ⟨mc, cr, hcr⟩ := exists_cons_of_length_pos (l := (t.heap v).children) (by omega)
  have hs := (shift_lend (v := u) (by simp [hcr] : mc ∈ (t.heap v).children) kr
    ((t.heap u).keys ++ [s]) cr ((t.heap u).children ++ [mc]) hpl.ne.symm fun c hc =>
      (hpl.kids_ne (by simpa [or_comm] using hc)).symm).symm
  rw [borrowFromRightInternal_eq hpu hkey hkr hcr hpl.ne.symm]
  have har := hw.left.arity
  have hmax := hw.right.max
  rw [hkr] at har' hv hmax
  rw [hcr] at har'
  simp only [length_cons] at har' hv hmax
  refine hp.lend_spec hw hpl (.inr ⟨rfl, rfl⟩) hs (by rw [hkr]; simp)
    (by rw [hcr]; simp) ⟨by simp; omega, by simp; omega, by simp; omega⟩
    ⟨by omega, by omega, by omega⟩ (fun c hc => ?_) fun c hc => .inr ⟨?_, by simp [hcr, hc]⟩
  · by_cases hcm : c = mc
    · exact .inl ⟨hcm, rfl⟩
    · exact .inr ⟨hcm, by simpa [hcm] using hc⟩
  · have hndv := nodup_children_of_below (nodup_append.1 hpl.nodup).1
      (by simp : v ∈ A ++ u :: v :: B)
    rw [hcr] at hndv
    rintro rfl
    exact (nodup_cons.1 hndv).1 hc

end Borrow

/-- The left neighbour has taken over the right one, which the levels above have forgotten. -/
theorem merge_spec (hs : Shift t t2 u v ku kv cu cv)
    (hw : Weak t.heap m t.root Ls A u v B SA s SB) (hpl : Placed t (A ++ u :: v :: B) Ls)
    (hu : Upper t3.heap m t3.root Ls3 (A ++ u :: B) (SA ++ SB)) (hfr : Frame t2 t3 Ls Ls3 T)
    (hT : ∀ p ∈ T, p ∈ A ++ u :: v :: B) (hkeys : (t.heap u).keys ++ s :: (t.heap v).keys = ku)
    (hkids : (t.heap u).children ++ (t.heap v).children = cu)
    (hmin : 1 ≤ m ∧ m ≤ ku.length) (hmax : ku.length ≤ 2 * m)
    (hpu : ∀ c ∈ cu, (t2.heap c).parent = some u) :
    Settled t t3 m Ls ((A ++ u :: B) :: Ls3) (A ++ u :: v :: B) (SA ++ s :: SB) := by
  obtain ⟨hlow, hmid, hkept⟩ := hs.kept hpl hw hfr hT
  have hcc : ∀ c ∈ cu, c ∈ below t.heap (A ++ u :: v :: B) := fun c hc =>
    mem_below_pair (hkids ▸ hc)
  have harity : cu.length = ku.length + 1 := by
    rw [← hkids, ← hkeys, length_append, length_append, length_cons, hw.left.arity, hw.right.arity]
    omega
  have hlt : least m Ls3 ≤ ku.length := by
    cases Ls3 with
    | nil => exact hmin.1.trans hmin.2
    | cons _ _ => exact hmin.2
  have hui := hs.internal (hmid u (by simp)) hw.left.inner ⟨hlt, hmax, harity⟩
    fun c hc => by rw [hlow c (hcc c hc)]; exact hpu c hc
  have hkept' : ∀ q, q ∈ A ∨ q ∈ B → Kept t.heap t3.heap (least m Ls3) (2 * m) q := by
    intro q hq
    have hleast : least m Ls3 = m :=
      hu.least_eq (mem_around hq) (by simp) (ne_around_pair hpl.apart.nodup hq).1
    rw [hleast]
    exact hkept q hq
  constructor
  · have hext := hu.extend1 hw.lenA hui hkept'
    rw [(hmid u (by simp)).1, (hmid u (by simp)).2.2, hs.left] at hext
    rw [hw.line, hkeys, below_pair, ← append_assoc (t.heap u).children, hkids]
    exact hext
  · refine hs.frame hpl hfr hT ?_
    exact (Sublist.refl A).append ((sublist_cons_self v B).cons_cons u)

section Rebalance

variable {L1 A' B' a b : List Ptr} {r p : Ptr} {S SA' SB' k1 k2 : List K} {i : Nat}

theorem Pair.weak (hp : Pair t m Ls L1 (A' ++ r :: B') S p A u v B SA s SB i)
    (hpl : Placed t (A' ++ r :: B') (L1 :: Ls))
    (hall : ∀ q, q ∈ A' ∨ q ∈ B' → Internal t.heap m (2 * m) q)
    (hr : Internal t.heap (m - 1) (2 * m) r) (hruv : r = u ∨ r = v) :
    Weak t.heap m t.root (L1 :: Ls) A u v B SA s SB := by
  obtain ⟨_, _, _, _, _, _, _, _, -, hl⟩ := hp.located
  have hlev := hp.level
  have hap := hpl.apart
  have hany : ∀ q ∈ A ++ u :: v :: B, Internal t.heap (m - 1) (2 * m) q :=
    hlev ▸ forall_around hr fun q hq => (hall q hq).mono (Nat.sub_le _ _)
  refine ⟨hl.whole, hp.lenA, fun q hq => ?_, hany u (by simp), hany v (by simp)⟩
  have hqr : q ≠ r := by
    obtain ⟨hqu, hqv⟩ := ne_around_pair (hlev ▸ hap.nodup) hq
    rcases hruv with rfl | rfl <;> assumption
  have hq' : q ∈ A' ++ r :: B' := by
    rw [hlev]
    exact mem_around (hq.imp_right (mem_cons_of_mem v))
  rw [mem_append, mem_cons] at hq'
  rcases hq' with hq' | hq' | hq'
  · exact hall q (.inl hq')
  · exact absurd hq' hqr
  · exact hall q (.inr hq')

theorem minKeys_eq {m : Nat} (hmax : t.maxKeys = 2 * m) : t.minKeys = m := by
  unfold minKeys
  omega

theorem lender_eq {m : Nat} (hmax : t.maxKeys = 2 * m) (q : Ptr) :
    t.lender (some q) = if m < (t.heap q).keys.length then some q else none := by
  simp only [lender, minKeys_eq hmax, Option.filter]
  by_cases h : m < (t.heap q).keys.length <;> simp [h]

/-- The neighbour that is chosen to rebalance the node `r`, and what for. -/
theorem rebalance_cases {α : Type} {f g f' g' : Ptr → α} {d out : α} (hm : 1 ≤ m)
    (hmax : t.maxKeys = 2 * m)
    (hl : Located t.heap m t.root Ls L1 A r B S A' p B' a b SA' SB' k1 k2)
    (hall : ∀ q, q ∈ A ∨ q ∈ B → m ≤ (t.heap q).keys.length)
    (hout : out = t.rebalance a.getLast? b.head? f g f' g' d) :
    (∃ l C SA s SB i, Pair t m Ls L1 (A ++ r :: B) S p C l r B SA s SB i ∧ a.length = i + 1 ∧
      (m < (t.heap l).keys.length ∧ out = f l ∨ (t.heap l).keys.length = m ∧ out = f' l)) ∨
    ∃ q D SA s SB, Pair t m Ls L1 (A ++ r :: B) S p A r q D SA s SB a.length ∧
      (m < (t.heap q).keys.length ∧ out = g q ∨ (t.heap q).keys.length = m ∧ out = g' q) := by
  subst hout
  have hnone : t.lender none = none := rfl
  -- a neighbour that cannot lend has exactly `m` keys
  have hexact : ∀ q, q ∈ A ∨ q ∈ B → ¬ m < (t.heap q).keys.length → (t.heap q).keys.length = m :=
    fun q hq h => le_antisymm (not_lt.1 h) (hall q hq)
  have hright : ∀ q b', b = q :: b' → q ∈ B ∧ ∃ D SA s SB,
      Pair t m Ls L1 (A ++ r :: B) S p A r q D SA s SB a.length := by
    rintro q b' rfl
    obtain ⟨D, s, k2', rfl, hl'⟩ := hl.right_pair
    obtain ⟨SA, SB, hP⟩ := hl'.pair
    exact ⟨by simp, D, SA, s, SB, hP⟩
  have hleft : ∀ l a', a = a' ++ [l] → l ∈ A ∧ ∃ C SA s SB i, a.length = i + 1 ∧
      Pair t m Ls L1 (A ++ r :: B) S p C l r B SA s SB i := by
    rintro l a' rfl
    obtain ⟨C, s, k1', rfl, rfl, hl'⟩ := hl.left_pair
    obtain ⟨SA, SB, hP⟩ := hl'.pair
    refine ⟨by simp, C, SA, s, SB, a'.length, by simp, ?_⟩
    rw [append_assoc]
    exact hP
  rcases eq_nil_or_concat a with ha | ⟨a', l, ha⟩
  · -- without a left neighbour there is a right one
    obtain ⟨q, b', hbq⟩ : ∃ q b', b = q :: b' := by
      have hpi := hl.internal p (by simp)
      have har := hpi.arity
      have hmin := hpi.min
      have hleast : 1 ≤ least m Ls := by cases Ls <;> simp [least, hm]
      rw [hl.children, ha] at har
      refine exists_cons_of_length_pos ?_
      simp only [nil_append, length_cons] at har
      omega
    obtain ⟨hqB, D, SA, s, SB, hP⟩ := hright q b' hbq
    refine .inr ⟨q, D, SA, s, SB, hP, ?_⟩
    by_cases hq : m < (t.heap q).keys.length
    · exact .inl ⟨hq, by simp [rebalance, ha, hbq, hnone, lender_eq hmax, hq]⟩
    · exact .inr ⟨hexact q (.inr hqB) hq, by simp [rebalance, ha, hbq, hnone, lender_eq hmax, hq]⟩
  · obtain ⟨hlA, C, SA, s, SB, i, hai, hP⟩ := hleft l a' (by simpa using ha)
    by_cases hll : m < (t.heap l).keys.length
    · exact .inl ⟨l, C, SA, s, SB, i, hP, hai, .inl ⟨hll, by simp [rebalance, ha, lender_eq hmax, hll]⟩⟩
    · -- the left neighbour cannot lend, the right one may
      by_cases hq : ∃ q b', b = q :: b' ∧ m < (t.heap q).keys.length
      · obtain ⟨q, b', hbq, hq⟩ := hq
        obtain ⟨-, D, SA, s, SB, hP'⟩ := hright q b' hbq
        refine .inr ⟨q, D, SA, s, SB, hP', .inl ⟨hq, ?_⟩⟩
        simp [rebalance, ha, hbq, lender_eq hmax, hll, hq]
      · refine .inl ⟨l, C, SA, s, SB, i, hP, hai, .inr ⟨hexact l (.inl hlA) hll, ?_⟩⟩
        cases b with
        | nil => simp [rebalance, ha, hnone, lender_eq hmax, hll]
        | cons q b' =>
          have hq' : ¬ m < (t.heap q).keys.length := fun h => hq ⟨q, b', rfl, h⟩
          simp [rebalance, ha, lender_eq hmax, hll, hq']

/-- `rebalanceInternal` lets a node with a key too few borrow one, or merges it with a neighbour. -/
theorem rebalanceInternal_spec (hm : 1 ≤ m) (hmax : t.maxKeys = 2 * m)
    (hl : Located t.heap m t.root Ls L1 A r B S A' p B' a b SA' SB' k1 k2)
    (hall : ∀ q, q ∈ A ∨ q ∈ B → Internal t.heap m (2 * m) q)
    (hr : Internal t.heap (m - 1) (2 * m) r) (hshort : (t.heap r).keys.length + 1 = m)
    (hpl : Placed t (A ++ r :: B) (L1 :: Ls)) :
    (∃ t', t.rebalanceInternal r = some (.inl t') ∧
      Settled t t' m (L1 :: Ls) ((A ++ r :: B) :: L1 :: Ls) (A ++ r :: B) S) ∨
    ∃ C u v D SA s SB i, Pair t m Ls L1 (A ++ r :: B) S p C u v D SA s SB i ∧ (r = u ∨ r = v) ∧
      (t.heap u).keys.length + (t.heap v).keys.length + 1 = 2 * m ∧
      t.rebalanceInternal r = some (.inr ⟨t.absorb u v s, p, i, i + 1⟩) := by
  have hpar : (t.heap r).parent = some p :=
    (hl.internal p (by simp)).parents r (by simp [hl.children])
  have hra : r ∉ a := by
    have hndL := hpl.apart.nodup
    have hnda := hndL.sublist hl.children_sublist
    rw [nodup_middle, nodup_cons, mem_append] at hnda
    exact fun h => hnda.1 (.inl h)
  rcases rebalance_cases hm hmax hl (fun q hq => (hall q hq).min)
      (rebalanceInternal_eq hpar hl.children hra) with
    ⟨l, C, SA, s, SB, i, hP, hai, ⟨hlm, hout⟩ | ⟨hlm, hout⟩⟩ |
    ⟨q, D, SA, s, SB, hP, ⟨hqm, hout⟩ | ⟨hqm, hout⟩⟩
  · obtain ⟨t', h1, h2⟩ := hP.borrow_left (hP.weak hpl hall hr (.inr rfl)) hpl hlm hshort
    refine .inl ⟨t', ?_, h2⟩
    simp [hout, hai, h1]
  · refine .inr ⟨C, l, r, B, SA, s, SB, i, hP, .inr rfl, by omega, ?_⟩
    simp [hout, hai, mergeWithLeftInternal, hpar, mergeInternal_eq hP.parent_eq.2.2]
  · obtain ⟨t', h1, h2⟩ := hP.borrow_right (hP.weak hpl hall hr (.inl rfl)) hpl hqm hshort
    refine .inl ⟨t', ?_, h2⟩
    simp [hout, h1]
  · refine .inr ⟨A, r, q, D, SA, s, SB, a.length, hP, .inl rfl, by omega, ?_⟩
    simp [hout, mergeWithRightInternal, hpar, mergeInternal_eq hP.parent_eq.2.2]

end Rebalance

/-- A merge, before and after the levels above have forgotten the right neighbour. -/
theorem Pair.absorb_spec {L1 : List Ptr} {S : List K} {p : Ptr} {i : Nat}
    (hp : Pair t m Ls L1 L S p A u v B SA s SB i)
    (hw : Weak t.heap m t.root (L1 :: Ls) A u v B SA s SB) (hpl : Placed t L (L1 :: Ls)) (hm : 1 ≤ m)
    (hsum : (t.heap u).keys.length + (t.heap v).keys.length + 1 = 2 * m) :
    (t.absorb u v s).maxKeys = t.maxKeys ∧ (t.absorb u v s).fresh = t.fresh ∧
      Pair (t.absorb u v s) m Ls L1 L S p A u v B SA s SB i ∧
      ∀ {t3 Ls3}, Upper t3.heap m t3.root Ls3 (A ++ u :: B) (SA ++ SB) →
        Frame (t.absorb u v s) t3 (L1 :: Ls) Ls3 L → Settled t t3 m (L1 :: Ls) ((A ++ u :: B) :: Ls3) L S := by
  obtain rfl := hp.level
  have hs := shift_absorb s hpl.ne fun c hc => hpl.kids_ne hc
  refine ⟨hs.maxKeys, hs.fresh, hs.pair hpl hp, fun hu hf => ?_⟩
  obtain rfl := hp.seps
  have hlen' : ((t.heap u).keys ++ s :: (t.heap v).keys).length = 2 * m := by
    simp only [length_append, length_cons]
    omega
  refine merge_spec hs hw hpl hu hf (fun p hp => hp) rfl rfl ⟨hm, by omega⟩ hlen'.le fun c hc => ?_
  rw [t.absorb_heap s fun h => (hpl.kids_ne (mem_append_right _ h)).1 rfl,
    if_neg (hpl.kids_ne hc).1]
  split
  · rfl
  · next hcv => exact hw.left.parents c ((mem_append.1 hc).resolve_right hcv)

end Neighbours

/-! ## The removal -/

variable {t t1 : BPlusTree K V} {m i n : Nat} {Ls : List (List Ptr)} {L1 L A B A' B' : List Ptr}
  {u v r : Ptr} {s : K} {S SA SB SA' SB' : List K}

/-- The tree in which the node `r` has lost the key between `u` and `v` and the child `v`. -/
structure Dropped (t t1 : BPlusTree K V) (m : Nat) (Ls : List (List Ptr)) (A' : List Ptr) (r : Ptr)
    (B' : List Ptr) (SA' SB' : List K) (L : List Ptr) (S : List K) (n : Nat) : Prop where
  upper : Upper t1.heap m t1.root Ls (A' ++ r :: B') (SA' ++ SB')
  others : ∀ q, q ∈ A' ∨ q ∈ B' → Internal t1.heap (least m Ls) (2 * m) q
  node : Internal t1.heap n (2 * m) r
  short : (t1.heap r).keys.length = n
  below_eq : below t1.heap (A' ++ r :: B') = L
  weave_eq : weave ((A' ++ r :: B').map fun q => (t1.heap q).keys) (SA' ++ SB') = S
  frame : Frame t t1 ((A' ++ r :: B') :: Ls) ((A' ++ r :: B') :: Ls) []
  root : t1.root = t.root

theorem Pair.dropChild (hp : Pair t m Ls L1 L S r A u v B SA s SB i)
    (hnd : (L ++ (L1 :: Ls).flatten).Nodup) (hb : ∀ p ∈ (L1 :: Ls).flatten, p < t.fresh) :
    ∃ t1 A' B' SA' SB' n, t.dropChild r i (i + 1) = some t1 ∧ L1 = A' ++ r :: B' ∧
      least m Ls ≤ n + 1 ∧ Dropped t t1 m Ls A' r B' SA' SB' (A ++ u :: B) (SA ++ SB) n := by
  obtain ⟨rfl, rfl, hlen, A', B', a, b, SA', SB', k1, k2, rfl, hl⟩ := hp
  obtain ⟨hSA, hSB⟩ := hl.seps_pair hlen
  have hri := hl.internal r (by simp)
  obtain ⟨t1, ht⟩ : ∃ t1, t.modify r (fun n =>
      { n with keys := k1 ++ k2, children := a ++ u :: b }) = t1 := ⟨_, rfl⟩
  obtain ⟨hpar, hup, hkept, hframe⟩ := hl.modify hnd hb ht fun _ => rfl
  have hr1 : t1.heap r = { t.heap r with keys := k1 ++ k2, children := a ++ u :: b } :=
    ht ▸ modify_self
  obtain ⟨⟨hcA, hcB⟩, hkA, hkB⟩ := kept_eq hkept
  have hkeys : (t.heap r).keys.length = (k1 ++ k2).length + 1 := by
    rw [hl.keys]
    simp only [length_append, length_cons]
    omega
  refine ⟨t1, A', B', SA', SB', (k1 ++ k2).length, ht ▸ dropChild_eq hl.keys hl.children hl.lena,
    hl.level, hri.min.trans hkeys.le,
    { upper := hup, others := fun q hq => (hkept q hq).internal', node := ?_, short := by rw [hr1]
      below_eq := ?_, weave_eq := ?_, frame := hl.level ▸ hframe, root := ht ▸ rfl }⟩
  · have hmax := hri.max
    have hlena := hl.lena
    have hlenb := hl.lenb
    rw [hkeys] at hmax
    refine .of_shape (.of_eq hr1) hri.inner ?_ le_rfl ((Nat.le_succ _).trans hmax) fun c hc => ?_
    · simp only [length_append, length_cons] at hlenb ⊢
      omega
    · rw [hpar]
      refine hri.parents c ?_
      rw [hl.children]
      simp only [mem_append, mem_cons] at hc ⊢
      tauto
  · have hright : B = b ++ B'.flatMap fun q => (t.heap q).children := (cons.inj hl.right).2
    rw [below, flatMap_append, flatMap_cons, hr1, hcA, hcB, hl.left, hright]
    simp [append_assoc]
  · rw [map_append, map_cons, weave_split (by simpa using hl.lenA), hr1, hkA, hkB, hSA,
      hSB]
    simp [append_assoc]

theorem Dropped.enough (hd : Dropped t t1 m Ls A' r B' SA' SB' L S n) (hn : least m Ls ≤ n) :
    Upper t1.heap m t1.root ((A' ++ r :: B') :: Ls) L S :=
 ⟨_, hd.upper, forall_around (hd.node.mono hn) hd.others, hd.below_eq.symm,
    hd.weave_eq.symm⟩

theorem Frame.mono {t t' : BPlusTree K V} {Ls Ls' : List (List Ptr)} {T T' : List Ptr}
    (hf : Frame t t' Ls Ls' T) (hT : ∀ p ∈ T, p ∈ T') : Frame t t' Ls Ls' T' :=
  { hf with rest := fun p hp hpL hpT => hf.rest p hp hpL fun h => hpT (hT p h) }

theorem Frame.trans {t t' t'' : BPlusTree K V} {Ls Ls' : List (List Ptr)} {T : List Ptr}
    (hf : Frame t t' Ls Ls T) (hf' : Frame t' t'' Ls Ls' T) : Frame t t'' Ls Ls' T := by
  have hlt : ∀ {p}, p < t.fresh → p < t'.fresh := fun h => h.trans_le hf.fresh
  refine
    { maxKeys := hf'.maxKeys.trans hf.maxKeys, count := hf'.count.trans hf.count
      fresh := hf.fresh.trans hf'.fresh, nodup := hf'.nodup, bound := hf'.bound
      nodes := fun p hp => (hf'.nodes p hp).imp_right hf.fresh.trans
      content := fun p hp hpL => ?_
      rest := fun p hp hpL hpT => (hf'.rest p (hlt hp) hpL hpT).trans (hf.rest p hp hpL hpT) }
  rw [hf'.content p (hlt hp) hpL, hf.content p hp hpL]

theorem collapse_spec (hd : Dropped t t1 m [] [] t.root [] [] [] L S 0) :
    Upper t1.collapseRoot.heap m t1.collapseRoot.root [] L S ∧
      Frame t t1.collapseRoot [[t.root]] [] L := by
  have hk : (t1.heap t1.root).keys = [] := by
    rw [hd.root]
    exact length_eq_zero_iff.1 hd.short
  have hc : (t1.heap t1.root).children = L := by
    rw [hd.root]
    simpa [below] using hd.below_eq
  obtain ⟨u, rfl⟩ : ∃ u, L = [u] := length_eq_one_iff.1 (by
    rw [← hc, hd.root, hd.node.arity, hd.short])
  obtain rfl : [] = S := by simpa [← hd.root, hk] using hd.weave_eq
  rw [collapseRoot_of_nil hk hc]
  refine ⟨⟨rfl, rfl, by simp⟩, ?_⟩
  refine
    { maxKeys := hd.frame.maxKeys, count := hd.frame.count, fresh := hd.frame.fresh, nodup := by simp
      bound := by simp, nodes := by simp, content := fun p hp hpr => ?_
      rest := fun p hp hpr hpT => ?_ }
  · have hp' := hd.frame.content p hp (by simpa using hpr)
    by_cases hpu : p = u
    · subst hpu
      simp only [modify_self]
      rw [hp']
    · simp only [modify_of_ne hpu]
      exact hp'
  · simp only [modify_of_ne fun h : p = u => hpT (by simp [h])]
    exact hd.frame.rest p hp (by simpa using hpr) (by simp)

/-- The node `v`, which `u` has taken over, and the key between them go from the levels above. -/
theorem removeChildFromInternal_spec {m : Nat} (hm : 1 ≤ m) (Ls : List (List Ptr)) :
    ∀ {t : BPlusTree K V} {L1 L A B : List Ptr} {u v r : Ptr} {s : K} {S SA SB : List K}
      {i fuel : Nat}, t.maxKeys = 2 * m → Pair t m Ls L1 L S r A u v B SA s SB i →
      (L ++ (L1 :: Ls).flatten).Nodup → (∀ p ∈ L ++ (L1 :: Ls).flatten, p < t.fresh) →
      Ls.length < fuel → ∃ t' Ls', removeChildFromInternal fuel ⟨t, r, i, i + 1⟩ = some t' ∧
        Upper t'.heap m t'.root Ls' (A ++ u :: B) (SA ++ SB) ∧ Frame t t' (L1 :: Ls) Ls' L := by
  induction Ls with
  | nil =>
    intro t L1 L A B u v r s S SA SB i fuel hmax hp hnd hb hfuel
    obtain ⟨f, rfl⟩ := Nat.exists_eq_add_one.2 hfuel
    obtain ⟨t1, A', B', SA', SB', n, hdrop, rfl, -, hd⟩ :=
      hp.dropChild hnd fun p hp => hb p (mem_append_right _ hp)
    -- the highest level is the root alone
    obtain ⟨hL, hS, -⟩ := hd.upper
    obtain ⟨rfl, hr, rfl⟩ : A' = [] ∧ r = t1.root ∧ B' = [] := by
      cases A' <;> simp_all
    obtain ⟨rfl, rfl⟩ := append_eq_nil_iff.1 hS
    obtain rfl := hr.trans hd.root
    have hstep : removeChildFromInternal (f + 1) ⟨t, t.root, i, i + 1⟩ = some t1.collapseRoot := by
      simp [removeChildFromInternal, hdrop, hd.root]
    rw [hstep]
    cases n with
    | zero =>
      obtain ⟨h1, h2⟩ := collapse_spec hd
      exact ⟨_, [], rfl, h1, h2.mono hp.sublist.subset⟩
    | succ n =>
      have hkeys : (t1.heap t1.root).keys ≠ [] := by
        rw [hd.root, ← length_pos_iff, hd.short]
        exact Nat.succ_pos n
      rw [collapseRoot_of_keys hkeys]
      exact ⟨t1, _, rfl, hd.enough (Nat.succ_pos n), hd.frame.mono (by simp)⟩
  | cons L2 Ls ih =>
    intro t L1 L A B u v r s S SA SB i fuel hmax hp hnd hb hfuel
    obtain ⟨f, rfl⟩ := Nat.exists_eq_add_one.2 (Nat.zero_lt_of_lt hfuel)
    obtain ⟨t1, A', B', SA', SB', n, hdrop, rfl, hmin, hd⟩ :=
      hp.dropChild hnd fun p hp => hb p (mem_append_right _ hp)
    have hroot : r ≠ t1.root := by
      rintro rfl
      obtain ⟨S2, hup2, -⟩ := hd.upper
      exact (Apart.of_nodup hnd).mid _ (by simp) hup2.root_mem
    have hstep : removeChildFromInternal (f + 1) ⟨t, r, i, i + 1⟩ =
        if n < m then (t1.rebalanceInternal r).bind (Sum.elim some (removeChildFromInternal f))
        else some t1 := by
      simp only [removeChildFromInternal, hdrop, bind_eq_bind, bind_some, if_neg hroot,
        hd.short,
        minKeys_eq (hd.frame.maxKeys.trans hmax)]
      congr 2
      funext out
      cases out <;> rfl
    rw [hstep]
    by_cases hn : n < m
    · rw [if_pos hn]
      have hsub := hp.sublist.append (Sublist.refl ((A' ++ r :: B') :: L2 :: Ls).flatten)
      have hpl : Placed t1 (A' ++ r :: B') (L2 :: Ls) := by
        refine ⟨?_, ?_⟩ <;> rw [hd.below_eq]
        · exact hnd.sublist hsub
        · exact fun q hq => (hb q (hsub.subset hq)).trans_le hd.frame.fresh
      have hframe : ∀ {t' Ls'}, Frame t1 t' ((A' ++ r :: B') :: L2 :: Ls) Ls'
          (below t1.heap (A' ++ r :: B')) → Frame t t' ((A' ++ r :: B') :: L2 :: Ls) Ls' L := by
        intro t' Ls' hf
        refine (hd.frame.mono (by simp)).trans (hf.mono ?_)
        rw [hd.below_eq]
        exact hp.sublist.subset
      have hmin : m ≤ n + 1 := hmin
      have hnode := hd.node.mono (show m - 1 ≤ n by omega)
      obtain ⟨A2, p, B2, a2, b2, SA2, SB2, kk1, kk2, hl1⟩ := hd.upper.locate rfl
      rcases rebalanceInternal_spec hm (hd.frame.maxKeys.trans hmax) hl1 hd.others hnode
        (by rw [hd.short]; omega) hpl with
        ⟨t', h1, h2, h3⟩ | ⟨C, x, y, D, SA0, s0, SB0, i, hP, hxy, hsum, h1⟩
      · rw [h1]
        refine ⟨t', _, rfl, ?_, hframe h3⟩
        rw [hd.below_eq, hd.weave_eq] at h2
        exact h2
      · rw [h1]
        obtain ⟨hmax2, hfresh2, hP2, hmerge⟩ :=
          hP.absorb_spec (hP.weak hpl hd.others hnode hxy) hpl hm hsum
        obtain ⟨t3, Ls3, h4, h5, h6⟩ := ih (hmax2.trans (hd.frame.maxKeys.trans hmax)) hP2
          (nodup_append.1 hpl.nodup).2.1
          (fun q hq => hfresh2 ▸ hpl.bound q (mem_append_right _ hq)) (Nat.lt_of_succ_lt_succ hfuel)
        obtain ⟨h7, h8⟩ := hmerge h5 h6
        rw [hd.below_eq, hd.weave_eq] at h7
        exact ⟨t3, _, h4, h7, hframe h8⟩
    · rw [if_neg hn]
      exact ⟨t1, _, rfl, hd.enough (not_lt.1 hn), hd.frame.mono (by simp)⟩

end Solocoder.BPlus
