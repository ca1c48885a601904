import Solocoder.BPlusTree.Proofs.ShapeProofs

/-!
# Insertion above the leaves

A split adds a node and a separator to a level; `insertIntoParent` passes both to the level above,
which may split in turn. The proof is an induction on the levels above.
-/

namespace Solocoder.BPlus

open Lib List Option Apart

variable {K V : Type}

namespace BPlusTree

variable {t : BPlusTree K V}

/-- The tree after `splitInternal` of a node with the children `cl ++ cr`. -/
def splitTree (t : BPlusTree K V) (internal : Ptr) (kl kr : List K) (cl cr : List Ptr) :
    BPlusTree K V :=
  let t' := t.alloc
    { keys := kr, isLeaf := false, parent := (t.heap internal).parent, next := none, prev := none,
      children := cr, values := [] }
  (t'.setParents cr t.fresh).modify internal fun n => { n with keys := kl, children := cl }

theorem splitInternal_eq {internal : Ptr} {kl kr : List K} {mk : K} {cl cr : List Ptr}
    (hk : (t.heap internal).keys = kl ++ mk :: kr)
    (hc : (t.heap internal).children = cl ++ cr) (hmid : (kl ++ mk :: kr).length / 2 = kl.length)
    (hcl : cl.length = kl.length + 1) (hi : internal ≠ t.fresh) :
    t.splitInternal internal = some ⟨t.splitTree internal kl kr cl cr, mk, t.fresh⟩ := by
  have hkr : (kl ++ mk :: kr).drop (kl.length + 1) = kr := by simp
  have hcr : (cl ++ cr).drop (kl.length + 1) = cr := by rw [← hcl]; simp
  have hcl' : (cl ++ cr).take (kl.length + 1) = cl := by rw [← hcl]; simp
  have hmk : (kl ++ mk :: kr)[kl.length]? = some mk := by simp
  unfold splitInternal splitTree
  simp only [hk, hc, hmid, hkr, hcr, hmk, map_some]
  unfold modify
  rw [setParents_heap, alloc_of_ne hi]
  split <;> simp [hk, hc, hcl']

theorem splitTree_heap (t : BPlusTree K V) {internal : Ptr} (kl kr : List K) (cl : List Ptr)
    {cr : List Ptr} (hi : internal ∉ cr) (hf : t.fresh ∉ cr) (hif : internal ≠ t.fresh) (q : Ptr) :
    (t.splitTree internal kl kr cl cr).heap q =
      if q = internal then { t.heap internal with keys := kl, children := cl }
      else if q = t.fresh then
        { keys := kr, isLeaf := false, parent := (t.heap internal).parent, next := none,
          prev := none, children := cr, values := [] }
      else if q ∈ cr then { t.heap q with parent := some t.fresh } else t.heap q := by
  unfold splitTree
  by_cases h1 : q = internal
  · subst h1
    simp [setParents_heap, hi, alloc_of_ne hif]
  · rw [if_neg h1, modify_of_ne h1, setParents_heap]
    by_cases h2 : q = t.fresh
    · subst h2
      simp [hf]
    · rw [if_neg h2, alloc_of_ne h2]

theorem splitTree_rest (t : BPlusTree K V) (internal : Ptr) (kl kr : List K) (cl cr : List Ptr) :
    (t.splitTree internal kl kr cl cr).fresh = t.fresh + 1 ∧
      (t.splitTree internal kl kr cl cr).root = t.root ∧
      (t.splitTree internal kl kr cl cr).maxKeys = t.maxKeys ∧
      (t.splitTree internal kl kr cl cr).count = t.count :=
  setParents_rest _ cr t.fresh

def addChild (t : BPlusTree K V) (parent : Ptr) (keys : List K) (children : List Ptr)
    (right : Ptr) : BPlusTree K V :=
  (t.modify parent fun n => { n with keys := keys, children := children }).setParent right parent

theorem addChild_heap (t : BPlusTree K V) {parent : Ptr} (keys : List K) (children : List Ptr)
    {right : Ptr} (hr : right ≠ parent) (q : Ptr) :
    (t.addChild parent keys children right).heap q =
      if q = parent then { t.heap parent with keys := keys, children := children }
      else if q = right then { t.heap right with parent := some parent } else t.heap q := by
  unfold addChild
  by_cases h1 : q = right
  · subst h1
    rw [setParent_self, if_neg hr, if_pos rfl, modify_of_ne hr]
  · rw [setParent_of_ne h1]
    by_cases h2 : q = parent
    · subst h2
      simp
    · rw [modify_of_ne h2, if_neg h2, if_neg h1]

theorem insertIntoParent_succ [LinearOrder K] {left right r : Ptr} {key : K} {k1 k2 : List K}
    {a b : List Ptr} (fuel : Nat) (hp : (t.heap left).parent = some r)
    (hk : (t.heap r).keys = k1 ++ k2) (hc : (t.heap r).children = a ++ left :: b)
    (hlen : k1.length = a.length) (h1 : ∀ x ∈ k1, x < key) (h2 : ∀ x ∈ k2, key ≤ x) :
    t.insertIntoParent (fuel + 1) left key right =
      let t' := t.addChild r (k1 ++ key :: k2) (a ++ left :: right :: b) right
      if t.maxKeys < (k1 ++ key :: k2).length then
        (t'.splitInternal r).bind fun s => s.tree.insertIntoParent fuel r s.midKey s.right
      else some t' := by
  have hidx : lowerBound (k1 ++ k2) key = a.length := (lowerBound_append h1 h2).trans hlen
  have hkeys : insertAt (k1 ++ k2) a.length key = some (k1 ++ key :: k2) := by
    rw [← hlen]
    exact insertAt_append k1 k2 key
  have hchildren : insertAt (a ++ left :: b) (a.length + 1) right = some (a ++ left :: right :: b) := by
    simpa using insertAt_append (a ++ [left]) b right
  simp only [insertIntoParent, hp, hk, hc, hidx, hkeys, hchildren, bind_eq_bind, bind_some]
  rfl

/-- The tree with a new root above the old one and its new neighbour. -/
def growRoot (t : BPlusTree K V) (key : K) (right : Ptr) : BPlusTree K V :=
  let t' := t.alloc
    { keys := [key], isLeaf := false, parent := none, next := none, prev := none,
      children := [t.root, right], values := [] }
  { (t'.setParent t.root t.fresh).setParent right t.fresh with root := t.fresh }

theorem growRoot_heap (t : BPlusTree K V) (key : K) {right : Ptr} (hr : t.root ≠ t.fresh)
    (hr' : right ≠ t.fresh) (hne : right ≠ t.root) (q : Ptr) :
    (t.growRoot key right).heap q =
      if q = t.fresh then
        { keys := [key], isLeaf := false, parent := none, next := none, prev := none,
          children := [t.root, right], values := [] }
      else if q = t.root ∨ q = right then { t.heap q with parent := some t.fresh }
      else t.heap q := by
  unfold growRoot
  by_cases h1 : q = right
  · subst h1
    simp [hr', setParent_of_ne hne, alloc_of_ne hr']
  · simp only [setParent_of_ne h1]
    by_cases h2 : q = t.root
    · subst h2
      simp [hr, alloc_of_ne hr]
    · simp only [setParent_of_ne h2, h1, h2]
      by_cases h3 : q = t.fresh
      · subst h3
        simp
      · simp [alloc_of_ne h3, h3]

end BPlusTree

open BPlusTree

section Levels

variable {t : BPlusTree K V} {m : Nat} {Ls : List (List Ptr)} {right : Ptr} {key : K}

theorem growRoot_spec (key : K) (hm : 1 ≤ m) (hne : right ≠ t.root) (hr : t.root < t.fresh) (hr' : right < t.fresh) :
    Upper (t.growRoot key right).heap m t.fresh [[t.fresh]] [t.root, right] [key] ∧
      Frame t (t.growRoot key right) [] [[t.fresh]] [right, t.root] := by
  have hheap := t.growRoot_heap key hr.ne hr'.ne hne
  constructor
  · refine ⟨[], ⟨rfl, rfl, by simp [hheap]⟩, ?_, by simp [hheap], by simp [hheap]⟩
    intro p hp
    obtain rfl := mem_singleton.1 hp
    refine ⟨by simp [hheap], by simp [hheap], by simp [hheap, least], ?_, ?_⟩
    · simp only [hheap, if_pos, length_singleton]
      omega
    · intro c hc
      simp only [hheap, if_pos, mem_cons, not_mem_nil, or_false] at hc
      have hcf : c ≠ t.fresh := by
        rcases hc with rfl | rfl
        · exact hr.ne
        · exact hr'.ne
      rw [hheap, if_neg hcf, if_pos hc]
  · refine ⟨rfl, rfl, Nat.le_succ _, by simp, ?_, ?_, ?_, ?_⟩
    · intro p hp
      obtain rfl : p = t.fresh := by simpa using hp
      exact Nat.lt_succ_self _
    · intro p hp
      obtain rfl : p = t.fresh := by simpa using hp
      exact Or.inr le_rfl
    · intro p hp _
      rw [hheap, if_neg hp.ne]
      split <;> rfl
    · intro p hp _ hpT
      rw [hheap, if_neg hp.ne, if_neg]
      simpa [or_comm] using hpT

variable {L1 A B A' B' a b cl cr : List Ptr} {left r : Ptr} {S SA SB X Y k1 k2 kl kr : List K} {mk : K}

/-- The tree between the split of the node `r`, whose keys and children became `kl ++ mk :: kr` and
`cl ++ cr`, and the call of `insertIntoParent` for it. -/
structure SplitAt (t t' : BPlusTree K V) (r right : Ptr) (kl kr : List K) (cl cr : List Ptr) :
    Prop where
  fresh : t'.fresh = t.fresh + 1
  root : t'.root = t.root
  maxKeys : t'.maxKeys = t.maxKeys
  count : t'.count = t.count
  left : t'.heap r = { t.heap r with keys := kl, children := cl }
  new : t'.heap t.fresh =
    { keys := kr, isLeaf := false, parent := (t.heap r).parent, next := none, prev := none,
      children := cr, values := [] }
  moved : ∀ q ∈ cr, t'.heap q = { t.heap q with parent := some t.fresh }
  added : right ∉ cr → t'.heap right = { t.heap right with parent := some r }
  old : ∀ q, q ≠ r → q ≠ t.fresh → q ∉ cr → q ≠ right → t'.heap q = t.heap q

theorem splitAt_of_addChild (kl kr : List K) (cl : List Ptr) {cr : List Ptr} (keys : List K)
    (children : List Ptr) (hrr : right ≠ r) (hr : r ∉ cr) (hf : t.fresh ∉ cr) (hrf : r ≠ t.fresh)
    (hrtf : right ≠ t.fresh) :
    SplitAt t ((t.addChild r keys children right).splitTree r kl kr cl cr) r right kl kr cl cr := by
  have h1 := t.addChild_heap keys children hrr
  have h2 := (t.addChild r keys children right).splitTree_heap kl kr cl hr hf hrf
  obtain ⟨h3, h4, h5, h6⟩ := (t.addChild r keys children right).splitTree_rest r kl kr cl cr
  have hfr : (t.addChild r keys children right).fresh = t.fresh := rfl
  rw [hfr] at h2
  have hcr : ∀ q ∈ cr, q ≠ r ∧ q ≠ t.fresh := fun q hq => ⟨fun h => hr (h ▸ hq), fun h => hf (h ▸ hq)⟩
  refine
    { fresh := h3, root := h4, maxKeys := h5, count := h6, left := by simp [h2, h1]
      new := by simp [h2, hrf.symm, h1], moved := fun q hq => ?_, added := fun hq => ?_
      old := fun q e1 e2 e3 e4 => by simp [h2, h1, e1, e2, e3, e4] }
  · simp only [h2, if_neg (hcr q hq).1, if_neg (hcr q hq).2, if_pos hq, h1]
    split <;> simp_all
  · simp [h2, h1, hrr, hrtf, hq]

section

variable (hl : Located t.heap m t.root Ls L1 A left B S A' r B' a b SA SB k1 k2)
include hl

theorem Located.mem_level : r ∈ L1 := by
  simp [hl.level]

theorem Located.mem_of_children {c : Ptr} (hc : c ∈ a ++ left :: right :: b) : c ∈ right :: (A ++ left :: B) := by
  by_cases hcr : c = right
  · simp [hcr]
  · refine mem_cons_of_mem _ (hl.children_sublist.subset ?_)
    simpa [hcr] using hc

end

section

variable (hl : Located t.heap m t.root Ls L1 A left B (X ++ Y) A' r B' a b SA SB k1 k2)
  (hlen : X.length = A.length)
include hl hlen

theorem Located.halves : X = lefts (A'.map fun q => (t.heap q).keys) SA ++ k1 ∧
    Y = k2 ++ rights SB (B'.map fun q => (t.heap q).keys) :=
  append_inj hl.seps (hlen.trans hl.lenS.symm)

theorem Located.line_eq (hk : k1 ++ key :: k2 = kl ++ mk :: kr) :
    X ++ key :: Y = lefts (A'.map fun q => (t.heap q).keys) SA ++
      ((kl ++ mk :: kr) ++ rights SB (B'.map fun q => (t.heap q).keys)) := by
  obtain ⟨rfl, rfl⟩ := hl.halves hlen
  rw [← hk]
  simp [append_assoc]

theorem Located.pairwise_mid [LinearOrder K] (hk : k1 ++ key :: k2 = kl ++ mk :: kr)
    (hsort : (X ++ key :: Y).Pairwise (· < ·)) : (SA ++ mk :: SB).Pairwise (· < ·) := by
  have hA := sublist_lefts (K := A'.map fun q => (t.heap q).keys) (S := SA) (by simpa using hl.lenA)
  have hB := sublist_rights (K := B'.map fun q => (t.heap q).keys) (S := SB) (by simpa using hl.lenB)
  have hB' := (hB.trans (sublist_append_right kr _)).cons_cons mk
  rw [hl.line_eq hlen hk, append_assoc] at hsort
  exact hsort.sublist (hA.append (hB'.trans (sublist_append_right kl _)))

end

section Split

variable {t2 t3 : BPlusTree K V} {Ls3 : List (List Ptr)}
  (hl : Located t.heap m t.root Ls L1 A left B (X ++ Y) A' r B' a b SA SB k1 k2)
  (hnd : (right :: (A ++ left :: B) ++ (L1 :: Ls).flatten).Nodup)
  (hb : ∀ p ∈ right :: (A ++ left :: B) ++ (L1 :: Ls).flatten, p < t.fresh)
include hl hnd hb

theorem addChild_spec (hlen : X.length = A.length) (hroom : (k1 ++ key :: k2).length ≤ 2 * m) :
    Upper (t.addChild r (k1 ++ key :: k2) (a ++ left :: right :: b) right).heap m t.root (L1 :: Ls)
      (A ++ left :: right :: B) (X ++ key :: Y) ∧
      Frame t (t.addChild r (k1 ++ key :: k2) (a ++ left :: right :: b) right) (L1 :: Ls) (L1 :: Ls)
        (right :: (A ++ left :: B)) := by
  have hap := of_nodup hnd
  have hrL := hl.mem_level
  have hright : right ∉ A ++ left :: B := (nodup_cons.1 (nodup_append.1 hnd).1).1
  have hrr : right ≠ r := fun h => hap.low right (by simp) (h ▸ hrL)
  have hheap := t.addChild_heap (k1 ++ key :: k2) (a ++ left :: right :: b) hrr
  generalize htt : t.addChild r (k1 ++ key :: k2) (a ++ left :: right :: b) right = t' at hheap ⊢
  have hold : ∀ {q}, q ≠ r → q ≠ right → t'.heap q = t.heap q :=
    fun h1 h2 => by rw [hheap, if_neg h1, if_neg h2]
  have hkid : ∀ {q c}, q ∈ L1 → c ∈ (t.heap q).children → t'.heap c = t.heap c := by
    intro q c hq hc
    have hcL := hl.child_mem hq hc
    exact hold (fun h => hap.low c (mem_cons_of_mem _ hcL) (h ▸ hrL)) fun h => hright (h ▸ hcL)
  have hup : Upper t'.heap m t.root Ls (A' ++ r :: B') (SA ++ SB) := by
    refine hl.upper.congr (fun p hp => .of_eq (hold ?_ ?_)) fun p hp => ?_
    · exact fun h => hap.mid r hrL (h ▸ hp)
    · exact fun h => hap.lows right (by simp) (h ▸ hp)
    · rw [← hl.level] at hp
      by_cases hpr : p = r
      · rw [hheap, if_pos hpr, hpr]
      · rw [hold hpr]
        rintro rfl
        exact (mem_append.1 hp).elim (hap.low p (by simp)) (hap.lows p (by simp))
  have hr' : t'.heap r = { t.heap r with keys := k1 ++ key :: k2, children := a ++ left :: right :: b } := by
    rw [hheap, if_pos rfl]
  have hri := hl.internal r (by simp)
  have hrint : Internal t'.heap (least m Ls) (2 * m) r := by
    refine .of_shape (.of_eq hr') hri.inner ?_ ?_ hroom ?_
    · simp only [length_append, length_cons]
      have := hl.lena
      have := hl.lenb
      omega
    · have hmin := hri.min
      rw [hl.keys] at hmin
      simp only [length_append, length_cons] at hmin ⊢
      omega
    · intro c hc
      by_cases hcr : c = right
      · rw [hheap, if_neg (hcr ▸ hrr), if_pos hcr]
      · have hc' : c ∈ (t.heap r).children := by
          rw [hl.children]
          simpa [hcr] using hc
        rw [hkid hrL hc']
        exact hri.parents c hc'
  have hkept : ∀ q, q ∈ A' ∨ q ∈ B' → Kept t.heap t'.heap (least m Ls) (2 * m) q := by
    intro q hq
    have hq' : q ∈ A' ++ r :: B' := mem_around hq
    have hqL : q ∈ L1 := hl.level ▸ hq'
    refine ⟨hl.internal q hq', .of_eq (hold (hap.ne_of_mem hl.level hq) fun h => ?_), fun c hc => by
      rw [hkid hqL hc]⟩
    exact hap.low right (by simp) (h ▸ hqL)
  constructor
  · have hext := hup.extend1 hl.lenA hrint hkept
    rw [hr', ← hl.level] at hext
    obtain ⟨rfl, rfl⟩ := hl.halves hlen
    rw [hl.left, hl.right]
    simpa only [append_assoc, cons_append] using hext
  · subst htt
    refine
      { maxKeys := rfl, count := rfl, fresh := le_rfl, nodup := (nodup_append.1 hnd).2.1
        bound := fun p hp => hb p (mem_append_right _ hp), nodes := fun p hp => .inl hp, content := fun p _ hp => ?_
        rest := fun p _ hp hpT => hold (fun h => hp (by simp [h, hrL])) fun h => hpT (by simp [h]) }
    have hpr : p ≠ r := fun h => hp (by simp [h, hrL])
    rw [hheap, if_neg hpr]
    split <;> simp_all

theorem overflow_split [LinearOrder K] (hover : 2 * m < (k1 ++ key :: k2).length) :
    ∃ t2 mk kl kr cl cr,
      (t.addChild r (k1 ++ key :: k2) (a ++ left :: right :: b) right).splitInternal r =
        some ⟨t2, mk, t.fresh⟩ ∧ SplitAt t t2 r right kl kr cl cr ∧
      k1 ++ key :: k2 = kl ++ mk :: kr ∧ a ++ left :: right :: b = cl ++ cr ∧
      kl.length = m ∧ kr.length = m ∧ cl.length = m + 1 ∧ cr.length = m + 1 := by
  have hri := hl.internal r (by simp)
  have hmax := hri.max
  have hlena := hl.lena
  have hlenb := hl.lenb
  rw [hl.keys] at hmax
  simp only [length_append, length_cons] at hover hmax
  obtain ⟨kl, mk, kr, hk, hkl, hkr⟩ : ∃ kl mk kr, k1 ++ key :: k2 = kl ++ mk :: kr ∧
      kl.length = m ∧ kr.length = m :=
    exists_middle (by simp only [length_append, length_cons]; omega)
  obtain ⟨cl, cr, hc, hcl, hcr⟩ : ∃ cl cr, a ++ left :: right :: b = cl ++ cr ∧
      cl.length = m + 1 ∧ cr.length = m + 1 :=
    exists_halves (by simp only [length_append, length_cons]; omega)
  have hap := of_nodup hnd
  have hrL := hl.mem_level
  have hmem : ∀ c ∈ cr, c ∈ right :: (A ++ left :: B) := fun c hcm =>
    hl.mem_of_children (hc ▸ mem_append_right cl hcm)
  have hrf : r ≠ t.fresh := (hb r (by simp [hrL])).ne
  have hrr : right ≠ r := fun h => hap.low right (by simp) (h ▸ hrL)
  have hs := splitAt_of_addChild kl kr cl (k1 ++ key :: k2) (a ++ left :: right :: b) hrr
    (fun h => hap.low r (hmem r h) hrL)
    (fun h => absurd rfl (hb _ (mem_append_left _ (hmem _ h))).ne) hrf (hb right (by simp)).ne
  refine ⟨_, mk, kl, kr, cl, cr, ?_, hs, hk, hc, hkl, hkr, hcl, hcr⟩
  have hr1 := t.addChild_heap (k1 ++ key :: k2) (a ++ left :: right :: b) hrr r
  rw [if_pos rfl] at hr1
  refine splitInternal_eq (by rw [hr1, hk]) (by rw [hr1, hc]) ?_ (by omega) hrf
  simp only [length_append, length_cons]
  omega

variable (hs : SplitAt t t2 r right kl kr cl cr) (hc : a ++ left :: right :: b = cl ++ cr)
include hs hc

theorem SplitAt.records :
    (∀ c ∈ cl, (t2.heap c).parent = some r) ∧ (∀ c ∈ cr, (t2.heap c).parent = some t.fresh) ∧
      (∀ q, q ∈ A' ∨ q ∈ B' → Kept t.heap t2.heap (least m Ls) (2 * m) q) ∧
      Upper t2.heap m t2.root Ls (A' ++ r :: B') (SA ++ SB) := by
  have hap := of_nodup hnd
  have hrL := hl.mem_level
  have hright : right ∉ A ++ left :: B := (nodup_cons.1 (nodup_append.1 hnd).1).1
  have hmem : ∀ c, c ∈ cl ++ cr ↔ c = right ∨ c ∈ (t.heap r).children := by
    rw [← hc, hl.children]
    simp only [mem_append, mem_cons]
    tauto
  have hlow : ∀ c ∈ cl ++ cr, c ∈ right :: (A ++ left :: B) := fun c hcc =>
    hl.mem_of_children (hc ▸ hcc)
  have hf : ∀ {p}, p ∈ right :: (A ++ left :: B) ++ (L1 :: Ls).flatten → p ≠ t.fresh :=
    fun hp => (hb _ hp).ne
  -- nothing above the children of `r` was moved
  have hup : ∀ p ∈ L1 ++ Ls.flatten, p ≠ r → t2.heap p = t.heap p := by
    intro p hp hpr
    have hpT : p ∉ right :: (A ++ left :: B) := fun h =>
      (mem_append.1 hp).elim (hap.low p h) (hap.lows p h)
    refine hs.old p hpr (hf (by simp at hp ⊢; tauto)) (fun h => ?_) fun h => hpT (by simp [h])
    exact hpT (hlow p (mem_append_right _ h))
  refine ⟨fun c hcl => ?_, fun c hcr => by rw [hs.moved c hcr], fun q hq => ?_, ?_⟩
  · have hcT := hlow c (mem_append_left _ hcl)
    have hccr : c ∉ cr := by
      have hnd' : (cl ++ cr).Nodup := by
        have hperm := perm_second a left right b
        rw [← hc, hperm.nodup_iff]
        exact (nodup_append.1 hnd).1.sublist (hl.children_sublist.cons_cons right)
      exact fun h => (nodup_append.1 hnd').2.2 c hcl c h rfl
    by_cases hcr : c = right
    · subst hcr
      rw [hs.added hccr]
    · have hck := ((hmem c).1 (mem_append_left _ hcl)).resolve_left hcr
      rw [hs.old c (fun h => hap.low c hcT (h ▸ hrL)) (hf (mem_append_left _ hcT)) hccr hcr]
      exact (hl.internal r (by simp)).parents c hck
  · have hq' : q ∈ A' ++ r :: B' := mem_around hq
    have hqL : q ∈ L1 := hl.level ▸ hq'
    have hqr := hap.ne_of_mem hl.level hq
    refine ⟨hl.internal q hq', .of_eq (hup q (mem_append_left _ hqL) hqr), fun c hck => ?_⟩
    have hcL := hl.child_mem hqL hck
    have hcr : c ≠ right := fun h => hright (h ▸ hcL)
    have hcT : c ∈ right :: (A ++ left :: B) := mem_cons_of_mem _ hcL
    rw [hs.old c (fun h => hap.low c hcT (h ▸ hrL)) (hf (mem_append_left _ hcT)) (fun h => ?_) hcr]
    -- a child of `r` has another parent
    have hcr' := ((hmem c).1 (mem_append_right _ h)).resolve_left hcr
    have h1 := (hl.internal q hq').parents c hck
    rw [(hl.internal r (by simp)).parents c hcr'] at h1
    exact hqr (Option.some.inj h1).symm
  · rw [hs.root]
    refine hl.upper.congr (fun p hp => .of_eq (hup p (mem_append_right _ hp) fun h => ?_))
      fun p hp => ?_
    · exact hap.mid r hrL (h ▸ hp)
    · rw [← hl.level] at hp
      by_cases hpr : p = r
      · rw [hpr, hs.left]
      · rw [hup p hp hpr]

theorem SplitAt.frame (hfr : Frame t2 t3 Ls Ls3 (t.fresh :: (A' ++ r :: B'))) :
    Frame t t3 (L1 :: Ls) ((A' ++ r :: t.fresh :: B') :: Ls3) (right :: (A ++ left :: B)) := by
  have hap := of_nodup hnd
  have hrL := hl.mem_level
  have hperm : (A' ++ r :: t.fresh :: B').Perm (t.fresh :: L1) := by
    rw [hl.level]
    exact perm_second A' r t.fresh B'
  have hbL : ∀ p ∈ (L1 :: Ls).flatten, p < t.fresh := fun p hp => hb p (mem_append_right _ hp)
  refine hfr.cons hs.maxKeys hs.count (hs.fresh ▸ Nat.le_succ _) hap hbL ?_ ?_ ?_ ?_ ?_
  · rw [hperm.nodup_iff, nodup_cons]
    exact ⟨fun h => absurd rfl (hbL _ (mem_append_left _ h)).ne, hap.nodup⟩
  · intro p hp
    rcases mem_cons.1 (hperm.mem_iff.1 hp) with rfl | hpL
    · exact .inr ⟨le_rfl, hs.fresh ▸ Nat.lt_succ_self _⟩
    · exact .inl hpL
  · rw [← hl.level]
    rintro p (_ | ⟨_, hp⟩)
    · exact .inr le_rfl
    · exact .inl hp
  · intro p hp hpL
    by_cases hpc : p ∈ cr
    · rw [hs.moved p hpc]
    · by_cases hpr : p = right
      · subst hpr
        rw [hs.added hpc]
      · rw [hs.old p (fun h => hpL (h ▸ hrL)) hp.ne hpc hpr]
  · intro p hp hpL hpT
    have hcr : p ∉ cr := fun h => hpT (hl.mem_of_children (hc ▸ mem_append_right cl h))
    exact hs.old p (fun h => hpL (h ▸ hrL)) hp.ne hcr fun h => hpT (by simp [h])

theorem split_spec (hm : 1 ≤ m) (hlen : X.length = A.length)
    (hk : k1 ++ key :: k2 = kl ++ mk :: kr) (hkl : kl.length = m) (hkr : kr.length = m)
    (hcl : cl.length = m + 1) (hcr : cr.length = m + 1)
    (hu : Upper t3.heap m t3.root Ls3 (A' ++ r :: t.fresh :: B') (SA ++ mk :: SB))
    (hfr : Frame t2 t3 Ls Ls3 (t.fresh :: (A' ++ r :: B'))) :
    Upper t3.heap m t3.root ((A' ++ r :: t.fresh :: B') :: Ls3) (A ++ left :: right :: B)
      (X ++ key :: Y) ∧
      Frame t t3 (L1 :: Ls) ((A' ++ r :: t.fresh :: B') :: Ls3) (right :: (A ++ left :: B)) := by
  have hap := of_nodup hnd
  obtain ⟨hpl, hpr, hkept, -⟩ := hs.records hl hnd hb hc
  have hrL := hl.mem_level
  have hrf : r ≠ t.fresh := (hb r (by simp [hrL])).ne
  have hlt : ∀ {p}, p ∈ right :: (A ++ left :: B) ++ (L1 :: Ls).flatten → p < t2.fresh := by
    intro p hp
    rw [hs.fresh]
    exact Nat.lt_succ_of_lt (hb p hp)
  -- what the levels above left alone: the children entirely, the nodes of the level up to parents
  have hlow : ∀ p ∈ right :: (A ++ left :: B), t3.heap p = t2.heap p := by
    intro p hp
    refine hfr.rest p (hlt (mem_append_left _ hp)) (hap.lows p hp) ?_
    rw [← hl.level, mem_cons, not_or]
    exact ⟨(hb p (mem_append_left _ hp)).ne, hap.low p hp⟩
  have hmid : ∀ p ∈ L1, SameShape (t2.heap p) (t3.heap p) := fun p hp =>
    hfr.same (hlt (by simp [hp])) (hap.mid p hp)
  have hnew : SameShape (t2.heap t.fresh) (t3.heap t.fresh) := by
    refine hfr.same (by rw [hs.fresh]; exact Nat.lt_succ_self _) fun h => ?_
    exact absurd rfl (hb t.fresh (mem_append_right _ (mem_append_right _ h))).ne
  have hcc : ∀ c ∈ cl ++ cr, c ∈ right :: (A ++ left :: B) := fun c hcm =>
    hl.mem_of_children (hc ▸ hcm)
  have hleast : least m Ls3 = m := hu.least_eq (p := r) (q := t.fresh) (by simp) (by simp) hrf
  have hr3 : Internal t3.heap (least m Ls3) (2 * m) r := by
    have hsame := hmid r hrL
    rw [hs.left] at hsame
    refine .of_shape hsame (hl.internal r (by simp)).inner (by simp [hcl, hkl]) (by simp [hleast, hkl])
      (by simp only [hkl]; omega) fun c hcm => ?_
    rw [hlow c (hcc c (mem_append_left _ hcm))]
    exact hpl c hcm
  have hf3 : Internal t3.heap (least m Ls3) (2 * m) t.fresh := by
    have hsame := hnew
    rw [hs.new] at hsame
    refine .of_shape hsame rfl (by simp [hcr, hkr]) (by simp [hleast, hkr]) (by simp only [hkr]; omega)
      fun c hcm => ?_
    rw [hlow c (hcc c (mem_append_right _ hcm))]
    exact hpr c hcm
  have hkept3 : ∀ q, q ∈ A' ∨ q ∈ B' → Kept t.heap t3.heap (least m Ls3) (2 * m) q := by
    intro q hq
    have hq' : q ∈ A' ++ r :: B' := mem_around hq
    have hqL : q ∈ L1 := hl.level ▸ hq'
    have hk2 := hkept q hq
    have hleast' : least m Ls = m :=
      hl.upper.least_eq hq' (by simp) (hap.ne_of_mem hl.level hq)
    rw [hleast'] at hk2
    rw [hleast]
    refine ⟨hk2.internal, hk2.same.trans (hmid q hqL), fun c hck => ?_⟩
    rw [hlow c (mem_cons_of_mem _ (hl.child_mem hqL hck))]
    exact hk2.parents c hck
  constructor
  · have hext := hu.extend2 hl.lenA hr3 hf3 hkept3
    rw [(hmid r hrL).1, (hmid r hrL).2.2, hnew.1, hnew.2.2, hs.left, hs.new] at hext
    have hchildren : A ++ left :: right :: B = (A'.flatMap fun q => (t.heap q).children) ++
        ((cl ++ cr) ++ B'.flatMap fun q => (t.heap q).children) := by
      rw [← hc, hl.left, hl.right]
      simp [append_assoc]
    rw [hchildren, hl.line_eq hlen hk]
    simpa only [append_assoc, cons_append] using hext
  · exact hs.frame hl hnd hb hc hfr

end Split

end Levels

/-- The levels above take up the new node `right` and the key between it and `left`. -/
theorem insertIntoParent_spec [LinearOrder K] {m : Nat} (hm : 1 ≤ m) (Ls : List (List Ptr)) :
    ∀ {t : BPlusTree K V} {A B : List Ptr} {left right : Ptr} {SA SB : List K} {key : K}
      {fuel : Nat}, t.maxKeys = 2 * m →
      Upper t.heap m t.root Ls (A ++ left :: B) (SA ++ SB) → SA.length = A.length →
      (SA ++ key :: SB).Pairwise (· < ·) →
      (right :: (A ++ left :: B) ++ Ls.flatten).Nodup →
      (∀ p ∈ right :: (A ++ left :: B) ++ Ls.flatten, p < t.fresh) → Ls.length < fuel →
      ∃ t' Ls', t.insertIntoParent fuel left key right = some t' ∧
        Upper t'.heap m t'.root Ls' (A ++ left :: right :: B) (SA ++ key :: SB) ∧
        Frame t t' Ls Ls' (right :: (A ++ left :: B)) := by
  induction Ls with
  | nil =>
    intro t A B left right SA SB key fuel hmax hu hlen hsort hnd hb hfuel
    obtain ⟨hL, hS, hpar⟩ := hu
    obtain ⟨rfl, rfl, rfl⟩ : A = [] ∧ left = t.root ∧ B = [] := by
      cases A <;> simp_all
    obtain ⟨rfl, rfl⟩ := append_eq_nil_iff.1 hS
    obtain ⟨f, rfl⟩ := Nat.exists_eq_add_one.2 hfuel
    obtain ⟨h1, h2⟩ := growRoot_spec key hm (by rintro rfl; simp at hnd : right ≠ t.root)
      (hb _ (by simp)) (hb _ (by simp))
    refine ⟨t.growRoot key right, _, ?_, h1, h2⟩
    simp only [insertIntoParent, hpar]
    rfl
  | cons L1 Ls ih =>
    intro t A B left right SA SB key fuel hmax hu hlen hsort hnd hb hfuel
    obtain ⟨A', r, B', a, b, SA', SB', k1, k2, hl⟩ := hu.locate rfl
    obtain ⟨f, rfl⟩ := Nat.exists_eq_add_one.2 (Nat.zero_lt_of_lt hfuel)
    -- the keys around the new one, in `r` and beside it
    obtain ⟨hSA, hSB⟩ := hl.halves hlen
    have h1 : ∀ x ∈ k1, x < key := fun x hx =>
      (pairwise_append.1 hsort).2.2 x (hSA ▸ mem_append_right _ hx) key (by simp)
    have h2 : ∀ x ∈ k2, key ≤ x := fun x hx =>
      ((pairwise_cons.1 (pairwise_append.1 hsort).2.1).1 x (hSB ▸ mem_append_left _ hx)).le
    have hri := hl.internal r (by simp)
    have hpar : (t.heap left).parent = some r := hri.parents left (by simp [hl.children])
    rw [insertIntoParent_succ f hpar hl.keys hl.children hl.lena h1 h2]
    simp only [hmax]
    by_cases hroom : (k1 ++ key :: k2).length ≤ 2 * m
    · rw [if_neg (not_lt.2 hroom)]
      obtain ⟨h3, h4⟩ := addChild_spec hl hnd hb hlen hroom
      exact ⟨_, _, rfl, h3, h4⟩
    · rw [if_pos (not_le.1 hroom)]
      obtain ⟨t2, mk, kl, kr, cl, cr, hsplit, hs, hk, hc, hkl, hkr, hcl, hcr⟩ :=
        overflow_split hl hnd hb (not_le.1 hroom)
      rw [hsplit]
      obtain ⟨-, -, -, hup⟩ := hs.records hl hnd hb hc
      have hb' : ∀ p ∈ L1 ++ Ls.flatten, p < t.fresh := fun p hp =>
        hb p (mem_append_right _ (by simpa using hp))
      have hnd' : (t.fresh :: (A' ++ r :: B') ++ Ls.flatten).Nodup := by
        rw [← hl.level, cons_append, nodup_cons]
        exact ⟨fun h => absurd rfl (hb' _ h).ne, (nodup_append.1 hnd).2.1⟩
      have hb2 : ∀ p ∈ t.fresh :: (A' ++ r :: B') ++ Ls.flatten, p < t2.fresh := by
        rw [← hl.level, hs.fresh]
        exact forall_mem_cons.2 ⟨Nat.lt_succ_self _, fun p hp => Nat.lt_succ_of_lt (hb' p hp)⟩
      obtain ⟨t3, Ls3, h3, h4, h5⟩ := ih (hs.maxKeys.trans hmax) hup hl.lenA
        (hl.pairwise_mid hlen hk hsort) hnd' hb2 (by simpa using hfuel : Ls.length < f)
      obtain ⟨h6, h7⟩ := split_spec hl hnd hb hs hc hm hlen hk hkl hkr hcl hcr h4 h5
      exact ⟨t3, _, h3, h6, h7⟩

end Solocoder.BPlus
