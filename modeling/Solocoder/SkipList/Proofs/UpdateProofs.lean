import Solocoder.SkipList.Proofs.SearchProofs

/-!
# Linking and unlinking a node

The loops of `Insert` and `Delete` change one forward pointer after the other; what they leave is
said for all nodes and levels at once.
-/

namespace Solocoder.Skip

open List Option

variable {K V : Type} [Inhabited K] [Inhabited V]

namespace Heap

variable {h h' : Heap K V}

def entry (h : Heap K V) (p : Ptr) : K × V := ((h.node p).key, (h.node p).value)

/-- The keys and values are the same. -/
structure Same (h h' : Heap K V) : Prop where
  length : h'.length = h.length
  entry : ∀ p, h'.entry p = h.entry p

theorem Same.refl (h : Heap K V) : Same h h := ⟨rfl, fun _ => rfl⟩

theorem Same.trans {h'' : Heap K V} (h1 : Same h h') (h2 : Same h' h'') : Same h h'' :=
  ⟨h2.length.trans h1.length, fun p => (h2.entry p).trans (h1.entry p)⟩

theorem node_set {x p : Ptr} {n : Node K V} (hx : x < h.length) :
    Heap.node (h.set x n) p = if p = x then n else h.node p := by
  unfold node
  rw [getElem?_set]
  by_cases hpx : p = x
  · subst hpx
    simp [hx]
  · simp [hpx, Ne.symm hpx]

omit [Inhabited K] [Inhabited V] in
theorem forward_set {x y : Ptr} {j : Nat} {n : Node K V} (hx : x < h.length) :
    Heap.forward (h.set x n) y j = if y = x then n.forward[j]? else h.forward y j := by
  unfold forward
  rw [getElem?_set]
  by_cases hyx : y = x
  · subst hyx
    simp [hx]
  · simp [hyx, Ne.symm hyx]

theorem setForward_spec {x : Ptr} {i : Nat} {old : Option Ptr} (hx : h.forward x i = some old)
    (y : Option Ptr) :
    ∃ h', h.setForward x i y = some h' ∧ Same h h' ∧
      ∀ z j, h'.forward z j = if z = x ∧ j = i then some y else h.forward z j := by
  have hlt := lt_of_forward hx
  unfold forward at hx
  rw [getElem?_eq_node hlt] at hx
  obtain ⟨hi, -⟩ := getElem?_eq_some_iff.mp hx
  refine ⟨h.set x { h.node x with forward := (h.node x).forward.set i y }, ?_, ?_, ?_⟩
  · unfold setForward
    rw [getElem?_eq_node hlt]
    exact if_pos hi
  · refine ⟨length_set, fun p => ?_⟩
    rw [entry, node_set hlt, entry]
    split <;> simp_all
  · intro z j
    rw [forward_set hlt]
    by_cases hz : z = x
    · subst hz
      by_cases hj : j = i
      · subst hj
        simp [hi]
      · simp [hj, getElem?_set_ne (Ne.symm hj), forward, getElem?_eq_node hlt]
    · simp [hz]

theorem link_spec {p u : Ptr} {i : Nat} {next old : Option Ptr} (hu : h.forward u i = some next)
    (hp : h.forward p i = some old) (hne : u ≠ p) :
    ∃ h', link p h i u = some h' ∧ Same h h' ∧ ∀ z j, h'.forward z j = if j = i then
        (if z = u then some (some p) else if z = p then some next else h.forward z i)
        else h.forward z j := by
  obtain ⟨h1, heq1, hsame1, hforward1⟩ := setForward_spec hp next
  have hu1 : h1.forward u i = some next := by
    rw [hforward1, if_neg (fun h => hne h.1), hu]
  obtain ⟨h2, heq2, hsame2, hforward2⟩ := setForward_spec hu1 (some p)
  refine ⟨h2, ?_, hsame1.trans hsame2, fun z j => ?_⟩
  · unfold link
    simp only [bind_eq_bind, hu, bind_some, heq1, heq2]
  · rw [hforward2, hforward1]
    by_cases hj : j = i <;> by_cases hzu : z = u <;> by_cases hzp : z = p <;> simp_all

/-- A loop over the levels from `i` to `i + n` whose turn at level `j` changes this level only. -/
theorem loop_spec (loop : Heap K V → Nat → List Ptr → Option (Heap K V)) (rest : List Ptr)
    {u : Nat → Ptr} {f : Nat → Ptr → Option (Option Ptr)} (n : Nat) {i : Nat}
    (hturn : ∀ j h1 us, i ≤ j → j < i + n → (∀ z, h1.forward z j = h.forward z j) →
      ∃ h2, loop h1 j (u j :: us) = loop h2 (j + 1) us ∧ Same h1 h2 ∧
        ∀ z k, h2.forward z k = if k = j then f j z else h1.forward z k) :
    ∃ h', loop h i ((range' i n).map u ++ rest) = loop h' (i + n) rest ∧ Same h h' ∧
      ∀ z j, h'.forward z j = if i ≤ j ∧ j < i + n then f j z else h.forward z j := by
  induction n generalizing h i with
  | zero =>
    refine ⟨h, rfl, Same.refl h, fun z j => ?_⟩
    rw [if_neg]
    omega
  | succ n ih =>
    obtain ⟨h1, heq1, hsame1, hforward1⟩ :=
      hturn i h ((range' (i + 1) n).map u ++ rest) le_rfl (by omega) fun _ => rfl
    obtain ⟨h2, heq2, hsame2, hforward2⟩ := ih (h := h1) (i := i + 1) fun j h2 us hj hjn hsame =>
      hturn j h2 us (by omega) (by omega) fun z => by rw [hsame, hforward1, if_neg (by omega)]
    refine ⟨h2, ?_, hsame1.trans hsame2, fun z j => ?_⟩
    · rw [range'_succ, map_cons, cons_append, heq1, heq2, Nat.add_right_comm]
      rfl
    · rw [hforward2, hforward1]
      by_cases hj : j = i
      · rw [if_neg (by omega), if_pos hj, if_pos (by omega), hj]
      · rw [if_neg hj]
        exact if_congr (by omega) rfl rfl

/-- All turns of the loop of `Insert`: at the levels from `i` to `i + n`, the node `p` comes behind
`u j` and goes on as `u j` did. -/
theorem linkAll_spec {p : Ptr} {u : Nat → Ptr} {i n : Nat}
    (hu : ∀ j, i ≤ j → j < i + n → ∃ next, h.forward (u j) j = some next)
    (hp : ∀ j, i ≤ j → j < i + n → ∃ old, h.forward p j = some old) (hne : ∀ j, u j ≠ p) :
    ∃ h', linkAll p h i ((range' i n).map u) = some h' ∧ Same h h' ∧
      ∀ z j, h'.forward z j = if i ≤ j ∧ j < i + n then
        (if z = u j then some (some p) else if z = p then h.forward (u j) j else h.forward z j)
        else h.forward z j := by
  rw [← append_nil ((range' i n).map u)]
  refine loop_spec (linkAll p) [] n fun j h1 us hj hjn hsame => ?_
  obtain ⟨next, hnext⟩ := hu j hj hjn
  obtain ⟨old, hold⟩ := hp j hj hjn
  obtain ⟨h2, heq, hspec⟩ := link_spec ((hsame _).trans hnext) ((hsame p).trans hold) (hne j)
  refine ⟨h2, ?_, ?_⟩
  · simp only [linkAll, bind_eq_bind, heq, bind_some]
  · simpa only [hnext, hsame] using hspec

/-- All turns of the loop of `Delete`: at the levels below `t`, the node behind `u j` is the one
behind `x`. -/
theorem unlinkAll_spec {x : Ptr} {u : Nat → Ptr} {n t : Nat}
    (hu : ∀ j < t, h.forward (u j) j = some (some x))
    (hx : ∀ j < t, ∃ next, h.forward x j = some next) (htn : t ≤ n)
    (ht : t < n → ∃ next, h.forward (u t) t = some next ∧ next ≠ some x) :
    ∃ h', unlinkAll x h 0 ((range' 0 n).map u) = some h' ∧ Same h h' ∧
      ∀ z j, h'.forward z j = if j < t ∧ z = u j then h.forward x j else h.forward z j := by
  obtain ⟨m, rfl⟩ := Nat.exists_eq_add_of_le htn
  obtain ⟨h', heq, hsame, hforward⟩ := loop_spec (unlinkAll x) ((range' (0 + t) m).map u)
    (u := u) (f := fun j z => if z = u j then h.forward x j else h.forward z j) t
    fun j h1 us (_ : 0 ≤ j) hj hsame => by
      rw [Nat.zero_add] at hj
      obtain ⟨next, hnext⟩ := hx j hj
      have huj := (hsame (u j)).trans (hu j hj)
      obtain ⟨h2, heq, hsame2, hforward⟩ := setForward_spec huj next
      refine ⟨h2, ?_, hsame2, fun z k => ?_⟩
      · simp [unlinkAll, huj, (hsame x).trans hnext, heq]
      · rw [hforward, hnext, ← hsame]
        by_cases hk : k = j <;> simp [hk]
  refine ⟨h', ?_, hsame, fun z j => ?_⟩
  · rw [← map_append, range'_append_1] at heq
    rw [heq, Nat.zero_add]
    cases m with
    | zero => rfl
    | succ m =>
      obtain ⟨next, hnext, hne⟩ := ht (by omega)
      have hnext' := (hforward (u t) t).trans (if_neg (by omega))
      rw [range'_succ, map_cons]
      simp only [unlinkAll, bind_eq_bind, hnext', hnext, bind_some, if_pos hne]
  · rw [hforward]
    by_cases hj : j < t <;> simp [hj]

omit [Inhabited K] [Inhabited V] in
theorem lower_spec (header : Ptr) (first : Nat → Option Ptr) {level : Nat} (hlevel : 1 ≤ level)
    (hfirst : ∀ j < level, h.forward header j = some (first j)) :
    ∃ level', h.lower header level = some level' ∧ 1 ≤ level' ∧ level' ≤ level ∧
      ∀ j, level' ≤ j → j < level → first j = none := by
  induction level with
  | zero => omega
  | succ level ih =>
    cases level with
    | zero => exact ⟨1, rfl, le_refl 1, le_refl 1, fun j hj hj' => by omega⟩
    | succ level =>
      unfold lower
      simp only [bind_eq_bind, hfirst (level + 1) (by omega), bind_some]
      by_cases hnone : first (level + 1) = none
      · rw [if_pos hnone]
        obtain ⟨level', heq, hpos, hle, hempty⟩ := ih (by omega) fun j hj => hfirst j (by omega)
        refine ⟨level', heq, hpos, by omega, fun j hj hj' => ?_⟩
        by_cases htop : j = level + 1
        · rw [htop, hnone]
        · exact hempty j hj (by omega)
      · rw [if_neg hnone]
        exact ⟨level + 2, rfl, by omega, le_refl _, fun j hj hj' => by omega⟩

omit [Inhabited K] [Inhabited V] in
theorem chain_eq {i fuel : Nat} {x : Ptr} {l : List Ptr}
    (hchain : Lib.Chain (h.forward · i) x l) (hfuel : l.length < fuel) :
    h.chain i fuel l.head? = some l := by
  induction l generalizing x fuel with
  | nil =>
    obtain ⟨fuel, rfl⟩ := Nat.exists_eq_add_one.2 hfuel
    rfl
  | cons y l ih =>
    obtain ⟨fuel, rfl⟩ := Nat.exists_eq_add_one.2 (Nat.zero_lt_of_lt hfuel)
    have hnext : h.forward y i = some l.head? := hchain.2.next_eq
    rw [head?_cons]
    unfold chain
    simp only [bind_eq_bind, hnext, bind_some, ih hchain.2 (Nat.lt_of_succ_lt_succ hfuel)]

end Heap

end Solocoder.Skip
