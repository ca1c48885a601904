import Mathlib.Data.List.Basic
import Mathlib.Tactic.Linarith

/-!
# Furthest-reaching points of an edit graph

A step to the right deletes a symbol of the first list, a step down inserts one of the second, a
diagonal step keeps one. `frontier a b (d + 1) k` is how far right the greedy search comes on the
diagonal `k` with `d` changes. The first of its points that reaches both far sides is the corner
(`frontier_corner`).
-/

namespace Solocoder.Lib

open List

variable {α : Type} [DecidableEq α]

/-- How many symbols two lists have in common at their front. -/
def common : List α → List α → Nat
  | x :: xs, y :: ys => if x = y then common xs ys + 1 else 0
  | _, _ => 0

variable (xs ys : List α) {a b : List α}

theorem common_le_left : common xs ys ≤ xs.length := by
  induction xs generalizing ys with
  | nil => simp [common]
  | cons x xs ih =>
    cases ys with
    | nil => simp [common]
    | cons y ys =>
      rw [common]
      split
      · have := ih ys
        rw [length_cons]
        omega
      · omega

theorem common_comm : common xs ys = common ys xs := by
  induction xs generalizing ys with
  | nil => cases ys <;> simp [common]
  | cons x xs ih =>
    cases ys with
    | nil => simp [common]
    | cons y ys => simp only [common, ih ys, eq_comm]

theorem common_le_right : common xs ys ≤ ys.length :=
  common_comm xs ys ▸ common_le_left ys xs

theorem getElem?_common {xs ys : List α} {i : Nat} (h : i < common xs ys) : xs[i]? = ys[i]? := by
  induction xs generalizing ys i with
  | nil => simp [common] at h
  | cons x xs ih =>
    cases ys with
    | nil => simp [common] at h
    | cons y ys =>
      rw [common] at h
      split at h
      · next heq =>
        cases i with
        | zero => simp [heq]
        | succ i => simpa using ih (by omega)
      · omega

theorem common_stop {xs ys : List α} {z : α} (h : xs[common xs ys]? = some z) :
    ys[common xs ys]? ≠ some z := by
  induction xs generalizing ys with
  | nil => simp at h
  | cons x xs ih =>
    cases ys with
    | nil => simp
    | cons y ys =>
      rw [common] at h ⊢
      split_ifs at h ⊢ with heq
      · exact ih h
      · intro hy
        exact heq (Option.some_injective _ (h.trans hy.symm))

/-- How far diagonal steps lead from the point with abscissa `x` on the diagonal `k`. -/
def slide (a b : List α) (k : Int) (x : Nat) : Nat :=
  x + common (a.drop x) (b.drop (x - k).toNat)

theorem common_drop_succ {xs ys : List α} {i j : Nat} {z : α} (hx : xs[i]? = some z)
    (hy : ys[j]? = some z) :
    common (xs.drop i) (ys.drop j) = common (xs.drop (i + 1)) (ys.drop (j + 1)) + 1 := by
  obtain ⟨hi, rfl⟩ := List.getElem?_eq_some_iff.1 hx
  obtain ⟨hj, heq⟩ := List.getElem?_eq_some_iff.1 hy
  rw [drop_eq_getElem_cons hi, drop_eq_getElem_cons hj, common, if_pos heq.symm]

theorem slide_succ {k : Int} {x : Nat} {z : α} (hk : k ≤ x) (hx : a[x]? = some z)
    (hy : b[(x - k).toNat]? = some z) : slide a b k x = slide a b k (x + 1) := by
  have hidx : ((x + 1 : Nat) - k).toNat = (x - k).toNat + 1 := by omega
  rw [slide, slide, hidx, common_drop_succ hx hy]
  omega

theorem slide_eq_self {k : Int} {x : Nat}
    (h : ∀ z, a[x]? = some z → b[(x - k).toNat]? ≠ some z) : slide a b k x = x := by
  have hzero : common (a.drop x) (b.drop (x - k).toNat) = 0 := by
    by_contra hne
    have heq := getElem?_common (Nat.pos_of_ne_zero hne)
    have hlt := common_le_left (a.drop x) (b.drop (x - k).toNat)
    rw [length_drop] at hlt
    rw [getElem?_drop, getElem?_drop, Nat.add_zero, Nat.add_zero] at heq
    have hx := getElem?_eq_getElem (l := a) (i := x) (by omega)
    exact h _ hx (heq ▸ hx)
  rw [slide, hzero, Nat.add_zero]

theorem exists_getElem?_slide {k : Int} {x i : Nat} (hk : k ≤ x) (hxi : x ≤ i)
    (hi : i < slide a b k x) : ∃ z, a[i]? = some z ∧ b[(i - k).toNat]? = some z := by
  obtain ⟨j, rfl⟩ := Nat.exists_eq_add_of_le hxi
  have hj : j < common (a.drop x) (b.drop (x - k).toNat) := by
    rw [slide] at hi
    omega
  have heq := getElem?_common hj
  have hlt := common_le_left (a.drop x) (b.drop (x - k).toNat)
  have hidx : ((x + j : Nat) - k).toNat = (x - k).toNat + j := by omega
  rw [length_drop] at hlt
  rw [getElem?_drop, getElem?_drop] at heq
  have hx := getElem?_eq_getElem (l := a) (i := x + j) (by omega)
  exact ⟨_, hx, hidx ▸ heq ▸ hx⟩

/-- The search comes to the diagonal `k` by a step down rather than by one to the right. -/
def PicksDown (f : Int → Nat) (d : Nat) (k : Int) : Prop :=
  k = -d ∨ (k ≠ d ∧ f (k - 1) < f (k + 1))

instance (f : Int → Nat) (d : Nat) (k : Int) : Decidable (PicksDown f d k) :=
  inferInstanceAs (Decidable (_ ∨ _))

/-- Where the search arrives on the diagonal `k`. -/
def arrive (f : Int → Nat) (d : Nat) (k : Int) : Nat :=
  if PicksDown f d k then f (k + 1) else f (k - 1) + 1

/-- The diagonals of the round `d`. -/
def Active (d : Nat) (k : Int) : Prop := -d ≤ k ∧ k ≤ d ∧ (k - d) % 2 = 0

instance (d : Nat) (k : Int) : Decidable (Active d k) := inferInstanceAs (Decidable (_ ∧ _))

/-- The points of the search before the round `d`. -/
def frontier (a b : List α) : Nat → Int → Nat
  | 0, _ => 0
  | d + 1, k =>
    if Active d k then slide a b k (arrive (frontier a b d) d k) else frontier a b d k

variable {a b : List α} {d : Nat} {k : Int}

theorem frontier_of_active (h : Active d k) :
    frontier a b (d + 1) k = slide a b k (arrive (frontier a b d) d k) := by
  rw [frontier, if_pos h]

theorem frontier_of_not_active (h : ¬ Active d k) : frontier a b (d + 1) k = frontier a b d k := by
  rw [frontier, if_neg h]

theorem active_zero (h : Active 0 k) : k = 0 := by
  obtain ⟨h1, h2, -⟩ := h
  omega

theorem frontier_one : frontier a b 1 0 = common a b := by
  have h : Active 0 0 := ⟨by decide, by decide, by decide⟩
  rw [frontier_of_active h, arrive, if_pos (.inl (by decide))]
  simp [slide, frontier]

variable (a b)

theorem arrive_cases (h : Active (d + 1) k) :
    (PicksDown (frontier a b (d + 1)) (d + 1) k ∧ Active d (k + 1) ∧
      arrive (frontier a b (d + 1)) (d + 1) k = frontier a b (d + 1) (k + 1)) ∨
    (¬ PicksDown (frontier a b (d + 1)) (d + 1) k ∧ Active d (k - 1) ∧
      arrive (frontier a b (d + 1)) (d + 1) k = frontier a b (d + 1) (k - 1) + 1) := by
  obtain ⟨h1, h2, h3⟩ := h
  by_cases hp : PicksDown (frontier a b (d + 1)) (d + 1) k
  · refine .inl ⟨hp, ?_, if_pos hp⟩
    rcases hp with hp | ⟨hp, -⟩
    · exact ⟨by omega, by omega, by omega⟩
    · exact ⟨by omega, by omega, by omega⟩
  · refine .inr ⟨hp, ?_, if_neg hp⟩
    have hne : k ≠ -(d + 1 : Nat) := fun heq => hp (.inl heq)
    exact ⟨by omega, by omega, by omega⟩

theorem le_slide (k : Int) (x : Nat) : x ≤ slide a b k x := Nat.le_add_right ..

theorem slide_cases {x : Nat} (hk : k ≤ x) : slide a b k x = x ∨
      (x < slide a b k x ∧ slide a b k x ≤ a.length ∧ (slide a b k x : Int) - k ≤ b.length) := by
  have hl := common_le_left (a.drop x) (b.drop (x - k).toNat)
  have hr := common_le_right (a.drop x) (b.drop (x - k).toNat)
  rw [length_drop] at hl hr
  rw [slide]
  omega

section

variable (h : Active d k)
include h

theorem le_frontier : k ≤ frontier a b (d + 1) k ∧ (d : Int) ≤ 2 * frontier a b (d + 1) k - k := by
  induction d generalizing k with
  | zero =>
    rw [active_zero h]
    omega
  | succ d ih =>
    have hle := le_slide a b k (arrive (frontier a b (d + 1)) (d + 1) k)
    rw [frontier_of_active h]
    rcases arrive_cases a b h with ⟨-, hk, heq⟩ | ⟨-, hk, heq⟩
    · have := ih hk
      omega
    · have := ih hk
      omega

theorem le_arrive : k ≤ arrive (frontier a b d) d k := by
  cases d with
  | zero =>
    rw [active_zero h, arrive, if_pos (.inl (by decide))]
    omega
  | succ d =>
    rcases arrive_cases a b h with ⟨-, hk, heq⟩ | ⟨-, hk, heq⟩
    · have := le_frontier a b hk
      omega
    · have := le_frontier a b hk
      omega

theorem frontier_diagonal {x : Nat} {z : α} (hk : k ≤ x) (hle : x ≤ frontier a b (d + 1) k)
    (hx : a[x]? = some z) (hy : b[(x - k).toNat]? = some z) : x + 1 ≤ frontier a b (d + 1) k := by
  refine Nat.lt_of_le_of_ne hle fun heq => ?_
  have harr := le_arrive a b h
  rw [frontier_of_active h, slide] at heq
  have hstop : (a.drop (arrive (frontier a b d) d k))[common (a.drop (arrive (frontier a b d) d k))
      (b.drop (arrive (frontier a b d) d k - k).toNat)]? = some z := by
    rw [getElem?_drop, ← heq, hx]
  refine common_stop hstop ?_
  rw [getElem?_drop, ← hy]
  congr 1
  omega

theorem frontier_right (k' : Int) (hk : k' = k + 1) :
    Active (d + 1) k' ∧ frontier a b (d + 1) k + 1 ≤ frontier a b (d + 1 + 1) k' := by
  subst hk
  obtain ⟨h1, h2, h3⟩ := h
  have hact : Active (d + 1) (k + 1) := ⟨by omega, by omega, by omega⟩
  have hle := le_slide a b (k + 1) (arrive (frontier a b (d + 1)) (d + 1) (k + 1))
  rw [frontier_of_active hact]
  refine ⟨hact, Nat.le_trans ?_ hle⟩
  rw [arrive]
  split
  · next hp =>
    rcases hp with hp | ⟨-, hp⟩
    · omega
    · rw [Int.add_sub_cancel] at hp
      omega
  · rw [Int.add_sub_cancel]

theorem frontier_down (k' : Int) (hk : k' = k - 1) :
    Active (d + 1) k' ∧ frontier a b (d + 1) k ≤ frontier a b (d + 1 + 1) k' := by
  subst hk
  obtain ⟨h1, h2, h3⟩ := h
  have hact : Active (d + 1) (k - 1) := ⟨by omega, by omega, by omega⟩
  have hle := le_slide a b (k - 1) (arrive (frontier a b (d + 1)) (d + 1) (k - 1))
  rw [frontier_of_active hact]
  refine ⟨hact, Nat.le_trans ?_ hle⟩
  rw [arrive]
  split
  · rw [Int.sub_add_cancel]
  · next hp =>
    have hp' : ¬ frontier a b (d + 1) (k - 1 - 1) < frontier a b (d + 1) (k - 1 + 1) :=
      fun hlt => hp (.inr ⟨by omega, hlt⟩)
    rw [Int.sub_add_cancel] at hp'
    omega

/-- Steps down below the grid could as well have been steps to the right. -/
theorem frontier_below {s : Nat} (hs : (frontier a b (d + 1) k : Int) - k = b.length + s) :
    Active d (k + 2 * s) ∧ frontier a b (d + 1) k + s ≤ frontier a b (d + 1) (k + 2 * s) := by
  induction d generalizing k s with
  | zero =>
    have hk := active_zero h
    subst hk
    have hle := common_le_right a b
    rw [frontier_one] at hs
    obtain rfl : s = 0 := by omega
    exact ⟨h, by simp⟩
  | succ d ih =>
    obtain ⟨h1, h2, h3⟩ := h
    have h : Active (d + 1) k := ⟨h1, h2, h3⟩
    rcases Nat.eq_zero_or_pos s with rfl | hpos
    · exact ⟨by simpa using h, by simp⟩
    rcases slide_cases a b (le_arrive a b h) with heq | ⟨-, -, hle⟩
    · rcases arrive_cases a b h with ⟨-, hk, harr⟩ | ⟨-, hk, harr⟩
      · rw [frontier_of_active h, heq, harr] at hs ⊢
        obtain ⟨hact, hfr⟩ := ih hk (s := s - 1) (by omega)
        obtain ⟨hactive, hstep⟩ := frontier_right a b hact (k + 2 * s) (by omega)
        exact ⟨hactive, by omega⟩
      · rw [frontier_of_active h, heq, harr] at hs ⊢
        obtain ⟨hact, hfr⟩ := ih hk (s := s) (by omega)
        obtain ⟨hactive, hstep⟩ := frontier_right a b hact (k + 2 * s) (by omega)
        exact ⟨hactive, by omega⟩
    · rw [frontier_of_active h] at hs
      omega

/-- Steps to the right beyond the grid could as well have been steps down. -/
theorem frontier_beyond {s : Nat} (hs : frontier a b (d + 1) k = a.length + s) :
    Active d (k - 2 * s) ∧ a.length ≤ frontier a b (d + 1) (k - 2 * s) := by
  induction d generalizing k s with
  | zero =>
    have hk := active_zero h
    subst hk
    have hle := common_le_left a b
    rw [frontier_one] at hs
    obtain rfl : s = 0 := by omega
    refine ⟨h, ?_⟩
    rw [show (0 : Int) - 2 * ((0 : Nat) : Int) = 0 by rfl, frontier_one]
    omega
  | succ d ih =>
    obtain ⟨h1, h2, h3⟩ := h
    have h : Active (d + 1) k := ⟨h1, h2, h3⟩
    rcases Nat.eq_zero_or_pos s with rfl | hpos
    · have hk : k - 2 * ((0 : Nat) : Int) = k := by omega
      rw [hk]
      exact ⟨h, by omega⟩
    rcases slide_cases a b (le_arrive a b h) with heq | ⟨-, hle, -⟩
    · rcases arrive_cases a b h with ⟨-, hk, harr⟩ | ⟨-, hk, harr⟩
      · rw [frontier_of_active h, heq, harr] at hs
        obtain ⟨hact, hfr⟩ := ih hk (s := s) (by omega)
        obtain ⟨hactive, hstep⟩ := frontier_down a b hact (k - 2 * s) (by omega)
        exact ⟨hactive, by omega⟩
      · rw [frontier_of_active h, heq, harr] at hs
        obtain ⟨hact, hfr⟩ := ih hk (s := s - 1) (by omega)
        obtain ⟨hactive, hstep⟩ := frontier_down a b hact (k - 2 * s) (by omega)
        exact ⟨hactive, by omega⟩
    · rw [frontier_of_active h] at hs
      omega

end

/-- The round `d` comes to both far sides of the grid. -/
def Arrives (a b : List α) (d : Nat) : Prop :=
  ∃ k, Active d k ∧ a.length ≤ frontier a b (d + 1) k ∧
    (b.length : Int) ≤ frontier a b (d + 1) k - k

theorem arrives_length_add : Arrives a b (a.length + b.length) := by
  have h : Active (a.length + b.length) (a.length - b.length) := ⟨by omega, by omega, by omega⟩
  have := (le_frontier a b h).2
  exact ⟨_, h, by omega, by omega⟩

variable {a b} in
theorem frontier_corner (hfirst : ∀ d' < d, ¬ Arrives a b d') (h : Active d k)
    (hx : a.length ≤ frontier a b (d + 1) k) (hy : (b.length : Int) ≤ frontier a b (d + 1) k - k) :
    k = a.length - b.length ∧ frontier a b (d + 1) k = a.length := by
  cases d with
  | zero =>
    have hk := active_zero h
    subst hk
    have hl := common_le_left a b
    have hr := common_le_right a b
    rw [frontier_one] at hx hy ⊢
    omega
  | succ d =>
    have hnot := hfirst d (Nat.lt_succ_self d)
    rw [frontier_of_active h] at hx hy ⊢
    rcases slide_cases a b (le_arrive a b h) with heq | ⟨-, hn, hm⟩
    · rcases arrive_cases a b h with ⟨-, hk, harr⟩ | ⟨-, hk, harr⟩
      · rw [heq, harr] at hx hy ⊢
        have hm : (frontier a b (d + 1) (k + 1) : Int) - (k + 1) < b.length := by
          by_contra hn
          exact hnot ⟨k + 1, hk, hx, by omega⟩
        -- a point beyond the right side would have a companion that arrived before
        by_contra hne
        obtain ⟨hact, hfr⟩ := frontier_beyond a b hk
          (s := frontier a b (d + 1) (k + 1) - a.length) (by omega)
        exact hnot ⟨_, hact, hfr, by omega⟩
      · rw [heq, harr] at hx hy ⊢
        have hn : frontier a b (d + 1) (k - 1) < a.length := by
          by_contra hn
          exact hnot ⟨k - 1, hk, by omega, by omega⟩
        by_contra hne
        obtain ⟨hact, hfr⟩ := frontier_below a b hk
          (s := ((frontier a b (d + 1) (k - 1) : Int) - (k - 1) - b.length).toNat) (by omega)
        exact hnot ⟨_, hact, by omega, by omega⟩
    · exact ⟨by omega, by omega⟩

end Solocoder.Lib
