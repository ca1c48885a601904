import Mathlib.Data.List.Rotate
import Mathlib.Data.List.Sort
import Solocoder.Lib.Separators

/-!
# Points on a circle

A hash ring is a sorted list of points that is read as a circle. `walk ring h` lists the points from
`h` on, once around; taking points out of the ring takes them out of every walk.
-/

namespace Solocoder.Lib

open List Option UInt64

section Walk

variable {α : Type} [LinearOrder α] {ring : List α} {h p q : α} {rest : List α}

/-- The points of the ring from `h` on, once around the circle. -/
def walk (ring : List α) (h : α) : List α := ring.filter (h ≤ ·) ++ ring.filter (· < h)

theorem walk_filter (ring : List α) (h : α) (f : α → Bool) :
    walk (ring.filter f) h = (walk ring h).filter f := by
  rw [walk, walk, filter_append]
  simp only [List.filter_filter, Bool.and_comm]

theorem mem_walk : p ∈ walk ring h ↔ p ∈ ring := by
  rw [walk, mem_append, mem_filter, mem_filter, ← and_or_left]
  simp [le_or_gt]

section

variable (hs : ring.Pairwise (· < ·))
include hs

theorem findIdx_split (h : α) : ring.take (ring.findIdx (h ≤ ·)) = ring.filter (· < h) ∧
      ring.drop (ring.findIdx (h ≤ ·)) = ring.filter (h ≤ ·) := by
  have hcut := takeWhile_eq_filter (p := (· < h)) (hs.imp fun hpq => by simpa using hpq.trans)
  rw [takeWhile_eq_take_findIdx_not, dropWhile_eq_drop_findIdx_not] at hcut
  simpa [← not_lt] using hcut

theorem rotate_findIdx (h : α) : ring.rotate (ring.findIdx (h ≤ ·)) = walk ring h := by
  obtain ⟨htake, hdrop⟩ := findIdx_split hs h
  rw [rotate_eq_drop_append_take findIdx_le_length, htake, hdrop, walk]

/-- A search that finds nothing goes on at the beginning. -/
theorem rotate_search (h : α) : ring.rotate (if ring.findIdx (h ≤ ·) = ring.length then 0
    else ring.findIdx (h ≤ ·)) = walk ring h := by
  rw [← rotate_findIdx hs]
  split
  next hend => rw [hend, rotate_length, rotate_zero]
  next => rfl

theorem head?_of_sorted : ring.head? = some p ↔ p ∈ ring ∧ ∀ q ∈ ring, p ≤ q := by
  cases ring with
  | nil => simp
  | cons first ring =>
    have hfirst := (pairwise_cons.1 hs).1
    rw [head?_cons, some_inj]
    constructor
    · rintro rfl
      exact ⟨mem_cons_self, forall_mem_cons.2 ⟨le_rfl, fun q hq => (hfirst q hq).le⟩⟩
    · rintro ⟨hp, hle⟩
      rcases mem_cons.1 hp with rfl | hp
      · rfl
      · exact absurd (hle first mem_cons_self) (not_le.2 (hfirst p hp))

theorem head?_walk : (walk ring h).head? = some p ↔ p ∈ ring ∧
      (h ≤ p ∧ (∀ q ∈ ring, h ≤ q → p ≤ q) ∨ (∀ q ∈ ring, q < h) ∧ ∀ q ∈ ring, p ≤ q) := by
  rw [walk, head?_append]
  cases hhigh : (ring.filter (h ≤ ·)).head? with
  | some next =>
    obtain ⟨hnext, hmin⟩ := (head?_of_sorted (hs.filter _)).1 hhigh
    simp only [mem_filter, decide_eq_true_eq, and_imp] at hnext hmin
    rw [some_or, some_inj]
    constructor
    · rintro rfl
      exact ⟨hnext.1, Or.inl ⟨hnext.2, hmin⟩⟩
    · rintro ⟨hp, ⟨hle, hmin'⟩ | ⟨hlow, -⟩⟩
      · exact le_antisymm (hmin p hp hle) (hmin' next hnext.1 hnext.2)
      · exact absurd (hlow next hnext.1) (not_lt.2 hnext.2)
  | none =>
    have hlow : ∀ q ∈ ring, q < h := by
      rw [head?_eq_none_iff, filter_eq_nil_iff] at hhigh
      exact fun q hq => not_le.1 fun hle => hhigh q hq (decide_eq_true hle)
    have hall : ring.filter (· < h) = ring :=
      filter_eq_self.2 fun q hq => decide_eq_true (hlow q hq)
    rw [none_or, hall, head?_of_sorted hs]
    refine and_congr_right fun hp => ⟨fun hmin => Or.inr ⟨hlow, hmin⟩, ?_⟩
    rintro (⟨hle, -⟩ | ⟨-, hmin⟩)
    · exact absurd (hlow p hp) (not_lt.2 hle)
    · exact hmin

end

theorem walk_of_split (before after : List α) (hs : (before ++ p :: after).Pairwise (· < ·)) :
    walk (before ++ p :: after) p = p :: after ++ before := by
  rw [pairwise_append, pairwise_cons] at hs
  obtain ⟨-, ⟨hafter, -⟩, hbefore⟩ := hs
  have hlow : ∀ q ∈ before, q < p := fun q hq => hbefore q hq p mem_cons_self
  have hhigh : ∀ q ∈ p :: after, p ≤ q :=
    forall_mem_cons.2 ⟨le_rfl, fun q hq => (hafter q hq).le⟩
  rw [walk, filter_append, filter_append]
  rw [filter_eq_nil_iff.2 fun q hq => by simpa using hlow q hq,
    filter_eq_self.2 fun q hq => by simpa using hhigh q hq,
    filter_eq_self.2 fun q hq => by simpa using hlow q hq,
    filter_eq_nil_iff.2 fun q hq => by simpa using hhigh q hq, nil_append,
    append_nil]

theorem walk_eq_of_head (hs : ring.Pairwise (· < ·)) (hw : walk ring h = p :: rest) :
    walk ring p = p :: rest := by
  obtain ⟨htake, hdrop⟩ := findIdx_split hs h
  have hring := take_append_drop (ring.findIdx (h ≤ ·)) ring
  rw [htake, hdrop] at hring
  rw [walk] at hw
  cases hhigh : ring.filter (h ≤ ·) with
  | nil =>
    -- the walk begins with the smallest point
    rw [hhigh, nil_append] at hw
    rw [hhigh, append_nil, hw] at hring
    subst hring
    exact (walk_of_split [] _ hs).trans (append_nil _)
  | cons q after =>
    rw [hhigh, cons_append] at hw
    obtain ⟨rfl, hrest⟩ := cons.inj hw
    rw [hhigh] at hring
    rw [← hring] at hs
    have hwalk := walk_of_split _ _ hs
    rw [hring] at hwalk
    rw [hwalk, cons_append, hrest]

theorem walk_next (hs : ring.Pairwise (· < ·)) (hw : walk ring p = p :: q :: rest) :
    walk ring q = q :: (rest ++ [p]) := by
  have hp : p ∈ ring := mem_walk.1 (hw ▸ mem_cons_self)
  obtain ⟨before, after, rfl⟩ := append_of_mem hp
  rw [walk_of_split _ _ hs] at hw
  cases after with
  | nil =>
    rw [singleton_append, cons_inj_right] at hw
    subst hw
    rw [cons_append] at hs ⊢
    exact (walk_of_split [] _ hs).trans (append_nil _)
  | cons q' after =>
    rw [cons_append, cons_append, cons_inj_right] at hw
    obtain ⟨rfl, rfl⟩ := cons.inj hw
    rw [append_cons] at hs ⊢
    rw [walk_of_split _ _ hs, cons_append, append_assoc]

end Walk

section Firsts

variable {β : Type} [DecidableEq β]

/-- The elements of a list in the order of their first occurrences. -/
def firsts : List β → List β
  | [] => []
  | x :: xs => x :: (firsts xs).filter (· ≠ x)

theorem mem_firsts {x : β} {xs : List β} : x ∈ firsts xs ↔ x ∈ xs := by
  induction xs with
  | nil => rfl
  | cons y ys ih =>
    rw [firsts, mem_cons, mem_cons, mem_filter, ih, decide_eq_true_eq]
    tauto

theorem nodup_firsts (xs : List β) : (firsts xs).Nodup := by
  induction xs with
  | nil => exact nodup_nil
  | cons y ys ih =>
    rw [firsts, nodup_cons]
    exact ⟨by simp, ih.filter _⟩

theorem firsts_filter (xs : List β) (f : β → Bool) : firsts (xs.filter f) = (firsts xs).filter f := by
  induction xs with
  | nil => rfl
  | cons y ys ih =>
    by_cases hy : f y = true
    · rw [filter_cons_of_pos hy, firsts, firsts, filter_cons_of_pos hy, ih,
        List.filter_filter, List.filter_filter]
      simp only [Bool.and_comm]
    · rw [filter_cons_of_neg hy, firsts, filter_cons_of_neg hy, ih, List.filter_filter]
      refine filter_congr fun x _ => ?_
      by_cases hx : f x = true
      · have hne : x ≠ y := fun heq => hy (heq ▸ hx)
        simp [hx, hne]
      · simp [hx]

variable {xs : List β} {x y : β} {n : ℕ}

theorem take_filter_ne (hx : x ∉ xs.take n) : (xs.filter (· ≠ x)).take n = xs.take n := by
  have hkeep : (xs.take n).filter (· ≠ x) = xs.take n := by
    rw [filter_eq_self]
    intro y hy
    exact decide_eq_true fun heq => hx (heq ▸ hy)
  rw [← take_append_drop n xs, filter_append, hkeep]
  by_cases hlen : n ≤ xs.length
  · have hn : (xs.take n).length = n := length_take_of_le hlen
    rw [take_append_of_le_length hn.ge, take_append_of_le_length hn.ge]
  · rw [drop_eq_nil_of_le (by omega), filter_nil]

theorem mem_take_filter_ne (hy : y ∈ xs.take n) (hne : y ≠ x) : y ∈ (xs.filter (· ≠ x)).take n := by
  rw [← take_append_drop n xs, filter_append]
  have hmem : y ∈ (xs.take n).filter (· ≠ x) := by simp [hy, hne]
  have hlen : ((xs.take n).filter (· ≠ x)).length ≤ n :=
    (length_filter_le _ _).trans (length_take_le _ _)
  rw [take_append, take_of_length_le hlen]
  exact mem_append_left _ hmem

end Firsts

instance linearOrderUInt64 : LinearOrder UInt64 where
  le_refl _ := UInt64.le_refl _
  le_trans _ _ _ := UInt64.le_trans
  lt_iff_le_not_ge a b := by
    rw [le_iff_toNat_le, le_iff_toNat_le, lt_iff_toNat_lt]
    omega
  le_antisymm _ _ := UInt64.le_antisymm
  le_total := UInt64.le_total
  toDecidableLE := inferInstance
  toDecidableEq := inferInstance
  toDecidableLT := inferInstance

end Solocoder.Lib
