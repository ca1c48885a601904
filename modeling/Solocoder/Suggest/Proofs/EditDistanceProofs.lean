import Solocoder.Suggest.EditDistance
import Mathlib.Order.Bounds.Basic

/-!
# `EditDistance` is the Levenshtein distance

The rows hold the recursion `dist` on the reversed prefixes. It changes by at most one under an
edit, and follows edits of its own length.
-/

namespace Solocoder.Suggest

open List

/-- One edit of a text. -/
inductive Edit : List Char → List Char → Prop
  | insert (s t : List Char) (x : Char) : Edit (s ++ t) (s ++ x :: t)
  | delete (s t : List Char) (x : Char) : Edit (s ++ x :: t) (s ++ t)
  | replace (s t : List Char) (x y : Char) : Edit (s ++ x :: t) (s ++ y :: t)

/-- The string becomes the other one by `n` edits. -/
inductive Edits : Nat → List Char → List Char → Prop
  | refl (a : List Char) : Edits 0 a a
  | step {n : Nat} {a b c : List Char} : Edit a b → Edits n b c → Edits (n + 1) a c

def dist : List Char → List Char → Nat
  | [], [] => 0
  | _ :: a, [] => dist a [] + 1
  | [], _ :: b => dist [] b + 1
  | x :: a, y :: b =>
    minThree (dist a (y :: b) + 1) (dist (x :: a) b + 1) (dist a b + if x = y then 0 else 1)

theorem minThree_eq (a b c : Nat) : minThree a b c = min (min a b) c := by
  unfold minThree
  grind

theorem minThree_induct {P : Nat → Prop} {a b c : Nat} (ha : P a) (hb : P b) (hc : P c) :
    P (minThree a b c) := by
  unfold minThree
  dsimp only
  split_ifs <;> assumption

variable {a b c u v : List Char} {x y : Char} {n : Nat}

/-! ## Lower bound -/

theorem dist_cons_left_le : dist (x :: a) b ≤ dist a b + 1 := by
  cases b with
  | nil => rw [dist]
  | cons y b =>
    rw [dist, minThree_eq]
    omega

theorem dist_cons_right_le : dist a (y :: b) ≤ dist a b + 1 := by
  cases a with
  | nil => rw [dist]
  | cons x a =>
    rw [dist, minThree_eq]
    omega

theorem dist_le_cons_left : dist a b ≤ dist (x :: a) b + 1 := by
  induction b with
  | nil =>
    rw [dist]
    omega
  | cons y b ih =>
    have hright := dist_cons_right_le (a := a) (b := b) (y := y)
    rw [dist, minThree_eq]
    omega

theorem dist_replace_le : dist (x :: a) b ≤ dist (y :: a) b + 1 := by
  induction b with
  | nil =>
    rw [dist, dist]
    omega
  | cons z b ih =>
    rw [dist, dist, minThree_eq, minThree_eq]
    split <;> omega

theorem dist_append_le (h : ∀ c, dist u c ≤ dist v c + 1) (s c : List Char) :
    dist (s ++ u) c ≤ dist (s ++ v) c + 1 := by
  induction s generalizing c with
  | nil => exact h c
  | cons x s ihs =>
    induction c with
    | nil =>
      have hnil := ihs []
      rw [cons_append, cons_append, dist, dist]
      omega
    | cons z c ih =>
      have hcons := ihs (z :: c)
      have htail := ihs c
      rw [cons_append, cons_append] at ih ⊢
      rw [dist, dist, minThree_eq, minThree_eq]
      omega

theorem Edit.dist_le (h : Edit a b) : dist a c ≤ dist b c + 1 := by
  cases h with
  | insert s t x => exact dist_append_le (fun _ => dist_le_cons_left) s c
  | delete s t x => exact dist_append_le (fun _ => dist_cons_left_le) s c
  | replace s t x y => exact dist_append_le (fun _ => dist_replace_le) s c

theorem dist_self (a : List Char) : dist a a = 0 := by
  induction a with
  | nil => rw [dist]
  | cons x a ih =>
    rw [dist, minThree_eq, ih]
    simp

theorem Edits.dist_le (h : Edits n a b) : dist a b ≤ n := by
  induction h with
  | refl a => rw [dist_self]
  | step h _ ih => exact h.dist_le.trans (Nat.succ_le_succ ih)

/-! ## Upper bound -/

theorem Edits.cons (h : Edits n a b) (x : Char) : Edits n (x :: a) (x :: b) := by
  induction h with
  | refl a => exact .refl _
  | step h _ ih =>
    refine .step ?_ ih
    cases h with
    | insert s t y => exact .insert (x :: s) t y
    | delete s t y => exact .delete (x :: s) t y
    | replace s t y z => exact .replace (x :: s) t y z

theorem Edits.reverse (h : Edits n a b) : Edits n a.reverse b.reverse := by
  induction h with
  | refl a => exact .refl _
  | step h _ ih =>
    refine .step ?_ ih
    cases h with
    | insert s t y => simpa using Edit.insert t.reverse s.reverse y
    | delete s t y => simpa using Edit.delete t.reverse s.reverse y
    | replace s t y z => simpa using Edit.replace t.reverse s.reverse y z

theorem edits_dist (a b : List Char) : Edits (dist a b) a b := by
  fun_induction dist a b with
  | case1 => exact .refl _
  | case2 x a ih => exact .step (.delete [] a x) ih
  | case3 y b ih => exact .step (.insert [] [] y) (ih.cons y)
  | case4 x a y b ih₁ ih₂ ih₃ =>
    refine minThree_induct (P := (Edits · _ _)) (.step (.delete [] a x) ih₁)
      (.step (.insert [] (x :: a) y) (ih₂.cons y)) ?_
    split
    next hxy => exact hxy ▸ ih₃.cons x
    · exact .step (.replace [] a x y) (ih₃.cons y)

/-! ## The rows -/

theorem reverse_take_succ {l : List Char} {i : Nat} (hi : i < l.length) :
    (l.take (i + 1)).reverse = l[i] :: (l.take i).reverse := by
  rw [take_add_one, getElem?_eq_getElem hi]
  simp

theorem dist_nil_left (b : List Char) : dist [] b = b.length := by
  induction b with
  | nil => rw [dist, length_nil]
  | cons y b ih => rw [dist, ih, length_cons]

theorem dist_nil_right (a : List Char) : dist a [] = a.length := by
  induction a with
  | nil => rw [dist, length_nil]
  | cons x a ih => rw [dist, ih, length_cons]

variable {ra rb : List Char} {i j : Nat}

theorem currRow_eq {prev curr : Nat → Nat} (hi : i < ra.length)
    (hprev : ∀ k ≤ rb.length, prev k = dist (ra.take i).reverse (rb.take k).reverse)
    (hj : j ≤ rb.length) :
    ∀ k ≤ j, currRow ra rb i prev curr j k = dist (ra.take (i + 1)).reverse (rb.take k).reverse := by
  induction j with
  | zero =>
    intro k hk
    rw [currRow, Nat.le_zero.1 hk, Function.update_self, take_zero, reverse_nil, dist_nil_right,
      length_reverse, length_take, Nat.min_eq_left hi]
  | succ j ih =>
    intro k hk
    have hleft := ih (by omega)
    rw [currRow]
    by_cases hkj : k = j + 1
    · rw [hkj, Function.update_self, hprev _ hj, hprev j (by omega), hleft j le_rfl,
        reverse_take_succ hi, reverse_take_succ hj, dist]
      simp [getElem?_eq_getElem hi, getElem?_eq_getElem hj]
    · rw [Function.update_of_ne hkj]
      exact hleft k (by omega)

theorem rows_eq (hi : i ≤ ra.length) :
    ∀ k ≤ rb.length, (rows ra rb i).1 k = dist (ra.take i).reverse (rb.take k).reverse := by
  induction i with
  | zero =>
    intro k hk
    rw [rows, take_zero, reverse_nil, dist_nil_left, length_reverse, length_take,
      Nat.min_eq_left hk]
  | succ i ih => exact currRow_eq hi (ih (by omega)) le_rfl

theorem editDistance_eq (a b : String) :
    editDistance a b = dist a.toList.reverse b.toList.reverse := by
  unfold editDistance
  dsimp only
  split
  next hra => rw [length_eq_zero_iff.1 hra, reverse_nil, dist_nil_left, length_reverse]
  · split
    next hrb => rw [length_eq_zero_iff.1 hrb, reverse_nil, dist_nil_right, length_reverse]
    · rw [rows_eq le_rfl _ le_rfl, take_length, take_length]

/-- `EditDistance` is the least number of edits that turn one string into the other. -/
theorem editDistance_isLeast (a b : String) :
    IsLeast {n | Edits n a.toList b.toList} (editDistance a b) := by
  rw [editDistance_eq]
  refine ⟨?_, fun n h => h.reverse.dist_le⟩
  simpa using (edits_dist a.toList.reverse b.toList.reverse).reverse

theorem Edits.dist_le_add (h : Edits n a b) : dist a c ≤ n + dist b c := by
  induction h with
  | refl a => omega
  | step h _ ih => exact h.dist_le.trans (by omega)

theorem Edits.eq (h : Edits 0 a b) : a = b := by
  cases h
  rfl

theorem dist_comm (a b : List Char) : dist a b = dist b a := by
  fun_induction dist a b with
  | case1 => rw [dist]
  | case2 x a ih => rw [dist, ih]
  | case3 y b ih => rw [dist, ih]
  | case4 x a y b ih₁ ih₂ ih₃ =>
    rw [dist, ih₁, ih₂, ih₃, minThree_eq, minThree_eq, min_comm (_ + 1)]
    simp only [eq_comm]

/-- `EditDistance` is a metric. -/
theorem editDistance_metric (a b c : String) : (editDistance a b = 0 ↔ a = b) ∧
    editDistance a b = editDistance b a ∧
      editDistance a c ≤ editDistance a b + editDistance b c := by
  simp only [editDistance_eq]
  refine ⟨⟨fun h => ?_, fun h => h ▸ dist_self _⟩, dist_comm _ _, (edits_dist _ _).dist_le_add⟩
  exact String.toList_inj.1 (reverse_inj.1 (Edits.eq (h ▸ edits_dist _ _)))

end Solocoder.Suggest
