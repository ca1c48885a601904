import Mathlib.Data.List.Count

/-!
# Counting down dependencies

A counter starts at the number of entries of `deps` and is decremented once for each mark that the
processed elements leave for it.
-/

namespace Solocoder.Lib.Countdown

open List

variable {α : Type*} [DecidableEq α]

theorem countP_mem_cons {a : α} {as : List α} (ha : a ∉ as) (q : α → Prop) [DecidablePred q]
    (deps : List α) :
    deps.countP (fun x => x ∈ a :: as ∧ q x) =
      (if q a then deps.count a else 0) + deps.countP (fun x => x ∈ as ∧ q x) := by
  induction deps with
  | nil => simp
  | cons x deps ih =>
    rw [countP_cons, countP_cons, count_cons, ih]
    by_cases hx : x = a
    · subst hx
      by_cases hq : q x <;> simp [ha, hq]
      omega
    · simp [hx, Nat.add_assoc]

variable {succ : α → List α} {deps : List α} {linked : α → Prop} [DecidablePred linked] {id : α}
  (h : ∀ d, (succ d).count id = if linked d then deps.count d else 0)
include h

variable {as : List α}

theorem count_flatMap_eq (has : as.Nodup) :
    (as.flatMap succ).count id = deps.countP fun d => d ∈ as ∧ linked d := by
  induction as with
  | nil => simp
  | cons a as ih =>
    obtain ⟨ha, has⟩ := nodup_cons.1 has
    rw [flatMap_cons, count_append, ih has, h, countP_mem_cons ha]

theorem count_flatMap_eq_length_iff (has : as.Nodup) :
    (as.flatMap succ).count id = deps.length ↔ ∀ d ∈ deps, d ∈ as ∧ linked d := by
  rw [count_flatMap_eq h has, countP_eq_length]
  simp

theorem count_flatMap_le (has : as.Nodup) : (as.flatMap succ).count id ≤ deps.length := by
  rw [count_flatMap_eq h has]
  exact countP_le_length

end Solocoder.Lib.Countdown
