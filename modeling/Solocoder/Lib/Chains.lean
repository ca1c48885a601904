import Mathlib.Data.List.Basic

/-!
# Linked lists

`next x` is `some none` at the end of a list, and `none` where `x` has no successor field. A chain
from `x` lists the elements that follow `x` up to the end.
-/

namespace Solocoder.Lib

open List

variable {α : Type*}

/-- Following `next` from `x` gives the elements of the list and then the end. -/
def Chain (next : α → Option (Option α)) : α → List α → Prop
  | x, [] => next x = some none
  | x, y :: l => next x = some (some y) ∧ Chain next y l

variable {next next' : α → Option (Option α)} {x y p : α} {l r : List α}

theorem Chain.next_eq (h : Chain next x l) : next x = some l.head? := by
  cases l with
  | nil => exact h
  | cons y l => exact h.1

theorem Chain.congr (h : Chain next x l) (hp : next' p = next x)
    (hl : ∀ y ∈ l, next' y = next y) : Chain next' p l := by
  induction l generalizing x p with
  | nil => exact hp.trans h
  | cons y l ih =>
    rw [forall_mem_cons] at hl
    exact ⟨hp.trans h.1, ih h.2 hl.1 hl.2⟩

theorem Chain.behind (h : Chain next x (l ++ r)) : Chain next (l.getLastD x) r := by
  induction l generalizing x with
  | nil => exact h
  | cons a l ih =>
    rw [getLastD_cons]
    exact ih h.2

theorem Chain.insert (h : Chain next x (l ++ r)) (hnodup : (x :: (l ++ r)).Nodup)
    (hlast : next' (l.getLastD x) = some (some p)) (hp : next' p = next (l.getLastD x))
    (hother : ∀ y ∈ x :: (l ++ r), y ≠ l.getLastD x → next' y = next y) :
    Chain next' x (l ++ p :: r) := by
  induction l generalizing x with
  | nil =>
    refine ⟨hlast, h.congr hp fun y hy => hother y (mem_cons_of_mem x hy) ?_⟩
    rintro rfl
    exact (nodup_cons.mp hnodup).1 hy
  | cons a l ih =>
    rw [getLastD_cons] at hlast hp hother
    obtain ⟨hx, hnodup⟩ := nodup_cons.mp hnodup
    refine ⟨(hother x mem_cons_self ?_).trans h.1, ih h.2 hnodup hlast hp ?_⟩
    · intro heq
      exact hx (heq ▸ mem_append_left r getLastD_mem_cons)
    · exact fun y hy => hother y (mem_cons_of_mem x hy)

theorem Chain.remove (h : Chain next x (l ++ p :: r)) (hnodup : (x :: (l ++ r)).Nodup)
    (hlast : next' (l.getLastD x) = next p)
    (hother : ∀ y ∈ x :: (l ++ r), y ≠ l.getLastD x → next' y = next y) :
    Chain next' x (l ++ r) := by
  induction l generalizing x with
  | nil =>
    refine h.2.congr hlast fun y hy => hother y (mem_cons_of_mem x hy) ?_
    rintro rfl
    exact (nodup_cons.mp hnodup).1 hy
  | cons a l ih =>
    rw [getLastD_cons] at hlast hother
    obtain ⟨hx, hnodup⟩ := nodup_cons.mp hnodup
    refine ⟨(hother x mem_cons_self ?_).trans h.1, ih h.2 hnodup hlast ?_⟩
    · intro heq
      exact hx (heq ▸ mem_append_left r getLastD_mem_cons)
    · exact fun y hy => hother y (mem_cons_of_mem x hy)

theorem Chain.resume (h : Chain next x (l ++ r)) (hy : y ∈ x :: l) :
    ∃ l', Chain next y (l' ++ r) ∧ l'.getLastD y = l.getLastD x ∧ l' <:+ l := by
  induction l generalizing x with
  | nil =>
    cases mem_singleton.mp hy
    exact ⟨[], h, rfl, List.nil_suffix⟩
  | cons a l ih =>
    rcases mem_cons.mp hy with rfl | hy
    · exact ⟨a :: l, h, rfl, suffix_rfl⟩
    · obtain ⟨l', hchain, hlast, hsuffix⟩ := ih h.2 hy
      exact ⟨l', hchain, by rw [hlast, getLastD_cons], hsuffix.trans (suffix_cons a l)⟩

end Solocoder.Lib
