import Mathlib.Data.List.Basic

/-!
# Chains of records

Every record names the mark of the record before it.
-/

namespace Solocoder.Lib

open List

variable {α β : Type*} (prev cur : α → β)

/-- Every record names the mark of the one before it, the first one names `b`. -/
def Linked : β → List α → Prop
  | _, [] => True
  | b, a :: l => prev a = b ∧ Linked (cur a) l

variable {prev cur} {b : β} {l : List α} {a : α}

/-- The mark that the next record has to name. -/
def lastMark (cur : α → β) (b : β) (l : List α) : β := (l.getLast?.map cur).getD b

theorem lastMark_cons : lastMark cur b (a :: l) = lastMark cur (cur a) l := by
  unfold lastMark
  rw [getLast?_cons]
  cases l.getLast? <;> rfl

theorem lastMark_concat : lastMark cur b (l ++ [a]) = cur a := by
  unfold lastMark
  rw [getLast?_concat]
  rfl

theorem linked_concat :
    Linked prev cur b (l ++ [a]) ↔ Linked prev cur b l ∧ prev a = lastMark cur b l := by
  induction l generalizing b with
  | nil => simp [Linked, lastMark]
  | cons c l ih => rw [cons_append, Linked, Linked, ih, lastMark_cons, and_assoc]

theorem linked_set_iff {i : Nat} {a' : α} (h : Linked prev cur b l) (ha : l[i]? = some a)
    (hcur : cur a' = cur a) : Linked prev cur b (l.set i a') ↔ prev a' = prev a := by
  induction l generalizing b i with
  | nil => cases ha
  | cons c l ih =>
    obtain ⟨hc, hl⟩ := h
    cases i with
    | zero =>
      cases ha
      rw [set_cons_zero, Linked, hcur, hc]
      exact and_iff_left hl
    | succ i =>
      rw [set_cons_succ, Linked, ih hl ha]
      exact and_iff_right hc

theorem Linked.congr {l' : List α} (h : Linked prev cur b l) (hprev : l'.map prev = l.map prev)
    (hcur : l'.map cur = l.map cur) : Linked prev cur b l' := by
  induction l generalizing b l' with
  | nil =>
    cases map_eq_nil_iff.mp hprev
    trivial
  | cons a l ih =>
    obtain ⟨a', t', rfl, ha, ht⟩ := map_eq_cons_iff.mp hprev
    obtain ⟨hcura, hcurt⟩ := List.cons.inj hcur
    refine ⟨ha.trans h.1, ?_⟩
    rw [hcura]
    exact ih h.2 ht hcurt

end Solocoder.Lib
