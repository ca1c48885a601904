import Mathlib.Data.List.Basic

/-!
# Lists around a separator

A list is read back from the two sides of an element that one of the sides does not contain. A
sorted list is cut where a condition ends.
-/

namespace Solocoder.Lib

open List

variable {α : Type*} {a : α} {s t d e : List α}

theorem takeWhile_eq_filter {p : α → Bool} (h : s.Pairwise fun a b => p b → p a) :
    s.takeWhile p = s.filter p ∧ s.dropWhile p = s.filter (!p ·) := by
  induction s with
  | nil => exact ⟨rfl, rfl⟩
  | cons a s ih =>
    obtain ⟨ha, hs⟩ := pairwise_cons.mp h
    cases hp : p a with
    | true => simp [hp, ih hs]
    | false =>
      have hnone : ∀ b ∈ s, p b = false := fun b hb =>
        Bool.eq_false_iff.2 fun hb' => by simpa [hp] using ha b hb hb'
      rw [filter_eq_nil_iff.2 (by simpa [hp] using hnone), filter_eq_self.2 (by simpa [hp] using hnone)]
      simp [hp]

theorem filter_append_filter_not {p : α → Bool} (h : s.Pairwise fun a b => p b → p a) :
    s.filter p ++ s.filter (!p ·) = s := by
  rw [← (takeWhile_eq_filter h).1, ← (takeWhile_eq_filter h).2, takeWhile_append_dropWhile]

theorem append_cons_inj_of_notMem_left (hs : a ∉ s) (ht : a ∉ t)
    (h : s ++ a :: d = t ++ a :: e) : s = t ∧ d = e := by
  rcases append_eq_append_iff.mp h with ⟨c, rfl, hc⟩ | ⟨c, rfl, hc⟩
  · rcases cons_eq_append_iff.mp hc with ⟨rfl, he⟩ | ⟨c, rfl, -⟩
    · exact ⟨(append_nil s).symm, (List.cons.inj he).2.symm⟩
    · exact absurd (mem_append_right s mem_cons_self) ht
  · rcases cons_eq_append_iff.mp hc with ⟨rfl, he⟩ | ⟨c, rfl, -⟩
    · exact ⟨append_nil t, (List.cons.inj he).2⟩
    · exact absurd (mem_append_right t mem_cons_self) hs

theorem append_cons_inj_of_notMem_right (hd : a ∉ d) (he : a ∉ e)
    (h : s ++ a :: d = t ++ a :: e) : s = t ∧ d = e := by
  have hreverse : d.reverse ++ a :: s.reverse = e.reverse ++ a :: t.reverse := by
    simpa using congrArg List.reverse h
  obtain ⟨hde, hst⟩ :=
    append_cons_inj_of_notMem_left (by simpa using hd) (by simpa using he) hreverse
  exact ⟨reverse_injective hst, reverse_injective hde⟩

end Solocoder.Lib
