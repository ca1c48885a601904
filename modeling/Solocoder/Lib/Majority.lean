import Mathlib.Tactic

/-!
# Majorities

A majority of a finite set of members is a subset of more than half of them. Any two majorities
share a member.
-/

namespace Solocoder.Lib

variable {N : Type} [DecidableEq N]

/-- `Q` is a subset of `members` with more than half of them. -/
structure Majority (members Q : Finset N) : Prop where
  sub : Q ⊆ members
  card : members.card / 2 + 1 ≤ Q.card

theorem Majority.inter {members Q R : Finset N} (hQ : Majority members Q)
    (hR : Majority members R) : ∃ v, v ∈ Q ∧ v ∈ R := by
  have hunion : (Q ∪ R).card ≤ members.card := Finset.card_le_card (Finset.union_subset hQ.sub hR.sub)
  have hsum := Finset.card_union_add_card_inter Q R
  have h1 := hQ.card
  have h2 := hR.card
  have hpos : 0 < (Q ∩ R).card := by omega
  obtain ⟨v, hv⟩ := Finset.card_pos.1 hpos
  exact ⟨v, Finset.mem_inter.1 hv⟩

end Solocoder.Lib
