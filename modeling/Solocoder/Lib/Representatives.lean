import Mathlib.Data.List.Basic

/-!
# Representatives of a partial equivalence

An element need not be related to itself. Every element of a list is represented by the first one
related to it, or by itself.
-/

namespace Solocoder.Lib.Representatives

open List Option

variable {α : Type*} (r : α → α → Bool)

/-- The element that stands for `v` in `vs`. -/
def representative (vs : List α) (v : α) : α := (vs.find? (r · v)).getD v

variable {r}

theorem representative_of_find {vs : List α} {v x : α} (h : vs.find? (r · v) = some x) :
    representative r vs v = x := by
  rw [representative, h, getD_some]

variable (hsymm : ∀ x y, r x y → r y x) (htrans : ∀ x y z, r x y → r y z → r x z)
include hsymm htrans

theorem find?_congr {vs : List α} {v w : α} (h : r v w) : vs.find? (r · v) = vs.find? (r · w) := by
  have heq : (fun x => r x v) = fun x => r x w := by
    funext x
    exact Bool.eq_iff_iff.2 ⟨fun hx => htrans x v w hx h, fun hx => htrans x w v hx (hsymm v w h)⟩
  rw [heq]

theorem representative_append {vs : List α} {v : α} (hv : v ∈ vs) (ws : List α) :
    representative r (vs ++ ws) v = representative r vs v := by
  rw [representative, representative, find?_append]
  cases hfind : vs.find? (r · v) with
  | some x => rfl
  | none =>
    -- `v` is not related to itself, so to no other element
    rw [find?_eq_none.2, or_none]
    intro x _ hx
    exact find?_eq_none.1 hfind v hv (htrans v x v (hsymm x v hx) hx)

theorem representative_eq_iff (vs : List α) :
    (∀ v ∈ vs, representative r vs v = v) ↔ ∀ v ∈ vs, ∀ w ∈ vs, r v w → v = w := by
  constructor
  · intro h v hv w hw hr
    calc v = representative r vs v := (h v hv).symm
      _ = representative r vs w := by
        have hsome : (vs.find? (r · w)).isSome := find?_isSome.2 ⟨v, hv, hr⟩
        obtain ⟨x, hx⟩ := isSome_iff_exists.1 hsome
        have hx' : vs.find? (r · v) = some x := (find?_congr hsymm htrans hr).trans hx
        rw [representative_of_find hx, representative_of_find hx']
      _ = w := h w hw
  · intro h v hv
    cases hfind : vs.find? (r · v) with
    | none => simp [representative, hfind]
    | some x =>
      rw [representative_of_find hfind]
      have hr : r x v = true := by simpa using find?_some hfind
      exact h x (mem_of_find?_eq_some hfind) v hv hr

end Solocoder.Lib.Representatives
