import Mathlib.Data.Finset.Basic

/-!
# Loops over keys that do not touch each other

If a turn changes only what belongs to its key, the loop changes each key as its own turn does.
-/

namespace Solocoder.Lib

open List

variable {σ κ β : Type} [DecidableEq κ]

/-- `view s k` is what belongs to the key `k` in the state `s`, and `g k` is what the turn for `k` does to
it as long as `inv` holds. -/
theorem foldl_view (inv : σ → Prop) (view : σ → κ → β) {f : σ → κ → σ} (g : κ → β → β)
    (hinv : ∀ s k, inv s → inv (f s k))
    (hother : ∀ s k k', inv s → k' ≠ k → view (f s k) k' = view s k')
    (hown : ∀ s k, inv s → view (f s k) k = g k (view s k))
    {keys : List κ} (hnodup : keys.Nodup) {s : σ} (hs : inv s) :
    inv (keys.foldl f s) ∧
      ∀ k, view (keys.foldl f s) k = if k ∈ keys then g k (view s k) else view s k := by
  induction keys generalizing s with
  | nil => exact ⟨hs, fun k => rfl⟩
  | cons key keys ih =>
    obtain ⟨hkey, hnodup⟩ := nodup_cons.1 hnodup
    obtain ⟨hinv', hview⟩ := ih hnodup (hinv s key hs)
    refine ⟨hinv', fun k => ?_⟩
    rw [foldl_cons, hview]
    by_cases hk : k = key
    · subst hk
      rw [if_neg hkey, if_pos mem_cons_self, hown s k hs]
    · rw [hother s key k hs hk]
      simp [hk]

variable {l : List κ} {s : Finset κ} {k : κ}

theorem mem_foldl_insert : k ∈ l.foldl (fun s a => insert a s) s ↔ k ∈ s ∨ k ∈ l := by
  induction l generalizing s with
  | nil => simp
  | cons a l ih => rw [foldl_cons, ih, Finset.mem_insert, mem_cons]; tauto

theorem mem_foldl_erase : k ∈ l.foldl Finset.erase s ↔ k ∈ s ∧ k ∉ l := by
  induction l generalizing s with
  | nil => simp
  | cons a l ih => rw [foldl_cons, ih, Finset.mem_erase, mem_cons]; tauto

end Solocoder.Lib
