/-!
# Runs of a transition system

The states that a system reaches by events that each meet a condition on the state before them.
-/

namespace Solocoder.Lib

variable {S E : Type} {step : S → E → S} {ok : S → E → Prop} {s₀ s : S}

/-- The states of the runs from `s₀` in which every event is `ok` where it happens. -/
inductive Runs (step : S → E → S) (ok : S → E → Prop) (s₀ : S) : S → Prop
  | init : Runs step ok s₀ s₀
  | step {s : S} {e : E} : Runs step ok s₀ s → ok s e → Runs step ok s₀ (step s e)

theorem Runs.invariant {P : S → Prop} (h : Runs step ok s₀ s) (hinit : P s₀)
    (hstep : ∀ s e, P s → ok s e → P (step s e)) : P s := by
  induction h with
  | init => exact hinit
  | step _ hok ih => exact hstep _ _ ih hok

/-- Every event of the list is `ok` where it happens. -/
def AllOk (step : S → E → S) (ok : S → E → Prop) : S → List E → Prop
  | _, [] => True
  | s, e :: es => ok s e ∧ AllOk step ok (step s e) es

theorem Runs.steps {es : List E} (h : Runs step ok s₀ s) (hok : AllOk step ok s es) :
    Runs step ok s₀ (es.foldl step s) := by
  induction es generalizing s with
  | nil => exact h
  | cons e es ih => exact ih (h.step hok.1) hok.2

end Solocoder.Lib
