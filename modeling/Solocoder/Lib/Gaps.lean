import Mathlib.Data.List.ReduceOption

/-!
# Sequences that lose their gaps

When only the entries of `slots` are stored, a place is read by its number among the entries, and a
number beyond them gives a default.
-/

namespace Solocoder.Lib.Gaps

open List Option

variable {α : Type*}

/-- The first `n` places of a list, with a default behind its end. -/
def readTo (d : α) (n : Nat) (l : List α) : List α := (range n).map fun i => (l[i]?).getD d

@[simp]
theorem length_readTo (d : α) (n : Nat) (l : List α) : (readTo d n l).length = n := by
  simp [readTo]

@[simp]
theorem readTo_zero (d : α) (l : List α) : readTo d 0 l = [] := rfl

theorem readTo_succ_cons (d : α) (n : Nat) (x : α) (l : List α) :
    readTo d (n + 1) (x :: l) = x :: readTo d n l := by
  simp [readTo, range_succ_eq_map, Function.comp_def]

theorem readTo_replicate (d : α) (n m : Nat) : readTo d n (replicate m d) = replicate n d := by
  refine ext_getElem (by simp) fun i _ _ => ?_
  simp only [readTo, getElem_map, getElem_range, getElem_replicate, getElem?_replicate]
  split <;> rfl

/-- No entry but the default follows a gap. -/
def Sunk (d : α) : List (Option α) → Prop
  | [] => True
  | some _ :: slots => Sunk d slots
  | none :: slots => ∀ v, some v ∈ slots → v = d

variable {slots : List (Option α)}

theorem sunk_of_forall {d : α} (h : ∀ v, some v ∈ slots → v = d) : Sunk d slots := by
  induction slots with
  | nil => trivial
  | cons slot slots ih =>
    have hrest : ∀ v, some v ∈ slots → v = d := fun v hv => h v (mem_cons_of_mem _ hv)
    cases slot with
    | none => exact hrest
    | some w => exact ih hrest

theorem sunk_map_some_append (d : α) (vs : List α) (slots : List (Option α)) :
    Sunk d (vs.map some ++ slots) ↔ Sunk d slots := by
  induction vs with
  | nil => rfl
  | cons v vs ih => exact ih

theorem sunk_replicate_append (d : α) (n : Nat) (slots : List (Option α)) :
    Sunk d (replicate n none ++ slots) ↔
      (0 < n → ∀ v, some v ∈ slots → v = d) ∧ Sunk d slots := by
  cases n with
  | zero => simp
  | succ n =>
    show (∀ v, some v ∈ replicate n none ++ slots → v = d) ↔ _
    constructor
    · intro h
      have hslots : ∀ v, some v ∈ slots → v = d := fun v hv => h v (mem_append_right _ hv)
      exact ⟨fun _ => hslots, sunk_of_forall hslots⟩
    · rintro ⟨h, -⟩ v hv
      rcases mem_append.1 hv with hv | hv
      · cases eq_of_mem_replicate hv
      · exact h n.succ_pos v hv

variable {d : α} {f : α → α}

theorem eq_of_readTo_shifted (hf : ∀ v, f v = d ↔ v = d) {k : Nat}
    (h : readTo d (slots.length + (k + 1)) (slots.reduceOption.map f) =
      replicate (k + 1) d ++ slots.map (·.getD d)) :
    ∀ v, some v ∈ slots → v = d := by
  induction slots generalizing k with
  | nil => simp
  | cons slot slots ih =>
    cases slot with
    | none =>
      -- a further gap is one more default in front
      intro v hv
      refine ih (k := k + 1) ?_ v (by simpa using hv)
      rw [reduceOption_cons_of_none] at h
      rw [show slots.length + (k + 1 + 1) = (none :: slots : List (Option α)).length + (k + 1) by
        simp; omega, h, replicate_succ' (n := k + 1)]
      simp
    | some w =>
      rw [reduceOption_cons_of_some, map_cons, length_cons, Nat.add_right_comm,
        readTo_succ_cons, replicate_succ, cons_append] at h
      obtain ⟨hw, hrest⟩ := cons.inj h
      obtain rfl : w = d := (hf w).1 hw
      intro v hv
      rcases mem_cons.1 hv with hv | hv
      · exact Option.some.inj hv
      · refine ih (k := k) ?_ v hv
        rw [hrest, replicate_succ', map_cons, getD_some]
        simp

/-- Stored entries are read back in their places exactly when they are stored unchanged and nothing
but the default follows a gap. -/
theorem readTo_eq_iff (hf : ∀ v, f v = d ↔ v = d) (slots : List (Option α)) :
    readTo d slots.length (slots.reduceOption.map f) = slots.map (·.getD d) ↔
      Sunk d slots ∧ ∀ v, some v ∈ slots → f v = v := by
  induction slots with
  | nil => simp [Sunk]
  | cons slot slots ih =>
    cases slot with
    | some w =>
      rw [reduceOption_cons_of_some, map_cons, length_cons, readTo_succ_cons,
        map_cons, getD_some, cons_eq_cons, ih]
      constructor
      · rintro ⟨hw, hsunk, hrest⟩
        refine ⟨hsunk, fun v hv => ?_⟩
        rcases mem_cons.1 hv with hv | hv
        · obtain rfl := Option.some.inj hv
          exact hw
        · exact hrest v hv
      · rintro ⟨hsunk, hall⟩
        exact ⟨hall w mem_cons_self, hsunk, fun v hv => hall v (mem_cons_of_mem _ hv)⟩
    | none =>
      rw [reduceOption_cons_of_none, length_cons, map_cons, getD_none]
      constructor
      · intro h
        have hall : ∀ v, some v ∈ slots → v = d :=
          eq_of_readTo_shifted hf (k := 0) (by simpa using h)
        refine ⟨hall, fun v hv => ?_⟩
        obtain rfl := hall v (by simpa using hv)
        exact (hf v).2 rfl
      · rintro ⟨hall, -⟩
        have hmap : slots.map (·.getD d) = replicate slots.length d := by
          refine eq_replicate_iff.2 ⟨by simp, fun x hx => ?_⟩
          obtain ⟨slot, hslot, rfl⟩ := mem_map.1 hx
          cases slot with
          | none => rfl
          | some v => exact hall v hslot
        have hdata : slots.reduceOption.map f = replicate slots.reduceOption.length d := by
          refine eq_replicate_iff.2 ⟨by simp, fun x hx => ?_⟩
          obtain ⟨v, hv, rfl⟩ := mem_map.1 hx
          obtain rfl := hall v (reduceOption_mem_iff.1 hv)
          exact (hf v).2 rfl
        rw [hdata, readTo_replicate, hmap, replicate_succ]

end Solocoder.Lib.Gaps
