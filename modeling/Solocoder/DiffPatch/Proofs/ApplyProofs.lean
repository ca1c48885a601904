import Solocoder.DiffPatch.Proofs.HunkProofs

/-!
# Proofs: applying the patch of a diff

`applyHunk` finds the context of a hunk that agrees with the text, so hunks that tile the old text
are applied without a conflict.
-/

namespace Solocoder.DiffPatch

open List

/-- The last line of the text ends with a line break. -/
def Terminated (text : Str) : Prop := text = [] ∨ text.getLast? = some newline

instance (text : Str) : Decidable (Terminated text) := inferInstanceAs (Decidable (_ ∨ _))

@[simp] theorem unlines_nil : unlines [] = [] := rfl

@[simp] theorem unlines_cons (line : Str) (lines : List Str) :
    unlines (line :: lines) = line ++ newline :: unlines lines := by
  simp [unlines]

theorem join_eq_unlines {lines : List Str} (h : lines ≠ []) :
    join lines ++ [newline] = unlines lines := by
  unfold join
  induction lines with
  | nil => exact absurd rfl h
  | cons line lines ih =>
    cases lines with
    | nil => simp
    | cons line' lines =>
      rw [intercalate_cons_cons, unlines_cons, ← ih (cons_ne_nil _ _)]
      simp

theorem unlines_splitLoop (line : Str) {text : Str} (h : Terminated text) (hne : text ≠ []) :
    unlines (splitLoop line text) = line ++ text := by
  induction text generalizing line with
  | nil => exact absurd rfl hne
  | cons c text ih =>
    have hlast : text ≠ [] → Terminated text := by
      intro hne'
      refine .inr ?_
      rcases h with h | h
      · cases h
      · rwa [getLast?_cons_of_ne_nil hne'] at h
    rw [splitLoop]
    split
    · next hc =>
      subst hc
      by_cases htext : text = []
      · subst htext
        simp [splitLoop]
      · rw [unlines_cons, ih [] (hlast htext) htext]
        rfl
    · next hc =>
      have htext : text ≠ [] := by
        rintro rfl
        rcases h with h | h
        · cases h
        · exact hc (Option.some_injective _ h)
      rw [ih (line ++ [c]) (hlast htext) htext, append_assoc]
      rfl

theorem splitLines_eq (text : Str) : splitLines text = splitText text := by
  unfold splitLines
  split
  · next h =>
    subst h
    rfl
  · rfl

theorem unlines_splitLines {text : Str} (h : Terminated text) :
    unlines (splitLines text) = text := by
  rw [splitLines_eq]
  by_cases hne : text = []
  · subst hne
    rfl
  · exact unlines_splitLoop [] h hne

section Hunk

variable {old : List Str} {ls : List Line} {p : Nat}

theorem verifyContext_spec (h : oldLines ls <+: old.drop p) : verifyContext old p ls = true := by
  induction ls generalizing p with
  | nil => rfl
  | cons l ls ih =>
    obtain ⟨content, type, o, n⟩ := l
    cases type with
    | equal =>
      obtain ⟨hget, hrest⟩ := agrees_cons h
      simp only [verifyContext, hget, if_true]
      exact ih hrest
    | delete =>
      obtain ⟨hget, hrest⟩ := agrees_cons h
      simp only [verifyContext, hget, if_true]
      exact ih hrest
    | insert => exact ih h

theorem applyLines_spec (h : oldLines ls <+: old.drop p) (result : List Str)
    (conflicts : List ConflictRange) :
    applyLines old ls ⟨result, conflicts, p⟩ =
      ⟨result ++ newLines ls, conflicts, p + (oldLines ls).length⟩ := by
  induction ls generalizing p result with
  | nil => simp [applyLines]
  | cons l ls ih =>
    obtain ⟨content, type, o, n⟩ := l
    cases type with
    | equal =>
      obtain ⟨hget, hrest⟩ := agrees_cons h
      simp only [applyLines, hget]
      rw [ih hrest]
      simp [Nat.add_assoc, Nat.add_comm]
    | delete =>
      obtain ⟨hget, hrest⟩ := agrees_cons h
      simp only [applyLines]
      rw [ih hrest]
      simp [Nat.add_assoc, Nat.add_comm]
    | insert =>
      simp only [applyLines]
      rw [ih h]
      simp

theorem applyHunk_spec {hunk : Hunk} {start : Nat} (hstart : hunk.oldStart = start + 1)
    (h : oldLines hunk.lines <+: old.drop start) (hp : p ≤ start) (result : List Str)
    (conflicts : List ConflictRange) :
    applyHunk old ⟨result, conflicts, p⟩ hunk =
      some ⟨result ++ slice old p start ++ newLines hunk.lines, conflicts,
        start + (oldLines hunk.lines).length⟩ := by
  have hexp : (hunk.oldStart - 1).toNat = start := by omega
  simp only [applyHunk, hexp, Nat.max_eq_right hp]
  rw [if_pos (verifyContext_spec h), applyLines_spec h]

end Hunk

theorem applyHunks_append {old : List Str} (hunks hunks' : List Hunk) (s : ApplyState) :
    applyHunks old (hunks ++ hunks') s = (applyHunks old hunks s).bind (applyHunks old hunks') := by
  induction hunks generalizing s with
  | nil => rfl
  | cons hunk hunks ih =>
    rw [cons_append, applyHunks, applyHunks]
    cases applyHunk old s hunk with
    | none => rfl
    | some s' => exact ih s'

theorem Tiled.applyHunks {old : List Str} {hunks : List Hunk} {stop : Nat} {new : List Str}
    (h : Tiled old hunks stop new) :
    DiffPatch.applyHunks old hunks ⟨[], [], 0⟩ = some ⟨new, [], stop⟩ := by
  induction h with
  | nil => rfl
  | concat _ hle hfits _ ih =>
    rw [applyHunks_append, ih, Option.bind_some, DiffPatch.applyHunks,
      applyHunk_spec hfits.oldStart hfits.agrees hle]
    rfl

/-- Hunks that tile the old text and lead to the lines of the new one are applied without a
conflict. -/
theorem Tiled.applyPatchDirect {oldText newText : Str} {hunks : List Hunk} {stop : Nat}
    {new : List Str} (h : Tiled (splitLines oldText) hunks stop new)
    (hnew : new ++ (splitLines oldText).drop stop = splitLines newText) (hold : Terminated oldText)
    (hterm : Terminated newText) (header : PatchHeader) :
    DiffPatch.applyPatchDirect oldText ⟨header, hunks⟩ = .ok ⟨newText, false, []⟩ := by
  have hlines := unlines_splitLines hterm
  simp only [DiffPatch.applyPatchDirect, h.applyHunks, hnew]
  by_cases hnil : splitLines newText = []
  · rw [hnil] at hlines ⊢
    simp [← hlines, join]
  · have htrail : oldText.getLast? = some newline ∨ oldText = [] ∧ hunks ≠ [] := by
      rcases hold with rfl | hlast
      · refine .inr ⟨rfl, ?_⟩
        rintro rfl
        cases h.applyHunks
        exact hnil hnew.symm
      · exact .inl hlast
    rw [if_pos ⟨htrail, hnil⟩, join_eq_unlines hnil, hlines]
    rfl

/-- Applying the hunks of a diff to the old text gives the new text. -/
theorem diff_then_apply (oldText newText : Str) (header : PatchHeader) (hold : Terminated oldText)
    (hnew : Terminated newText) (hne : ¬ (oldText = [] ∧ newText = [])) :
    ∃ hunks, diff oldText newText = .ok hunks ∧
      applyPatchDirect oldText ⟨header, hunks⟩ = .ok ⟨newText, false, []⟩ := by
  obtain ⟨hunks, stop, new, hdiff, htiled, heq⟩ := diff_spec hne
  exact ⟨hunks, hdiff, htiled.applyPatchDirect heq hold hnew header⟩

/-- The same for a text with one changed line. -/
theorem diff_then_apply_oneLine : Terminated (str "a\nb\n") ∧ Terminated (str "a\nc\n") ∧
      ¬ (str "a\nb\n" = [] ∧ str "a\nc\n" = []) ∧
      ∃ hunks, diff (str "a\nb\n") (str "a\nc\n") = .ok hunks ∧
        applyPatchDirect (str "a\nb\n") ⟨⟨[], []⟩, hunks⟩ = .ok ⟨str "a\nc\n", false, []⟩ :=
  ⟨by decide, by decide, by decide,
    diff_then_apply _ _ ⟨[], []⟩ (by decide) (by decide) (by decide)⟩

end Solocoder.DiffPatch
