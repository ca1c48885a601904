import Mathlib.Data.List.Perm.Subperm
import Solocoder.DiffPatch.Proofs.ChangeProofs

/-!
# Proofs: what a three-way merge keeps

A change of the second side that starts where one of the first side does is dropped, and its lines
come back in the conflict block there. But an insertion of the first side, whose range is empty,
hides a different change at its line.
-/

namespace Solocoder.DiffPatch

open List Option Piece

/-- The line of the base at which a piece was written for the changes that start there. -/
def Piece.start : Piece → Option Nat
  | .base _ => none
  | .change ch => some ch.oldStart
  | .conflict start _ _ => some start

/-- The lines that a piece has from the changes. -/
def Piece.written : Piece → List Str
  | .base _ => []
  | .change ch => ch.newLines
  | .conflict _ ours theirs => ours ++ theirs

/-- The piece is a conflict. -/
def Piece.IsConflict : Piece → Prop
  | .conflict _ _ _ => True
  | _ => False

theorem Piece.written_sublist (piece : Piece) : piece.written <+ piece.lines := by
  cases piece with
  | base line => exact nil_sublist _
  | change ch => exact Sublist.refl _
  | conflict start ours theirs =>
    have hours : ours <+ [str "<<<<<<< ours"] ++ ours ++ [str "======="] :=
      (sublist_append_right _ ours).trans (sublist_append_left _ _)
    exact (hours.append (Sublist.refl theirs)).trans (sublist_append_left _ _)

/-- The piece that is written for a change of the merged list. -/
def pieceOf (ours theirs : List Change) (ch : Change) : Piece :=
  if isConflict (detectConflicts ours theirs) ch then
    .conflict ch.oldStart (contentAt ours ch.oldStart) (contentAt theirs ch.oldStart)
  else .change ch

section Pieces

variable {baseLines : List Str} {ours theirs : List Change} {ch : Change} {piece : Piece}

theorem pieceOf_start : (pieceOf ours theirs ch).start = some ch.oldStart := by
  unfold pieceOf
  split <;> rfl

variable (h : piece.start ≠ none)
include h

theorem notMem_map_base (lines : List Str) : piece ∉ lines.map base := by
  intro hmem
  obtain ⟨line, -, rfl⟩ := mem_map.1 hmem
  exact h rfl

theorem mem_markersLoop {changes : List Change} {baseIdx : Nat} :
    piece ∈ markersLoop baseLines ours theirs (detectConflicts ours theirs) changes baseIdx ↔
      ∃ ch ∈ changes, piece = pieceOf ours theirs ch := by
  induction changes generalizing baseIdx with
  | nil =>
    rw [markersLoop]
    simp only [notMem_map_base h, not_mem_nil, false_and, exists_false]
  | cons ch changes ih =>
    rw [markersLoop, mem_append, mem_cons, exists_mem_cons_iff]
    simp only [notMem_map_base h, false_or, ih]
    rfl

theorem mem_applyBothLoop {changes : List Change} {baseIdx : Nat} :
    piece ∈ applyBothLoop baseLines changes baseIdx ↔ ∃ ch ∈ changes, piece = .change ch := by
  induction changes generalizing baseIdx with
  | nil =>
    rw [applyBothLoop]
    simp only [notMem_map_base h, not_mem_nil, false_and, exists_false]
  | cons ch changes ih =>
    rw [applyBothLoop, mem_append, mem_cons, exists_mem_cons_iff]
    simp only [notMem_map_base h, false_or, ih]

theorem mem_mergedPieces : piece ∈ mergedPieces baseLines ours theirs ↔
      ∃ ch ∈ mergeChanges ours theirs, piece = pieceOf ours theirs ch := by
  simp only [mergedPieces]
  split
  · exact mem_markersLoop h
  · next hnone =>
    have hpiece : ∀ ch, pieceOf ours theirs ch = .change ch := by
      intro ch
      rw [pieceOf, not_not.1 hnone]
      rfl
    simp only [hpiece]
    exact mem_applyBothLoop h

end Pieces

section Conflicts

variable {ours theirs : List Change} {ch oc tc : Change}

theorem conflicting_iff : conflicting oc tc = true ↔
    (oc.oldStart = tc.oldStart ∨ (oc.oldStart < tc.oldEnd ∧ oc.oldEnd > tc.oldStart)) ∧
      oc.newLines ≠ tc.newLines := by
  simp [conflicting, rangesOverlap, sameContent]

theorem detectConflicts_ne_nil : detectConflicts ours theirs ≠ [] ↔
    ∃ oc ∈ ours, ∃ tc ∈ theirs, conflicting oc tc = true := by
  rw [detectConflicts]
  simp

theorem isConflict_iff : isConflict (detectConflicts ours theirs) ch = true ↔
    ∃ oc ∈ ours, ∃ tc ∈ theirs, conflicting oc tc = true ∧ oc.oldStart ≤ ch.oldStart ∧
      ch.oldStart < oc.oldEnd := by
  simp only [isConflict, List.any_eq_true, detectConflicts, mem_flatMap, List.mem_map,
    mem_filter, decide_eq_true_eq]
  constructor
  · rintro ⟨-, ⟨oc, hoc, tc, ⟨htc, hconf⟩, rfl⟩, hlo, hhi⟩
    simp only at hlo hhi
    exact ⟨oc, hoc, tc, htc, hconf, by omega, by omega⟩
  · rintro ⟨oc, hoc, tc, htc, hconf, hlo, hhi⟩
    refine ⟨_, ⟨oc, hoc, tc, ⟨htc, hconf⟩, rfl⟩, ?_⟩
    simp only
    omega

end Conflicts

/-- The lines are among those written at this position. -/
def WrittenAt (pieces : List Piece) (start : Nat) (lines : List Str) : Prop :=
  ∃ piece ∈ pieces, piece.start = some start ∧ lines <+~ piece.written

/-- No insertion of the first side hides lines of the second side, and when there are conflicts one of
them has a line of the base in its range. -/
structure Visible (ours theirs : List Change) : Prop where
  insertion : ∀ oc ∈ ours, ∀ tc ∈ theirs, oc.oldStart = tc.oldStart → oc.oldStart = oc.oldEnd →
    oc.newLines ≠ tc.newLines → tc.newLines <+~ oc.newLines
  marked : (∃ oc ∈ ours, ∃ tc ∈ theirs, conflicting oc tc = true) →
    ∃ oc ∈ ours, ∃ tc ∈ theirs, conflicting oc tc = true ∧ oc.oldStart < oc.oldEnd

section Written

variable {baseLines : List Str} {ours theirs : List Change}

section

variable (hours : Apart ours)
include hours

variable (htheirs : Apart theirs)
include htheirs

theorem writtenAt_iff {start : Nat} {lines : List Str} :
    WrittenAt (mergedPieces baseLines ours theirs) start lines ↔
      ∃ ch, (ch ∈ ours ∨ (ch ∈ theirs ∧ ∀ oc ∈ ours, oc.oldStart ≠ ch.oldStart)) ∧
        ch.oldStart = start ∧ lines <+~ (pieceOf ours theirs ch).written := by
  constructor
  · rintro ⟨piece, hpiece, hstart, hlines⟩
    rw [mem_mergedPieces (by rw [hstart]; exact some_ne_none _)] at hpiece
    obtain ⟨ch, hch, rfl⟩ := hpiece
    rw [pieceOf_start, Option.some.injEq] at hstart
    exact ⟨ch, (mem_mergeChanges hours htheirs).1 hch, hstart, hlines⟩
  · rintro ⟨ch, hch, rfl, hlines⟩
    refine ⟨pieceOf ours theirs ch, ?_, pieceOf_start, hlines⟩
    rw [mem_mergedPieces (by rw [pieceOf_start]; exact some_ne_none _)]
    exact ⟨ch, (mem_mergeChanges hours htheirs).2 hch, rfl⟩

theorem writtenAt_ours {oc : Change} (hoc : oc ∈ ours) :
    WrittenAt (mergedPieces baseLines ours theirs) oc.oldStart oc.newLines := by
  refine (writtenAt_iff hours htheirs).2 ⟨oc, .inl hoc, rfl, ?_⟩
  unfold pieceOf
  split
  · rw [hours.contentAt hoc]
    exact (sublist_append_left _ _).subperm
  · exact Subperm.refl _

/-- A change of the second side is written unless an insertion of the first side hides it. -/
theorem writtenAt_theirs {tc : Change} (htc : tc ∈ theirs) (hvisible : ∀ oc ∈ ours,
      oc.oldStart = tc.oldStart → oc.oldStart = oc.oldEnd → oc.newLines ≠ tc.newLines →
      tc.newLines <+~ oc.newLines) :
    WrittenAt (mergedPieces baseLines ours theirs) tc.oldStart tc.newLines := by
  rw [writtenAt_iff hours htheirs]
  by_cases hsame : ∃ oc ∈ ours, oc.oldStart = tc.oldStart
  · obtain ⟨oc, hoc, hstart⟩ := hsame
    refine ⟨oc, .inl hoc, hstart, ?_⟩
    unfold pieceOf
    split
    · rw [hstart, htheirs.contentAt htc]
      exact (sublist_append_right _ _).subperm
    · next hnot =>
      by_cases hcontent : oc.newLines = tc.newLines
      · rw [← hcontent]
        exact Subperm.refl _
      · refine hvisible oc hoc hstart ?_ hcontent
        -- otherwise the conflict of the two changes would cover their start
        by_contra hne
        have hvalid := hours.valid oc hoc
        have hconf := conflicting_iff.2 ⟨.inl hstart, hcontent⟩
        exact hnot (isConflict_iff.2 ⟨oc, hoc, tc, htc, hconf, le_rfl, by omega⟩)
  · push Not at hsame
    refine ⟨tc, .inr ⟨htc, hsame⟩, rfl, ?_⟩
    unfold pieceOf
    split
    · rw [htheirs.contentAt htc]
      exact (sublist_append_right _ _).subperm
    · exact Subperm.refl _

theorem subperm_of_writtenAt_insertion {oc : Change} {lines : List Str}
    (hoc : oc ∈ ours) (hempty : oc.oldStart = oc.oldEnd)
    (h : WrittenAt (mergedPieces baseLines ours theirs) oc.oldStart lines) :
    lines <+~ oc.newLines := by
  obtain ⟨ch, hch, hstart, hlines⟩ := (writtenAt_iff hours htheirs).1 h
  obtain rfl : ch = oc := by
    rcases hch with hch | ⟨-, hnone⟩
    · exact hours.eq_of_oldStart hch hoc hstart
    · exact absurd hstart.symm (hnone oc hoc)
  have hnot : ¬ isConflict (detectConflicts ours theirs) ch = true := by
    rw [isConflict_iff]
    rintro ⟨oc', hoc', -, -, -, hlo, hhi⟩
    obtain rfl := hours.eq_of_within hoc' hoc hlo hhi.le
    omega
  rwa [pieceOf, if_neg hnot] at hlines

/-- There is a conflict block exactly when some conflict has a line of the base in its range. -/
theorem exists_isConflict_iff :
    (∃ piece ∈ mergedPieces baseLines ours theirs, piece.IsConflict) ↔
      ∃ oc ∈ ours, ∃ tc ∈ theirs, conflicting oc tc = true ∧ oc.oldStart < oc.oldEnd := by
  constructor
  · rintro ⟨piece, hpiece, hconf⟩
    rw [mem_mergedPieces (by cases piece <;> simp_all [IsConflict, start])] at hpiece
    obtain ⟨ch, -, rfl⟩ := hpiece
    unfold pieceOf at hconf
    split at hconf
    · next hin =>
      obtain ⟨oc, hoc, tc, htc, hconf, hlo, hhi⟩ := isConflict_iff.1 hin
      exact ⟨oc, hoc, tc, htc, hconf, by omega⟩
    · exact hconf.elim
  · rintro ⟨oc, hoc, tc, htc, hconf, hlt⟩
    have hin : isConflict (detectConflicts ours theirs) oc = true :=
      isConflict_iff.2 ⟨oc, hoc, tc, htc, hconf, le_rfl, hlt⟩
    refine ⟨pieceOf ours theirs oc, ?_, ?_⟩
    · rw [mem_mergedPieces (by rw [pieceOf_start]; exact some_ne_none _)]
      exact ⟨oc, (mem_mergeChanges hours htheirs).2 (.inl hoc), rfl⟩
    · rw [pieceOf, if_pos hin]
      trivial

end

/-- The merged text has every new line, and a block for conflicts, exactly when nothing is hidden.
-/
theorem visible_iff (baseLines : List Str) (hours : Apart ours) (htheirs : Apart theirs) :
    Visible ours theirs ↔ (∀ ch ∈ ours ++ theirs,
        WrittenAt (mergedPieces baseLines ours theirs) ch.oldStart ch.newLines) ∧
      (detectConflicts ours theirs ≠ [] →
        ∃ piece ∈ mergedPieces baseLines ours theirs, piece.IsConflict) := by
  rw [detectConflicts_ne_nil, exists_isConflict_iff hours htheirs]
  constructor
  · intro h
    refine ⟨?_, h.marked⟩
    intro ch hch
    rcases mem_append.1 hch with hch | hch
    · exact writtenAt_ours hours htheirs hch
    · exact writtenAt_theirs hours htheirs hch fun oc hoc => h.insertion oc hoc ch hch
  · rintro ⟨hwritten, hmarked⟩
    refine ⟨?_, hmarked⟩
    intro oc hoc tc htc hstart hempty _
    have := hwritten tc (mem_append_right _ htc)
    rw [← hstart] at this
    exact subperm_of_writtenAt_insertion hours htheirs hoc hempty this

end Written

/-- The lines stand in the text, one after the other. -/
def InText (block : List Str) (text : Str) : Prop :=
  ∃ before after, text = join (before ++ block ++ after)

theorem inText_of_mem {pieces : List Piece} {piece : Piece} (h : piece ∈ pieces) :
    InText piece.lines (join (pieces.flatMap lines)) := by
  obtain ⟨before, after, rfl⟩ := append_of_mem h
  exact ⟨before.flatMap lines, after.flatMap lines, by simp⟩

/-- The text has the lines, in any order. -/
def Occur (lines : List Str) (text : Str) : Prop :=
  ∃ all, text = join all ∧ lines <+~ all

theorem flatMap_subperm_of_writtenAt {changes : List Change} {pieces : List Piece}
    (hstarts : changes.Pairwise fun ch ch' => ch.oldStart < ch'.oldStart)
    (h : ∀ ch ∈ changes, WrittenAt pieces ch.oldStart ch.newLines) :
    changes.flatMap Change.newLines <+~ pieces.flatMap lines := by
  induction changes generalizing pieces with
  | nil => exact nil_subperm
  | cons ch changes ih =>
    obtain ⟨hlt, hstarts⟩ := pairwise_cons.1 hstarts
    obtain ⟨piece, hpiece, hstart, hlines⟩ := h ch mem_cons_self
    obtain ⟨before, after, rfl⟩ := append_of_mem hpiece
    have hrest : ∀ ch' ∈ changes, WrittenAt (before ++ after) ch'.oldStart ch'.newLines := by
      intro ch' hch'
      obtain ⟨piece', hpiece', hstart', hlines'⟩ := h ch' (mem_cons_of_mem _ hch')
      have hother : piece' ≠ piece := by
        rintro rfl
        exact (hlt ch' hch').ne (some.inj (hstart.symm.trans hstart'))
      exact ⟨piece', by simpa [hother] using hpiece', hstart', hlines'⟩
    have hhead := hlines.trans piece.written_sublist.subperm
    exact (hhead.append (ih hstarts hrest)).trans (perm_middle.flatMap_right lines).symm.subperm

/-- The lines that a diff inserts occur in the merged text, each as often as the diff inserts it: those
of a change in its place or in a conflict block there. And conflicts have a block. -/
def KeepsInsertions (baseText oursText theirsText : Str) : Prop :=
  ∀ oursHunks theirsHunks result, diff baseText oursText = .ok oursHunks →
    diff baseText theirsText = .ok theirsHunks →
    threeWayMerge baseText oursText theirsText = .ok result →
    let pieces := mergedPieces (splitLines baseText) (diffToChanges oursHunks)
      (diffToChanges theirsHunks)
    (∀ hunks ∈ [oursHunks, theirsHunks], Occur (hunks.flatMap extractNewLines) result.text) ∧
      (∀ ch ∈ diffToChanges oursHunks ++ diffToChanges theirsHunks,
        WrittenAt pieces ch.oldStart ch.newLines) ∧
      (result.hasConflicts = true →
        ∃ piece ∈ pieces, piece.IsConflict ∧ InText piece.lines result.text)

theorem threeWayMerge_eq {baseText oursText theirsText : Str} {oursHunks theirsHunks : List Hunk}
    (hours : baseText ≠ oursText) (htheirs : baseText ≠ theirsText) (hne : oursText ≠ theirsText)
    (ho : diff baseText oursText = .ok oursHunks) (ht : diff baseText theirsText = .ok theirsHunks) :
    threeWayMerge baseText oursText theirsText =
      .ok ⟨join ((mergedPieces (splitLines baseText) (diffToChanges oursHunks)
          (diffToChanges theirsHunks)).flatMap lines),
        detectConflicts (diffToChanges oursHunks) (diffToChanges theirsHunks) ≠ [],
        detectConflicts (diffToChanges oursHunks) (diffToChanges theirsHunks)⟩ := by
  rw [threeWayMerge, if_neg hours, if_neg htheirs, if_neg hne, ho, ht]
  rfl

/-- A merge keeps the inserted lines exactly when no insertion of the first side hides a change of
the second one and some conflict is marked when there is one. -/
theorem keepsInsertions_iff (baseText oursText theirsText : Str) (hours : baseText ≠ oursText)
    (htheirs : baseText ≠ theirsText) (hne : oursText ≠ theirsText) :
    KeepsInsertions baseText oursText theirsText ↔
      ∀ oursHunks theirsHunks, diff baseText oursText = .ok oursHunks →
        diff baseText theirsText = .ok theirsHunks →
        Visible (diffToChanges oursHunks) (diffToChanges theirsHunks) := by
  obtain ⟨_, _, _, ho', hotiled, -⟩ := diff_spec fun hnil => hours (hnil.1.trans hnil.2.symm)
  obtain ⟨_, _, _, ht', httiled, -⟩ := diff_spec fun hnil => htheirs (hnil.1.trans hnil.2.symm)
  constructor
  · intro h oursHunks theirsHunks ho ht
    obtain ⟨-, hwritten, hmarked⟩ :=
      h oursHunks theirsHunks _ ho ht (threeWayMerge_eq hours htheirs hne ho ht)
    obtain rfl := Except.ok.inj (ho'.symm.trans ho)
    obtain rfl := Except.ok.inj (ht'.symm.trans ht)
    refine (visible_iff (splitLines baseText) hotiled.diffToChanges.1
      httiled.diffToChanges.1).2 ⟨hwritten, fun hconf => ?_⟩
    obtain ⟨piece, hpiece, hblock, -⟩ := hmarked (by simpa using hconf)
    exact ⟨piece, hpiece, hblock⟩
  · intro h oursHunks theirsHunks result ho ht hresult
    obtain rfl := Except.ok.inj (ho'.symm.trans ho)
    obtain rfl := Except.ok.inj (ht'.symm.trans ht)
    obtain rfl := Except.ok.inj ((threeWayMerge_eq hours htheirs hne ho ht).symm.trans hresult)
    obtain ⟨hwritten, hmarked⟩ := (visible_iff (splitLines baseText)
      hotiled.diffToChanges.1 httiled.diffToChanges.1).1 (h _ _ ho ht)
    refine ⟨?_, hwritten, fun hconf => ?_⟩
    · rw [forall_mem_cons, forall_mem_singleton, ← flatMap_diffToChanges, ← flatMap_diffToChanges]
      refine ⟨⟨_, rfl, ?_⟩, ⟨_, rfl, ?_⟩⟩
      · exact flatMap_subperm_of_writtenAt hotiled.diffToChanges.1.starts fun ch hch =>
          hwritten ch (mem_append_left _ hch)
      · exact flatMap_subperm_of_writtenAt httiled.diffToChanges.1.starts fun ch hch =>
          hwritten ch (mem_append_right _ hch)
    · obtain ⟨piece, hpiece, hblock⟩ := hmarked (by simpa using hconf)
      exact ⟨piece, hpiece, hblock, inText_of_mem hpiece⟩

/-- Two sides that replace the same line are both in the conflict block. -/
theorem keepsInsertions_replacedLine :
    str "a\n" ≠ str "b\n" ∧ str "a\n" ≠ str "c\n" ∧ str "b\n" ≠ str "c\n" ∧
      KeepsInsertions (str "a\n") (str "b\n") (str "c\n") := by
  refine ⟨by decide, by decide, by decide, ?_⟩
  refine (keepsInsertions_iff _ _ _ (by decide) (by decide) (by decide)).2 ?_
  intro oursHunks theirsHunks ho ht
  obtain rfl : [⟨1, 1, 1, 1, [⟨str "a", .delete, 1, 0⟩, ⟨str "b", .insert, 0, 1⟩]⟩] = oursHunks :=
    Except.ok.inj ((by decide : diff (str "a\n") (str "b\n") = .ok _).symm.trans ho)
  obtain rfl : [⟨1, 1, 1, 1, [⟨str "a", .delete, 1, 0⟩, ⟨str "c", .insert, 0, 1⟩]⟩] = theirsHunks :=
    Except.ok.inj ((by decide : diff (str "a\n") (str "c\n") = .ok _).symm.trans ht)
  constructor <;> decide

theorem mem_join {lines : List Str} {line : Str} (hline : line ∈ lines) {c : UInt8}
    (hc : c ∈ line) : c ∈ join lines := by
  unfold join
  induction lines with
  | nil => cases hline
  | cons l lines ih =>
    cases lines with
    | nil =>
      rw [mem_singleton.1 hline] at hc
      rwa [intercalate_singleton]
    | cons l' lines =>
      rw [intercalate_cons_cons, append_assoc, mem_append, mem_append]
      rcases mem_cons.1 hline with rfl | hmem
      · exact .inl hc
      · exact .inr (.inr (ih hmem))

/-- Of two different lines that are appended to the same text one is lost, without a block. -/
theorem not_keepsInsertions_appendedLines :
    str "a\n" ≠ str "a\nx\n" ∧ str "a\n" ≠ str "a\ny\n" ∧ str "a\nx\n" ≠ str "a\ny\n" ∧
      ¬ KeepsInsertions (str "a\n") (str "a\nx\n") (str "a\ny\n") := by
  refine ⟨by decide, by decide, by decide, ?_⟩
  intro h
  have ho : diff (str "a\n") (str "a\nx\n") =
      .ok [⟨1, 1, 1, 2, [⟨str "a", .equal, 1, 1⟩, ⟨str "x", .insert, 0, 2⟩]⟩] := by decide
  have ht : diff (str "a\n") (str "a\ny\n") =
      .ok [⟨1, 1, 1, 2, [⟨str "a", .equal, 1, 1⟩, ⟨str "y", .insert, 0, 2⟩]⟩] := by decide
  have hmerge : threeWayMerge (str "a\n") (str "a\nx\n") (str "a\ny\n") =
      .ok ⟨str "a\nx", true, [⟨2, 1, [str "x"], [str "y"], []⟩]⟩ := by decide
  -- the byte of the lost line is nowhere in the text
  obtain ⟨all, htext, hlines⟩ := (h _ _ _ ho ht hmerge).1 _ (mem_cons_of_mem _ mem_cons_self)
  have hmem := mem_join (hlines.subset (by decide : str "y" ∈ _)) (by decide : (121 : UInt8) ∈ _)
  rw [← htext] at hmem
  exact absurd hmem (by decide)

section Sorted

theorem exchange_le {ch x : Change} {rest : List Change} (h : x ∈ (exchange ch rest).2) :
    (exchange ch rest).1.oldStart ≤ x.oldStart := by
  induction rest generalizing ch with
  | nil => cases h
  | cons ch' rest ih =>
    rw [exchange] at h ⊢
    split_ifs at h ⊢ with hgt
    · rcases mem_cons.1 h with rfl | h
      · rcases exchange_cases ch' rest with heq | ⟨-, hlt⟩
        · rw [heq]
          exact hgt.le
        · exact (hlt.trans hgt).le
      · exact ih h
    · rcases mem_cons.1 h with rfl | h
      · rcases exchange_cases ch rest with heq | ⟨-, hlt⟩
        · rw [heq]
          exact not_lt.1 hgt
        · exact hlt.le.trans (not_lt.1 hgt)
      · exact ih h

theorem exchangeSort_sorted {c : Nat} {all : List Change} (h : all.length ≤ c) :
    (exchangeSort c all).Pairwise fun ch ch' => ch.oldStart ≤ ch'.oldStart := by
  induction c generalizing all with
  | zero =>
    rw [length_eq_zero_iff.1 (Nat.le_zero.1 h)]
    exact .nil
  | succ c ih =>
    cases all with
    | nil => exact .nil
    | cons ch rest =>
      have hlen := (exchange_perm ch rest).length_eq
      rw [length_cons, length_cons] at hlen
      rw [length_cons] at h
      refine pairwise_cons.2 ⟨fun x hx => exchange_le (exchangeSort_perm.subset hx), ih (by omega)⟩

theorem deduplicateLoop_sorted {changes : List Change} {seen : List Nat}
    (h : changes.Pairwise fun ch ch' => ch.oldStart ≤ ch'.oldStart) :
    (deduplicateLoop seen changes).Pairwise fun ch ch' => ch.oldStart < ch'.oldStart := by
  induction changes generalizing seen with
  | nil => exact .nil
  | cons ch changes ih =>
    obtain ⟨hle, hrest⟩ := pairwise_cons.1 h
    rw [deduplicateLoop]
    split_ifs
    · exact ih hrest
    · refine pairwise_cons.2 ⟨fun x hx => ?_, ih hrest⟩
      obtain ⟨hnot, hfind⟩ := mem_deduplicateLoop.1 hx
      refine lt_of_le_of_ne (hle x (mem_of_find?_eq_some hfind)) fun heq => ?_
      exact hnot (heq ▸ mem_cons_self)

/-- Changes of the two sides that start at the same line also end at the same line. -/
def SameEnds (ours theirs : List Change) : Prop :=
  ∀ oc ∈ ours, ∀ tc ∈ theirs, oc.oldStart = tc.oldStart → oc.oldEnd = tc.oldEnd

theorem mergeChanges_comm_iff {ours theirs : List Change} (hours : Apart ours)
    (htheirs : Apart theirs) (hnone : detectConflicts ours theirs = []) :
    mergeChanges ours theirs = mergeChanges theirs ours ↔ SameEnds ours theirs := by
  have hmem : ∀ ch, ch ∈ mergeChanges ours theirs ↔ _ := fun _ => mem_mergeChanges hours htheirs
  have hmem' : ∀ ch, ch ∈ mergeChanges theirs ours ↔ _ := fun _ => mem_mergeChanges htheirs hours
  have hsorted : ∀ a b, (mergeChanges a b).Pairwise fun ch ch' => ch.oldStart < ch'.oldStart :=
    fun a b => deduplicateLoop_sorted (exchangeSort_sorted le_rfl)
  constructor
  · intro heq oc hoc tc htc hstart
    -- both changes are in the one list, in which no two changes start at the same line
    have ho := (hmem oc).2 (.inl hoc)
    rw [heq, hmem'] at ho
    rcases ho with ho | ⟨-, ho⟩
    · rw [htheirs.eq_of_oldStart ho htc hstart]
    · exact absurd hstart.symm (ho tc htc)
  · intro hends
    have hsame : ∀ oc ∈ ours, ∀ tc ∈ theirs, oc.oldStart = tc.oldStart → oc = tc := by
      intro oc hoc tc htc hstart
      have hlines : oc.newLines = tc.newLines := by
        by_contra hne
        exact detectConflicts_ne_nil.2 ⟨oc, hoc, tc, htc, conflicting_iff.2 ⟨.inl hstart, hne⟩⟩ hnone
      have hend := hends oc hoc tc htc hstart
      cases oc
      cases tc
      simp_all
    have hnodup : ∀ a b, (mergeChanges a b).Nodup := by
      intro a b
      exact (hsorted a b).imp fun hlt heq => hlt.ne (congrArg Change.oldStart heq)
    refine ((perm_ext_iff_of_nodup (hnodup _ _) (hnodup _ _)).2 fun ch => ?_).eq_of_pairwise
      (fun a b _ _ hlt hgt => absurd hgt hlt.not_gt) (hsorted _ _) (hsorted _ _)
    rw [hmem, hmem']
    constructor
    · rintro (hch | ⟨hch, -⟩)
      · by_cases h : ∃ tc ∈ theirs, tc.oldStart = ch.oldStart
        · obtain ⟨tc, htc, hstart⟩ := h
          exact .inl (hsame ch hch tc htc hstart.symm ▸ htc)
        · exact .inr ⟨hch, fun tc htc hstart => h ⟨tc, htc, hstart⟩⟩
      · exact .inl hch
    · rintro (hch | ⟨hch, -⟩)
      · by_cases h : ∃ oc ∈ ours, oc.oldStart = ch.oldStart
        · obtain ⟨oc, hoc, hstart⟩ := h
          exact .inl (hsame oc hoc ch hch hstart ▸ hoc)
        · exact .inr ⟨hch, fun oc hoc hstart => h ⟨oc, hoc, hstart⟩⟩
      · exact .inl hch

theorem detectConflicts_comm {ours theirs : List Change} :
    detectConflicts ours theirs ≠ [] ↔ detectConflicts theirs ours ≠ [] := by
  have hswap : ∀ oc tc : Change, conflicting oc tc = true → conflicting tc oc = true := by
    intro oc tc h
    rw [conflicting_iff] at h ⊢
    exact ⟨h.1.imp Eq.symm And.symm, h.2.symm⟩
  rw [detectConflicts_ne_nil, detectConflicts_ne_nil]
  constructor
  · rintro ⟨oc, hoc, tc, htc, h⟩
    exact ⟨tc, htc, oc, hoc, hswap oc tc h⟩
  · rintro ⟨tc, htc, oc, hoc, h⟩
    exact ⟨oc, hoc, tc, htc, hswap tc oc h⟩

end Sorted

/-- The two orders of a merge have conflicts together, and the same text when there are none and the
changes that start at the same line end at the same line. -/
theorem threeWayMerge_symm (baseText oursText theirsText : Str) :
    ∃ r r', threeWayMerge baseText oursText theirsText = .ok r ∧
      threeWayMerge baseText theirsText oursText = .ok r' ∧ r.hasConflicts = r'.hasConflicts ∧
      (r.hasConflicts = false → (∀ oursHunks theirsHunks, diff baseText oursText = .ok oursHunks →
          diff baseText theirsText = .ok theirsHunks →
          SameEnds (diffToChanges oursHunks) (diffToChanges theirsHunks)) → r.text = r'.text) := by
  by_cases ho : baseText = oursText
  · subst ho
    by_cases ht : baseText = theirsText
    · subst ht
      exact ⟨_, _, if_pos rfl, if_pos rfl, rfl, fun _ _ => rfl⟩
    · exact ⟨_, _, if_pos rfl, (if_neg ht).trans (if_pos rfl), rfl, fun _ _ => rfl⟩
  by_cases ht : baseText = theirsText
  · subst ht
    exact ⟨_, _, (if_neg ho).trans (if_pos rfl), if_pos rfl, rfl, fun _ _ => rfl⟩
  by_cases hne : oursText = theirsText
  · subst hne
    have hsame : threeWayMerge baseText oursText oursText = .ok ⟨oursText, false, []⟩ :=
      (if_neg ho).trans ((if_neg ho).trans (if_pos rfl))
    exact ⟨_, _, hsame, hsame, rfl, fun _ _ => rfl⟩
  obtain ⟨oh, _, _, ho', hotiled, -⟩ := diff_spec fun hnil => ho (hnil.1.trans hnil.2.symm)
  obtain ⟨th, _, _, ht', httiled, -⟩ := diff_spec fun hnil => ht (hnil.1.trans hnil.2.symm)
  refine ⟨_, _, threeWayMerge_eq ho ht hne ho' ht', threeWayMerge_eq ht ho (Ne.symm hne) ht' ho',
    decide_eq_decide.2 detectConflicts_comm, fun hnone hends => ?_⟩
  have hnone := of_decide_eq_false hnone
  have hnone' := mt detectConflicts_comm.2 hnone
  have hcomm := (mergeChanges_comm_iff hotiled.diffToChanges.1 httiled.diffToChanges.1
    (not_not.1 hnone)).2 (hends oh th ho' ht')
  simp only [mergedPieces, if_neg hnone, if_neg hnone', applyBothChanges, hcomm]

/-- One side deletes two lines, the other one deletes three from the same line on. -/
theorem threeWayMerge_asymmetric :
    threeWayMerge (str "a\nb\nc\nd") (str "c\nd") (str "d") = .ok ⟨str "c\nd", false, []⟩ ∧
      threeWayMerge (str "a\nb\nc\nd") (str "d") (str "c\nd") = .ok ⟨str "d", false, []⟩ := by
  decide

end Solocoder.DiffPatch
