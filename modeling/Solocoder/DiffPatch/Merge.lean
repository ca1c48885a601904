import Solocoder.DiffPatch.Patch

/-!
# Three-way merges of `internal/diffpatch`

The slice `result` of the two merge loops is a list of pieces here, so that a line of the merged text
can be told from another one with the same content.
-/

namespace Solocoder.DiffPatch

/-- `change`; its field `source` is never set. -/
structure Change where
  oldStart : Nat
  oldEnd : Nat
  newLines : List Str
  deriving DecidableEq, Repr

/-- The variables of the loop of `diffToChanges` over the lines of a hunk. -/
structure ChangeState where
  changes : List Change
  deleted : Nat
  inserted : List Str
  changeStart : Nat
  deriving DecidableEq, Repr

/-- The change that was collected, if there is one, is appended. -/
def ChangeState.flush (s : ChangeState) : ChangeState :=
  if s.deleted > 0 ∨ s.inserted ≠ [] then
    { s with
      changes := s.changes ++ [⟨s.changeStart, s.changeStart + s.deleted, s.inserted⟩]
      deleted := 0
      inserted := [] }
  else s

/-- One turn of the loop over the lines. -/
def changeLine (s : ChangeState) (line : Line) : ChangeState :=
  match line.type with
  | .delete => { s with deleted := s.deleted + 1 }
  | .insert => { s with inserted := s.inserted ++ [line.content] }
  | .equal => { s.flush with changeStart := line.oldLineNo.toNat }

/-- The loop over the lines of a hunk. -/
def changeLines : List Line → ChangeState → ChangeState
  | [], s => s
  | line :: lines, s => changeLines lines (changeLine s line)

/-- The changes of one hunk. -/
def hunkChanges (hunk : Hunk) : List Change :=
  (changeLines hunk.lines ⟨[], 0, [], (hunk.oldStart - 1).toNat⟩).flush.changes

def diffToChanges (hunks : List Hunk) : List Change := hunks.flatMap hunkChanges

def rangesOverlap (aStart aEnd bStart bEnd : Nat) : Bool :=
  aStart = bStart ∨ (aStart < bEnd ∧ aEnd > bStart)

def sameContent (a b : List Str) : Bool := a = b

/-- The two changes are in conflict. -/
def conflicting (oc tc : Change) : Bool :=
  rangesOverlap oc.oldStart oc.oldEnd tc.oldStart tc.oldEnd && !sameContent oc.newLines tc.newLines

variable (baseLines : List Str) (oursChanges theirsChanges : List Change)
  (conflicts : List ConflictRange)

def detectConflicts : List ConflictRange :=
  oursChanges.flatMap fun oc =>
    (theirsChanges.filter (conflicting oc)).map fun tc =>
      ⟨oc.oldStart + 1, oc.oldEnd, oc.newLines, tc.newLines, []⟩

/-- The inner loop of the sort: `all[i]` is exchanged with every smaller change after it. -/
def exchange (ch : Change) : List Change → Change × List Change
  | [] => (ch, [])
  | ch' :: rest =>
    if ch.oldStart > ch'.oldStart then ((exchange ch' rest).1, ch :: (exchange ch' rest).2)
    else ((exchange ch rest).1, ch' :: (exchange ch rest).2)

/-- The outer loop of the sort, with the number of changes that are left. -/
def exchangeSort : Nat → List Change → List Change
  | 0, all => all
  | _, [] => []
  | c + 1, ch :: rest => (exchange ch rest).1 :: exchangeSort c (exchange ch rest).2

/-- The loop of `deduplicateChanges`, with the starts that were seen. -/
def deduplicateLoop (seen : List Nat) : List Change → List Change
  | [] => []
  | ch :: changes =>
    if ch.oldStart ∈ seen then deduplicateLoop seen changes
    else ch :: deduplicateLoop (ch.oldStart :: seen) changes

def deduplicateChanges (changes : List Change) : List Change := deduplicateLoop [] changes

def mergeChanges : List Change :=
  let all := oursChanges ++ theirsChanges
  deduplicateChanges (exchangeSort all.length all)

/-- A part of the merged text: a line of the base, the new lines of a change, or a conflict block. -/
inductive Piece where
  | base (line : Str)
  | change (ch : Change)
  | conflict (start : Nat) (ours theirs : List Str)
  deriving DecidableEq, Repr

/-- The lines that are appended to `result` for a piece. -/
def Piece.lines : Piece → List Str
  | .base line => [line]
  | .change ch => ch.newLines
  | .conflict _ ours theirs =>
    [str "<<<<<<< ours"] ++ ours ++ [str "======="] ++ theirs ++ [str ">>>>>>> theirs"]

/-- The loop of `applyBothChanges` from `baseIdx` on. -/
def applyBothLoop (baseLines : List Str) : List Change → Nat → List Piece
  | [], baseIdx => (baseLines.drop baseIdx).map .base
  | ch :: changes, baseIdx =>
    let nextIdx := max baseIdx (min ch.oldStart baseLines.length)
    (slice baseLines baseIdx ch.oldStart).map .base ++
      .change ch :: applyBothLoop baseLines changes (max nextIdx ch.oldEnd)

def applyBothChanges : List Piece :=
  applyBothLoop baseLines (mergeChanges oursChanges theirsChanges) 0

/-- The start of the change lies in one of the conflict ranges. -/
def isConflict (ch : Change) : Bool :=
  conflicts.any fun c => (ch.oldStart : Int) ≥ c.startLine - 1 ∧ (ch.oldStart : Int) < c.endLine

/-- The new lines of the first change that starts at `start`. -/
def contentAt (changes : List Change) (start : Nat) : List Str :=
  match changes.find? (·.oldStart = start) with
  | some ch => ch.newLines
  | none => []

/-- The loop of `mergeWithConflictMarkers` from `baseIdx` on. -/
def markersLoop (baseLines : List Str) (oursChanges theirsChanges : List Change)
    (conflicts : List ConflictRange) : List Change → Nat → List Piece
  | [], baseIdx => (baseLines.drop baseIdx).map .base
  | ch :: changes, baseIdx =>
    (slice baseLines baseIdx ch.oldStart).map .base ++ (if isConflict conflicts ch then
        .conflict ch.oldStart (contentAt oursChanges ch.oldStart) (contentAt theirsChanges ch.oldStart)
      else .change ch) ::
      markersLoop baseLines oursChanges theirsChanges conflicts changes ch.oldEnd

def mergeWithConflictMarkers : List Piece :=
  markersLoop baseLines oursChanges theirsChanges conflicts
    (mergeChanges oursChanges theirsChanges) 0

/-- The pieces of the merged text, with or without conflicts. -/
def mergedPieces : List Piece :=
  let conflicts := detectConflicts oursChanges theirsChanges
  if conflicts ≠ [] then mergeWithConflictMarkers baseLines oursChanges theirsChanges conflicts
  else applyBothChanges baseLines oursChanges theirsChanges

structure MergeResult where
  text : Str
  hasConflicts : Bool
  conflicts : List ConflictRange
  deriving DecidableEq, Repr

def threeWayMerge (baseText oursText theirsText : Str) : Except Err MergeResult :=
  if baseText = oursText then .ok ⟨theirsText, false, []⟩
  else if baseText = theirsText then .ok ⟨oursText, false, []⟩
  else if oursText = theirsText then .ok ⟨oursText, false, []⟩
  else do
    let oursChanges := diffToChanges (← diff baseText oursText)
    let theirsChanges := diffToChanges (← diff baseText theirsText)
    let conflicts := detectConflicts oursChanges theirsChanges
    let pieces := mergedPieces (splitLines baseText) oursChanges theirsChanges
    return ⟨join (pieces.flatMap Piece.lines), conflicts ≠ [], conflicts⟩

end Solocoder.DiffPatch
