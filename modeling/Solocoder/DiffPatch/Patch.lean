import Solocoder.DiffPatch.Diff

/-!
# Patches of `internal/diffpatch`: applying them, writing and reading their text

Go's `int` is an unbounded integer here: no text has as many lines as an `int` can count.
-/

namespace Solocoder.DiffPatch

structure PatchHeader where
  oldFile : Str
  newFile : Str
  deriving DecidableEq, Repr

structure Patch where
  header : PatchHeader
  hunks : List Hunk
  deriving DecidableEq, Repr

structure ConflictRange where
  startLine : Int
  endLine : Int
  ours : List Str
  theirs : List Str
  base : List Str
  deriving DecidableEq, Repr

structure ApplyResult where
  text : Str
  rejected : Bool
  conflicts : List ConflictRange
  deriving DecidableEq, Repr

/-- The lines from `i` up to `j`, without the last one. -/
def slice (lines : List Str) (i j : Nat) : List Str := (lines.take j).drop i

def verifyContext (originalLines : List Str) (origPos : Nat) : List Line → Bool
  | [] => true
  | line :: lines =>
    match line.type with
    | .equal | .delete =>
      if originalLines[origPos]? = some line.content then
        verifyContext originalLines (origPos + 1) lines
      else false
    | .insert => verifyContext originalLines origPos lines

variable (s : Str) (hunk : Hunk) (originalLines : List Str)

def extractNewLines : List Str :=
  (hunk.lines.filter (·.type = .insert)).map (·.content)

/-- `extractBaseLines`; a negative number of lines is a negative length for `make`. -/
def extractBaseLines (startIdx : Nat) (count : Int) : Option (List Str) :=
  let stop : Int := min (startIdx + count) originalLines.length
  if startIdx ≥ originalLines.length then some []
  else if stop - startIdx < 0 then none
  else some (slice originalLines startIdx stop.toNat)

/-- The variables of the loop of `ApplyPatchDirect`. -/
structure ApplyState where
  result : List Str
  conflicts : List ConflictRange
  origIdx : Nat
  deriving DecidableEq, Repr

/-- The loop over the lines of a hunk whose context was found. -/
def applyLines (originalLines : List Str) : List Line → ApplyState → ApplyState
  | [], s => s
  | line :: lines, s =>
    applyLines originalLines lines <|
      match line.type with
      | .equal =>
        match originalLines[s.origIdx]? with
        | some content => { s with result := s.result ++ [content], origIdx := s.origIdx + 1 }
        | none => s
      | .delete => { s with origIdx := s.origIdx + 1 }
      | .insert => { s with result := s.result ++ [line.content] }

/-- One turn of the loop over the hunks. -/
def applyHunk (s : ApplyState) (hunk : Hunk) : Option ApplyState :=
  let expectedStart := (hunk.oldStart - 1).toNat
  let s :=
    { s with
      result := s.result ++ slice originalLines s.origIdx expectedStart
      origIdx := max s.origIdx expectedStart }
  if verifyContext originalLines expectedStart hunk.lines then
    some (applyLines originalLines hunk.lines s)
  else do
    let base ← extractBaseLines originalLines expectedStart hunk.oldCount
    let kept := slice originalLines s.origIdx (s.origIdx + hunk.oldCount.toNat)
    some
      { s with
        result := s.result ++ kept
        conflicts := s.conflicts ++
          [⟨hunk.oldStart, hunk.oldStart + hunk.oldCount - 1, base, extractNewLines hunk, base⟩]
        origIdx := s.origIdx + kept.length }

/-- The loop over the hunks. -/
def applyHunks (originalLines : List Str) : List Hunk → ApplyState → Option ApplyState
  | [], s => some s
  | hunk :: hunks, s => do
    let s ← applyHunk originalLines s hunk
    applyHunks originalLines hunks s

def applyPatchDirect (originalText : Str) (patch : Patch) : Except Err ApplyResult :=
  let originalLines := splitLines originalText
  let trailingNewline :=
    originalText.getLast? = some newline ∨ (originalText = [] ∧ patch.hunks ≠ [])
  match applyHunks originalLines patch.hunks ⟨[], [], 0⟩ with
  | none => .error .panic
  | some s =>
    let result := s.result ++ originalLines.drop s.origIdx
    let text := join result
    .ok ⟨if trailingNewline ∧ result ≠ [] then text ++ [newline] else text, s.conflicts ≠ [],
        s.conflicts⟩

/-- An integer written with the verb `%d`. -/
def decimal (n : Int) : Str :=
  if n < 0 then str "-" ++ (Nat.toDigits 10 n.natAbs).map Char.toUInt8
  else (Nat.toDigits 10 n.toNat).map Char.toUInt8

/-- The line that opens a hunk. -/
def hunkHeader : Str :=
  str "@@ -" ++ decimal hunk.oldStart ++ str "," ++ decimal hunk.oldCount ++ str " +" ++
    decimal hunk.newStart ++ str "," ++ decimal hunk.newCount ++ str " @@"

/-- A line of a hunk with the mark of its type. -/
def markedLine (line : Line) : Str :=
  match line.type with
  | .equal => str " " ++ line.content
  | .delete => str "-" ++ line.content
  | .insert => str "+" ++ line.content

/-- The lines of a text, each of them terminated. -/
def unlines (lines : List Str) : Str := lines.flatMap (· ++ [newline])

/-- The lines of a hunk in the text of a patch. -/
def hunkText : List Str := hunkHeader hunk :: hunk.lines.map markedLine

def patchToUnified (p : Patch) : Str :=
  unlines ([str "--- " ++ p.header.oldFile, str "+++ " ++ p.header.newFile] ++
    p.hunks.flatMap hunkText)

def generatePatch (oldFile newFile oldText newText : Str) : Except Err Str := do
  let hunks ← diff oldText newText
  return patchToUnified ⟨⟨oldFile, newFile⟩, hunks⟩

/-- `strings.Index`. -/
def indexOf (sub : Str) : Str → Option Nat
  | [] => if sub = [] then some 0 else none
  | c :: s => if sub.isPrefixOf (c :: s) then some 0 else (indexOf sub s).map (· + 1)

/-- `strings.TrimPrefix`. -/
def trimFront (front s : Str) : Str := if front.isPrefixOf s then s.drop front.length else s

/-- `strings.SplitN(s, sep, 2)` with a separator of one byte. -/
def splitOnce (sep : UInt8) : Str → Str × Option Str
  | [] => ([], none)
  | c :: s => if c = sep then ([], some s) else (c :: (splitOnce sep s).1, (splitOnce sep s).2)

/-- The width of the white space at the front of a text in UTF-8. A line holds no line feed. -/
def spaceWidth : Str → Nat
  | c₀ :: c₁ :: c₂ :: _ =>
    if c₀ = 32 ∨ (9 ≤ c₀ ∧ c₀ ≤ 13) then 1
    else if c₀ = 0xC2 ∧ (c₁ = 0x85 ∨ c₁ = 0xA0) then 2
    else if (c₀ = 0xE1 ∧ c₁ = 0x9A ∧ c₂ = 0x80) ∨ (c₀ = 0xE2 ∧ c₁ = 0x81 ∧ c₂ = 0x9F) ∨
        (c₀ = 0xE3 ∧ c₁ = 0x80 ∧ c₂ = 0x80) ∨
        (c₀ = 0xE2 ∧ c₁ = 0x80 ∧
          ((0x80 ≤ c₂ ∧ c₂ ≤ 0x8A) ∨ c₂ = 0xA8 ∨ c₂ = 0xA9 ∨ c₂ = 0xAF)) then 3
    else 0
  | [c₀, c₁] =>
    if c₀ = 32 ∨ (9 ≤ c₀ ∧ c₀ ≤ 13) then 1
    else if c₀ = 0xC2 ∧ (c₁ = 0x85 ∨ c₁ = 0xA0) then 2
    else 0
  | [c₀] => if c₀ = 32 ∨ (9 ≤ c₀ ∧ c₀ ≤ 13) then 1 else 0
  | [] => 0

/-- The scanner's `SkipSpace`; the first argument bounds the number of spaces. -/
def skipSpace : Nat → Str → Str
  | 0, s => s
  | c + 1, s => if spaceWidth s = 0 then s else skipSpace c (s.drop (spaceWidth s))

def isDigit (c : UInt8) : Bool := 48 ≤ c ∧ c ≤ 57

/-- The number that a list of decimal digits stands for. -/
def digitsValue : Nat := s.foldl (fun n c => n * 10 + (c.toNat - 48)) 0

/-- The digits at the front of a text, of which there has to be one. -/
def scanNumber : Option Nat :=
  if s.takeWhile isDigit = [] then none else some (digitsValue (s.takeWhile isDigit))

/-- `fmt.Sscanf(s, "%d", &n)`; what follows the number is not read. Numbers beyond int64, which it
refuses, are read here. -/
def scanInt : Option Int :=
  let s := skipSpace s.length s
  if (str "-").isPrefixOf s then (scanNumber (s.drop 1)).map fun n => -(n : Int)
  else (scanNumber (trimFront (str "+") s)).map fun n => (n : Int)

def parseRange : Except Err (Int × Int) :=
  let s := trimFront (str "+") (trimFront (str "-") s)
  match scanInt (splitOnce 44 s).1 with
  | none => .error .invalidPatch
  | some start =>
    match (splitOnce 44 s).2 with
    | none => .ok (start, 1)
    | some rest =>
      match scanInt rest with
      | none => .error .invalidPatch
      | some count => .ok (start, count)

def parseHunkHeader (line : Str) : Except Err Hunk :=
  let line := trimFront (str "@@ ") line
  match indexOf (str " @@") line with
  | none => .error .invalidPatch
  | some idx =>
    match splitOnce 32 (line.take idx) with
    | (_, none) => .error .invalidPatch
    | (oldRange, some newRange) => do
      let (oldStart, oldCount) ← parseRange oldRange
      let (newStart, newCount) ← parseRange newRange
      return ⟨oldStart, oldCount, newStart, newCount, []⟩

/-- The variables of the loop of `ParsePatch`. -/
structure ParseState where
  header : PatchHeader
  hunks : List Hunk
  currentHunk : Option Hunk
  deriving DecidableEq, Repr

/-- The counter `actualOld` of `finalizeHunk`. -/
def actualOld (lines : List Line) : Nat := lines.countP (·.type ≠ .insert)

/-- The counter `actualNew` of `finalizeHunk`. -/
def actualNew (lines : List Line) : Nat := lines.countP (·.type ≠ .delete)

def finalizeHunk (s : ParseState) : Except Err ParseState :=
  match s.currentHunk with
  | none => .ok s
  | some hunk =>
    if actualOld hunk.lines ≠ hunk.oldCount then
      .error (.oldCount hunk.oldCount (actualOld hunk.lines))
    else if actualNew hunk.lines ≠ hunk.newCount then
      .error (.newCount hunk.newCount (actualNew hunk.lines))
    else .ok { s with hunks := s.hunks ++ [hunk] }

/-- A line of a hunk, read by its first byte. -/
def hunkLine (line : Str) : Except Err Line :=
  if (str "-").isPrefixOf line then .ok ⟨line.drop 1, .delete, 0, 0⟩
  else if (str "+").isPrefixOf line then .ok ⟨line.drop 1, .insert, 0, 0⟩
  else if (str " ").isPrefixOf line then .ok ⟨line.drop 1, .equal, 0, 0⟩
  else .error (.unrecognizedLine line)

/-- One turn of the loop of `ParsePatch`. -/
def parseLine (s : ParseState) (line : Str) : Except Err ParseState :=
  if (str "--- ").isPrefixOf line then
    .ok { s with header.oldFile := trimFront (str "--- ") line }
  else if (str "+++ ").isPrefixOf line then
    .ok { s with header.newFile := trimFront (str "+++ ") line }
  else if (str "@@ ").isPrefixOf line then do
    let s ← finalizeHunk s
    let hunk ← parseHunkHeader line
    return { s with currentHunk := some hunk }
  else
    match s.currentHunk with
    | none => .ok s
    | some hunk => do
      let l ← hunkLine line
      return { s with currentHunk := some { hunk with lines := hunk.lines ++ [l] } }

/-- The loop of `ParsePatch`. -/
def parseLines : List Str → ParseState → Except Err ParseState
  | [], s => .ok s
  | line :: lines, s => do
    let s ← parseLine s line
    parseLines lines s

def parsePatch (patchText : Str) : Except Err Patch :=
  let lines := splitText patchText
  if lines.length < 2 then .error .invalidPatch
  else do
    let s ← parseLines lines ⟨⟨[], []⟩, [], none⟩
    let s ← finalizeHunk s
    if s.header.oldFile = [] ∧ s.header.newFile = [] ∧ s.hunks = [] then .error .invalidPatch
    else .ok ⟨s.header, s.hunks⟩

def applyPatch (originalText patchText : Str) : Except Err ApplyResult := do
  let patch ← parsePatch patchText
  applyPatchDirect originalText patch

end Solocoder.DiffPatch
