/-!
# Line diffs of `internal/diffpatch`

A Go string is a list of bytes. An index out of range is `none` below and `Err.panic` in `diff`.
-/

namespace Solocoder.DiffPatch

abbrev Str := List UInt8

/-- A string literal of the source; all of them are ASCII. -/
def str (s : String) : Str := s.toList.map Char.toUInt8

def newline : UInt8 := 10

/-- The loop of `splitText`, with the part of the current line that was read. -/
def splitLoop (line : Str) : Str → List Str
  | [] => if line = [] then [] else [line]
  | c :: text => if c = newline then line :: splitLoop [] text else splitLoop (line ++ [c]) text

def splitText (text : Str) : List Str := splitLoop [] text

def splitLines (text : Str) : List Str := if text = [] then [] else splitText text

/-- `strings.Join(lines, "\n")`. -/
def join (lines : List Str) : Str := List.intercalate [newline] lines

/-- The errors of the package; `panic` stands for an index or a length out of range. -/
inductive Err where
  | emptyInput
  | invalidPatch
  | oldCount (declared actual : Int)
  | newCount (declared actual : Int)
  | unrecognizedLine (line : Str)
  | panic
  deriving DecidableEq, Repr

/-- `LineType`; the type `editOp` has the same three values. -/
inductive LineType where
  | equal
  | delete
  | insert
  deriving DecidableEq, Repr

structure EditScript where
  op : LineType
  line : Str
  deriving DecidableEq, Repr

structure Line where
  content : Str
  type : LineType
  oldLineNo : Int
  newLineNo : Int
  deriving DecidableEq, Repr

structure Hunk where
  oldStart : Int
  oldCount : Int
  newStart : Int
  newCount : Int
  lines : List Line
  deriving DecidableEq, Repr

/-- The read `l[i]`. -/
def index {α : Type} (l : List α) (i : Int) : Option α := if 0 ≤ i then l[i.toNat]? else none

/-- The write `l[i] = x`. -/
def update {α : Type} (l : List α) (i : Int) (x : α) : Option (List α) :=
  if 0 ≤ i ∧ i < l.length then some (l.set i.toNat x) else none

/-- The loop along equal lines. The first argument bounds its length: `x` can grow up to the length
of `a`. -/
def snake (a b : List Str) : Nat → Int → Int → Option (Int × Int)
  | 0, x, y => some (x, y)
  | c + 1, x, y =>
    if x < a.length ∧ y < b.length then do
      let p ← index a x
      let q ← index b y
      if p = q then snake a b c (x + 1) (y + 1) else some (x, y)
    else some (x, y)

/-- The test `k == -d || (k != d && v[offset+k-1] < v[offset+k+1])`. -/
def picksDown (v : List Int) (offset d k : Int) : Option Bool :=
  if k = -d then some true
  else if k ≠ d then do
    let l ← index v (offset + k - 1)
    let r ← index v (offset + k + 1)
    some (l < r)
  else some false

/-- The value of `x` where a diagonal is entered. -/
def firstX (v : List Int) (offset d k : Int) : Option Int := do
  let down ← picksDown v offset d k
  if down then index v (offset + k + 1) else (index v (offset + k - 1)).map (· + 1)

/-- The loop over the diagonals of a round, with the number of diagonals that are left. It tells
whether it came to the end of both lists. -/
def scanDiagonals (a b : List Str) (offset d : Int) :
    Nat → Int → List Int → Option (List Int × Bool)
  | 0, _, v => some (v, false)
  | c + 1, k, v => do
    let x ← firstX v offset d k
    let (x, y) ← snake a b (a.length - x).toNat x (x - k)
    let v ← update v (offset + k) x
    if x ≥ a.length ∧ y ≥ b.length then some (v, true)
    else scanDiagonals a b offset d c (k + 2) v

/-- The loop of `backtrack` along equal lines, back to a point; `x` can come down to `prevX`. -/
def keepBack (a : List Str) :
    Nat → Int → Int → Int → Int → List EditScript → Option (Int × Int × List EditScript)
  | 0, x, y, _, _, scripts => some (x, y, scripts)
  | c + 1, x, y, prevX, prevY, scripts =>
    if x > prevX ∧ y > prevY then do
      let line ← index a (x - 1)
      keepBack a c (x - 1) (y - 1) prevX prevY (scripts ++ [⟨.equal, line⟩])
    else some (x, y, scripts)

/-- The loop of `backtrack` over the rounds. -/
def backSteps (trace : List (List Int)) (a b : List Str) (offset : Int) :
    Nat → Int → Int → List EditScript → Option (Int × Int × List EditScript)
  | 0, x, y, scripts => some (x, y, scripts)
  | dd + 1, x, y, scripts => do
    let v ← index trace (dd + 1 : Nat)
    let k := x - y
    let down ← picksDown v offset (dd + 1 : Nat) k
    let prevK := if down then k + 1 else k - 1
    let prevX ← index v (offset + prevK)
    let prevY := prevX - prevK
    let (x, y, scripts) ← keepBack a (x - prevX).toNat x y prevX prevY scripts
    if x > prevX then do
      let line ← index a (x - 1)
      backSteps trace a b offset dd (x - 1) y (scripts ++ [⟨.delete, line⟩])
    else if y > prevY then do
      let line ← index b (y - 1)
      backSteps trace a b offset dd x (y - 1) (scripts ++ [⟨.insert, line⟩])
    else backSteps trace a b offset dd x y scripts

def backtrack (trace : List (List Int)) (a b : List Str) (d : Nat) (offset : Int) :
    Option (List EditScript) := do
  let (x, y, scripts) ← backSteps trace a b offset d a.length b.length []
  let (_, _, scripts) ← keepBack a x.toNat x y 0 0 scripts
  some scripts.reverse

/-- The loop of `myersDiff` over the rounds, with the number of rounds that are left. -/
def searchRounds (a b : List Str) (offset : Int) :
    Nat → Nat → List Int → List (List Int) → Option (List EditScript)
  | 0, _, _, _ => some []
  | c + 1, d, v, trace => do
    let trace := trace ++ [v]
    let (v, found) ← scanDiagonals a b offset d (d + 1) (-d) v
    if found then backtrack trace a b d offset else searchRounds a b offset c (d + 1) v trace

def myersDiff (a b : List Str) : Option (List EditScript) :=
  if a = [] ∧ b = [] then some []
  else if a = [] then some (b.map fun line => ⟨.insert, line⟩)
  else if b = [] then some (a.map fun line => ⟨.delete, line⟩)
  else
    let max := a.length + b.length
    do
      let v ← update (List.replicate (2 * max + 1) 0) (max + 1) 0
      searchRounds a b max (max + 1) 0 v []

def contextSize : Nat := 3

/-- The variables of the loop of `buildHunks`. -/
structure HunkState where
  hunks : List Hunk
  currentLines : List Line
  currentOldStart : Int
  currentNewStart : Int
  currentOldCount : Int
  currentNewCount : Int
  inHunk : Bool
  oldIdx : Nat
  newIdx : Nat
  pendingEquals : Nat
  deriving DecidableEq, Repr

def HunkState.init : HunkState := ⟨[], [], 0, 0, 0, 0, false, 0, 0, 0⟩

/-- The loop that copies lines of the old text in front of a change. -/
def contextLines (oldLines : List Str) : List Nat → Option (List Line)
  | [] => some []
  | i :: is => do
    let content ← oldLines[i]?
    let lines ← contextLines oldLines is
    some (⟨content, .equal, i + 1, i + 1⟩ :: lines)

/-- The part of the cases `opDelete` and `opInsert` that opens a hunk or goes on with it. -/
def openHunk (oldLines : List Str) (s : HunkState) : Option HunkState :=
  if s.inHunk then some { s with pendingEquals := 0 }
  else do
    let startOld := s.oldIdx - contextSize
    let newStart : Int := s.newIdx - (s.oldIdx - startOld : Nat) + 1
    let lines ← contextLines oldLines (List.range' startOld (s.oldIdx - startOld))
    some
      { s with
        inHunk := true
        pendingEquals := 0
        currentOldStart := startOld + 1
        currentNewStart := if newStart < 1 then 1 else newStart
        currentOldCount := lines.length
        currentNewCount := lines.length
        currentLines := lines }

/-- The case `opEqual`. -/
def equalStep (s : HunkState) (line : Str) : HunkState :=
  let next := { s with oldIdx := s.oldIdx + 1, newIdx := s.newIdx + 1 }
  if s.inHunk then
    let lines := s.currentLines ++ [⟨line, .equal, s.oldIdx + 1, s.newIdx + 1⟩]
    if s.pendingEquals + 1 > contextSize * 2 then
      let hunk : Hunk :=
        ⟨s.currentOldStart, s.currentOldCount + 1 - contextSize, s.currentNewStart,
          s.currentNewCount + 1 - contextSize, lines.take (lines.length - contextSize)⟩
      { next with
        hunks := s.hunks ++ [hunk]
        currentLines := []
        currentOldCount := s.currentOldCount + 1
        currentNewCount := s.currentNewCount + 1
        inHunk := false
        pendingEquals := 0 }
    else
      { next with
        currentLines := lines
        currentOldCount := s.currentOldCount + 1
        currentNewCount := s.currentNewCount + 1
        pendingEquals := s.pendingEquals + 1 }
  else next

/-- One turn of the loop of `buildHunks`. -/
def hunkStep (oldLines : List Str) (s : HunkState) (op : EditScript) : Option HunkState :=
  match op.op with
  | .equal => some (equalStep s op.line)
  | .delete => do
    let s ← openHunk oldLines s
    some
      { s with
        currentLines := s.currentLines ++ [⟨op.line, .delete, s.oldIdx + 1, 0⟩]
        currentOldCount := s.currentOldCount + 1
        oldIdx := s.oldIdx + 1 }
  | .insert => do
    let s ← openHunk oldLines s
    some
      { s with
        currentLines := s.currentLines ++ [⟨op.line, .insert, 0, s.newIdx + 1⟩]
        currentNewCount := s.currentNewCount + 1
        newIdx := s.newIdx + 1 }

/-- The loop of `buildHunks`. -/
def hunkLoop (oldLines : List Str) : List EditScript → HunkState → Option HunkState
  | [], s => some s
  | op :: ses, s => do
    let s ← hunkStep oldLines s op
    hunkLoop oldLines ses s

/-- The end of `buildHunks`, where the trailing context of the last hunk is cut. -/
def closeHunk (s : HunkState) : List Hunk :=
  if s.inHunk then
    let excess := s.pendingEquals - contextSize
    s.hunks ++ [⟨s.currentOldStart, s.currentOldCount - excess, s.currentNewStart,
        s.currentNewCount - excess, s.currentLines.take (s.currentLines.length - excess)⟩]
  else s.hunks

/-- `buildHunks`; the source does not use the new lines that it takes. -/
def buildHunks (ses : List EditScript) (oldLines : List Str) : Option (List Hunk) :=
  if ses = [] then some []
  else (hunkLoop oldLines ses .init).map closeHunk

def diff (oldText newText : Str) : Except Err (List Hunk) :=
  if oldText = [] ∧ newText = [] then .error .emptyInput
  else
    let oldLines := splitLines oldText
    match myersDiff oldLines (splitLines newText) with
    | none => .error .panic
    | some ses =>
      match buildHunks ses oldLines with
      | none => .error .panic
      | some hunks => .ok hunks

end Solocoder.DiffPatch
