import Solocoder.Lib.Text

/-!
# Cron expressions of `internal/cronsched`

The fields of an expression, the parser with the positions of its errors, and what a field matches.
-/

namespace Solocoder.Cron

open Lib.Text

inductive FieldType where
  | second | minute | hour | day | month | weekday | year
  deriving DecidableEq, Repr

/-- `FieldValue`; the parser builds no `ValueList`. -/
inductive FieldValue where
  | wildcard
  | single (value : Int)
  | range (low high : Int)
  | step (low high step : Int)
  deriving DecidableEq

structure CronField where
  fieldType : FieldType
  raw : Str
  values : List FieldValue
  min : Int
  max : Int
  deriving DecidableEq

/-- `CronExpression`; the location is UTC. -/
structure CronExpression where
  raw : Str
  second : CronField
  minute : CronField
  hour : CronField
  day : CronField
  month : CronField
  weekday : CronField
  year : CronField
  hasYear : Bool
  deriving DecidableEq

/-- The errors of the package that the modelled functions return. -/
inductive Err where
  | parse (field : FieldType) (position : Nat) (rawValue message : Str)
  | dayWeekdayMutex
  | noNextTime
  deriving DecidableEq

structure FieldPos where
  value : Str
  pos : Nat

/-- The loop of `fieldsWithPositions`: the position, the field that is being read and the rest of
the text. -/
def fieldsLoop : Nat → Option FieldPos → Str → List FieldPos
  | _, field, [] => field.toList
  | i, field, c :: s =>
    if c = 32 ∨ c = 9 then field.toList ++ fieldsLoop (i + 1) none s
    else
      match field with
      | none => fieldsLoop (i + 1) (some ⟨[c], i⟩) s
      | some f => fieldsLoop (i + 1) (some ⟨f.value ++ [c], f.pos⟩) s

def fieldsWithPositions (expr : Str) : List FieldPos := fieldsLoop 0 none expr

def fieldRanges : FieldType → Int × Int
  | .second => (0, 59)
  | .minute => (0, 59)
  | .hour => (0, 23)
  | .day => (1, 31)
  | .month => (1, 12)
  | .weekday => (0, 6)
  | .year => (1970, 2100)

def weekdayNames : List (Str × Int) :=
  [(str "SUN", 0), (str "MON", 1), (str "TUE", 2), (str "WED", 3), (str "THU", 4), (str "FRI", 5),
    (str "SAT", 6), (str "sun", 0), (str "mon", 1), (str "tue", 2), (str "wed", 3), (str "thu", 4),
    (str "fri", 5), (str "sat", 6)]

def monthNames : List (Str × Int) :=
  [(str "JAN", 1), (str "FEB", 2), (str "MAR", 3), (str "APR", 4), (str "MAY", 5), (str "JUN", 6),
    (str "JUL", 7), (str "AUG", 8), (str "SEP", 9), (str "OCT", 10), (str "NOV", 11),
    (str "DEC", 12), (str "jan", 1), (str "feb", 2), (str "mar", 3), (str "apr", 4), (str "may", 5),
    (str "jun", 6), (str "jul", 7), (str "aug", 8), (str "sep", 9), (str "oct", 10),
    (str "nov", 11), (str "dec", 12)]

def parseNumericValue (s : Str) (ft : FieldType) (offset : Nat) : Except Err Int :=
  let name :=
    match ft with
    | .weekday => weekdayNames.lookup s
    | .month => monthNames.lookup s
    | _ => none
  match name with
  | some v => .ok v
  | none =>
    match atoi s with
    | some v => .ok v
    | none => .error (.parse ft offset s (str "invalid numeric value: " ++ s))

variable (part : Str) (ft : FieldType) (minVal maxVal : Int) (offset : Nat)

/-- ` out of range [%d, %d]`, as several messages end. -/
def outOfRange : Str :=
  str " out of range [" ++ decimal minVal ++ str ", " ++ decimal maxVal ++ str "]"

def parseSingle : Except Err FieldValue := do
  let val ← parseNumericValue part ft offset
  if val < minVal ∨ val > maxVal then
    .error (.parse ft offset part (str "value " ++ decimal val ++ outOfRange minVal maxVal))
  else .ok (.single val)

/-- The checks of the bounds of a range, which `parseRange` and `parseStep` share. -/
def checkRange (low high : Int) : Except Err Unit :=
  if low < minVal ∨ low > maxVal then
    .error (.parse ft offset part
      (str "range lower bound " ++ decimal low ++ outOfRange minVal maxVal))
  else if high < minVal ∨ high > maxVal then
    .error (.parse ft offset part
      (str "range upper bound " ++ decimal high ++ outOfRange minVal maxVal))
  else if low > high then
    .error (.parse ft offset part
      (str "range lower bound " ++ decimal low ++ str " greater than upper bound " ++ decimal high))
  else .ok ()

/-- `strings.Index` for a separator that occurs. -/
def indexAt (sep : Str) (s : Str) : Nat := (indexOf sep s).getD 0

def parseRange : Except Err FieldValue :=
  match part.splitOn 45 with
  | [lowPart, highPart] =>
    let lowStr := trimSpace lowPart
    let highStr := trimSpace highPart
    if lowStr = [] ∨ highStr = [] then
      .error (.parse ft offset part (str "empty bound in range"))
    else do
      let low ← parseNumericValue lowStr ft offset
      let high ← parseNumericValue highStr ft (offset + indexAt (str "-") part + 1)
      checkRange part ft minVal maxVal offset low high
      return .range low high
  | _ => .error (.parse ft offset part (str "invalid range format"))

/-- The part of `parseStep` that reads what stands before the slash. -/
def parseStepRange (part rangePart : Str) (ft : FieldType) (minVal maxVal : Int) (offset : Nat)
    (step : Int) : Except Err FieldValue :=
  if rangePart = str "*" then .ok (.step minVal maxVal step)
  else if rangePart.contains 45 then
    match rangePart.splitOn 45 with
    | [lowPart, highPart] => do
      let low ← parseNumericValue (trimSpace lowPart) ft offset
      let high ← parseNumericValue (trimSpace highPart) ft
        (offset + indexAt (str "-") rangePart + 1)
      checkRange part ft minVal maxVal offset low high
      return .step low high step
    | _ => .error (.parse ft offset part (str "invalid range in step"))
  else do
    let low ← parseNumericValue rangePart ft offset
    if low < minVal ∨ low > maxVal then
      .error (.parse ft offset part (str "value " ++ decimal low ++ outOfRange minVal maxVal))
    else .ok (.step low maxVal step)

/-- `parseStep`. The text holds a slash, so that it has two parts at least. -/
def parseStep : Except Err FieldValue :=
  match part.splitOn 47 with
  | [beforeSlash, afterSlash] =>
    let rangePart := trimSpace beforeSlash
    let stepStr := trimSpace afterSlash
    if stepStr = [] then .error (.parse ft offset part (str "empty step value"))
    else
      let stepOffset := offset + indexAt (str "/") part + 1
      match atoi stepStr with
      | none => .error (.parse ft stepOffset part (str "invalid step value: " ++ stepStr))
      | some step =>
        if step ≤ 0 then
          .error (.parse ft stepOffset part
            (str "step value must be positive, got " ++ decimal step))
        else parseStepRange part rangePart ft minVal maxVal offset step
  | stepParts =>
    if stepParts.length > 2 then
      .error (.parse ft offset part (str "invalid step format: found " ++ decimal (part.count 47) ++
          str " '/' separators, expected at most 1"))
    else .error (.parse ft offset part (str "invalid step format"))

def parseValuePart : Except Err FieldValue :=
  if part = str "*" then .ok .wildcard
  else if part.contains 47 then parseStep part ft minVal maxVal offset
  else if part.contains 45 then parseRange part ft minVal maxVal offset
  else parseSingle part ft minVal maxVal offset

/-- The loop of `parseField` over the parts of the list. -/
def parseParts (raw : Str) (ft : FieldType) (minVal maxVal : Int) (fieldOffset : Nat) :
    Nat → List Str → Except Err (List FieldValue)
  | _, [] => .ok []
  | partOffset, part :: parts =>
    let part := trimSpace part
    if part = [] then
      .error (.parse ft (fieldOffset + partOffset) raw (str "empty part in list"))
    else do
      let partStart := fieldOffset + partOffset + indexAt part (raw.drop partOffset)
      let fv ← parseValuePart part ft minVal maxVal partStart
      let fvs ← parseParts raw ft minVal maxVal fieldOffset (partOffset + part.length + 1) parts
      return fv :: fvs

def parseField (raw : Str) (ft : FieldType) (fieldOffset : Nat) : Except Err CronField :=
  let (minVal, maxVal) := fieldRanges ft
  if raw = [] then .error (.parse ft fieldOffset raw (str "empty value"))
  else do
    let values ← parseParts raw ft minVal maxVal fieldOffset 0 (raw.splitOn 44)
    return ⟨ft, raw, values, minVal, maxVal⟩

def isWildcard (cf : CronField) : Bool :=
  match cf.values with
  | [.wildcard] => true
  | _ => false

/-- The text of the message for an expression with another number of fields. -/
def fieldCountMessage : Str :=
  str "expected 6 or 7 fields (second, minute, hour, day, month, weekday[, year])"

/-- The part of `ParseWithLocation` after the fields are separated. -/
def parseFields (expr : Str) (hasYear : Bool)
    (second minute hour day month weekday year : FieldPos) : Except Err CronExpression := do
  let second ← parseField second.value .second second.pos
  let minute ← parseField minute.value .minute minute.pos
  let hour ← parseField hour.value .hour hour.pos
  let day ← parseField day.value .day day.pos
  let month ← parseField month.value .month month.pos
  let weekday ← parseField weekday.value .weekday weekday.pos
  let year ← parseField year.value .year year.pos
  if !isWildcard day && !isWildcard weekday then .error .dayWeekdayMutex
  else return ⟨expr, second, minute, hour, day, month, weekday, year, hasYear⟩

/-- `Parse`. Without a year field, the year is a wildcard that stands after the last field. -/
def parse (expr : Str) : Except Err CronExpression :=
  match fieldsWithPositions expr with
  | [second, minute, hour, day, month, weekday] =>
    parseFields expr false second minute hour day month weekday
      ⟨str "*", weekday.pos + weekday.value.length⟩
  | [second, minute, hour, day, month, weekday, year] =>
    parseFields expr true second minute hour day month weekday year
  | _ => .error (.parse .second 0 expr fieldCountMessage)

def FieldValue.matches (value : Int) : FieldValue → Bool
  | .wildcard => true
  | .single v => value = v
  | .range low high => low ≤ value ∧ value ≤ high
  | .step low high stride =>
    if value < low ∨ value > high then false else (value - low).tmod stride = 0

def CronField.matches (cf : CronField) (value : Int) : Bool := cf.values.any (·.matches value)

end Solocoder.Cron
