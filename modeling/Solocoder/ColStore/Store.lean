import Solocoder.ColStore.Value
import Mathlib.Data.List.AList

/-!
# The column store of `internal/colstore`

Calls follow one another. A value that cannot be a key of a map makes a column with a dictionary
panic in the middle of a write, which ends with what it has done so far.
-/

namespace Solocoder.ColStore

variable {O : Type} [GoValue O]

/-- The errors of the package. -/
inductive Err where
  | emptyBatch
  | columnMismatch
  | duplicateColumnName
  | columnNotFound (column : String)
  | emptyColumnSet
  | invalidPredicate
  | storeClosed
  | invalidOp
  deriving DecidableEq, Repr

/-- How a write ends. -/
inductive Outcome where
  | done
  | failed (e : Err)
  | panicked
  deriving DecidableEq, Repr

/-- `Column`; its name is its key in the map of columns. -/
structure Column (O : Type) where
  dictEnabled : Bool
  dict : List (Value O × Nat)
  reverseDict : List (Value O)
  encodedData : List Nat
  rawData : List (Value O)

def newColumn (dictEnabled : Bool) : Column O := ⟨dictEnabled, [], [], [], []⟩

namespace Column

variable (c : Column O)

/-- `encode`; `none` is the panic of a key that is not hashable. -/
def encode (v : Value O) : Option (Column O × Nat) :=
  if v.hashable then
    match c.dict.find? fun entry => entry.1.goEq v with
    | some entry => some (c, entry.2)
    | none =>
      let idx := c.reverseDict.length
      some ({ c with dict := c.dict ++ [(v, idx)], reverseDict := c.reverseDict ++ [v] }, idx)
  else none

def decode (idx : Nat) : Value O := (c.reverseDict[idx]?).getD .nil

/-- The loop of `appendValues`; `false` when it panics. -/
def appendEncoded : Column O → List (Value O) → Column O × Bool
  | c, [] => (c, true)
  | c, v :: values =>
    match c.encode v with
    | none => (c, false)
    | some (c', idx) => appendEncoded { c' with encodedData := c'.encodedData ++ [idx] } values

def appendValues (values : List (Value O)) : Column O × Bool :=
  if c.dictEnabled then c.appendEncoded values
  else ({ c with rawData := c.rawData ++ values }, true)

def getValueAt (rowIdx : Nat) : Value O :=
  if c.dictEnabled then ((c.encodedData[rowIdx]?).map c.decode).getD .nil
  else (c.rawData[rowIdx]?).getD .nil

end Column

structure ColumnStore (O : Type) where
  columns : AList fun _ : String => Column O
  colOrder : List String
  rowCount : Nat
  closed : Bool
  dictEnabled : Bool

structure Config where
  dictionaryEnabled : Bool

def defaultConfig : Config := ⟨true⟩

def newColumnStoreWithConfig (cfg : Config) : ColumnStore O :=
  ⟨∅, [], 0, false, cfg.dictionaryEnabled⟩

structure ColumnBatch (O : Type) where
  name : String
  values : List (Value O)

/-- The first loop of `Write`: the number of rows, `none` before the first column. -/
def checkBatch : List (ColumnBatch O) → List String → Option Nat → Except Err (Option Nat)
  | [], _, expectedRows => .ok expectedRows
  | cb :: batch, seenNames, expectedRows =>
    if cb.name ∈ seenNames then .error .duplicateColumnName
    else
      match expectedRows with
      | none => checkBatch batch (cb.name :: seenNames) (some cb.values.length)
      | some rows =>
        if cb.values.length ≠ rows then .error .columnMismatch
        else checkBatch batch (cb.name :: seenNames) (some rows)

abbrev Row (O : Type) := AList fun _ : String => Value O

structure QueryResult (O : Type) where
  rows : List (Row O)
  columns : List String
  totalScanned : Nat
  totalMatched : Nat

/-- `validatePredicate`; `none` when the predicate is valid. -/
def validatePredicate (p : Predicate O) : Option Err :=
  match p.op with
  | .eq | .neq | .gt | .gte | .lt | .lte =>
    if p.value matches .nil then some .invalidPredicate else none
  | .in | .notIn => if p.values.isEmpty then some .invalidPredicate else none
  | .unknown _ => some .invalidOp

namespace ColumnStore

variable (cs : ColumnStore O) (columns : List String)

/-- A turn of the second loop of `Write`: a column that does not exist is created. -/
def ensureColumn (cb : ColumnBatch O) : ColumnStore O :=
  match cs.columns.lookup cb.name with
  | some _ => cs
  | none =>
    { cs with
      columns := cs.columns.insert cb.name (newColumn cs.dictEnabled)
      colOrder := cs.colOrder ++ [cb.name] }

/-- The third loop of `Write`; `false` when it panics. -/
def appendColumns : ColumnStore O → List (ColumnBatch O) → ColumnStore O × Bool
  | cs, [] => (cs, true)
  | cs, cb :: batch =>
    match cs.columns.lookup cb.name with
    -- not reached, the column has just been created
    | none => (cs, false)
    | some col =>
      let (col', appended) := col.appendValues cb.values
      let cs' := { cs with columns := cs.columns.insert cb.name col' }
      if appended then cs'.appendColumns batch else (cs', false)

def write (batch : List (ColumnBatch O)) : ColumnStore O × Outcome :=
  if cs.closed then (cs, .failed .storeClosed)
  else if batch.isEmpty then (cs, .failed .emptyBatch)
  else
    match checkBatch batch [] none with
    | .error e => (cs, .failed e)
    | .ok expectedRows =>
      let cs := batch.foldl ensureColumn cs
      if expectedRows.getD 0 = 0 then (cs, .done)
      else
        match cs.appendColumns batch with
        | (cs, false) => (cs, .panicked)
        | (cs, true) => ({ cs with rowCount := cs.rowCount + expectedRows.getD 0 }, .done)

/-- `cs.columns[name].getValueAt(rowIdx)`; the callers have found the column before. -/
def valueAt (name : String) (rowIdx : Nat) : Value O :=
  match cs.columns.lookup name with
  | some col => col.getValueAt rowIdx
  | none => .nil

def evaluatePredicates (rowIdx : Nat) (predicates : List (Predicate O)) : Bool :=
  predicates.all fun p => evaluateSinglePredicate (cs.valueAt p.column rowIdx) p

/-- The loop of `ReadWithFilter` over the requested columns. -/
def checkColumns (cs : ColumnStore O) : List String → Option Err
  | [] => none
  | col :: columns =>
    match cs.columns.lookup col with
    | none => some (.columnNotFound col)
    | some _ => cs.checkColumns columns

/-- The loop of `ReadWithFilter` over the predicates. -/
def checkPredicates (cs : ColumnStore O) : List (Predicate O) → Option Err
  | [] => none
  | p :: predicates =>
    match cs.columns.lookup p.column with
    | none => some (.columnNotFound p.column)
    | some _ =>
      match validatePredicate p with
      | some e => some e
      | none => cs.checkPredicates predicates

/-- The row of a result: the requested columns of a stored row. -/
def project (rowIdx : Nat) : Row O :=
  columns.foldl (fun row colName => row.insert colName (cs.valueAt colName rowIdx)) ∅

def readWithFilter (predicates : List (Predicate O)) : Except Err (QueryResult O) :=
  if cs.closed then .error .storeClosed
  else if columns.isEmpty then .error .emptyColumnSet
  else
    match cs.checkColumns columns with
    | some e => .error e
    | none =>
      match cs.checkPredicates predicates with
      | some e => .error e
      | none =>
        let matchedRows :=
          if predicates.isEmpty then List.range cs.rowCount
          else (List.range cs.rowCount).filter fun i => cs.evaluatePredicates i predicates
        .ok ⟨matchedRows.map (cs.project columns), columns, cs.rowCount, matchedRows.length⟩

def read : Except Err (QueryResult O) :=
  cs.readWithFilter columns []

def close : ColumnStore O := { cs with closed := true }

/-- A sequence of writes that all succeed. -/
def writeAll : ColumnStore O → List (List (ColumnBatch O)) → Option (ColumnStore O)
  | cs, [] => some cs
  | cs, batch :: batches =>
    match cs.write batch with
    | (cs', .done) => cs'.writeAll batches
    | _ => none

end ColumnStore

end Solocoder.ColStore
