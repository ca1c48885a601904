import Mathlib.Data.List.AList
import Mathlib.Data.List.Dedup
import Mathlib.Data.List.Sort

/-!
# The time-series engine of `internal/tsdb`

Calls follow one another. The order that `sort.Slice` gives to points of one timestamp is a
parameter; it hides the order in which the map of the found indices is walked.
-/

namespace Solocoder.Tsdb

open List Function

/-- The errors of the calls, and the panic that ends one. -/
inductive Err where
  | invalidTimeRange
  | emptyTags
  | nilDataPoint
  | engineClosed
  | panic
  deriving DecidableEq, Repr

abbrev Tags := AList fun _ : String => String

/-- `DataPoint`, over the type of its values. -/
structure DataPoint (F : Type) where
  timestamp : Int
  value : F
  tags : Tags

/-- `sort.Slice` by timestamp. -/
structure Sorter (F : Type) where
  sort : List (DataPoint F) → List (DataPoint F)
  perm : ∀ l, sort l ~ l
  sorted : ∀ l, (sort l).Pairwise (·.timestamp ≤ ·.timestamp)

/-- `tagIndex`, both of its maps in one. -/
abbrev TagIndex := String → String → Option (List Nat)

structure TSEngine (F : Type) where
  data : List (DataPoint F)
  tagIndex : TagIndex
  batchSize : Nat
  closed : Bool
  /-- Checked by `ValidateConfig`. -/
  batchSize_pos : 0 < batchSize

variable {F : Type}

def newTSEngine (batchSize : Nat) (hpos : 0 < batchSize) : TSEngine F :=
  ⟨[], fun _ _ => none, batchSize, false, hpos⟩

/-- The inner loop of `rebuildTagIndex`. -/
def addTags (index : TagIndex) (i : Nat) (tags : Tags) : TagIndex :=
  tags.entries.foldl (fun index kv =>
    update index kv.1 (update (index kv.1) kv.2 (some ((index kv.1 kv.2).getD [] ++ [i])))) index

def buildTagIndex (data : List (DataPoint F)) : TagIndex :=
  data.zipIdx.foldl (fun index p => addTags index p.2 p.1.tags) fun _ _ => none

/-- The loop of `Write` that copies the points. -/
def checkPoints : List (Option (DataPoint F)) → Except Err (List (DataPoint F))
  | [] => .ok []
  | none :: _ => .error .nilDataPoint
  | some p :: points =>
    if p.tags.entries = [] then .error .emptyTags else (checkPoints points).map (p :: ·)

/-- The loop of `filterByTags`; `resultSet` is `none` before the first tag. -/
def intersect (index : TagIndex) :
    List (Sigma fun _ : String => String) → Option (List Nat) → List Nat
  | [], resultSet => resultSet.getD []
  | kv :: tags, resultSet =>
    match index kv.1 kv.2 with
    | none => []
    | some indices =>
      let next := resultSet.elim indices.dedup fun set => set.filter (· ∈ indices)
      if next = [] then [] else intersect index tags (some next)

/-- The points that a turn of the cleanup removes. -/
def removeCount (cutoff : Int) : Nat → List (DataPoint F) → Nat
  | 0, _ => 0
  | _, [] => 0
  | batchSize + 1, p :: data =>
    if p.timestamp ≥ cutoff then 0 else removeCount cutoff batchSize data + 1

namespace TSEngine

variable (e : TSEngine F)

def rebuildTagIndex : TSEngine F := { e with tagIndex := buildTagIndex e.data }

/-- `Write`; the entries made in the index before the sort are lost when it is rebuilt. -/
def write (st : Sorter F) (e : TSEngine F) (points : List (Option (DataPoint F))) :
    TSEngine F × Except Err Unit :=
  if e.closed then (e, .error .engineClosed)
  else if points.isEmpty then (e, .ok ())
  else
    match checkPoints points with
    | .error err => (e, .error err)
    | .ok validPoints =>
      (rebuildTagIndex { e with data := st.sort (e.data ++ validPoints) }, .ok ())

def filterByTags (tags : Tags) : List Nat :=
  if tags.entries = [] then range e.data.length
  else intersect e.tagIndex tags.entries none

/-- `Query`; its early returns of an empty result are cases of the last line. -/
def query (st : Sorter F) (e : TSEngine F) (start stop : Int) (tags : Tags) :
    Except Err (List (DataPoint F)) :=
  if e.closed then .error .engineClosed
  else if start > stop then .error .invalidTimeRange
  else
    match (e.filterByTags tags).mapM (e.data[·]?) with
    | none => .error .panic
    | some points =>
      .ok (st.sort (points.filter fun p => p.timestamp ≥ start ∧ p.timestamp ≤ stop))

/-- The loop of `cleanupExpired`. -/
def cleanupLoop (cutoff : Int) : Nat → TSEngine F → TSEngine F
  | 0, e => e
  | fuel + 1, e =>
    let count := removeCount cutoff e.batchSize e.data
    if count = 0 then e
    else
      let e' := rebuildTagIndex { e with data := e.data.drop count }
      if count < e.batchSize then e' else cleanupLoop cutoff fuel e'

/-- `cleanupExpired` of an engine with a TTL; every turn but the last removes a point. -/
def cleanupExpired (cutoff : Int) : TSEngine F :=
  if e.closed then e else cleanupLoop cutoff (e.data.length + 1) e

end TSEngine

/-- A call that changes the engine. -/
inductive Op (F : Type) where
  | write (points : List (Option (DataPoint F)))
  | cleanup (cutoff : Int)

def TSEngine.step (st : Sorter F) (e : TSEngine F) : Op F → TSEngine F
  | .write points => (e.write st points).1
  | .cleanup cutoff => e.cleanupExpired cutoff

def TSEngine.run (st : Sorter F) (e : TSEngine F) (ops : List (Op F)) : TSEngine F :=
  ops.foldl (step st) e

end Solocoder.Tsdb
