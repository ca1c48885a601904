import Mathlib.Logic.Function.Basic

/-!
# The windows of an aggregator

`Stop` goes over `bucketOrder` while `closeBucketLocked` takes the closed windows out of it.
-/

namespace Solocoder.StreamProc

/-- What a bucket keeps of a record. -/
structure Record where
  id : String
  seqID : Int

inductive WindowType where
  | tumblingTime
  | slidingTime
  | tumblingCount
  | slidingCount
  deriving DecidableEq

inductive AggregationType where
  | sum
  | count
  | avg
  | min
  | max

/-- Instants in nanoseconds. -/
structure WindowBucket where
  id : String
  start : Int
  stop : Int
  startSeq : Int
  endSeq : Int
  sum : Float
  count : Int
  min : Float
  max : Float
  recordIDs : List String

def newWindowBucket (id : String) (start stop : Int) : WindowBucket :=
  ⟨id, start, stop, 0, 0, 0, 0, 1 / 0, -1 / 0, []⟩

def WindowBucket.add (b : WindowBucket) (rec : Record) (value : Float) : WindowBucket :=
  { b with
    sum := b.sum + value
    count := b.count + 1
    min := if value < b.min then value else b.min
    max := if value > b.max then value else b.max
    recordIDs := if rec.id ≠ "" then b.recordIDs ++ [rec.id] else b.recordIDs
    startSeq := if b.startSeq = 0 ∨ rec.seqID < b.startSeq then rec.seqID else b.startSeq
    endSeq := if rec.seqID > b.endSeq then rec.seqID else b.endSeq }

structure WindowResult where
  windowID : String
  windowType : WindowType
  start : Int
  stop : Int
  startSeq : Int
  endSeq : Int
  aggregation : AggregationType
  value : Float
  count : Int
  recordIDs : List String
  isPartial : Bool

structure WindowAggregator where
  windowType : WindowType
  aggregation : AggregationType
  closedWindows : Int
  buckets : String → Option WindowBucket
  bucketOrder : List String
  /-- The channel has room for `resultBuffer` results. -/
  results : List WindowResult
  resultBuffer : Nat
  resultsClosed : Bool

namespace WindowAggregator

variable (w : WindowAggregator)

def result (b : WindowBucket) (isPartial : Bool) : WindowResult :=
  ⟨b.id, w.windowType, b.start, b.stop, b.startSeq, b.endSeq, w.aggregation,
    match w.aggregation with
    | .sum => b.sum
    | .count => .ofInt b.count
    | .avg => if 0 < b.count then b.sum / .ofInt b.count else 0
    | .min => if 0 < b.count then b.min else 0
    | .max => if 0 < b.count then b.max else 0,
    b.count, b.recordIDs, isPartial⟩

/-- The channel after `result` is sent, which is dropped if there is no room. -/
def send (r : WindowResult) : List WindowResult :=
  if w.results.length < w.resultBuffer then w.results ++ [r] else w.results

def closeBucketLocked (id : String) : WindowAggregator :=
  match w.buckets id with
  | none => w
  | some b =>
    { w with
      results := if 0 < b.count then w.send (w.result b false) else w.results
      closedWindows := if 0 < b.count then w.closedWindows + 1 else w.closedWindows
      buckets := Function.update w.buckets id none
      bucketOrder := w.bucketOrder.erase id }

/-- A turn of the loop of `Stop`, which reads the array below `bucketOrder`: behind the elements of
`bucketOrder` it has those that earlier closings left at its end. -/
def flushBucket : WindowAggregator × List String → Nat → WindowAggregator × List String
  | (w, left), i =>
    match (w.bucketOrder ++ left)[i]? with
    | none => (w, left)
    | some id =>
      if (w.buckets id).any (0 < ·.count) then
        let w' := w.closeBucketLocked id
        (w', (w.bucketOrder ++ left).drop w'.bucketOrder.length)
      else (w, left)

def emitPartialResultLocked (id : String) : WindowAggregator :=
  match w.buckets id with
  | some b => if 0 < b.count then { w with results := w.send (w.result b true) } else w
  | none => w

def stop : WindowAggregator :=
  let w := if w.windowType = .tumblingTime ∨ w.windowType = .slidingTime then
      ((List.range w.bucketOrder.length).foldl flushBucket (w, [])).1
    else w.bucketOrder.foldl emitPartialResultLocked w
  { w with resultsClosed := true }

end WindowAggregator

end Solocoder.StreamProc
