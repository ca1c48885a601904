import Mathlib.Data.Finset.Basic
import Solocoder.DataDedup.Chunker

/-!
# The chunked deduplication of `internal/datadedup`
-/

namespace Solocoder.DataDedup

inductive Err
  | emptyData

structure DedupResult (Fp : Type) where
  isDuplicate : Bool
  matchedFPs : List Fp
  matchedChunks : List (Chunk Fp)

/-- The result after a chunk that is found. -/
def DedupResult.found {Fp : Type} (result : DedupResult Fp) (chunk : Chunk Fp) : DedupResult Fp :=
  ⟨true, result.matchedFPs ++ [chunk.fingerprint], result.matchedChunks ++ [chunk]⟩

structure ChunkedDedup (Fp : Type) where
  index : Finset Fp
  chunker : Chunker Fp

namespace ChunkedDedup

variable {Fp : Type} [DecidableEq Fp] (d : ChunkedDedup Fp) (data : Data)

/-- The fingerprints of the chunks of the data. -/
def fingerprints : List Fp := (d.chunker.chunk data).map (·.fingerprint)

def check : Except Err (DedupResult Fp) :=
  if data = [] then .error .emptyData
  else .ok <| (d.chunker.chunk data).foldl (fun result chunk =>
    if chunk.fingerprint ∈ d.index then result.found chunk else result) ⟨false, [], []⟩

def add : Except Err (ChunkedDedup Fp) :=
  if data = [] then .error .emptyData
  else .ok { d with index := (d.fingerprints data).foldl (fun index fp => insert fp index) d.index }

/-- One chunk of `CheckAndAdd`. -/
def lookOrInsert (state : Finset Fp × DedupResult Fp) (chunk : Chunk Fp) :
    Finset Fp × DedupResult Fp :=
  if chunk.fingerprint ∈ state.1 then (state.1, state.2.found chunk)
  else (insert chunk.fingerprint state.1, state.2)

def checkAndAdd : Except Err (DedupResult Fp × ChunkedDedup Fp) :=
  if data = [] then .error .emptyData
  else
    let (index, result) := (d.chunker.chunk data).foldl lookOrInsert (d.index, ⟨false, [], []⟩)
    .ok (result, { d with index })

def contains : Except Err Bool :=
  if data = [] then .error .emptyData else (d.check data).map (·.isDuplicate)

def delete : Except Err (ChunkedDedup Fp) :=
  if data = [] then .error .emptyData
  else .ok { d with index := (d.fingerprints data).foldl Finset.erase d.index }

end ChunkedDedup

end Solocoder.DataDedup
