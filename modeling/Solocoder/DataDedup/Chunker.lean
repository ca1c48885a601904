import Mathlib.Logic.Function.Iterate

/-!
# The chunkers of `internal/datadedup`

No sum of an offset and a size overflows.
-/

namespace Solocoder.DataDedup

abbrev Data := List UInt8

structure Chunk (Fp : Type) where
  data : Data
  offset : Nat
  fingerprint : Fp

/-- The chunk of the data from `start` to `stop`. -/
def Chunk.slice {Fp : Type} (hash : Data → Fp) (data : Data) (start stop : Nat) : Chunk Fp :=
  let chunkData := (data.take stop).drop start
  ⟨chunkData, start, hash chunkData⟩

/-- A chunker with a hash provider. -/
structure Chunker (Fp : Type) where
  chunk : Data → List (Chunk Fp)
  chunk_ne_nil : ∀ data, data ≠ [] → chunk data ≠ []

namespace Chunker

variable {Fp : Type} (hash : Data → Fp)

/-- The loop of `fixedSizeChunker.Chunk`. -/
def fixedSizeChunks (chunkSize : Nat) (hpos : 0 < chunkSize) (data : Data) (offset : Nat) :
    List (Chunk Fp) :=
  if offset < data.length then
    let stop := min (offset + chunkSize) data.length
    .slice hash data offset stop :: fixedSizeChunks chunkSize hpos data stop
  else []
termination_by data.length - offset

def newFixedSizeChunker (chunkSize : Nat) (hpos : 0 < chunkSize) : Chunker Fp where
  chunk data := fixedSizeChunks hash chunkSize hpos data 0
  chunk_ne_nil data hne := by
    rw [fixedSizeChunks, if_pos (List.length_pos_iff.2 hne)]
    exact List.cons_ne_nil _ _

def rollingHashBase : Nat := 257

def rollingHashMod : Nat := 1000000007

structure RollingHash where
  window : List UInt8
  windowSize : Nat
  head : Nat
  count : Nat
  hash : Nat
  power : Nat

/-- Also what `reset` gives: it keeps the bytes of the window, which are overwritten before they are
read. -/
def newRollingHash (windowSize : Nat) : RollingHash :=
  ⟨.replicate windowSize 0, windowSize, 0, 0, 0,
    (fun power => power * rollingHashBase % rollingHashMod)^[windowSize - 1] 1⟩

def RollingHash.appendByte (rh : RollingHash) (b : UInt8) : RollingHash :=
  if rh.count < rh.windowSize then
    { rh with
      window := rh.window.set rh.count b
      hash := (rh.hash * rollingHashBase + b.toNat) % rollingHashMod
      count := rh.count + 1 }
  else
    let outgoing := (rh.window.getD rh.head 0).toNat
    let hash := (rh.hash + rollingHashMod - outgoing * rh.power % rollingHashMod) % rollingHashMod
    { rh with
      window := rh.window.set rh.head b
      hash := (hash * rollingHashBase + b.toNat) % rollingHashMod
      head := (rh.head + 1) % rh.windowSize }

def RollingHash.full (rh : RollingHash) : Bool := rh.count ≥ rh.windowSize

def calcRollingWindowSize (minChunkSize : Nat) : Nat :=
  if minChunkSize ≥ 48 then 48 else min (max (minChunkSize / 2) 4) minChunkSize

def calcTargetMask (minChunkSize : Nat) : Nat :=
  1 <<< (if minChunkSize < 256 then 8 else if minChunkSize < 1024 then 10 else 13) - 1

structure ContentBasedChunker where
  minChunkSize : Nat
  maxChunkSize : Nat
  boundary : UInt8
  min_pos : 0 < minChunkSize
  min_le_max : minChunkSize ≤ maxChunkSize

variable (c : ContentBasedChunker) (data : Data)

/-- The inner loop of `contentBasedChunker.Chunk`: where the chunk ends. -/
def findEnd (minEnd maxEnd : Nat) (rh : RollingHash) (i : Nat) : Nat :=
  if i < maxEnd then
    let rh := rh.appendByte (data.getD i 0)
    if minEnd - 1 ≤ i ∧ (data.getD i 0 = c.boundary ∨
        rh.full ∧ rh.hash &&& calcTargetMask c.minChunkSize = 0) then i + 1
    else findEnd minEnd maxEnd rh (i + 1)
  else maxEnd
termination_by maxEnd - i

theorem lt_findEnd {minEnd maxEnd : Nat} {rh : RollingHash} {i : Nat} (h : i < maxEnd) :
    i < findEnd c data minEnd maxEnd rh i := by
  fun_induction findEnd c data minEnd maxEnd rh i with
  | case1 rh i hi rh' hif => exact Nat.lt_succ_self i
  | case2 rh i hi rh' hif ih =>
    rcases Nat.lt_or_ge (i + 1) maxEnd with hlt | hge
    · exact Nat.lt_trans (Nat.lt_succ_self i) (ih hlt)
    · rwa [findEnd, if_neg (by omega)]
  | case3 => contradiction

/-- The loop of `contentBasedChunker.Chunk`. -/
def contentBasedChunks (start : Nat) : List (Chunk Fp) :=
  if start < data.length then
    if data.length - start ≤ c.minChunkSize then [.slice hash data start data.length]
    else
      let maxEnd := min (start + c.maxChunkSize) data.length
      let stop := findEnd c data (start + c.minChunkSize) maxEnd
        (newRollingHash (calcRollingWindowSize c.minChunkSize)) start
      .slice hash data start stop :: contentBasedChunks stop
  else []
termination_by data.length - start
decreasing_by
  have hmin := c.min_pos
  have hmax := c.min_le_max
  exact Nat.sub_lt_sub_left (by assumption) (lt_findEnd c data (by omega))

def newContentBasedChunker : Chunker Fp where
  chunk data := contentBasedChunks hash c data 0
  chunk_ne_nil data hne := by
    rw [contentBasedChunks, if_pos (List.length_pos_iff.2 hne)]
    split <;> exact List.cons_ne_nil _ _

end Chunker

end Solocoder.DataDedup
