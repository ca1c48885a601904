import Mathlib.Data.List.Sort
import Solocoder.Lib.Framing
import Solocoder.WAL.Entry

/-!
# The write-ahead log of `internal/wal`

The directory of the log is the list of its segment files. `New` and the readers meet no error of
the operating system; an `Append` may fail at one of its file operations (`Fault`), and a failed
write may leave some bytes behind. Calls run one after the other.
-/

namespace Solocoder.Wal

open Lib

/-- The segment files of a directory: their numbers and their bytes. -/
abbrev Disk := List (Nat × Bytes)

variable (w : WAL) (d : Disk) (id : Nat) (f : Bytes) (config : Option Config)

/-- The contents of a file. -/
def Disk.read : Option Bytes := d.lookup id

/-- `os.OpenFile` with `O_CREATE`, which leaves a file that exists as it is. -/
def Disk.create : Disk :=
  if id ∈ d.map Prod.fst then d else d ++ [(id, [])]

/-- Write at the end of a file. -/
def Disk.append (bs : Bytes) : Disk :=
  d.map fun f => if f.1 = id then (f.1, f.2 ++ bs) else f

/-- `*os.File`: no file, one that can be used, or one after `Close`. -/
inductive Handle where
  | nil
  | opened
  | closed
  deriving DecidableEq, Repr

structure Config where
  dir : String
  maxSegmentSize : Int
  fsyncOnWrite : Bool
  deriving DecidableEq, Repr

def defaultConfig : Config := ⟨"./wal", 64 * 1024 * 1024, false⟩

/-- What a read through `bufio.Reader` ends with: `io.EOF` or `bufio.ErrBufferFull`. -/
inductive ReadErr where
  | eof
  | bufferFull
  deriving DecidableEq, Repr

/-- The file operations of one `Append` that may fail. A write fails after `n` bytes. -/
inductive Fault where
  | rotateSync
  | rotateClose
  | createSegment
  | write (n : Nat)
  | fsync
  deriving DecidableEq, Repr

/-- The errors of the log, with `callback` for what a callback returned. -/
inductive Err where
  | closed
  | invalidOffset
  | emptyData
  | invalidConfig
  | nilCallback
  | read (e : ReadErr)
  | callback (text : String)
  | syncActive
  | closeActive
  | create
  | writeEntry
  | fsync
  deriving DecidableEq, Repr

/-- `segment`, without the path that follows from the number. -/
structure Segment where
  id : Nat
  file : Handle
  size : Nat
  startOffset : Int
  endOffset : Int
  deriving DecidableEq, Repr

/-- `WAL`. The active segment is always the last one of `segments`, so it is kept apart from the
ones before it. -/
structure WAL where
  config : Config
  older : List Segment
  activeSeg : Segment
  nextOffset : Int
  closed : Bool
  deriving DecidableEq, Repr

/-- The field `segments`. -/
def WAL.segments : List Segment := w.older ++ [w.activeSeg]

/-- The size given to `bufio.NewReaderSize`. -/
def windowSize : Nat := 64 * 1024

/-- `Peek` of a reader that has `br` left. Beyond the window it returns what the window holds. -/
def peek (br : Bytes) (n : Nat) : Bytes × Option ReadErr :=
  if windowSize < n then (br.take windowSize, some .bufferFull)
  else if br.length < n then (br, some .eof)
  else (br.take n, none)

/-- How `streamScanEntry` reports that a `Peek` was too short. -/
def shortPeek : Option ReadErr → Turn Entry DecodeErr ReadErr
  | some .bufferFull => .stop .bufferFull
  | _ => .stop .eof

/-- The end of `streamScanEntry`: a record is discarded as a whole, bytes that are none one by one. -/
def decodedTurn (totalLen : Nat) : Except DecodeErr (Entry × Nat) → Turn Entry DecodeErr ReadErr
  | .error e => .skip e 1
  | .ok (entry, _) => .item entry totalLen

/-- `streamScanEntry`: an entry with the length of its record, an error of decoding with the one byte
that is skipped, or an error of reading. -/
def streamScanEntry (br : Bytes) : Turn Entry DecodeErr ReadErr :=
  let header := peek br entryHeaderSize
  if header.1.length < entryHeaderSize then shortPeek header.2
  else
    let magic := getBE (slice header.1 0 2)
    if magic ≠ magicNumber then .skip (.invalidMagic magic) 1
    else
      let totalLen := entryHeaderSize + getBE (slice header.1 15 19)
      let full := peek br totalLen
      if full.1.length < totalLen then shortPeek full.2
      else decodedTurn totalLen (decodeEntry (full.1.take totalLen))

/-- What the calls of `streamScanEntry` on a file return. -/
def scan : List (Turn Entry DecodeErr ReadErr) := turns streamScanEntry f

/-- The loop of `scanSegmentOffsets`, with the first and the last offset so far. -/
def offsetsLoop : List (Turn Entry DecodeErr ReadErr) → Int × Int → Except ReadErr (Int × Int)
  | .item e _ :: ts, (first, _) =>
    offsetsLoop ts (if first = -1 then e.offset else first, e.offset)
  | .skip _ _ :: ts, offsets => offsetsLoop ts offsets
  | .stop .bufferFull :: _, _ => .error .bufferFull
  | .stop .eof :: _, offsets => .ok offsets
  | [], offsets => .ok offsets

def scanSegmentOffsets : Except ReadErr (Int × Int) := offsetsLoop (scan f) (-1, -1)

/-- The loop of `readSegmentEntriesStream`, with the entries so far. -/
def entriesLoop (minOffset : Int) :
    List (Turn Entry DecodeErr ReadErr) → List Entry → Except ReadErr (List Entry)
  | .item e _ :: ts, entries =>
    entriesLoop minOffset ts (if minOffset ≤ e.offset then entries ++ [e] else entries)
  | .skip _ _ :: ts, entries => entriesLoop minOffset ts entries
  | .stop .bufferFull :: _, _ => .error .bufferFull
  | .stop .eof :: _, entries => .ok entries
  | [], entries => .ok entries

def readSegmentEntriesStream (minOffset : Int) : Except ReadErr (List Entry) :=
  entriesLoop minOffset (scan f) []

structure CorruptedEntryWarning where
  segmentID : Nat
  position : Nat
  reason : String
  deriving DecidableEq, Repr

section Recover

variable {σ : Type}

/-- `RecoverCallback`, with the state that the callback changes and the text of its error. -/
abbrev RecoverCallback (σ : Type) := Entry → σ → σ × Option String

/-- The loop of `recoverSegmentStream`, with the position in the file, the warnings so far and the
state of the callback. -/
def recoverLoop (segID : Nat) (minOffset : Int) (cb : RecoverCallback σ) :
    List (Turn Entry DecodeErr ReadErr) → Nat → List CorruptedEntryWarning → σ →
      σ × List CorruptedEntryWarning × Option Err
  | .item e advanced :: ts, filePos, warnings, s =>
    if minOffset ≤ e.offset then
      match cb e s with
      | (s, some text) => (s, warnings, some (.callback text))
      | (s, none) => recoverLoop segID minOffset cb ts (filePos + advanced) warnings s
    else recoverLoop segID minOffset cb ts (filePos + advanced) warnings s
  | .skip err advanced :: ts, filePos, warnings, s =>
    recoverLoop segID minOffset cb ts (filePos + advanced)
      (warnings ++ [⟨segID, filePos, err.text⟩]) s
  | .stop .bufferFull :: _, _, warnings, s => (s, warnings, some (.read .bufferFull))
  | .stop .eof :: _, _, warnings, s => (s, warnings, none)
  | [], _, warnings, s => (s, warnings, none)

def recoverSegmentStream (f : Bytes) (segID : Nat) (minOffset : Int) (cb : RecoverCallback σ)
    (s : σ) : σ × List CorruptedEntryWarning × Option Err :=
  recoverLoop segID minOffset cb (scan f) 0 [] s

end Recover

def openSegment : Except ReadErr Segment :=
  if f.length = 0 then .ok ⟨id, .nil, 0, -1, -1⟩
  else
    match scanSegmentOffsets f with
    | .error e => .error e
    | .ok (first, last) => .ok ⟨id, .nil, f.length, first, last⟩

/-- The loop of `loadExistingSegments` over the sorted numbers. -/
def openSegments (d : Disk) : List Nat → Except ReadErr (List Segment)
  | [] => .ok []
  | id :: ids =>
    match openSegment id ((d.read id).getD []), openSegments d ids with
    | .error e, _ => .error e
    | .ok _, .error e => .error e
    | .ok seg, .ok segs => .ok (seg :: segs)

def loadExistingSegments : Except ReadErr (List Segment) :=
  openSegments d ((d.map Prod.fst).insertionSort (· ≤ ·))

/-- The configuration that `New` works with. -/
def Config.checked : Option Config → Except Err Config
  | none => .ok defaultConfig
  | some config =>
    if config.dir = "" then .error .invalidConfig
    else if config.maxSegmentSize ≤ 0 then
      .ok { config with maxSegmentSize := defaultConfig.maxSegmentSize }
    else .ok config

/-- The segment that `createSegment` adds. -/
def newSegment : Segment := ⟨id, .opened, 0, -1, -1⟩

/-- The offset after the last one of a segment, as `New` computes it. -/
def offsetAfter (endOffset : Int) : Int := if 0 ≤ endOffset then int64 (endOffset + 1) else 0

/-- `New`. -/
def newWAL (d : Disk) : Except Err (WAL × Disk) :=
  match Config.checked config with
  | .error e => .error e
  | .ok config =>
    match loadExistingSegments d with
    | .error e => .error (.read e)
    | .ok segs =>
      match segs.getLast? with
      | none => .ok (⟨config, [], newSegment 1, 0, false⟩, d.create 1)
      | some last =>
        .ok (⟨config, segs.dropLast, { last with file := .opened }, offsetAfter last.endOffset, false⟩,
          d)

/-- `rotateSegment`. A file that is not open fails in `Sync`. -/
def rotateSegment (fault : Option Fault) : WAL × Disk × Option Err :=
  if w.activeSeg.file ≠ .opened ∨ fault = some .rotateSync then (w, d, some .syncActive)
  else if fault = some .rotateClose then
    ({ w with activeSeg := { w.activeSeg with file := .closed } }, d, some .closeActive)
  else
    let old := { w.activeSeg with file := .nil }
    if fault = some .createSegment then ({ w with activeSeg := old }, d, some .create)
    else
      let newID := old.id + 1
      ({ w with older := w.older ++ [old], activeSeg := newSegment newID }, d.create newID, none)

/-- How many bytes a write that fails leaves in the file. -/
def failedWrite : Option Fault → Option Nat
  | some (.write n) => some n
  | _ => none

/-- The part of `Append` from the write on. -/
def writeEntry (w : WAL) (d : Disk) (fault : Option Fault) (offset : Int) (encoded : Bytes) :
    WAL × Disk × Except Err Int :=
  if w.activeSeg.file ≠ .opened then (w, d, .error .writeEntry)
  else
    match failedWrite fault with
    | some n => (w, d.append w.activeSeg.id (encoded.take n), .error .writeEntry)
    | none =>
      let d := d.append w.activeSeg.id encoded
      if w.config.fsyncOnWrite ∧ fault = some .fsync then (w, d, .error .fsync)
      else
        let seg := { w.activeSeg with
          size := w.activeSeg.size + encoded.length
          startOffset := if w.activeSeg.startOffset = -1 then offset else w.activeSeg.startOffset
          endOffset := offset }
        ({ w with activeSeg := seg, nextOffset := int64 (offset + 1) }, d, .ok offset)

/-- The test of `Append` for a full segment. -/
def WAL.full (encoded : Bytes) : Bool :=
  0 < w.config.maxSegmentSize ∧ w.config.maxSegmentSize < (w.activeSeg.size + encoded.length : Nat)

def append (opType : OpType) (data : Bytes) (fault : Option Fault) : WAL × Disk × Except Err Int :=
  if w.closed then (w, d, .error .closed)
  else if opType ≠ opCheckpoint ∧ data.length = 0 then (w, d, .error .emptyData)
  else
    let offset := w.nextOffset
    let encoded := encodeEntry ⟨offset, opType, data⟩
    if w.full encoded then
      match rotateSegment w d fault with
      | (w, d, some e) => (w, d, .error e)
      | (w, d, none) => writeEntry w d fault offset encoded
    else writeEntry w d fault offset encoded

/-- The search of `ReadFrom` for the first segment to read. -/
def readStart (startOffset : Int) : List Segment → Option Segment
  | [] => none
  | seg :: segs =>
    if seg.startOffset = -1 then readStart startOffset segs
    else if seg.startOffset ≤ startOffset ∧ (seg.endOffset = -1 ∨ startOffset ≤ seg.endOffset) then
      some seg
    else if startOffset < seg.startOffset then some seg
    else readStart startOffset segs

/-- The search of `RecoverFrom` for the first segment to read. -/
def recoverStart (startOffset : Int) : List Segment → Option Segment
  | [] => none
  | seg :: segs =>
    if seg.startOffset = -1 then recoverStart startOffset segs
    else if startOffset ≤ seg.endOffset ∨ seg.endOffset = -1 then some seg
    else if startOffset < seg.startOffset then some seg
    else recoverStart startOffset segs

/-- The segments from the first one with the number of `seg` on. -/
def WAL.segmentsFrom (seg : Segment) : List Segment :=
  w.segments.dropWhile fun s => s.id ≠ seg.id

/-- The loop of `ReadFrom` over the segments, with the result so far. -/
def readSegments (d : Disk) (startOffset : Int) :
    List Segment → List Entry → List Entry × Option Err
  | [], result => (result, none)
  | seg :: segs, result =>
    match readSegmentEntriesStream ((d.read seg.id).getD []) startOffset with
    | .error e => (result, some (.read e))
    | .ok entries => readSegments d startOffset segs (result ++ entries)

/-- `ReadFrom`, which may return entries together with an error. -/
def readFrom (startOffset : Int) : List Entry × Option Err :=
  if w.closed then ([], some .closed)
  else if startOffset < 0 then ([], some .invalidOffset)
  else
    match readStart startOffset w.segments with
    | none => ([], none)
    | some startSeg => readSegments d startOffset (w.segmentsFrom startSeg) []

section Recover

variable {σ : Type}

/-- The loop of `RecoverFrom` over the segments. -/
def recoverSegments (d : Disk) (startOffset : Int) (cb : RecoverCallback σ) :
    List Segment → List CorruptedEntryWarning → σ → σ × List CorruptedEntryWarning × Option Err
  | [], warnings, s => (s, warnings, none)
  | seg :: segs, warnings, s =>
    match recoverSegmentStream ((d.read seg.id).getD []) seg.id startOffset cb s with
    | (s, segWarnings, some e) => (s, warnings ++ segWarnings, some e)
    | (s, segWarnings, none) => recoverSegments d startOffset cb segs (warnings ++ segWarnings) s

/-- `RecoverFrom`, run in a state of the callback. -/
def recoverFrom (w : WAL) (d : Disk) (startOffset : Int) (cb : Option (RecoverCallback σ)) (s : σ) :
    σ × List CorruptedEntryWarning × Option Err :=
  if w.closed then (s, [], some .closed)
  else if startOffset < 0 then (s, [], some .invalidOffset)
  else
    match cb with
    | none => (s, [], some .nilCallback)
    | some cb =>
      match recoverStart startOffset w.segments with
      | none => (s, [], none)
      | some startSeg => recoverSegments d startOffset cb (w.segmentsFrom startSeg) [] s

end Recover

def close : WAL :=
  if w.closed then w
  else
    { w with
      closed := true
      older := w.older.map fun seg => { seg with file := .nil }
      activeSeg := { w.activeSeg with file := .nil } }

/-- The directory, and the log that the last `New` returned. -/
structure System where
  disk : Disk
  wal : Option WAL
  deriving DecidableEq, Repr

/-- An empty directory before the first `New`. -/
def System.init : System := ⟨[], none⟩

/-- A call, with the fault that an `Append` meets. -/
inductive Op where
  | append (opType : OpType) (data : Bytes) (fault : Option Fault)
  | close
  | new
  deriving DecidableEq, Repr

/-- A call with the entry that it acknowledged: a successful `Append` returns the offset of its
entry. -/
def System.step (s : System) : Op → System × Option Entry
  | .append opType data fault =>
    match s.wal with
    | none => (s, none)
    | some w =>
      match Wal.append w s.disk opType data fault with
      | (w, d, .error _) => (⟨d, some w⟩, none)
      | (w, d, .ok offset) => (⟨d, some w⟩, some ⟨offset, opType, data⟩)
  | .close => ({ s with wal := s.wal.map close }, none)
  | .new =>
    match newWAL config s.disk with
    | .error _ => ({ s with wal := none }, none)
    | .ok (w, d) => (⟨d, some w⟩, none)

/-- A run of calls, with the acknowledged entries in the order of the calls. -/
def System.run (config : Option Config) (s : System) : List Op → System × List Entry
  | [] => (s, [])
  | op :: ops =>
    let r := s.step config op
    let rest := r.1.run config ops
    (rest.1, r.2.toList ++ rest.2)

end Solocoder.Wal
