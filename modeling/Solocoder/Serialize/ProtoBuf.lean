import Solocoder.Serialize.Value

/-!
# The Protocol Buffers serializer of `internal/serialize`

The decoder keeps its position as an `int`, and adds lengths to it that it read as `uint64`. A run
returns, fails or panics, and leaves a trace of the turns of its loops and of the lengths.
-/

namespace Solocoder.Serialize.ProtoBuf

open Lib.Text

variable {T : Type}

/-- The number that a part of a tag declares. -/
def declaredNum (part : Str) : Option Int :=
  let part := trimSpace part
  if (str "protobuf:").isPrefixOf part then
    match sscanInt (part.drop (str "protobuf:").length) with
    | some num => if num > 0 then some (if num = 1 then 2 else num) else none
    | none => none
  else none

/-- The `fieldNum` of `getPBFieldInfo`, for the field at an index: the last number that the tag
declares, or the index plus 2. -/
def fieldNum (f : Field) (index : Nat) : Int :=
  match ((f.tag.splitOn 44).filterMap declaredNum).getLast? with
  | some num => num
  | none => index + 2

/-- `getWireType`. -/
def wireType : Shape T → Nat
  | .bool => 0
  | .int _ => 0
  | .uint _ => 0
  | .float32 => 5
  | .float64 => 1
  | _ => 2

/-- How a run ends. -/
inductive Out (α : Type) where
  | ok (a : α)
  | err (e : Err)
  | panic
  | timeout

/-- What a run leaves in the trace: a turn of a loop with the positions before and after it, and a
length with the position behind it and whether it was rejected. -/
inductive Event where
  | turn (start stop size : Int)
  | length (pos size : Int) (l : Nat) (rejected : Bool)

/-- A run of the decoder. -/
structure Run (α : Type) where
  trace : List Event
  out : Out α

namespace Run

variable {α β : Type}

def bind (r : Run α) (f : α → Run β) : Run β :=
  match r.out with
  | .ok a => ⟨r.trace ++ (f a).trace, (f a).out⟩
  | .err e => ⟨r.trace, .err e⟩
  | .panic => ⟨r.trace, .panic⟩
  | .timeout => ⟨r.trace, .timeout⟩

instance : Monad Run where
  pure a := ⟨[], .ok a⟩
  bind := bind

/-- The run that fails. -/
def fail (e : Err) : Run α := ⟨[], .err e⟩

/-- The run that panics. -/
def panic : Run α := ⟨[], .panic⟩

/-- The run that does not end in time. -/
def timeout : Run α := ⟨[], .timeout⟩

/-- Leaves an event. -/
def emit (e : Event) : Run Unit := ⟨[e], .ok ()⟩

end Run

/-- `pbDecoder`. -/
structure Decoder where
  data : Str
  pos : Int

/-- The length of the data. -/
def Decoder.size (d : Decoder) : Int := d.data.length

/-- The loop of `readVarint`; there are as many bytes as the first argument says at most. -/
def readVarintLoop : Nat → Nat → Nat → Decoder → Run (Nat × Decoder)
  | 0, _, _, _ => .fail .varintTooLong
  | n + 1, shift, result, d =>
    if d.pos ≥ d.size then .fail .endOfVarint
    else if d.pos < 0 then .panic
    else
      let b := (d.data.getD d.pos.toNat 0).toNat
      let result := (result + b % 128 * 2 ^ shift) % 2 ^ 64
      let d := { d with pos := d.pos + 1 }
      if b < 128 then pure (result, d) else readVarintLoop n (shift + 7) result d

/-- `readVarint`; the tenth byte is the last one whose shift is less than 64. -/
def readVarint (d : Decoder) : Run (Nat × Decoder) := readVarintLoop 10 0 0 d

/-- The sum of two values of the type `int`. -/
def addInt (a b : Int) : Int := Int.bmod (a + b) (2 ^ 64)

/-- `d.pos+int(l)`. -/
def addLength (pos : Int) (l : Nat) : Int := addInt pos (Int.bmod l (2 ^ 64))

/-- Checks the position that a length leads to. -/
def checkLength (stop : Int) (l : Nat) (d : Decoder) : Run (Int × Decoder) := do
  Run.emit (.length d.pos d.size l (stop > d.size))
  if stop > d.size then .fail .unexpectedEnd else return (stop, d)

/-- Reads a length and checks it, and returns the position that it leads to. How the length is added
to the position is a parameter. -/
def readLength (add : Int → Nat → Int) (d : Decoder) : Run (Int × Decoder) := do
  let (l, d) ← readVarint d
  checkLength (add d.pos l) l d

/-- Goes over `n` bytes. -/
def skipBytes (n : Nat) (d : Decoder) : Run Decoder :=
  if d.pos + n > d.size then .fail .unexpectedEnd else pure { d with pos := d.pos + n }

def skipValue (add : Int → Nat → Int) (wireType : Nat) (d : Decoder) : Run Decoder :=
  match wireType with
  | 0 => do
    let (_, d) ← readVarint d
    return d
  | 5 => skipBytes 4 d
  | 1 => skipBytes 8 d
  | 2 => do
    let (stop, d) ← readLength add d
    return { d with pos := stop }
  | w => .fail (.unknownWireType w)

/-- `d.data[start:stop]`. -/
def slice (data : Str) (start stop : Int) : Run Str :=
  if start < 0 ∨ stop < start ∨ stop > data.length then .panic
  else pure ((data.drop start.toNat).take (stop - start).toNat)

/-- `LittleEndian.Uint32` and `Uint64`. -/
def getLE : Str → Nat
  | [] => 0
  | b :: s => b.toNat + 256 * getLE s

variable (shape : Shape T)

def setVarintValue (v : Nat) : Run Val :=
  match shape with
  | .bool => pure (.bool (v ≠ 0))
  | .int w => pure (.int (Int.bmod v (2 ^ w)))
  | .uint w => pure (.uint (v % 2 ^ w))
  | _ => .fail .invalidType

def set32bitValue (v : Nat) : Run Val :=
  match shape with
  | .float32 => pure (.float32 (viaFloat64 v))
  | _ => .fail .invalidType

def set64bitValue (v : Nat) : Run Val :=
  match shape with
  | .float64 => pure (.float64 v)
  | _ => .fail .invalidType

/-- `decodeValue`, given `setLengthDelimValue`. -/
def decodeValue (add : Int → Nat → Int) (set : Shape T → Val → Str → Run Val) (wireType : Nat)
    (shape : Shape T) (current : Val) (d : Decoder) : Run (Val × Decoder) :=
  match wireType with
  | 0 => do
    let (v, d) ← readVarint d
    let v ← setVarintValue shape v
    return (v, d)
  | 5 => do
    let d' ← skipBytes 4 d
    let bytes ← slice d.data d.pos d'.pos
    let v ← set32bitValue shape (getLE bytes)
    return (v, d')
  | 1 => do
    let d' ← skipBytes 8 d
    let bytes ← slice d.data d.pos d'.pos
    let v ← set64bitValue shape (getLE bytes)
    return (v, d')
  | 2 => do
    let (stop, d) ← readLength add d
    let data ← slice d.data d.pos stop
    let v ← set shape current data
    return (v, { d with pos := stop })
  | w => .fail (.unknownWireType w)

/-- The type behind a chain of pointers, and the length of the chain. -/
def stripPointers (env : TypeEnv T) : Nat → T → Nat × T
  | 0, t => (0, t)
  | n + 1, t =>
    match env.shape t with
    | .ptr e => ((stripPointers env n e).1 + 1, (stripPointers env n e).2)
    | _ => (0, t)

/-- The field for a number, by `fieldMap`; the last field with the number counts. -/
def findField (fields : List Field) (num : Int) : Option Nat :=
  (fields.zipIdx.reverse.find? fun f => !f.1.skipped && fieldNum f.1 f.2 = num).map (·.2)

/-- The elements of a slice or an array. -/
def elements : Val → List Val
  | .list vs => vs
  | _ => []

/-- The fields of a struct. -/
def members : Val → List (Field × Val)
  | .struct fs => fs
  | _ => []

/-- `setLengthDelimValue`, given the case of the types that are no pointers. A pointer gets a new
value, whose pointers get new values in turn. -/
def setLengthDelimValue (env : TypeEnv T) (set : Shape T → Val → Str → Run Val) (shape : Shape T)
    (current : Val) (data : Str) : Run Val :=
  match shape with
  | .ptr e => do
    let r := stripPointers env (env.ptrDepth e) e
    let v ← set (env.shape r.2) (env.zero r.2) data
    return Val.ptr^[r.1 + 1] v
  | shape => set shape current data

/-- The end of `Unmarshal`, with the version that was found. -/
def checkVersion (opts : Options) (fs : List (Field × Val)) (version : Option Int) : Run Val :=
  if opts.strictMode && version.any fun v => v > 0 && v ≠ opts.version then
    .fail (.versionMismatch opts.version (version.getD 0))
  else pure (.struct fs)

mutual

/-- The loop of `Unmarshal`: the fields with their current values, the version that was read, and
the decoder. The first argument bounds the number of turns. -/
def unmarshalLoop (add : Int → Nat → Int) (env : TypeEnv T) (opts : Options)
    (fields : List (Field × T)) :
    Nat → List (Field × Val) → Option Int → Decoder → Run (List (Field × Val) × Option Int)
  | 0, _, _, _ => .timeout
  | fuel + 1, fs, version, d =>
    if d.pos < d.size then do
      let (tag, d') ← readVarint d
      let num : Int := (tag / 8 : Nat)
      if num = 1 then
        let (v, d') ← readVarint d'
        Run.emit (.turn d.pos d'.pos d.size)
        unmarshalLoop add env opts fields fuel fs (some (Int.bmod v (2 ^ 64))) d'
      else
        match findField (fields.map (·.1)) num with
        | none =>
          if opts.returnUnknownFieldError then .fail (.unknownFieldNumber num)
          else
            let d' ← skipValue add (tag % 8) d'
            Run.emit (.turn d.pos d'.pos d.size)
            unmarshalLoop add env opts fields fuel fs version d'
        | some i =>
          match fields[i]?, fs[i]? with
          | some field, some f =>
            let (v, d') ← decodeValue add (setLengthDelimValue env (setTarget add env opts fuel))
              (tag % 8) (env.shape field.2) f.2 d'
            Run.emit (.turn d.pos d'.pos d.size)
            unmarshalLoop add env opts fields fuel (fs.set i (f.1, v)) version d'
          | _, _ => .fail .invalidType
    else return (fs, version)

/-- `setLengthDelimValue` for a type that is no pointer. -/
def setTarget (add : Int → Nat → Int) (env : TypeEnv T) (opts : Options) :
    Nat → Shape T → Val → Str → Run Val
  | 0, _, _, _ => .timeout
  | fuel + 1, shape, current, data =>
    match shape with
    | .string => pure (.str data)
    | .slice e =>
      if (env.shape e).isByte then pure (.bytes data)
      else do
        let vs ← packedLoop add env opts fuel none e (elements current) 0 ⟨data, 0⟩
        return .list vs
    | .array n e => do
      let vs ← packedLoop add env opts fuel (some n) e (elements current) 0 ⟨data, 0⟩
      return .list vs
    | .struct fields => do
      let (fs, version) ← unmarshalLoop add env opts fields fuel (members current) none ⟨data, 0⟩
      checkVersion opts fs version
    | _ => .fail .invalidType

/-- The loop of `setLengthDelimValue` over the elements of a slice, or of an array of the given
length. -/
def packedLoop (add : Int → Nat → Int) (env : TypeEnv T) (opts : Options) :
    Nat → Option Nat → T → List Val → Nat → Decoder → Run (List Val)
  | 0, _, _, _, _, _ => .timeout
  | fuel + 1, length, e, vs, idx, d =>
    if d.pos < d.size ∧ ¬ length.any (· ≤ idx) then do
      let vs := if idx < vs.length then vs else vs ++ [env.zero e]
      let (v, d') ← decodeValue add (setLengthDelimValue env (setTarget add env opts fuel))
        (wireType (env.shape e)) (env.shape e) (vs.getD idx .nil) d
      Run.emit (.turn d.pos d'.pos d.size)
      packedLoop add env opts fuel length e (vs.set idx v) (idx + 1) d'
    else return vs

end

/-- `Unmarshal` into a pointer to a struct with the given value; the first argument says how lengths
are added to positions, the second one bounds the number of turns. -/
def unmarshalWith (add : Int → Nat → Int) (fuel : Nat) (env : TypeEnv T) (opts : Options) (t : T)
    (current : Val) (data : Str) : Run Val :=
  match env.shape t, current with
  | .struct fields, .struct fs =>
    if data = [] then pure current
    else do
      let (fs, version) ← unmarshalLoop add env opts fields fuel fs none ⟨data, 0⟩
      checkVersion opts fs version
  | _, _ => .fail .invalidType

def unmarshal (fuel : Nat) (env : TypeEnv T) (opts : Options) (t : T) (current : Val)
    (data : Str) : Run Val :=
  unmarshalWith addLength fuel env opts t current data

end Solocoder.Serialize.ProtoBuf
