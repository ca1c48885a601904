import Solocoder.Lib.Text

/-!
# Go values as `internal/serialize` sees them

A value is a tree; a nil slice or map is the same as an empty one. The types of a program are given
by an environment, so that a type may refer to itself.
-/

namespace Solocoder.Serialize

open Lib.Text

/-- `reflect.StructField`: the name, the tag `serialize` and whether the field is exported. -/
structure Field where
  name : Str
  tag : Str
  exported : Bool
  deriving DecidableEq

/-- The fields that the serializers leave out. -/
def Field.skipped (f : Field) : Bool := !f.exported || f.tag = str "-"

/-- The kind of a type with the types it is made of. The keys of a map are strings; the kinds that
no serializer supports are `other`. -/
inductive Shape (T : Type) where
  | bool
  | int (width : Nat)
  | uint (width : Nat)
  | float32
  | float64
  | string
  | slice (elem : T)
  | array (length : Nat) (elem : T)
  | map (elem : T)
  | struct (fields : List (Field × T))
  | ptr (elem : T)
  | other
  deriving DecidableEq

/-- A value. Floating point numbers are given by their bits. -/
inductive Val where
  | bool (b : Bool)
  | int (i : Int)
  | uint (n : Nat)
  | float32 (bits : Nat)
  | float64 (bits : Nat)
  | str (s : Str)
  | bytes (s : Str)
  | list (vs : List Val)
  | map (kvs : List (Str × Val))
  | struct (fs : List (Field × Val))
  | nil
  | ptr (v : Val)

/-- `Kind() == reflect.Uint8`. -/
def Shape.isByte {T : Type} : Shape T → Bool
  | .uint 8 => true
  | _ => false

/-- The zero value of a type, given those of the types it is made of. -/
def Shape.zeroWith {T : Type} (shape : T → Shape T) (zero : T → Val) : Shape T → Val
  | .bool => .bool false
  | .int _ => .int 0
  | .uint _ => .uint 0
  | .float32 => .float32 0
  | .float64 => .float64 0
  | .string => .str []
  | .slice e => if (shape e).isByte then .bytes [] else .list []
  | .array n e => .list (List.replicate n (zero e))
  | .map _ => .map []
  | .struct fields => .struct (fields.map fun f => (f.1, zero f.2))
  | .ptr _ => .nil
  | .other => .nil

/-- The types of a program. Every type has a zero value, and a pointer leads to a type that is no
pointer after finitely many steps. -/
structure TypeEnv (T : Type) where
  shape : T → Shape T
  zero : T → Val
  zero_eq : ∀ t, zero t = (shape t).zeroWith shape zero
  ptrDepth : T → Nat
  ptrDepth_lt : ∀ {t e}, shape t = .ptr e → ptrDepth e < ptrDepth t

/-- The `Options` that the serializers read; whether strings are copied makes no difference here. -/
structure Options where
  returnUnknownFieldError : Bool
  version : Int
  version_range : -(2 ^ 63) ≤ version ∧ version < 2 ^ 63
  strictMode : Bool
  deriving DecidableEq

/-- The errors of the serializers. -/
inductive Err where
  | endOfData
  | unexpectedEnd
  | unknownCode (code : UInt8)
  | endOfVarint
  | varintTooLong
  | unknownWireType (wireType : Nat)
  | invalidType
  | unknownField (key : Str)
  | unknownFieldNumber (num : Int)
  | versionMismatch (expected got : Int)
  deriving DecidableEq

/-- The errors that wrap `ErrInvalidFormat`. -/
def Err.isInvalidFormat : Err → Bool
  | .endOfData => true
  | .unexpectedEnd => true
  | .unknownCode _ => true
  | .endOfVarint => true
  | .varintTooLong => true
  | .unknownWireType _ => true
  | _ => false

/-- The bits of a `float32` that is converted to a `float64` and back: a signalling NaN gets
quiet. -/
def viaFloat64 (bits : Nat) : Nat :=
  if bits % 2 ^ 31 > 0x7F800000 ∧ bits / 2 ^ 22 % 2 = 0 then bits + 2 ^ 22 else bits

end Solocoder.Serialize
