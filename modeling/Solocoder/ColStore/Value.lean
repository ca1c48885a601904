import Mathlib.Algebra.Order.Ring.Int

/-!
# Values of `internal/colstore`

A `Value` is a Go interface value. The types that `compareValues` names have constructors; every
other Go type is a parameter with what Go computes for it.
-/

namespace Solocoder.ColStore

abbrev Bytes := List UInt8

/-- A `float64` by its bits. -/
structure Float64 where
  bits : UInt64
  deriving DecidableEq, Repr

namespace Float64

variable (x : Float64)

/-- The bits below the sign. -/
def magnitude : Nat := x.bits.toNat % 2 ^ 63

def negative : Bool := 2 ^ 63 ≤ x.bits.toNat

/-- The exponent is all ones and the mantissa is not zero. -/
def isNaN : Bool := 2047 * 2 ^ 52 < x.magnitude

/-- Numbers are ordered by sign and magnitude; both zeros are `0`. -/
def position : Int := if x.negative then -(x.magnitude : Int) else x.magnitude

/-- Go's `==`. -/
def eq (x y : Float64) : Bool := !x.isNaN && !y.isNaN && x.position == y.position

/-- Go's `<`. -/
def less (x y : Float64) : Bool := !x.isNaN && !y.isNaN && x.position < y.position

/-- The magnitude of the number nearest to `m`, ties to the even mantissa. -/
def roundMagnitude (m : Nat) : Nat :=
  if m = 0 then 0
  else
    let e := Nat.log2 m
    let mantissa :=
      if e ≤ 52 then m * 2 ^ (52 - e)
      else
        let unit := 2 ^ (e - 52)
        let q := m / unit
        let r := m % unit
        if unit < 2 * r ∨ (unit = 2 * r ∧ q % 2 = 1) then q + 1 else q
    -- a mantissa rounded up to `2 ^ 53` carries into the exponent
    (e + 1023) * 2 ^ 52 + (mantissa - 2 ^ 52)

/-- The conversion `float64(n)`. -/
def ofInt (n : Int) : Float64 :=
  ⟨UInt64.ofNat (roundMagnitude n.natAbs + if n < 0 then 2 ^ 63 else 0)⟩

end Float64

/-- `reflect.Type`: the number of its `Kind`, its `String` and, since types of different packages
may share it, an identity. -/
structure GoType where
  kind : Nat
  name : String
  id : Nat
  deriving DecidableEq, Repr

/-- What Go computes for the values of the types that `compareValues` does not name. -/
class GoValue (O : Type) where
  goType : O → GoType
  /-- `==`, as the keys of a map are compared. -/
  eq : O → O → Bool
  /-- A value that is not hashable panics as a key of a map. -/
  hashable : O → Bool
  deepEqual : O → O → Bool
  /-- `reflect.Value.Int`. -/
  int : O → Int
  /-- `reflect.Value.Uint`. -/
  uint : O → Nat
  /-- `reflect.Value.Float`. -/
  float : O → Float64
  /-- `fmt.Sprintf("%#v", v)`. -/
  goSyntax : O → String
  eq_symm : ∀ x y, eq x y → eq y x
  eq_trans : ∀ x y z, eq x y → eq y z → eq x z

/-- A store of values of the named types only. -/
instance : GoValue Empty where
  goType := Empty.elim
  eq := Empty.elim
  hashable := Empty.elim
  deepEqual := Empty.elim
  int := Empty.elim
  uint := Empty.elim
  float := Empty.elim
  goSyntax := Empty.elim
  eq_symm x := x.elim
  eq_trans x := x.elim

inductive Value (O : Type) where
  | nil
  | int (n : Int)
  | float64 (x : Float64)
  | string (s : Bytes)
  | bool (b : Bool)
  | other (o : O)
  deriving DecidableEq, Repr

namespace Value

variable {O : Type} [GoValue O]

/-- `==` of two interface values: their types and their values are equal. -/
def goEq : Value O → Value O → Bool
  | nil, nil => true
  | int a, int b => a == b
  | float64 a, float64 b => a.eq b
  | string a, string b => a == b
  | bool a, bool b => a == b
  | other a, other b => GoValue.eq a b
  | _, _ => false

/-- A value that can be a key of a map. -/
def hashable : Value O → Bool
  | other o => GoValue.hashable o
  | _ => true

/-- `reflect.TypeOf`; the type of nil is not asked for. -/
def goType : Value O → GoType
  | nil => ⟨0, "", 0⟩
  | bool _ => ⟨1, "bool", 0⟩
  | int _ => ⟨2, "int", 0⟩
  | float64 _ => ⟨14, "float64", 0⟩
  | string _ => ⟨24, "string", 0⟩
  | other o => GoValue.goType o

end Value

/-- The two comparisons of each named type. -/
def threeWay (less greater : Bool) : Int := if less then -1 else if greater then 1 else 0

/-- Values of different types. -/
def compareTypes (ta tb : GoType) : Int :=
  if ta.kind ≠ tb.kind then if ta.kind < tb.kind then -1 else 1
  else if ta.name < tb.name then -1
  else 1

section

variable {O : Type} [GoValue O]

/-- The `default` branch: two values of one type that has no branch of its own. -/
def compareOther (a b : O) : Int :=
  if GoValue.deepEqual a b then 0
  else
    let kind := (GoValue.goType a).kind
    -- `reflect.Int` to `reflect.Int64`
    if 2 ≤ kind ∧ kind ≤ 6 then if GoValue.int a < GoValue.int b then -1 else 1
    -- `reflect.Uint` to `reflect.Uintptr`
    else if 7 ≤ kind ∧ kind ≤ 12 then if GoValue.uint a < GoValue.uint b then -1 else 1
    -- `reflect.Float32` and `reflect.Float64`
    else if kind = 13 ∨ kind = 14 then if (GoValue.float a).less (GoValue.float b) then -1 else 1
    else if GoValue.goSyntax a < GoValue.goSyntax b then -1
    else 1

def compareValues : Value O → Value O → Int
  | .nil, .nil => 0
  | .nil, _ => -1
  | _, .nil => 1
  | .int a, .int b => threeWay (a < b) (b < a)
  | .int a, .float64 b => threeWay ((Float64.ofInt a).less b) (b.less (Float64.ofInt a))
  | .float64 a, .float64 b => threeWay (a.less b) (b.less a)
  | .float64 a, .int b => threeWay (a.less (Float64.ofInt b)) ((Float64.ofInt b).less a)
  | .string a, .string b => threeWay (a < b) (b < a)
  | .bool a, .bool b => threeWay (!a && b) (a && !b)
  | .other a, .other b =>
    if GoValue.goType a = GoValue.goType b then compareOther a b
    else compareTypes (GoValue.goType a) (GoValue.goType b)
  | a, b => compareTypes a.goType b.goType

end

/-- `Operator`; any string can be one. -/
inductive Operator where
  | eq
  | neq
  | gt
  | gte
  | lt
  | lte
  | in
  | notIn
  | unknown (op : String)
  deriving DecidableEq, Repr

structure Predicate (O : Type) where
  column : String
  op : Operator
  value : Value O
  values : List (Value O)

def evaluateSinglePredicate {O : Type} [GoValue O] (val : Value O) (p : Predicate O) : Bool :=
  match p.op with
  | .eq => compareValues val p.value == 0
  | .neq => compareValues val p.value != 0
  | .gt => compareValues val p.value > 0
  | .gte => compareValues val p.value ≥ 0
  | .lt => compareValues val p.value < 0
  | .lte => compareValues val p.value ≤ 0
  | .in => p.values.any fun v => compareValues val v == 0
  | .notIn => p.values.all fun v => compareValues val v != 0
  | .unknown _ => false

end Solocoder.ColStore
