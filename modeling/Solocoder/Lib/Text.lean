import Mathlib.Algebra.Order.Ring.Int

/-!
# Byte strings

The functions of `strings` and `strconv` that the parsers use, on lists of bytes.
-/

namespace Solocoder.Lib.Text

/-- A Go string. -/
abbrev Str := List UInt8

/-- A string literal; all of them are ASCII. -/
def str (s : String) : Str := s.toList.map Char.toUInt8

/-- `%d`. -/
def decimal (n : Int) : Str := str (toString n)

/-- `strings.Index`. -/
def indexOf (sub : Str) : Str → Option Nat
  | [] => if sub = [] then some 0 else none
  | c :: s => if sub.isPrefixOf (c :: s) then some 0 else (indexOf sub s).map (· + 1)

/-- The code points for which `unicode.IsSpace` holds, in UTF-8. -/
def whiteSpace : List Str :=
  [[9], [10], [11], [12], [13], [32], [0xC2, 0x85], [0xC2, 0xA0], [0xE1, 0x9A, 0x80],
    [0xE2, 0x80, 0x80], [0xE2, 0x80, 0x81], [0xE2, 0x80, 0x82], [0xE2, 0x80, 0x83],
    [0xE2, 0x80, 0x84], [0xE2, 0x80, 0x85], [0xE2, 0x80, 0x86], [0xE2, 0x80, 0x87],
    [0xE2, 0x80, 0x88], [0xE2, 0x80, 0x89], [0xE2, 0x80, 0x8A], [0xE2, 0x80, 0xA8],
    [0xE2, 0x80, 0xA9], [0xE2, 0x80, 0xAF], [0xE2, 0x81, 0x9F], [0xE3, 0x80, 0x80]]

/-- Drops at most as many white space characters from the front as the first argument says. -/
def trimStart : Nat → Str → Str
  | 0, s => s
  | n + 1, s =>
    match whiteSpace.find? (·.isPrefixOf s) with
    | none => s
    | some w => trimStart n (s.drop w.length)

/-- Drops at most as many white space characters from the end as the first argument says. -/
def trimEnd : Nat → Str → Str
  | 0, s => s
  | n + 1, s =>
    match whiteSpace.find? (·.isSuffixOf s) with
    | none => s
    | some w => trimEnd n (s.take (s.length - w.length))

variable (s : Str)

def trimSpace : Str := trimEnd s.length (trimStart s.length s)

def isDigit (c : UInt8) : Bool := 48 ≤ c ∧ c ≤ 57

/-- The number that a list of decimal digits stands for. -/
def digitsValue : Nat := s.foldl (fun n c => n * 10 + (c.toNat - 48)) 0

/-- `strconv.Atoi`, which fails for a number that is no `int64`. -/
def atoi : Option Int :=
  let signed := s.head? = some 45 ∨ s.head? = some 43
  let digits := if signed then s.tail else s
  if digits = [] ∨ ¬ digits.all isDigit then none
  else
    let n : Int := digitsValue digits
    let v := if s.head? = some 45 then -n else n
    if -(2 ^ 63) ≤ v ∧ v < 2 ^ 63 then some v else none

/-- Drops white space, but no line feed, at the front; the first argument bounds the number. -/
def skipBlank : Nat → Str → Str
  | 0, s => s
  | n + 1, s =>
    match whiteSpace.find? fun w => w ≠ [10] && w.isPrefixOf s with
    | none => s
    | some w => skipBlank n (s.drop w.length)

/-- `fmt.Sscanf(s, "%d", &n)`; what follows the number is not read. -/
def sscanInt : Option Int :=
  let s := skipBlank s.length s
  let signed := s.head? = some 45 ∨ s.head? = some 43
  let digits := (if signed then s.tail else s).takeWhile isDigit
  if digits = [] then none
  else
    let n : Int := digitsValue digits
    let v := if s.head? = some 45 then -n else n
    if -(2 ^ 63) ≤ v ∧ v < 2 ^ 63 then some v else none

example : atoi (str "-1970") = some (-1970) := by decide

example : trimSpace (str " 7\t") = str "7" := by decide

theorem exists_of_bind_eq_ok {ε α β : Type} {x : Except ε α} {f : α → Except ε β} {b : β}
    (h : x >>= f = .ok b) : ∃ a, x = .ok a ∧ f a = .ok b := by
  cases x with
  | error e => cases h
  | ok a => exact ⟨a, rfl, h⟩

end Solocoder.Lib.Text
