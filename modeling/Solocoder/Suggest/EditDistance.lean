import Mathlib.Logic.Function.Basic

/-!
# `EditDistance`

The runes of a string are its characters. A row of the dynamic program is a function of the index,
and a loop is the recursion on the number of its turns.
-/

namespace Solocoder.Suggest

def minThree (a b c : Nat) : Nat :=
  let m := a
  let m := if b < m then b else m
  if c < m then c else m

/-- The row `i + 1` after `j` turns of the inner loop. -/
def currRow (ra rb : List Char) (i : Nat) (prev curr : Nat → Nat) : Nat → Nat → Nat
  | 0 => Function.update curr 0 (i + 1)
  | j + 1 =>
    let curr := currRow ra rb i prev curr j
    let cost := if ra[i]? = rb[j]? then 0 else 1
    Function.update curr (j + 1) (minThree (prev (j + 1) + 1) (curr j + 1) (prev j + cost))

/-- `prev` and `curr` after `i` turns of the outer loop, which ends with their swap. -/
def rows (ra rb : List Char) : Nat → (Nat → Nat) × (Nat → Nat)
  | 0 => (fun j => j, fun _ => 0)
  | i + 1 =>
    let (prev, curr) := rows ra rb i
    (currRow ra rb i prev curr rb.length, prev)

def editDistance (a b : String) : Nat :=
  let ra := a.toList
  let rb := b.toList
  if ra.length = 0 then rb.length
  else if rb.length = 0 then ra.length
  else (rows ra rb ra.length).1 rb.length

end Solocoder.Suggest
