import Mathlib.Data.List.Induction
import Mathlib.Tactic.Ring

/-!
# Numbers in big-endian bytes

`putBE k n` writes `n` in `k` bytes, most significant first, and drops what does not fit; `getBE`
reads a number back from all the bytes it is given.
-/

namespace Solocoder.Lib

/-- The last `k` base-256 digits of `n`, most significant first. -/
def putBE : Nat → Nat → List UInt8
  | 0, _ => []
  | k + 1, n => putBE k (n / 256) ++ [UInt8.ofNat n]

variable (bs : List UInt8)

/-- The number that the bytes write. -/
def getBE : Nat := bs.foldl (fun n b => n * 256 + b.toNat) 0

@[simp] theorem length_putBE (k n : Nat) : (putBE k n).length = k := by
  induction k generalizing n with
  | zero => rfl
  | succ k ih => simp [putBE, ih]

theorem getBE_append_singleton (b : UInt8) : getBE (bs ++ [b]) = getBE bs * 256 + b.toNat := by
  simp [getBE]

theorem getBE_putBE (k n : Nat) : getBE (putBE k n) = n % 256 ^ k := by
  induction k generalizing n with
  | zero => simp [putBE, getBE, Nat.mod_one]
  | succ k ih =>
    rw [putBE, getBE_append_singleton, ih, UInt8.toNat_ofNat']
    show n / 256 % 256 ^ k * 256 + n % 256 = n % 256 ^ (k + 1)
    rw [Nat.pow_succ', Nat.mod_mul, Nat.mul_comm, Nat.add_comm]

theorem getBE_putBE_of_lt {k n : Nat} (h : n < 256 ^ k) : getBE (putBE k n) = n := by
  rw [getBE_putBE, Nat.mod_eq_of_lt h]

theorem putBE_getBE : putBE bs.length (getBE bs) = bs := by
  induction bs using List.reverseRecOn with
  | nil => rfl
  | append_singleton bs b ih =>
    have hb : b.toNat < 256 := b.toNat_lt
    have hdiv : (getBE bs * 256 + b.toNat) / 256 = getBE bs := by omega
    have hmod : UInt8.ofNat (getBE bs * 256 + b.toNat) = b := by
      apply UInt8.toNat_inj.1
      rw [UInt8.toNat_ofNat']
      omega
    rw [getBE_append_singleton, List.length_append, List.length_singleton, putBE, hdiv, ih, hmod]

end Solocoder.Lib
