import Mathlib.Data.Nat.Digits.Defs
import Mathlib.Data.List.TakeWhile

/-!
# Names that end in a number

A name, a separator that does not end in a digit, and a number in decimals can be read back.
-/

namespace Solocoder.Lib

open List

theorem digits_of_append_eq {a b d e : List Char} (hd : ∀ c ∈ d, c.isDigit) (he : ∀ c ∈ e, c.isDigit)
    {x : Char} (hx : x.isDigit = false) (h : a ++ x :: d = b ++ x :: e) : a = b ∧ d = e := by
  -- read from the right, the digits end at `x`
  have htake : ∀ {s t : List Char}, (∀ c ∈ t, c.isDigit) →
      (s ++ x :: t).reverse.takeWhile Char.isDigit = t.reverse := by
    intro s t ht
    rw [reverse_append, reverse_cons, append_assoc, takeWhile_append_of_pos]
    · simp [hx]
    · simpa using ht
  have hde : d = e := by
    have := congrArg (fun l => l.reverse.takeWhile Char.isDigit) h
    simp only [htake hd, htake he] at this
    exact reverse_inj.1 this
  subst hde
  exact ⟨append_cancel_right h, rfl⟩

theorem toNat_toUInt8_of_isDigit {c : Char} (h : c.isDigit) :
    c.toUInt8.toNat = c.toNat ∧ 48 ≤ c.toNat ∧ c.toNat ≤ 57 := by
  simp only [Char.isDigit, Bool.and_eq_true, decide_eq_true_eq] at h
  have hlow : 48 ≤ c.toNat := h.1
  have hhigh : c.toNat ≤ 57 := h.2
  exact ⟨Nat.mod_eq_of_lt (by show c.toNat < 256; omega), hlow, hhigh⟩

theorem isDigit_of_mem_digits {n : ℕ} {c : Char} (h : c ∈ Nat.toDigits 10 n) : c.isDigit :=
  Nat.isDigit_of_mem_toDigits (b := 10) (by decide) (by decide) h

theorem isDigit_of_mem_toString {k : ℕ} {c : Char} (hc : c ∈ (toString k).toList) : c.isDigit := by
  rw [Nat.toString_eq_repr, Nat.toList_repr] at hc
  exact isDigit_of_mem_digits hc

theorem append_toString_injective {sep : String} {t : List Char} {x : Char}
    (hsep : sep.toList = t ++ [x]) (hx : x.isDigit = false) {n m : String} {i j : ℕ}
    (h : n ++ sep ++ toString i = m ++ sep ++ toString j) : n = m ∧ i = j := by
  have hlists : (n.toList ++ t) ++ x :: (toString i).toList =
      (m.toList ++ t) ++ x :: (toString j).toList := by
    simpa [hsep] using congrArg String.toList h
  obtain ⟨hname, hindex⟩ := digits_of_append_eq (fun c => isDigit_of_mem_toString)
    (fun c => isDigit_of_mem_toString) hx hlists
  refine ⟨String.toList_injective (append_cancel_right hname), ?_⟩
  rw [Nat.toString_eq_repr, Nat.toList_repr, Nat.toString_eq_repr, Nat.toList_repr] at hindex
  rw [← Nat.ofDigitChars_ten_toDigits (n := i), hindex, Nat.ofDigitChars_ten_toDigits]

end Solocoder.Lib
