import Solocoder.TieredCache.Cache

/-!
# File names of keys
-/

namespace Solocoder.Tiered

open Lib.Text

theorem scanHex_hexDigit (c : UInt8) : scanHex (hexDigit (c / 16)) (hexDigit (c % 16)) = some c := by
  have hall : ∀ n < 256, scanHex (hexDigit (.ofNat n / 16)) (hexDigit (.ofNat n % 16)) =
      some (.ofNat n) := by
    decide +kernel
  simpa using hall c.toNat c.toNat_lt

theorem sanitizeByte_spec (c : UInt8) :
    (∀ x ∈ sanitizeByte c, plain x ∨ x = underscore) ∧ hexDigit (c / 16) ≠ underscore := by
  have hall : ∀ n < 256, ((sanitizeByte (.ofNat n)).all fun x => plain x || x == underscore) ∧
      hexDigit (.ofNat n / 16) ≠ underscore := by
    decide +kernel
  simpa using hall c.toNat c.toNat_lt

theorem unsanitizeKey_cons {c : UInt8} (h : c ≠ underscore) (rest : Str) :
    unsanitizeKey (c :: rest) = c :: unsanitizeKey rest := by
  match rest with
  | [] => rfl
  | [a] => simp [unsanitizeKey, h]
  | a :: b :: rest => simp [unsanitizeKey, h]

theorem unsanitizeKey_sanitizeByte (c : UInt8) (rest : Str) :
    unsanitizeKey (sanitizeByte c ++ rest) = c :: unsanitizeKey rest := by
  unfold sanitizeByte
  split
  next hplain =>
    refine unsanitizeKey_cons ?_ rest
    rintro rfl
    cases hplain
  next =>
    split
    next hc =>
      subst hc
      cases rest with
      | nil => rfl
      | cons b rest => simp [unsanitizeKey]
    next =>
      show unsanitizeKey (underscore :: hexDigit (c / 16) :: hexDigit (c % 16) :: rest) = _
      rw [unsanitizeKey, if_pos rfl, if_neg (sanitizeByte_spec c).2, scanHex_hexDigit]

/-- A key can be read back from its file name, so that no two keys share one. -/
theorem unsanitizeKey_sanitizeKey (key : Str) : unsanitizeKey (sanitizeKey key) = key ∧
      (∀ key', sanitizeKey key' = sanitizeKey key → key' = key) ∧
      ∀ c ∈ sanitizeKey key, plain c ∨ c = underscore := by
  have hback : ∀ key, unsanitizeKey (sanitizeKey key) = key := by
    intro key
    induction key with
    | nil => rfl
    | cons c key ih =>
      rw [sanitizeKey, List.flatMap_cons, unsanitizeKey_sanitizeByte]
      exact congrArg (c :: ·) ih
  refine ⟨hback key, fun key' heq => ?_, fun c hc => ?_⟩
  · rw [← hback key', heq, hback key]
  · obtain ⟨b, -, hb⟩ := List.mem_flatMap.mp hc
    exact (sanitizeByte_spec b).1 c hb

end Solocoder.Tiered
