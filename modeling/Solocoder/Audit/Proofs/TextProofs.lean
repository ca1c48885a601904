import Solocoder.Lib.Numbered
import Solocoder.Lib.Separators
import Solocoder.Audit.Logger

/-!
# Texts of the audit log

Event ids differ and hold no separator; records have one hash exactly if their hashed texts agree.
-/

namespace Solocoder.Audit

open List

theorem hexDigit_inj {m n : Nat} (hm : m < 16) (hn : n < 16) (h : hexDigit m = hexDigit n) :
    m = n := by
  have hall : ∀ m < 16, ∀ n < 16, hexDigit m = hexDigit n → m = n := by decide
  exact hall m hm n hn h

theorem encodeToString_injective : Function.Injective encodeToString := by
  intro s t h
  induction s generalizing t with
  | nil =>
    cases t with
    | nil => rfl
    | cons c t => cases h
  | cons b s ih =>
    cases t with
    | nil => cases h
    | cons c t =>
      unfold encodeToString at h
      simp only [flatMap_cons, cons_append, nil_append, cons.injEq] at h
      obtain ⟨hhigh, hlow, hrest⟩ := h
      have hb := b.toNat_lt
      have hc := c.toNat_lt
      have hhigh := hexDigit_inj (by omega) (by omega) hhigh
      have hlow := hexDigit_inj (by omega) (by omega) hlow
      rw [ih hrest, UInt8.toNat_inj.mp (by omega : b.toNat = c.toNat)]

theorem computeHash_eq_iff {sum256 : Str → Str} (hsum : Function.Injective sum256)
    {log log' : AuditLog} :
    computeHash sum256 log = computeHash sum256 log' ↔ hashText log = hashText log' := by
  unfold computeHash
  exact (encodeToString_injective.comp hsum).eq_iff

theorem decimal_natCast (n : Nat) : decimal n = (Nat.toDigits 10 n).map Char.toUInt8 := by
  unfold decimal str
  show (Nat.repr n).toList.map _ = _
  rw [Nat.toList_repr]

theorem digit_of_mem_decimal_natCast {n : Nat} {b : UInt8} (h : b ∈ decimal n) :
    48 ≤ b.toNat ∧ b.toNat ≤ 57 := by
  rw [decimal_natCast] at h
  obtain ⟨c, hc, rfl⟩ := mem_map.mp h
  obtain ⟨hval, hlow, hhigh⟩ := Lib.toNat_toUInt8_of_isDigit (Lib.isDigit_of_mem_digits hc)
  omega

theorem decimal_negSucc (n : Nat) : decimal (Int.negSucc n) = 45 :: decimal (n + 1 : Nat) := by
  unfold decimal str
  show (("-" : String) ++ Nat.repr (n + 1)).toList.map _ = _
  rw [String.toList_append, map_append]
  rfl

theorem byte_of_mem_decimal {n : Int} {b : UInt8} (h : b ∈ decimal n) :
    b = 45 ∨ 48 ≤ b.toNat ∧ b.toNat ≤ 57 := by
  cases n with
  | ofNat n => exact Or.inr (digit_of_mem_decimal_natCast h)
  | negSucc n =>
    rw [decimal_negSucc] at h
    rcases mem_cons.mp h with h | h
    · exact Or.inl h
    · exact Or.inr (digit_of_mem_decimal_natCast h)

theorem decimal_natCast_injective {m n : Nat} (h : decimal m = decimal n) : m = n := by
  -- the characters are read back from their bytes
  have hread : ∀ n : Nat, (decimal n).map (fun b => Char.ofNat b.toNat) = Nat.toDigits 10 n := by
    intro n
    rw [decimal_natCast, map_map]
    refine (map_congr_left fun c hc => ?_).trans (map_id _)
    rw [Function.comp_apply, (Lib.toNat_toUInt8_of_isDigit (Lib.isDigit_of_mem_digits hc)).1,
      Char.ofNat_toNat]
    rfl
  rw [← Nat.ofDigitChars_ten_toDigits (n := m), ← hread, h, hread, Nat.ofDigitChars_ten_toDigits]

theorem eventID_counter_inj {now now' : Time} {m n : Nat} (h : eventID now m = eventID now' n) :
    m = n := by
  have hdash : ∀ n : Nat, (45 : UInt8) ∉ decimal n := by
    intro n hn
    have := (digit_of_mem_decimal_natCast hn).1
    exact absurd this (by decide)
  have hstr : str "-" = [45] := by decide
  unfold eventID at h
  rw [hstr, append_assoc, append_assoc (str "audit-" ++ decimal (unixNano now'))] at h
  exact decimal_natCast_injective (Lib.append_cons_inj_of_notMem_right (hdash m) (hdash n) h).2

theorem separator_notMem_eventID (now : Time) (n : Nat) : (124 : UInt8) ∉ eventID now n := by
  have hdecimal : ∀ n : Int, (124 : UInt8) ∉ decimal n := by
    intro n hn
    exact absurd (byte_of_mem_decimal hn) (by decide)
  intro h
  unfold eventID at h
  simp only [mem_append] at h
  rcases h with ((h | h) | h) | h
  · exact absurd h (by decide)
  · exact hdecimal _ h
  · exact absurd h (by decide)
  · exact hdecimal _ h

theorem eventID_eq_of_hashText_eq {log log' : AuditLog} (h : hashText log = hashText log')
    (hlog : (124 : UInt8) ∉ log.eventID) (hlog' : (124 : UInt8) ∉ log'.eventID) :
    log.eventID = log'.eventID := by
  have hstr : str "|" = [124] := by decide
  unfold hashText at h
  simp only [hstr, intercalate_cons_cons, append_assoc, singleton_append] at h
  exact (Lib.append_cons_inj_of_notMem_left hlog hlog' h).1

end Solocoder.Audit
