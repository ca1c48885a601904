import Solocoder.Cron.Parser

/-!
# What the cron parser accepts

An accepted field has a value, its values lie in its range, and its steps are positive.
-/

namespace Solocoder.Cron

open Lib.Text List

/-- The numbers of a value lie between the bounds, in order, and a step is positive. -/
def FieldValue.InRange (min max : Int) : FieldValue → Prop
  | .wildcard => True
  | .single v => min ≤ v ∧ v ≤ max
  | .range low high => min ≤ low ∧ low ≤ high ∧ high ≤ max
  | .step low high stride => min ≤ low ∧ low ≤ high ∧ high ≤ max ∧ 0 < stride

/-- The field has the bounds and values between them. -/
structure CronField.Fits (cf : CronField) (min max : Int) : Prop where
  nonempty : cf.values ≠ []
  inRange : ∀ v ∈ cf.values, v.InRange min max

variable {part raw : Str} {ft : FieldType} {minVal maxVal : Int} {offset : Nat} {fv : FieldValue}

theorem checkRange_ok {low high : Int} {u : Unit}
    (h : checkRange part ft minVal maxVal offset low high = .ok u) :
    minVal ≤ low ∧ low ≤ high ∧ high ≤ maxVal := by
  unfold checkRange at h
  split_ifs at h with hlow hhigh horder
  omega

theorem parseSingle_inRange (h : parseSingle part ft minVal maxVal offset = .ok fv) :
    fv.InRange minVal maxVal := by
  unfold parseSingle at h
  obtain ⟨val, -, hval⟩ := exists_of_bind_eq_ok h
  split_ifs at hval with hout
  cases hval
  exact ⟨by omega, by omega⟩

theorem parseRange_inRange (h : parseRange part ft minVal maxVal offset = .ok fv) :
    fv.InRange minVal maxVal := by
  unfold parseRange at h
  split at h
  next lowPart highPart hsplit =>
    dsimp only at h
    split_ifs at h
    obtain ⟨low, -, h⟩ := exists_of_bind_eq_ok h
    obtain ⟨high, -, h⟩ := exists_of_bind_eq_ok h
    obtain ⟨u, hcheck, h⟩ := exists_of_bind_eq_ok h
    cases h
    exact checkRange_ok hcheck
  next => cases h

theorem parseStepRange_inRange {rangePart : Str} {stride : Int} (hstride : 0 < stride)
    (hbounds : minVal ≤ maxVal)
    (h : parseStepRange part rangePart ft minVal maxVal offset stride = .ok fv) :
    fv.InRange minVal maxVal := by
  unfold parseStepRange at h
  split_ifs at h
  · cases h
    exact ⟨Int.le_refl _, hbounds, Int.le_refl _, hstride⟩
  · split at h
    next lowPart highPart hsplit =>
      obtain ⟨low, -, h⟩ := exists_of_bind_eq_ok h
      obtain ⟨high, -, h⟩ := exists_of_bind_eq_ok h
      obtain ⟨u, hcheck, h⟩ := exists_of_bind_eq_ok h
      cases h
      obtain ⟨hlow, horder, hhigh⟩ := checkRange_ok hcheck
      exact ⟨hlow, horder, hhigh, hstride⟩
    next => cases h
  · obtain ⟨low, -, h⟩ := exists_of_bind_eq_ok h
    split_ifs at h with hout
    cases h
    exact ⟨by omega, by omega, Int.le_refl _, hstride⟩

theorem parseStep_inRange (hbounds : minVal ≤ maxVal)
    (h : parseStep part ft minVal maxVal offset = .ok fv) : fv.InRange minVal maxVal := by
  unfold parseStep at h
  split at h
  next beforeSlash afterSlash hsplit =>
    dsimp only at h
    split_ifs at h
    split at h
    next => cases h
    next stride hatoi =>
      split_ifs at h with hpos
      exact parseStepRange_inRange (Int.not_le.1 hpos) hbounds h
  next => split_ifs at h

theorem parseValuePart_inRange (hbounds : minVal ≤ maxVal)
    (h : parseValuePart part ft minVal maxVal offset = .ok fv) : fv.InRange minVal maxVal := by
  unfold parseValuePart at h
  split_ifs at h
  · cases h
    trivial
  · exact parseStep_inRange hbounds h
  · exact parseRange_inRange h
  · exact parseSingle_inRange h

theorem parseParts_ok (hbounds : minVal ≤ maxVal) (parts : List Str) {fieldOffset partOffset : Nat}
    {values : List FieldValue}
    (h : parseParts raw ft minVal maxVal fieldOffset partOffset parts = .ok values) :
    values.length = parts.length ∧ ∀ v ∈ values, v.InRange minVal maxVal := by
  induction parts generalizing partOffset values with
  | nil =>
    cases h
    exact ⟨rfl, nofun⟩
  | cons part parts ih =>
    unfold parseParts at h
    dsimp only at h
    split_ifs at h
    obtain ⟨fv, hfv, h⟩ := exists_of_bind_eq_ok h
    obtain ⟨fvs, hfvs, h⟩ := exists_of_bind_eq_ok h
    cases h
    obtain ⟨hlength, hrange⟩ := ih hfvs
    refine ⟨by rw [length_cons, length_cons, hlength], forall_mem_cons.2 ⟨?_, hrange⟩⟩
    exact parseValuePart_inRange hbounds hfv

theorem fieldRanges_ordered (ft : FieldType) : (fieldRanges ft).1 ≤ (fieldRanges ft).2 := by
  cases ft <;> decide

theorem parseField_fits {cf : CronField} (h : parseField raw ft offset = .ok cf) :
    cf.Fits (fieldRanges ft).1 (fieldRanges ft).2 := by
  unfold parseField at h
  dsimp only at h
  split_ifs at h
  obtain ⟨values, hvalues, h⟩ := exists_of_bind_eq_ok h
  cases h
  obtain ⟨hlength, hrange⟩ := parseParts_ok (fieldRanges_ordered ft) _ hvalues
  refine ⟨fun hnil => ?_, hrange⟩
  have hnil' : values = [] := hnil
  rw [hnil', length_nil] at hlength
  exact splitOn_ne_nil 44 raw (length_eq_zero_iff.1 hlength.symm)

/-- What `Parse` guarantees of the fields that `NextTime` reads. -/
structure CronExpression.WellFormed (expr : CronExpression) : Prop where
  second : expr.second.Fits 0 59
  minute : expr.minute.Fits 0 59
  hour : expr.hour.Fits 0 23
  day : expr.day.Fits 1 31
  month : expr.month.Fits 1 12
  weekday : expr.weekday.Fits 0 6
  year : expr.year.Fits 1970 2100

theorem parseFields_wellFormed {text : Str} {hasYear : Bool}
    {second minute hour day month weekday year : FieldPos} {expr : CronExpression}
    (h : parseFields text hasYear second minute hour day month weekday year = .ok expr) :
    expr.WellFormed := by
  unfold parseFields at h
  obtain ⟨second', hsecond, h⟩ := exists_of_bind_eq_ok h
  obtain ⟨minute', hminute, h⟩ := exists_of_bind_eq_ok h
  obtain ⟨hour', hhour, h⟩ := exists_of_bind_eq_ok h
  obtain ⟨day', hday, h⟩ := exists_of_bind_eq_ok h
  obtain ⟨month', hmonth, h⟩ := exists_of_bind_eq_ok h
  obtain ⟨weekday', hweekday, h⟩ := exists_of_bind_eq_ok h
  obtain ⟨year', hyear, h⟩ := exists_of_bind_eq_ok h
  split_ifs at h
  cases h
  exact ⟨parseField_fits hsecond, parseField_fits hminute, parseField_fits hhour,
    parseField_fits hday, parseField_fits hmonth, parseField_fits hweekday, parseField_fits hyear⟩

theorem parse_wellFormed {text : Str} {expr : CronExpression} (h : parse text = .ok expr) :
    expr.WellFormed := by
  unfold parse at h
  split at h
  next => exact parseFields_wellFormed h
  next => exact parseFields_wellFormed h
  next => cases h

theorem FieldValue.InRange.exists_matches {min max : Int} (hbounds : min ≤ max)
    (h : fv.InRange min max) : ∃ n, min ≤ n ∧ n ≤ max ∧ fv.matches n = true := by
  cases fv with
  | wildcard => exact ⟨min, Int.le_refl _, hbounds, rfl⟩
  | single v => exact ⟨v, h.1, h.2, by simp [FieldValue.matches]⟩
  | range low high =>
    obtain ⟨hlow, horder, hhigh⟩ := h
    exact ⟨low, hlow, by omega, by simp [FieldValue.matches, horder]⟩
  | step low high stride =>
    obtain ⟨hlow, horder, hhigh, -⟩ := h
    exact ⟨low, hlow, by omega, by simp [FieldValue.matches, horder]⟩

theorem FieldValue.InRange.of_matches {min max n : Int} (hne : fv ≠ .wildcard)
    (h : fv.InRange min max) (hn : fv.matches n = true) : min ≤ n ∧ n ≤ max := by
  cases fv with
  | wildcard => exact absurd rfl hne
  | single v =>
    have hv : n = v := by simpa [FieldValue.matches] using hn
    exact hv ▸ h
  | range low high =>
    obtain ⟨hlow, horder, hhigh⟩ := h
    have hin : low ≤ n ∧ n ≤ high := by simpa [FieldValue.matches] using hn
    omega
  | step low high stride =>
    obtain ⟨hlow, horder, hhigh, -⟩ := h
    have hin : low ≤ n ∧ n ≤ high := by
      simp only [FieldValue.matches] at hn
      split_ifs at hn
      omega
    omega

namespace CronField.Fits

variable {cf : CronField} {min max : Int}

theorem exists_matches (hbounds : min ≤ max) (h : cf.Fits min max) :
    ∃ n, min ≤ n ∧ n ≤ max ∧ cf.matches n = true := by
  obtain ⟨v, vs, hvs⟩ := exists_cons_of_ne_nil h.nonempty
  have hv : v ∈ cf.values := by
    rw [hvs]
    exact mem_cons_self
  obtain ⟨n, hlow, hhigh, hn⟩ := (h.inRange v hv).exists_matches hbounds
  exact ⟨n, hlow, hhigh, any_eq_true.2 ⟨v, hv, hn⟩⟩

theorem of_matches {n : Int} (h : cf.Fits min max) (hwild : .wildcard ∉ cf.values)
    (hn : cf.matches n = true) : min ≤ n ∧ n ≤ max := by
  obtain ⟨v, hv, hmatch⟩ := any_eq_true.1 hn
  refine (h.inRange v hv).of_matches ?_ hmatch
  rintro rfl
  exact hwild hv

end CronField.Fits

theorem CronField.matches_of_wildcard {cf : CronField} (h : .wildcard ∈ cf.values) (n : Int) :
    cf.matches n = true :=
  any_eq_true.2 ⟨.wildcard, h, rfl⟩

end Solocoder.Cron
