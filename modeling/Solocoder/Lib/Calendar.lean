import Mathlib.Tactic.ByContra

/-!
# The proleptic Gregorian calendar

Days are numbered from 1 January of the year 1, and every day has exactly one date.
-/

namespace Solocoder.Lib.Calendar

variable (y : Int) (n : Int) (t : Int)

/-- The day that a leap year has more. -/
def leapDay : Int := if y % 4 = 0 ∧ (y % 100 ≠ 0 ∨ y % 400 = 0) then 1 else 0

/-- The days before the year. -/
def daysBeforeYear : Int := 365 * (y - 1) + (y - 1) / 4 - (y - 1) / 100 + (y - 1) / 400

/-- The days of the year before the month `m`, from 1 to 12; for 13 the days of the year. From March
on, five months have 153 days. -/
def daysBeforeMonth (y m : Int) : Int :=
  if m ≤ 2 then 31 * (m - 1) else 59 + leapDay y + (153 * (m - 3) + 2) / 5

example : (List.range 13).map (fun m : Nat => daysBeforeMonth 1 (m + 1)) =
    [0, 31, 59, 90, 120, 151, 181, 212, 243, 273, 304, 334, 365] := by decide

/-- The number of a day; the day of the month may lie outside the month. -/
def dayNumber (y m d : Int) : Int := daysBeforeYear y + daysBeforeMonth y m + (d - 1)

/-- The year of a day. -/
def yearOf : Int :=
  let y := n * 400 / 146097 + 1
  if n < daysBeforeYear y then y - 1 else if daysBeforeYear (y + 1) ≤ n then y + 1 else y

/-- The month of a day of the year, counted from 0. -/
def monthOf (leap yday : Int) : Int :=
  if yday < 31 then 1
  else if yday < 59 + leap then 2
  else (5 * (yday - 59 - leap) + 2) / 153 + 3

/-- A date. -/
structure Date where
  year : Int
  month : Int
  day : Int
  deriving DecidableEq

/-- The date of a day. -/
def date : Date :=
  let y := yearOf n
  let yday := n - daysBeforeYear y
  let m := monthOf (leapDay y) yday
  ⟨y, m, yday - daysBeforeMonth y m + 1⟩

/-- The day of the week, with 0 for Sunday. -/
def weekdayOf : Int := (n + 1) % 7

theorem leapDay_bounds : 0 ≤ leapDay y ∧ leapDay y ≤ 1 := by
  unfold leapDay
  split <;> omega

theorem daysBeforeYear_succ : daysBeforeYear (y + 1) = daysBeforeYear y + 365 + leapDay y := by
  unfold daysBeforeYear leapDay
  split <;> omega

theorem daysBeforeYear_mono {y z : Int} (h : y ≤ z) : daysBeforeYear y ≤ daysBeforeYear z := by
  unfold daysBeforeYear
  omega

theorem yearOf_spec : daysBeforeYear (yearOf n) ≤ n ∧ n < daysBeforeYear (yearOf n + 1) := by
  unfold yearOf
  dsimp only
  generalize hy : n * 400 / 146097 + 1 = y
  have hlow : daysBeforeYear (y - 1) ≤ n := by
    unfold daysBeforeYear
    omega
  have hhigh : n < daysBeforeYear (y + 2) := by
    unfold daysBeforeYear
    omega
  split
  next hlt =>
    rw [Int.sub_add_cancel]
    exact ⟨hlow, hlt⟩
  next hge =>
    split
    next hnext =>
      rw [Int.add_assoc]
      exact ⟨hnext, hhigh⟩
    next hnext => exact ⟨Int.not_lt.mp hge, Int.not_le.mp hnext⟩

theorem yearOf_eq {n y : Int} (hlow : daysBeforeYear y ≤ n) (hhigh : n < daysBeforeYear (y + 1)) :
    yearOf n = y := by
  obtain ⟨hlow', hhigh'⟩ := yearOf_spec n
  by_contra hne
  rcases Int.lt_or_gt_of_ne hne with hlt | hgt
  · have := daysBeforeYear_mono (y := yearOf n + 1) (z := y) (by omega)
    omega
  · have := daysBeforeYear_mono (y := y + 1) (z := yearOf n) (by omega)
    omega

theorem yearOf_mono {n k : Int} (h : n ≤ k) : yearOf n ≤ yearOf k := by
  by_contra hlt
  have hbefore := daysBeforeYear_mono (y := yearOf k + 1) (z := yearOf n) (by omega)
  have hn := (yearOf_spec n).1
  have hk := (yearOf_spec k).2
  omega

theorem daysBeforeMonth_end : daysBeforeMonth y 13 = 365 + leapDay y := by
  unfold daysBeforeMonth
  rw [if_neg (by decide)]
  omega

theorem daysBeforeMonth_mono {y m k : Int} (h : m ≤ k) :
    daysBeforeMonth y m ≤ daysBeforeMonth y k := by
  have := leapDay_bounds y
  unfold daysBeforeMonth
  split <;> split <;> omega

theorem monthOf_spec {y d : Int} (hlow : 0 ≤ d) (hhigh : d < 365 + leapDay y) :
    (1 ≤ monthOf (leapDay y) d ∧ monthOf (leapDay y) d ≤ 12) ∧
      daysBeforeMonth y (monthOf (leapDay y) d) ≤ d ∧
        d < daysBeforeMonth y (monthOf (leapDay y) d + 1) := by
  have := leapDay_bounds y
  unfold monthOf daysBeforeMonth
  split
  next => split <;> split <;> omega
  next =>
    split
    next => split <;> split <;> omega
    next => split <;> split <;> omega

theorem monthOf_eq {y d m : Int} (hm : 1 ≤ m ∧ m ≤ 12) (hlow : daysBeforeMonth y m ≤ d)
    (hhigh : d < daysBeforeMonth y (m + 1)) : monthOf (leapDay y) d = m := by
  have hzero : 0 ≤ d := Int.le_trans (daysBeforeMonth_mono (y := y) (m := 1) hm.1) hlow
  have hend : d < 365 + leapDay y := by
    rw [← daysBeforeMonth_end]
    exact Int.lt_of_lt_of_le hhigh (daysBeforeMonth_mono (by omega))
  obtain ⟨-, hlow', hhigh'⟩ := monthOf_spec hzero hend
  by_contra hne
  rcases Int.lt_or_gt_of_ne hne with hlt | hgt
  · have := daysBeforeMonth_mono (y := y) (m := monthOf (leapDay y) d + 1) (k := m) (by omega)
    omega
  · have := daysBeforeMonth_mono (y := y) (m := m + 1) (k := monthOf (leapDay y) d) (by omega)
    omega

theorem date_spec : (1 ≤ (date n).month ∧ (date n).month ≤ 12) ∧ 1 ≤ (date n).day ∧
      dayNumber (date n).year (date n).month (date n).day = n ∧
        n < daysBeforeYear (date n).year + daysBeforeMonth (date n).year ((date n).month + 1) := by
  obtain ⟨hlow, hhigh⟩ := yearOf_spec n
  rw [daysBeforeYear_succ] at hhigh
  obtain ⟨hm, hlow', hhigh'⟩ :=
    monthOf_spec (y := yearOf n) (d := n - daysBeforeYear (yearOf n)) (by omega) (by omega)
  unfold date dayNumber
  dsimp only
  refine ⟨hm, ?_, ?_, ?_⟩ <;> omega

theorem date_eq {n y m : Int} (hm : 1 ≤ m ∧ m ≤ 12) (hlow : dayNumber y m 1 ≤ n)
    (hhigh : n < daysBeforeYear y + daysBeforeMonth y (m + 1)) :
    date n = ⟨y, m, n - dayNumber y m 1 + 1⟩ := by
  unfold dayNumber at hlow
  have hzero : daysBeforeMonth y 1 ≤ daysBeforeMonth y m := daysBeforeMonth_mono hm.1
  have hfirst : daysBeforeMonth y 1 = 0 := rfl
  have hend : daysBeforeMonth y (m + 1) ≤ daysBeforeMonth y 13 := daysBeforeMonth_mono (by omega)
  rw [daysBeforeMonth_end] at hend
  have hsucc := daysBeforeYear_succ y
  have hyear : yearOf n = y := yearOf_eq (by omega) (by omega)
  have hmonth : monthOf (leapDay y) (n - daysBeforeYear y) = m :=
    monthOf_eq hm (by omega) (by omega)
  unfold date dayNumber
  dsimp only
  rw [hyear, hmonth]
  congr 1
  omega

theorem leapDay_add_cycle (y k : Int) : leapDay (y + 400 * k) = leapDay y := by
  unfold leapDay
  have hfour : (y + 400 * k) % 4 = y % 4 := by omega
  have hhundred : (y + 400 * k) % 100 = y % 100 := by omega
  have hcycle : (y + 400 * k) % 400 = y % 400 := by omega
  rw [hfour, hhundred, hcycle]

theorem daysBeforeYear_add_cycle (y k : Int) :
    daysBeforeYear (y + 400 * k) = daysBeforeYear y + 146097 * k := by
  unfold daysBeforeYear
  omega

theorem daysBeforeMonth_add_cycle (y k m : Int) :
    daysBeforeMonth (y + 400 * k) m = daysBeforeMonth y m := by
  unfold daysBeforeMonth
  rw [leapDay_add_cycle]

theorem date_add_cycle (n k : Int) :
    date (n + 146097 * k) = ⟨(date n).year + 400 * k, (date n).month, (date n).day⟩ := by
  obtain ⟨hm, hd, hn, hlt⟩ := date_spec n
  unfold dayNumber at hn
  rw [date_eq (y := (date n).year + 400 * k) (m := (date n).month) hm]
  · unfold dayNumber
    rw [daysBeforeYear_add_cycle, daysBeforeMonth_add_cycle]
    congr 1
    omega
  · unfold dayNumber
    rw [daysBeforeYear_add_cycle, daysBeforeMonth_add_cycle]
    omega
  · rw [daysBeforeYear_add_cycle, daysBeforeMonth_add_cycle]
    omega

theorem weekdayOf_add_cycle (n k : Int) : weekdayOf (n + 146097 * k) = weekdayOf n := by
  unfold weekdayOf
  omega

/-- The instant of a date and a time of day, in seconds; what lies outside its unit is carried
over. -/
def instant (year month day hour minute second : Int) : Int :=
  dayNumber (year + (month - 1) / 12) ((month - 1) % 12 + 1) day * 86400 +
    hour * 3600 + minute * 60 + second

/-- The day of an instant. -/
def dayOf : Int := t / 86400

def hourOf : Int := t % 86400 / 3600

def minuteOf : Int := t % 3600 / 60

def secondOf : Int := t % 60

theorem dayOf_spec : dayOf t * 86400 ≤ t ∧ t < (dayOf t + 1) * 86400 := by
  unfold dayOf
  omega

theorem instant_of_month {m : Int} (hm : 1 ≤ m ∧ m ≤ 12) (y d h mi s : Int) :
    instant y m d h mi s = dayNumber y m d * 86400 + h * 3600 + mi * 60 + s := by
  have hyear : y + (m - 1) / 12 = y := by omega
  have hmonth : (m - 1) % 12 + 1 = m := by omega
  unfold instant
  rw [hyear, hmonth]

end Solocoder.Lib.Calendar
