import Solocoder.Cron.Proofs.ParseProofs
import Solocoder.Cron.Scheduler

/-!
# `NextTime` finds the earliest match

Every jump of the search goes forward and over no match. The jumps of the first day are bounded by
its seconds, the later ones by days, and a year that is not in the expression takes one jump.
-/

namespace Solocoder.Cron

open Lib.Calendar CronExpression Lib.Text

/-! ## The candidates of one turn -/

theorem instant_yearStart (y : Int) : instant y 1 1 0 0 0 = daysBeforeYear y * 86400 := by
  rw [instant_of_month (by decide)]
  unfold dayNumber daysBeforeMonth
  omega

theorem instant_date (n h mi s : Int) : instant (date n).year (date n).month (date n).day h mi s =
      n * 86400 + h * 3600 + mi * 60 + s := by
  obtain ⟨hm, -, hn, -⟩ := date_spec n
  rw [instant_of_month hm, hn]

theorem instant_nextDay (n : Int) :
    instant (date n).year (date n).month ((date n).day + 1) 0 0 0 = (n + 1) * 86400 := by
  obtain ⟨hm, -, hn, -⟩ := date_spec n
  rw [instant_of_month hm]
  unfold dayNumber at hn ⊢
  omega

def monthEnd (d : Date) : Int :=
  (daysBeforeYear d.year + daysBeforeMonth d.year (d.month + 1)) * 86400

theorem dayNumber_carry {m : Int} (hm : 1 ≤ m ∧ m ≤ 12) (y d : Int) :
    dayNumber (y + (m + 1 - 1) / 12) ((m + 1 - 1) % 12 + 1) d =
      daysBeforeYear y + daysBeforeMonth y (m + 1) + (d - 1) := by
  unfold dayNumber
  by_cases hlast : m = 12
  · subst hlast
    have hyear := daysBeforeYear_succ y
    have hmonth := daysBeforeMonth_end y
    have hfirst : daysBeforeMonth (y + 1) 1 = 0 := rfl
    rw [show y + (12 + 1 - 1) / 12 = y + 1 from rfl,
      show ((12 : Int) + 1 - 1) % 12 + 1 = 1 from rfl, show (12 : Int) + 1 = 13 from rfl]
    omega
  · have hyear : y + (m + 1 - 1) / 12 = y := by omega
    have hmonth : (m + 1 - 1) % 12 + 1 = m + 1 := by omega
    rw [hyear, hmonth]

theorem instant_nextMonth {d : Date} (hm : 1 ≤ d.month ∧ d.month ≤ 12) :
    (if d.month = 12 then some (instant (d.year + 1) 1 1 0 0 0)
      else some (instant d.year (d.month + 1) 1 0 0 0)) = some (monthEnd d) := by
  have hcarry := dayNumber_carry hm d.year 1
  unfold monthEnd
  split
  next hlast =>
    rw [hlast, instant_yearStart, daysBeforeYear_succ, show (12 : Int) + 1 = 13 from rfl,
      daysBeforeMonth_end]
    congr 1
    omega
  next hlast =>
    unfold instant
    congr 1
    omega

variable {n hour minute start : Int} {i : Nat} {e : Err}

theorem clock_eq {m s : Int} (hhour : 0 ≤ hour ∧ hour ≤ 23) (hm : 0 ≤ m ∧ m ≤ 59)
    (hs : 0 ≤ s ∧ s ≤ 59) : dayOf (n * 86400 + hour * 3600 + m * 60 + s) = n ∧
      hourOf (n * 86400 + hour * 3600 + m * 60 + s) = hour ∧
      minuteOf (n * 86400 + hour * 3600 + m * 60 + s) = m ∧
      secondOf (n * 86400 + hour * 3600 + m * 60 + s) = s := by
  unfold dayOf hourOf minuteOf secondOf
  omega

theorem date_injective {k : Int} (h : date n = date k) : n = k := by
  rw [← (date_spec n).2.2.1, ← (date_spec k).2.2.1, h]

theorem seekHour_eq {last : Int} (fuel : Nat) : seekHour (date n) last fuel (hour + 1)
        (instant (date n).year (date n).month (date n).day (hour + 1) 0 0) =
      n * 86400 + (hour + 1) * 3600 := by
  rw [instant_date]
  cases fuel with
  | zero =>
    unfold seekHour
    omega
  | succ fuel =>
    unfold seekHour
    rw [if_neg]
    · omega
    rintro ⟨hne, hsame⟩
    have hday := date_injective hsame
    unfold hourOf dayOf at *
    omega

theorem nextHour_eq : nextHour (date n) hour = n * 86400 + (hour + 1) * 3600 :=
  seekHour_eq 24

section

variable (hhour : 0 ≤ hour ∧ hour ≤ 23)
include hhour

variable (hminute : 0 ≤ minute ∧ minute ≤ 59)
include hminute

theorem minute_eq_of_over
    (hover : hourOf (n * 86400 + hour * 3600 + (minute + 1) * 60 + 0) ≠ hour ∨ (date (dayOf (n *
      86400 + hour * 3600 + (minute + 1) * 60 + 0))).day ≠ (date n).day) : minute = 59 := by
  by_contra hne
  obtain ⟨hday, hsame, -⟩ := clock_eq (n := n) (m := minute + 1) (s := 0) hhour (by omega) (by decide)
  rw [hsame, hday] at hover
  simp at hover

theorem nextMinute_eq :
    nextMinute (date n) hour minute = n * 86400 + hour * 3600 + (minute + 1) * 60 := by
  unfold nextMinute
  dsimp only
  rw [seekHour_eq, instant_date]
  split
  next hover =>
    have hlast := minute_eq_of_over hhour hminute hover
    omega
  next => omega

theorem nextSecond_eq {second : Int} (hsecond : 0 ≤ second ∧ second ≤ 59) :
    nextSecond (date n) hour minute second =
      n * 86400 + hour * 3600 + minute * 60 + (second + 1) := by
  unfold nextSecond
  dsimp only
  rw [instant_date, instant_date, instant_date]
  split
  next hover =>
    have hsecond' : second = 59 := by
      unfold minuteOf hourOf at hover
      omega
    split
    next hover' =>
      have hminute' := minute_eq_of_over hhour hminute hover'
      omega
    next => omega
  next => rfl

end

/-! ## What one turn does -/

/-- The date and the day of the week are those of the expression. -/
def CronExpression.allowsDay (expr : CronExpression) (n : Int) : Bool :=
  !(expr.hasYear && !expr.year.matches (date n).year) && expr.month.matches (date n).month &&
    expr.dayMatches (date n).day (weekdayOf n)

theorem isValidDay_date (n : Int) :
    isValidDay (date n).year (date n).month (date n).day = true := by
  obtain ⟨hm, hd, hn, hlt⟩ := date_spec n
  have hspan : daysBeforeMonth (date n).year ((date n).month + 1) ≤
      daysBeforeMonth (date n).year (date n).month + 31 := by
    have := leapDay_bounds (date n).year
    unfold daysBeforeMonth
    split <;> split <;> omega
  unfold dayNumber at hn
  -- day 0 of the next month is the last day of this one
  have hlast : dayOf (instant (date n).year ((date n).month + 1) 0 0 0 0) =
      daysBeforeYear (date n).year + daysBeforeMonth (date n).year ((date n).month + 1) - 1 := by
    unfold instant dayOf
    rw [dayNumber_carry hm]
    omega
  have hdate := date_eq (y := (date n).year) (m := (date n).month)
    (n := daysBeforeYear (date n).year + daysBeforeMonth (date n).year ((date n).month + 1) - 1) hm
    (by unfold dayNumber; omega) (by omega)
  unfold isValidDay
  rw [if_neg (by omega), hlast, hdate, decide_eq_true_eq]
  unfold dayNumber
  dsimp only
  omega

theorem CronExpression.matchesSecond_eq (expr : CronExpression) (t : Int) :
    expr.matchesSecond t = (expr.allowsDay (dayOf t) && (expr.hour.matches (hourOf t) &&
      (expr.minute.matches (minuteOf t) && expr.second.matches (secondOf t)))) := by
  unfold matchesSecond allowsDay
  dsimp only
  rw [isValidDay_date, Bool.and_true, Bool.and_assoc, Bool.and_assoc]

/-- What one turn of the search can do: it jumps to the next year, month, day, hour, minute or
second, because that of the candidate is not in the expression. -/
inductive Jump (expr : CronExpression) (c : Int) : Int → Prop
  | year (hyear : expr.hasYear = true) (h : expr.year.matches (date (dayOf c)).year = false) :
      Jump expr c (daysBeforeYear ((date (dayOf c)).year + 1) * 86400)
  | month (h : expr.month.matches (date (dayOf c)).month = false) :
      Jump expr c (monthEnd (date (dayOf c)))
  | day (h : expr.dayMatches (date (dayOf c)).day (weekdayOf (dayOf c)) = false) :
      Jump expr c ((dayOf c + 1) * 86400)
  | hour (hday : expr.allowsDay (dayOf c) = true) (h : expr.hour.matches (hourOf c) = false) :
      Jump expr c ((c / 3600 + 1) * 3600)
  | minute (hday : expr.allowsDay (dayOf c) = true) (h : expr.minute.matches (minuteOf c) = false) :
      Jump expr c ((c / 60 + 1) * 60)
  | second (hday : expr.allowsDay (dayOf c) = true) (h : expr.second.matches (secondOf c) = false) :
      Jump expr c (c + 1)

variable {expr : CronExpression} {c next t : Int}

theorem jump_of_advance (h : advance expr c = some next) : Jump expr c next := by
  obtain ⟨hhour, hminute, hsecond⟩ : (0 ≤ hourOf c ∧ hourOf c ≤ 23) ∧
      (0 ≤ minuteOf c ∧ minuteOf c ≤ 59) ∧ 0 ≤ secondOf c ∧ secondOf c ≤ 59 := by
    unfold hourOf minuteOf secondOf
    omega
  obtain ⟨hnextHour, hnextMinute, hnextSecond⟩ :
      dayOf c * 86400 + (hourOf c + 1) * 3600 = (c / 3600 + 1) * 3600 ∧
        dayOf c * 86400 + hourOf c * 3600 + (minuteOf c + 1) * 60 = (c / 60 + 1) * 60 ∧
        dayOf c * 86400 + hourOf c * 3600 + minuteOf c * 60 + (secondOf c + 1) = c + 1 := by
    unfold dayOf hourOf minuteOf secondOf
    omega
  unfold advance at h
  dsimp only at h
  rw [nextHour_eq, nextMinute_eq hhour hminute, nextSecond_eq hhour hminute hsecond,
    instant_nextDay, instant_nextMonth (date_spec _).1, instant_yearStart, isValidDay_date,
    hnextHour, hnextMinute, hnextSecond, Bool.not_true, if_neg Bool.false_ne_true] at h
  split_ifs at h with hyear hmonth hday hbad hbad hbad
  · cases h
    rw [Bool.and_eq_true, Bool.not_eq_true'] at hyear
    exact .year hyear.1 hyear.2
  · cases h
    exact .month (by simpa using hmonth)
  · cases h
    exact .day (by simpa using hday)
  all_goals
    have hallows : expr.allowsDay (dayOf c) = true := by
      rw [allowsDay, Bool.eq_false_iff.2 hyear]
      simpa using And.intro hmonth hday
    cases h
  · exact .hour hallows (by simpa using hbad)
  · exact .minute hallows (by simpa using hbad)
  · exact .second hallows (by simpa using hbad)

theorem matches_of_advance (h : advance expr c = none) : expr.matchesSecond c = true := by
  rw [matchesSecond_eq]
  unfold advance at h
  unfold allowsDay
  dsimp only at h
  split_ifs at h with h1 h2 h3 h4 h5 h6 h7 h8
  simp only [Bool.not_eq_true', Bool.not_eq_false] at h2 h4 h5 h6 h7
  rw [Bool.eq_false_iff.2 h1, h2, h4, h5, h6, h7]
  rfl

theorem monthEnd_spec (n : Int) : (n + 1) * 86400 ≤ monthEnd (date n) := by
  have := (date_spec n).2.2.2
  unfold monthEnd
  omega

theorem yearEnd_spec (n : Int) : (n + 1) * 86400 ≤ daysBeforeYear ((date n).year + 1) * 86400 := by
  have hyear : n < daysBeforeYear ((date n).year + 1) := (yearOf_spec n).2
  omega

namespace Jump

theorem lt (h : Jump expr c next) : c < next := by
  have hyear := yearEnd_spec (dayOf c)
  have hmonth := monthEnd_spec (dayOf c)
  have hspan := dayOf_spec c
  cases h <;> omega

theorem lands (h : Jump expr c next) :
    dayOf next = dayOf c ∨ ∃ n, dayOf c < n ∧ next = n * 86400 := by
  have hyear := yearEnd_spec (dayOf c)
  have hmonth := monthEnd_spec (dayOf c)
  cases h with
  | year => exact .inr ⟨_, by omega, rfl⟩
  | month =>
    unfold monthEnd at *
    exact .inr ⟨_, by omega, rfl⟩
  | day => exact .inr ⟨_, by omega, rfl⟩
  | hour | minute | second =>
    refine or_iff_not_imp_left.2 fun hne => ⟨dayOf c + 1, by omega, ?_⟩
    unfold dayOf at *
    omega

theorem skips (h : Jump expr c next) (hc : c ≤ t) (ht : t < next) :
    expr.matchesSecond t = false := by
  rw [matchesSecond_eq]
  have hday : dayOf c ≤ dayOf t := Int.ediv_le_ediv (by decide) hc
  obtain ⟨hm, hd, hn, -⟩ := date_spec (dayOf c)
  cases h with
  | year hyear h =>
    have hsame : (date (dayOf t)).year = (date (dayOf c)).year := by
      refine yearOf_eq (Int.le_trans (yearOf_spec (dayOf c)).1 hday) ?_
      unfold dayOf at *
      omega
    rw [allowsDay, hsame, hyear, h]
    rfl
  | month h =>
    have hsame : (date (dayOf t)).month = (date (dayOf c)).month := by
      rw [date_eq (n := dayOf t) (y := (date (dayOf c)).year) (m := (date (dayOf c)).month) hm]
      · unfold dayNumber at *
        omega
      · unfold monthEnd dayOf at *
        omega
    rw [allowsDay, hsame, h, Bool.and_false, Bool.false_and, Bool.false_and]
  | day h =>
    have hsame : dayOf t = dayOf c := by
      unfold dayOf at *
      omega
    rw [allowsDay, hsame, h, Bool.and_false, Bool.false_and]
  | hour _ h =>
    have hsame : hourOf t = hourOf c := by
      unfold hourOf
      omega
    rw [hsame, h, Bool.false_and, Bool.and_false]
  | minute _ h =>
    have hsame : minuteOf t = minuteOf c := by
      unfold minuteOf
      omega
    rw [hsame, h, Bool.false_and, Bool.and_false, Bool.and_false]
  | second _ h =>
    have hsame : t = c := by omega
    rw [hsame, h, Bool.and_false, Bool.and_false, Bool.and_false]

theorem le_of_matches (h : Jump expr c next) (hc : c ≤ t) (ht : expr.matchesSecond t = true) :
    next ≤ t := by
  by_contra hlt
  rw [h.skips hc (Int.not_le.1 hlt)] at ht
  cases ht

end Jump

/-! ## The search -/

theorem search_ok (h : search expr i c = .ok t) :
    c ≤ t ∧ expr.matchesSecond t = true ∧ ∀ u, c ≤ u → u < t → expr.matchesSecond u = false := by
  induction i generalizing c with
  | zero => cases h
  | succ i ih =>
    unfold search at h
    split at h
    next next hnext =>
      have hjump := jump_of_advance hnext
      obtain ⟨hle, hmatch, hskip⟩ := ih h
      refine ⟨Int.le_trans (Int.le_of_lt hjump.lt) hle, hmatch, fun u hc hu => ?_⟩
      by_cases hbefore : u < next
      · exact hjump.skips hc hbefore
      · exact hskip u (Int.not_lt.1 hbefore) hu
    next hnone =>
      cases h
      exact ⟨Int.le_refl _, matches_of_advance hnone, fun u hc hu => absurd hu (by omega)⟩

theorem search_error (h : search expr i c = .error e) : e = .noNextTime := by
  induction i generalizing c with
  | zero =>
    cases h
    rfl
  | succ i ih =>
    unfold search at h
    split at h
    next => exact ih h
    next => cases h

def Succeeds (expr : CronExpression) (i : Nat) (c : Int) : Prop := ∃ t, search expr i c = .ok t

theorem Succeeds.of_jump (h : ∀ next, Jump expr c next → Succeeds expr i next) :
    Succeeds expr (i + 1) c := by
  unfold Succeeds search
  cases hnext : advance expr c with
  | none => exact ⟨c, rfl⟩
  | some next => exact h next (jump_of_advance hnext)

theorem succeeds_of_seconds (ht : expr.matchesSecond t = true) (hc : c ≤ t) (hi : t - c < i) :
    Succeeds expr i c := by
  induction i generalizing c with
  | zero => omega
  | succ i ih =>
    apply Succeeds.of_jump
    intro next hjump
    have hlt := hjump.lt
    exact ih (hjump.le_of_matches hc ht) (by omega)

theorem exists_matches_on (hwf : expr.WellFormed) (hday : expr.allowsDay n = true) :
    ∃ t, n * 86400 ≤ t ∧ t < (n + 1) * 86400 ∧ expr.matchesSecond t = true := by
  obtain ⟨h, hlow, hhigh, hmatch⟩ := hwf.hour.exists_matches (by decide)
  obtain ⟨m, hlow', hhigh', hmatch'⟩ := hwf.minute.exists_matches (by decide)
  obtain ⟨s, hlow'', hhigh'', hmatch''⟩ := hwf.second.exists_matches (by decide)
  refine ⟨n * 86400 + h * 3600 + m * 60 + s, by omega, by omega, ?_⟩
  obtain ⟨hn, hh, hm, hs⟩ := clock_eq (n := n) ⟨hlow, hhigh⟩ ⟨hlow', hhigh'⟩ ⟨hlow'', hhigh''⟩
  rw [matchesSecond_eq, hn, hh, hm, hs, hday, hmatch, hmatch', hmatch'']
  rfl

/-- A jump from the first instant of a day that is not in the expression leads to the first instant
of a later one. -/
theorem Jump.lands_of_not_allowsDay (hday : expr.allowsDay n = false)
    (h : Jump expr (n * 86400) next) : ∃ k, n < k ∧ next = k * 86400 := by
  have hn : dayOf (n * 86400) = n := by
    unfold dayOf
    omega
  rcases h.lands with hsame | hlater
  · have hlt := h.lt
    have hmonth := monthEnd_spec n
    cases h with
    | year | month | day =>
      rw [hn] at *
      unfold dayOf at hsame
      omega
    | hour h | minute h | second h =>
      rw [hn, hday] at h
      cases h
  · rw [hn] at hlater
    exact hlater

theorem succeeds_of_days (hwf : expr.WellFormed) (ht : expr.matchesSecond t = true)
    (hn : n ≤ dayOf t) (hi : dayOf t - n + 86400 ≤ i) : Succeeds expr i (n * 86400) := by
  induction i generalizing n with
  | zero => omega
  | succ i ih =>
    cases hday : expr.allowsDay n with
    | true =>
      obtain ⟨u, hlow, hhigh, hu⟩ := exists_matches_on hwf hday
      exact succeeds_of_seconds hu hlow (by omega)
    | false =>
      apply Succeeds.of_jump
      intro next hjump
      have hle := hjump.le_of_matches (t := t) (by unfold dayOf at hn; omega) ht
      obtain ⟨k, hk, rfl⟩ := hjump.lands_of_not_allowsDay hday
      exact ih (by unfold dayOf; omega) (by omega)

theorem succeeds_of_firstDay (hwf : expr.WellFormed) (ht : expr.matchesSecond t = true) (hc : c ≤ t)
    (hi : (dayOf c + 1) * 86400 - c + (dayOf t - dayOf c) + 86400 ≤ i) : Succeeds expr i c := by
  induction i generalizing c with
  | zero =>
    unfold dayOf at hi
    omega
  | succ i ih =>
    apply Succeeds.of_jump
    intro next hjump
    have hlt := hjump.lt
    have hle := hjump.le_of_matches hc ht
    rcases hjump.lands with hsame | ⟨n, hn, rfl⟩
    · exact ih hle (by omega)
    · exact succeeds_of_days hwf ht (by unfold dayOf; omega) (by unfold dayOf at *; omega)

/-! ## Years -/

/-- The year of a time. -/
def yearAt (t : Int) : Int := yearOf (dayOf t)

theorem yearAt_mono {t u : Int} (h : t ≤ u) : yearAt t ≤ yearAt u :=
  yearOf_mono (Int.ediv_le_ediv (by decide) h)

theorem advance_of_year (hyear : expr.hasYear = true) (h : expr.year.matches (yearAt c) = false) :
    advance expr c = some (daysBeforeYear (yearAt c + 1) * 86400) := by
  have hbad : (expr.hasYear && !expr.year.matches (date (dayOf c)).year) = true := by
    rw [hyear, show (date (dayOf c)).year = yearAt c from rfl, h]
    rfl
  unfold advance
  dsimp only
  rw [hbad, instant_yearStart]
  rfl

theorem yearAt_yearStart (y : Int) : yearAt (daysBeforeYear y * 86400) = y := by
  have hday : dayOf (daysBeforeYear y * 86400) = daysBeforeYear y := by
    unfold dayOf
    omega
  have hsucc := daysBeforeYear_succ y
  have hleap := leapDay_bounds y
  unfold yearAt
  rw [hday]
  exact yearOf_eq (Int.le_refl _) (by omega)

theorem search_of_years (hyear : expr.hasYear = true)
    (h : ∀ y, yearAt c ≤ y → y < yearAt c + i → expr.year.matches y = false) :
    search expr i c = .error .noNextTime := by
  induction i generalizing c with
  | zero => rfl
  | succ i ih =>
    unfold search
    rw [advance_of_year hyear (h _ (Int.le_refl _) (by omega))]
    apply ih
    intro y hlow hhigh
    rw [yearAt_yearStart] at hlow hhigh
    exact h y (by omega) (by omega)

theorem year_matches_of_matches (hyear : expr.hasYear = true) (ht : expr.matchesSecond t = true) :
    expr.year.matches (yearAt t) = true := by
  rw [matchesSecond_eq, allowsDay, hyear] at ht
  simp only [Bool.and_eq_true, Bool.true_and, Bool.not_not] at ht
  exact ht.1.1.1

theorem days_between {t u : Int} (ht : 1970 ≤ yearAt t) (hu : yearAt u ≤ 2100) :
    dayOf u - dayOf t ≤ 47847 := by
  have hlow := Int.le_trans (daysBeforeYear_mono ht) (yearOf_spec (dayOf t)).1
  have hhigh := Int.lt_of_lt_of_le (yearOf_spec (dayOf u)).2
    (daysBeforeYear_mono (y := yearAt u + 1) (z := 2101) (by omega))
  have hspan : daysBeforeYear 2101 - daysBeforeYear 1970 = 47847 := by decide
  omega

/-- A year that is not in the expression takes one turn, and those that are lie together. -/
theorem succeeds_of_years (hwf : expr.WellFormed) (hyear : expr.hasYear = true)
    (hwild : .wildcard ∉ expr.year.values) (ht : expr.matchesSecond t = true) (hc : c ≤ t)
    (hi : yearAt t - yearAt c + 220647 ≤ i) : Succeeds expr i c := by
  have hlast := hwf.year.of_matches hwild (year_matches_of_matches hyear ht)
  induction i generalizing c with
  | zero =>
    have := yearAt_mono hc
    omega
  | succ i ih =>
    cases hmatch : expr.year.matches (yearAt c) with
    | true =>
      have hfirst := hwf.year.of_matches hwild hmatch
      have hdays := days_between hfirst.1 hlast.2
      have hspan := dayOf_spec c
      have hmono := yearAt_mono hc
      exact succeeds_of_firstDay hwf ht hc (by omega)
    | false =>
      have hadvance := advance_of_year hyear hmatch
      have hle := (jump_of_advance hadvance).le_of_matches hc ht
      obtain ⟨r, hr⟩ := ih hle (by rw [yearAt_yearStart]; omega)
      refine ⟨r, ?_⟩
      unfold search
      rw [hadvance]
      exact hr

/-! ## Expressions for every year -/

/-- The expression restricts no year. -/
def CronExpression.EveryYear (expr : CronExpression) : Prop :=
  expr.hasYear = false ∨ .wildcard ∈ expr.year.values

theorem CronExpression.EveryYear.allows (h : expr.EveryYear) (y : Int) :
    (expr.hasYear && !expr.year.matches y) = false := by
  rcases h with h | h
  · rw [h, Bool.false_and]
  · rw [CronField.matches_of_wildcard h, Bool.not_true, Bool.and_false]

theorem matchesSecond_add_cycle (h : expr.EveryYear) (t k : Int) :
    expr.matchesSecond (t + 146097 * 86400 * k) = expr.matchesSecond t := by
  obtain ⟨hday, hhour, hminute, hsecond⟩ :
      dayOf (t + 146097 * 86400 * k) = dayOf t + 146097 * k ∧
        hourOf (t + 146097 * 86400 * k) = hourOf t ∧
        minuteOf (t + 146097 * 86400 * k) = minuteOf t ∧
        secondOf (t + 146097 * 86400 * k) = secondOf t := by
    unfold dayOf hourOf minuteOf secondOf
    omega
  rw [matchesSecond_eq, matchesSecond_eq, hday, hhour, hminute, hsecond]
  unfold allowsDay
  rw [date_add_cycle, weekdayOf_add_cycle, h.allows, h.allows]

theorem succeeds_of_everyYear (hwf : expr.WellFormed) (h : expr.EveryYear)
    (ht : expr.matchesSecond t = true) (hi : 400000 ≤ i) : Succeeds expr i c := by
  -- the first match of the cycle that begins with the candidate
  have hmatch := matchesSecond_add_cycle h (c + (t - c) % (146097 * 86400))
    ((t - c) / (146097 * 86400))
  have hsame :
      c + (t - c) % (146097 * 86400) + 146097 * 86400 * ((t - c) / (146097 * 86400)) = t := by
    omega
  rw [hsame, ht] at hmatch
  refine succeeds_of_firstDay hwf hmatch.symm (by omega) ?_
  unfold dayOf at *
  omega

/-! ## The result -/

theorem nextTime_eq_ok (expr : CronExpression) (start t : Int) : nextTime expr start = .ok t ↔
    ∃ r, search expr defaultMaxIterations ((start + nanos) / nanos) = .ok r ∧ t = r * nanos := by
  unfold nextTime nextTimeWithConfig
  cases search expr defaultMaxIterations ((start + nanos) / nanos) with
  | error e => exact ⟨nofun, nofun⟩
  | ok r => simp [Except.map, eq_comm]

theorem nextTime_error (h : nextTime expr start = .error e) : e = .noNextTime := by
  unfold nextTime nextTimeWithConfig at h
  cases hsearch : search expr defaultMaxIterations ((start + nanos) / nanos) with
  | error e' =>
    rw [hsearch] at h
    cases h
    exact search_error hsearch
  | ok r =>
    rw [hsearch] at h
    cases h

/-- `NextTime` returns the earliest whole second after `start` that matches. After `ErrNoNextTime`
none matches within 31 400 000 years, and none at all if the expression is for every year. -/
theorem nextTime_earliest {text : Str} {expr : CronExpression}
    (hparse : parse text = .ok expr) (start : Int) :
    (∀ t, nextTime expr start = .ok t → start < t ∧ t % nanos = 0 ∧ expr.matches t = true ∧
        ∀ u, start < u → u < t → u % nanos = 0 → expr.matches u = false) ∧
    (nextTime expr start = .error .noNextTime → ∀ u, start / nanos < u / nanos →
      (expr.EveryYear ∨ yearAt (u / nanos) ≤ yearAt (start / nanos) + 31400000) →
        expr.matches u = false) := by
  have hwf := parse_wellFormed hparse
  constructor
  · intro t ht
    obtain ⟨r, hr, rfl⟩ := (nextTime_eq_ok _ _ _).1 ht
    obtain ⟨hle, hmatch, hskip⟩ := search_ok hr
    unfold CronExpression.matches
    unfold nanos at *
    refine ⟨by omega, by omega, ?_, fun u hlow hhigh hwhole => hskip _ (by omega) (by omega)⟩
    rw [Int.mul_ediv_cancel _ (by decide)]
    exact hmatch
  · intro hnone u hu hreach
    have hfail : ¬ Succeeds expr defaultMaxIterations ((start + nanos) / nanos) := by
      rintro ⟨r, hr⟩
      rw [(nextTime_eq_ok _ _ _).2 ⟨r, hr, rfl⟩] at hnone
      cases hnone
    have hc : (start + nanos) / nanos ≤ u / nanos := by
      unfold nanos at *
      omega
    have hstart : start / nanos ≤ (start + nanos) / nanos := by
      unfold nanos
      omega
    by_contra hmatch
    rw [Bool.not_eq_false] at hmatch
    apply hfail
    by_cases hevery : expr.EveryYear
    · exact succeeds_of_everyYear hwf hevery hmatch (by unfold defaultMaxIterations; omega)
    · have hreach := hreach.resolve_left hevery
      have hmono := yearAt_mono hstart
      rw [EveryYear, not_or, Bool.not_eq_false] at hevery
      exact succeeds_of_years hwf hevery.1 hevery.2 hmatch hc
        (by unfold defaultMaxIterations; omega)

/-- The expression for the first instant of 1970. -/
def newYear1970 : CronExpression where
  raw := str "0 0 0 1 1 * 1970"
  second := ⟨.second, str "0", [.single 0], 0, 59⟩
  minute := ⟨.minute, str "0", [.single 0], 0, 59⟩
  hour := ⟨.hour, str "0", [.single 0], 0, 23⟩
  day := ⟨.day, str "1", [.single 1], 1, 31⟩
  month := ⟨.month, str "1", [.single 1], 1, 12⟩
  weekday := ⟨.weekday, str "*", [.wildcard], 0, 6⟩
  year := ⟨.year, str "1970", [.single 1970], 1970, 2100⟩
  hasYear := true

theorem parse_newYear1970 : parse (str "0 0 0 1 1 * 1970") = .ok newYear1970 := by
  decide

def unixStart : Int := 62135596800

theorem newYear1970_matches : newYear1970.matches (unixStart * nanos) = true := by decide

theorem eq_of_newYear1970_matches (h : newYear1970.matchesSecond t = true) : t = unixStart := by
  rw [matchesSecond_eq] at h
  simp [allowsDay, dayMatches, newYear1970, isWildcard,
    CronField.matches, FieldValue.matches] at h
  obtain ⟨⟨⟨hyear, hmonth⟩, hday⟩, hhour, hminute, hsecond⟩ := h
  have hnumber := (date_spec (dayOf t)).2.2.1
  rw [hyear, hmonth, hday, show dayNumber 1970 1 1 = 719162 from by decide] at hnumber
  unfold dayOf hourOf minuteOf secondOf unixStart at *
  omega

/-- From 31 700 000 years earlier the search stops at its limit before the match; and an instant
within the second of `start` can match when no later second does. -/
theorem not_nextTime_earliest_limit : ∃ expr, parse (str "0 0 0 1 1 * 1970") = .ok expr ∧
      (∃ start u, start < u ∧ u % nanos = 0 ∧ expr.matches u = true ∧
        nextTime expr start = .error .noNextTime) ∧
      ∃ start u, start < u ∧ expr.matches u = true ∧ nextTime expr start = .error .noNextTime := by
  refine ⟨newYear1970, parse_newYear1970, ⟨daysBeforeYear (-31700000) * 86400 * nanos,
    unixStart * nanos, by decide, by decide, newYear1970_matches, ?_⟩,
    unixStart * nanos, unixStart * nanos + 1, by decide, by decide, ?_⟩
  · have hcandidate : (daysBeforeYear (-31700000) * 86400 * nanos + nanos) / nanos =
        daysBeforeYear (-31700000) * 86400 + 1 := by decide
    have hyear : yearAt (daysBeforeYear (-31700000) * 86400 + 1) = -31700000 := by decide
    unfold nextTime nextTimeWithConfig
    rw [hcandidate, search_of_years rfl]
    · rfl
    intro y _ hhigh
    unfold defaultMaxIterations at hhigh
    have hne : y ≠ 1970 := by omega
    simpa [newYear1970, CronField.matches, FieldValue.matches] using hne
  · cases hnext : nextTime newYear1970 (unixStart * nanos) with
    | error e => rw [nextTime_error hnext]
    | ok t =>
      obtain ⟨r, hr, rfl⟩ := (nextTime_eq_ok _ _ _).1 hnext
      obtain ⟨hle, hmatch, -⟩ := search_ok hr
      rw [eq_of_newYear1970_matches hmatch] at hle
      exact absurd hle (by decide)

theorem nextTime_earliest_newYear : parse (str "0 0 0 1 1 * 1970") = .ok newYear1970 ∧
      nextTime newYear1970 ((unixStart - 1) * nanos) = .ok (unixStart * nanos) ∧
      ∀ u, (unixStart - 1) * nanos < u → u < unixStart * nanos → u % nanos = 0 →
        newYear1970.matches u = false := by
  have hnext : nextTime newYear1970 ((unixStart - 1) * nanos) = .ok (unixStart * nanos) := by
    rfl
  exact ⟨parse_newYear1970, hnext, ((nextTime_earliest parse_newYear1970 _).1 _ hnext).2.2.2⟩

end Solocoder.Cron
