import Solocoder.Cron.Parser
import Solocoder.Lib.Calendar

/-!
# The next run of a cron expression

`NextTime` and `Matches` of `internal/cronsched` for UTC, where the adjustment for daylight saving
time changes nothing. Instants are in nanoseconds, candidates in seconds, since the year 1.
-/

namespace Solocoder.Cron

open Lib.Calendar

def isValidDay (year month day : Int) : Bool :=
  if day < 1 ∨ day > 31 then false
  else day ≤ (date (dayOf (instant year (month + 1) 0 0 0 0))).day

variable (expr : CronExpression)

/-- Whether the day is one of the expression, by its number in the month and in the week. -/
def CronExpression.dayMatches (day weekday : Int) : Bool :=
  let daySet := !isWildcard expr.day
  let weekdaySet := !isWildcard expr.weekday
  if daySet || weekdaySet then
    !(daySet && !expr.day.matches day) && !(weekdaySet && !expr.weekday.matches weekday)
  else expr.day.matches day && expr.weekday.matches weekday

/-- `CronExpression.Matches`, for a number of seconds. -/
def CronExpression.matchesSecond (t : Int) : Bool :=
  let d := date (dayOf t)
  !(expr.hasYear && !expr.year.matches d.year) && expr.month.matches d.month &&
    expr.dayMatches d.day (weekdayOf (dayOf t)) && expr.hour.matches (hourOf t) &&
    expr.minute.matches (minuteOf t) && expr.second.matches (secondOf t) &&
    isValidDay d.year d.month d.day

/-- The nanoseconds of a second. -/
def nanos : Int := 1000000000

def CronExpression.matches (t : Int) : Bool :=
  expr.matchesSecond (t / nanos)

/-- The loops of `NextTime` that look for an hour that exists on the day, up to the last one. -/
def seekHour (d : Date) (last : Int) : Nat → Int → Int → Int
  | 0, _, candidate => candidate
  | n + 1, targetHour, candidate =>
    if hourOf candidate ≠ targetHour ∧ date (dayOf candidate) = d then
      if targetHour + 1 > last then instant d.year d.month (d.day + 1) 0 0 0
      else seekHour d last n (targetHour + 1) (instant d.year d.month d.day (targetHour + 1) 0 0)
    else candidate

/-- The next candidate after one whose hour does not match. -/
def nextHour (d : Date) (hour : Int) : Int :=
  seekHour d 23 24 (hour + 1) (instant d.year d.month d.day (hour + 1) 0 0)

/-- The next candidate after one whose minute does not match. -/
def nextMinute (d : Date) (hour minute : Int) : Int :=
  let candidate := instant d.year d.month d.day hour (minute + 1) 0
  if hourOf candidate ≠ hour ∨ (date (dayOf candidate)).day ≠ d.day then
    seekHour d 24 24 (hour + 1) (instant d.year d.month d.day (hour + 1) 0 0)
  else candidate

/-- The next candidate after one whose second does not match. -/
def nextSecond (d : Date) (hour minute second : Int) : Int :=
  let candidate := instant d.year d.month d.day hour minute (second + 1)
  if minuteOf candidate ≠ minute ∨ hourOf candidate ≠ hour then
    let candidate := instant d.year d.month d.day hour (minute + 1) 0
    if hourOf candidate ≠ hour ∨ (date (dayOf candidate)).day ≠ d.day then
      instant d.year d.month d.day (hour + 1) 0 0
    else candidate
  else candidate

/-- One turn of the loop of `NextTimeWithConfig`: the next candidate, or none if the candidate is
the result. -/
def advance (candidate : Int) : Option Int :=
  let d := date (dayOf candidate)
  let hour := hourOf candidate
  let minute := minuteOf candidate
  let second := secondOf candidate
  if expr.hasYear && !expr.year.matches d.year then some (instant (d.year + 1) 1 1 0 0 0)
  else if !expr.month.matches d.month then
    if d.month = 12 then some (instant (d.year + 1) 1 1 0 0 0)
    else some (instant d.year (d.month + 1) 1 0 0 0)
  else if !expr.dayMatches d.day (weekdayOf (dayOf candidate)) then
    some (instant d.year d.month (d.day + 1) 0 0 0)
  else if !expr.hour.matches hour then some (nextHour d hour)
  else if !expr.minute.matches minute then some (nextMinute d hour minute)
  else if !expr.second.matches second then some (nextSecond d hour minute second)
  else if !isValidDay d.year d.month d.day then some (instant d.year d.month (d.day + 1) 0 0 0)
  else none

/-- The loop of `NextTimeWithConfig`. -/
def search (expr : CronExpression) : Nat → Int → Except Err Int
  | 0, _ => .error .noNextTime
  | i + 1, candidate =>
    match advance expr candidate with
    | some next => search expr i next
    | none => .ok candidate

/-- `NextTimeWithConfig`; the candidate is `from.Add(time.Second).Truncate(time.Second)`. -/
def nextTimeWithConfig (maxIterations : Nat) (expr : CronExpression) (start : Int) :
    Except Err Int :=
  (search expr maxIterations ((start + nanos) / nanos)).map (· * nanos)

/-- The `MaxIterations` of `DefaultConfig`. -/
def defaultMaxIterations : Nat := 366 * 24 * 60 * 60

def nextTime (start : Int) : Except Err Int :=
  nextTimeWithConfig defaultMaxIterations expr start

end Solocoder.Cron
