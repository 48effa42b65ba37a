import SharpMutants.Text

/-!
# Moments

A moment is a date and a time of day on some clock, with the number of seconds by
which that clock is ahead of universal time.  Dates follow the Gregorian calendar
in all years; a moment is valid when its date and time exist and universal time
shows a year from `firstYear` to `lastYear`.
-/

namespace SharpMutants

/-- A date and a time of day. -/
structure Moment where
  year : Int
  month : Nat
  day : Nat
  hour : Nat
  minute : Nat
  second : Nat
  /-- Seconds by which the clock is ahead of universal time. -/
  offset : Int
deriving DecidableEq

namespace Moment

/-- The first year of the calendar. -/
def firstYear : Int := -262143

/-- The last year of the calendar. -/
def lastYear : Int := 262142

/-- Whether a year has a leap day. -/
def isLeap (year : Int) : Bool := year % 4 = 0 && (year % 100 ≠ 0 || year % 400 = 0)

/-- Number of days of a month; none for a number that names no month. -/
def daysIn (year : Int) (month : Nat) : Nat :=
  match month with
  | 1 | 3 | 5 | 7 | 8 | 10 | 12 => 31
  | 4 | 6 | 9 | 11 => 30
  | 2 => if isLeap year then 29 else 28
  | _ => 0

/-- The seconds of the day up to a moment. -/
def secondOfDay (t : Moment) : Int := (t.hour * 60 + t.minute) * 60 + t.second

/-- Whether universal time is before the first or after the last year. -/
def isOutside (t : Moment) : Bool :=
  let universal := t.secondOfDay - t.offset
  t.year < firstYear || lastYear < t.year ||
    (t.year = firstYear && t.month = 1 && t.day = 1 && universal < 0) ||
    (t.year = lastYear && t.month = 12 && t.day = 31 && 86400 ≤ universal)

/-- Whether there is such a moment. -/
def isValid (t : Moment) : Bool :=
  1 ≤ t.day && t.day ≤ daysIn t.year t.month && t.hour < 24 && t.minute < 60 && t.second < 60 &&
    -86400 < t.offset && t.offset < 86400 && !t.isOutside

/-- A number in at least so many digits. -/
def padded (width n : Nat) : Text :=
  let digits := Nat.toDigits 10 n
  List.replicate (width - digits.length) '0' ++ digits

/-- A year in at least four digits, with a sign unless it has exactly four. -/
def yearText (year : Int) : Text :=
  if year < 0 then '-' :: padded 4 year.natAbs
  else if year ≤ 9999 then padded 4 year.natAbs
  else '+' :: padded 4 year.natAbs

/-- Date and time in digits, the longest part first. -/
def digits (t : Moment) : Text :=
  yearText t.year ++ padded 2 t.month ++ padded 2 t.day ++ padded 2 t.hour ++
    padded 2 t.minute ++ padded 2 t.second

/-- The offset of the clock, in hours and minutes. -/
def offsetText (t : Moment) : Text :=
  let minutes := t.offset.natAbs / 60
  (if t.offset < 0 then '-' else '+') :: padded 2 (minutes / 60) ++ ':' :: padded 2 (minutes % 60)

/-- Date, time and offset with marks between them. -/
def render (t : Moment) : Text :=
  yearText t.year ++ '-' :: padded 2 t.month ++ '-' :: padded 2 t.day ++ 'T' :: padded 2 t.hour ++
    ':' :: padded 2 t.minute ++ ':' :: padded 2 t.second ++ t.offsetText

/-- The date that comes so many days after the first of January 1970.  Years are counted from
March on, so that a leap day is the last day of a year. -/
def dateOfDay (days : Int) : Int × Nat × Nat :=
  let shifted := days + 719468
  let era := shifted / 146097
  let dayOfEra := (shifted % 146097).toNat
  let yearOfEra :=
    (dayOfEra - dayOfEra / 1460 + dayOfEra / 36524 - dayOfEra / 146096) / 365
  let dayOfYear := dayOfEra - (365 * yearOfEra + yearOfEra / 4 - yearOfEra / 100)
  let place := (5 * dayOfYear + 2) / 153
  let day := dayOfYear - (153 * place + 2) / 5 + 1
  let month := if place < 10 then place + 3 else place - 9
  let year := era * 400 + yearOfEra
  (if month ≤ 2 then year + 1 else year, month, day)

/-- The moment on the clock of universal time that comes so many seconds after the start of
1970. -/
def ofSeconds (seconds : Int) : Moment :=
  let (year, month, day) := dateOfDay (seconds / 86400)
  let rest := (seconds % 86400).toNat
  ⟨year, month, day, rest / 3600, rest / 60 % 60, rest % 60, 0⟩

end Moment

end SharpMutants
