/-!
# Dates

Dates of the Gregorian calendar, extended to all years. The year before year one
is year zero.
-/

namespace Pagewright

structure Date where
  year : Int
  month : Nat
  day : Nat
  deriving DecidableEq, Repr

namespace Date

def isLeapYear (year : Int) : Bool :=
  year % 4 = 0 && (year % 100 ≠ 0 || year % 400 = 0)

def daysInMonth (year : Int) (month : Nat) : Nat :=
  if month = 2 then if isLeapYear year then 29 else 28
  else if month = 4 ∨ month = 6 ∨ month = 9 ∨ month = 11 then 30
  else 31

/-- The first and the last year that timestamps reach. -/
def yearRange : Int × Int :=
  (-262143, 262142)

/-- A date of the calendar. -/
def isValid (date : Date) : Bool :=
  yearRange.1 ≤ date.year && date.year ≤ yearRange.2
    && 1 ≤ date.month && date.month ≤ 12
    && 1 ≤ date.day && date.day ≤ daysInMonth date.year date.month

def next (date : Date) : Date :=
  if date.day < daysInMonth date.year date.month then { date with day := date.day + 1 }
  else if date.month < 12 then { date with month := date.month + 1, day := 1 }
  else ⟨date.year + 1, 1, 1⟩

def previous (date : Date) : Date :=
  if 1 < date.day then { date with day := date.day - 1 }
  else if 1 < date.month then
    { date with month := date.month - 1, day := daysInMonth date.year (date.month - 1) }
  else ⟨date.year - 1, 12, 31⟩

/-- The date that is some days after the first of March of year zero. Years are counted from March,
so that a leap day is the last day of its year, in eras of four hundred years. -/
def ofMarchDays (days : Int) : Date :=
  let era := days.fdiv 146097
  let dayOfEra := (days.fmod 146097).toNat
  let yearOfEra := (dayOfEra - dayOfEra / 1460 + dayOfEra / 36524 - dayOfEra / 146096) / 365
  let dayOfYear := dayOfEra - (365 * yearOfEra + yearOfEra / 4 - yearOfEra / 100)
  let shifted := (5 * dayOfYear + 2) / 153
  let day := dayOfYear - (153 * shifted + 2) / 5 + 1
  let month := if shifted < 10 then shifted + 3 else shifted - 9
  let year := era * 400 + yearOfEra + (if month ≤ 2 then 1 else 0)
  ⟨year, month, day⟩

/-- The date that is some days after the first of January 1970. -/
def ofUnixDays (days : Int) : Date :=
  ofMarchDays (days + 719468)

end Date

end Pagewright
