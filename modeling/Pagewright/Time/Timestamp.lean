import Pagewright.Expression.Number
import Pagewright.Text.Blank
import Pagewright.Time.Date

/-!
# Timestamps

A timestamp is a date and a time of day in universal time, to the nanosecond.
A sixtieth second is a leap second. It is written with a `T` between date and
time, a fraction of as few digits as are exact, in groups of three, and a `Z`.

The reader takes more than the writer writes: fields of fewer digits, blanks
between the parts, a blank in place of the `T`, and times with an offset, which
it turns into universal time. Digits of the fraction behind the ninth are
dropped.
-/

namespace Pagewright

structure Timestamp where
  date : Date
  hour : Nat
  minute : Nat
  second : Nat
  nanosecond : Nat
  deriving DecidableEq, Repr

namespace Timestamp

/-! ### Writing -/

/-- Decimal digits, with zeros in front up to a width. -/
def padded (width value : Nat) : List Char :=
  let digits := Nat.toDigits 10 value
  List.replicate (width - digits.length) '0' ++ digits

/-- A year; one that does not have four digits gets a sign. -/
def renderYear (year : Int) : List Char :=
  if 0 ≤ year ∧ year ≤ 9999 then padded 4 year.toNat
  else if 0 ≤ year then '+' :: padded 4 year.toNat
  else '-' :: padded 4 (-year).toNat

/-- The fraction of a second. -/
def renderFraction (nanosecond : Nat) : List Char :=
  if nanosecond = 0 then []
  else if nanosecond % 1000000 = 0 then '.' :: padded 3 (nanosecond / 1000000)
  else if nanosecond % 1000 = 0 then '.' :: padded 6 (nanosecond / 1000)
  else '.' :: padded 9 nanosecond

def render (timestamp : Timestamp) : String :=
  String.ofList
    (renderYear timestamp.date.year ++ '-' :: padded 2 timestamp.date.month
      ++ '-' :: padded 2 timestamp.date.day ++ 'T' :: padded 2 timestamp.hour
      ++ ':' :: padded 2 timestamp.minute ++ ':' :: padded 2 timestamp.second
      ++ renderFraction timestamp.nanosecond ++ ['Z'])

/-! ### Reading -/

/-- Reads a part of a text; `none` if it is not there. -/
abbrev Part (α : Type) := List Char → Option (α × List Char)

def skipBlanks (input : List Char) : List Char :=
  input.dropWhile isBlank

/-- A number of at least one and at most `limit` digits. -/
def digits? (limit : Nat) : Part Nat := fun input =>
  let digits := (input.take limit).takeWhile Char.isDigit
  if digits.isEmpty then none else some (digitsValue digits, input.drop digits.length)

/-- A number of one or two digits, behind blanks. -/
def field? : Part Nat := fun input =>
  digits? 2 (skipBlanks input)

/-- A year of up to four digits, or one of any number of digits behind a sign. -/
def year? : Part Int := fun input =>
  match skipBlanks input with
  | '-' :: rest => (digits? rest.length rest).map fun (year, rest) => (-(year : Int), rest)
  | '+' :: rest => (digits? rest.length rest).map fun (year, rest) => ((year : Int), rest)
  | input => (digits? 4 input).map fun (year, rest) => ((year : Int), rest)

/-- A mark, behind blanks. -/
def mark? (c : Char) : Part Unit := fun input =>
  match skipBlanks input with
  | first :: rest => if first = c then some ((), rest) else none
  | [] => none

/-- The fraction of a second in nanoseconds, if there is one. -/
def fraction? : Part Nat := fun input =>
  match input with
  | '.' :: rest =>
    let digits := rest.takeWhile Char.isDigit
    if digits.isEmpty then none
    else
      let kept := digits.take 9
      some (digitsValue (kept ++ List.replicate (9 - kept.length) '0'), rest.dropWhile Char.isDigit)
  | input => some (0, input)

/-- The minutes of an offset behind its sign. -/
def offsetMinutes? : Part Nat := fun input =>
  match input with
  | a :: b :: rest =>
    if a.isDigit && b.isDigit then
      match rest.dropWhile fun c => c = ':' || isBlank c with
      | c :: d :: rest =>
        if c.isDigit && d.isDigit && c ≤ '5' then
          some (60 * digitsValue [a, b] + digitsValue [c, d], rest)
        else none
      | _ => none
    else none
  | _ => none

/-- How many minutes a time is ahead of universal time. -/
def offset? : Part Int := fun input =>
  match input with
  | first :: rest =>
    if first = 'Z' ∨ first = 'z' then some (0, rest)
    else if first = '+' then
      (offsetMinutes? rest).map fun (minutes, rest) => ((minutes : Int), rest)
    else if first = '-' ∨ first = '−' then
      (offsetMinutes? rest).map fun (minutes, rest) => (-(minutes : Int), rest)
    else if (input.take 3).map Char.toUpper = ['U', 'T', 'C'] then some (0, input.drop 3)
    else none
  | [] => none

/-- The mark between date and time. -/
def separator? : Part Unit := fun input =>
  match input with
  | first :: rest => if first = 'T' ∨ first = 't' ∨ first = ' ' then some ((), rest) else none
  | [] => none

/-- Takes an offset of less than a day away from a time. -/
def toUniversal (offset : Int) (written : Timestamp) : Timestamp :=
  let minutes := (60 * written.hour + written.minute : Int) - offset
  let (date, minutes) :=
    if minutes < 0 then (written.date.previous, minutes + 1440)
    else if minutes < 1440 then (written.date, minutes)
    else (written.date.next, minutes - 1440)
  { written with date, hour := minutes.toNat / 60, minute := minutes.toNat % 60 }

def isValid (timestamp : Timestamp) : Bool :=
  timestamp.date.isValid && timestamp.hour ≤ 23 && timestamp.minute ≤ 59 && timestamp.second ≤ 60

def parse? (text : String) : Option Timestamp := do
  let (year, rest) ← year? text.toList
  let (_, rest) ← mark? '-' rest
  let (month, rest) ← field? rest
  let (_, rest) ← mark? '-' rest
  let (day, rest) ← field? rest
  let (_, rest) ← separator? rest
  let (hour, rest) ← field? rest
  let (_, rest) ← mark? ':' rest
  let (minute, rest) ← field? rest
  let (_, rest) ← mark? ':' rest
  let (second, rest) ← field? rest
  let (nanosecond, rest) ← fraction? rest
  let (offset, rest) ← offset? (skipBlanks rest)
  if !(skipBlanks rest).isEmpty then none
  let written : Timestamp := ⟨⟨year, month, day⟩, hour, minute, second, nanosecond⟩
  if !written.isValid then none
  if offset ≤ -1440 ∨ 1440 ≤ offset then none
  let universal := toUniversal offset written
  if universal.date.isValid then return universal else none

/-- The timestamp that is some seconds and nanoseconds after the start of 1970. -/
def ofUnix (seconds : Int) (nanosecond : Nat) : Timestamp :=
  let secondOfDay := (seconds.fmod 86400).toNat
  { date := Date.ofUnixDays (seconds.fdiv 86400)
    hour := secondOfDay / 3600
    minute := secondOfDay / 60 % 60
    second := secondOfDay % 60
    nanosecond }

end Timestamp

end Pagewright
