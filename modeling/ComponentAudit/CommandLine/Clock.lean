/-!
# Times

A moment as it is written in results: date and time in UTC, with as many digits of the second as
are needed, in groups of three.
-/

namespace ComponentAudit.CommandLine

/-- A day of the Gregorian calendar. -/
structure CalendarDay where
  year : Int
  month : Nat
  day : Nat
  deriving DecidableEq, Repr

/-- The day so many days after the first of January 1970. Years are counted from March, so that the
day a leap year has more is the last of its year; eras have 400 years, which are all alike. -/
def CalendarDay.ofDays (days : Int) : CalendarDay :=
  let shifted := days + 719468
  let era := shifted / 146097
  let dayOfEra := (shifted % 146097).toNat
  let yearOfEra := (dayOfEra - dayOfEra / 1460 + dayOfEra / 36524 - dayOfEra / 146096) / 365
  let dayOfYear := dayOfEra - (365 * yearOfEra + yearOfEra / 4 - yearOfEra / 100)
  let march := (5 * dayOfYear + 2) / 153
  let month := if march < 10 then march + 3 else march - 9
  { year := yearOfEra + era * 400 + if month ≤ 2 then 1 else 0
    month
    day := dayOfYear - (153 * march + 2) / 5 + 1 }

/-- A number with zeros in front, up to a width. -/
def zeroPadded (width n : Nat) : String :=
  let digits := toString n
  String.ofList (List.replicate (width - digits.length) '0') ++ digits

/-- The digits of the second after its point, with the point. -/
def secondFraction (nanos : Nat) : String :=
  if nanos = 0 then ""
  else if nanos % 1000000 = 0 then "." ++ zeroPadded 3 (nanos / 1000000)
  else if nanos % 1000 = 0 then "." ++ zeroPadded 6 (nanos / 1000)
  else "." ++ zeroPadded 9 nanos

/-- The moment so many seconds after 1970 began, and nanoseconds after that. -/
def momentText (seconds : Int) (nanos : Nat) : String :=
  let day := CalendarDay.ofDays (seconds / 86400)
  let time := (seconds % 86400).toNat
  let date := s!"{zeroPadded 4 day.year.toNat}-{zeroPadded 2 day.month}-{zeroPadded 2 day.day}"
  let hours := s!"{zeroPadded 2 (time / 3600)}:{zeroPadded 2 (time / 60 % 60)}"
  s!"{date}T{hours}:{zeroPadded 2 (time % 60)}{secondFraction nanos}+00:00"

end ComponentAudit.CommandLine
