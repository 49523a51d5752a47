import ComponentAudit.Decimal.Reading
import ComponentAudit.Text.Find

/-!
# Dates and times of TOML

Which texts are dates, times or both. A date must be one of the calendar. A time has hours and
minutes, may have seconds and then a fraction of them, and may be followed by its offset if a date
stands before it.
-/

namespace ComponentAudit.Toml

/-- A number of so many decimal digits, with no digit behind it. -/
def paddedNumber? (count : Nat) (s : List Char) : Option (Nat × List Char) :=
  let digits := s.takeWhile Char.isDigit
  if digits.length = count then some (Decimal.digitsValue digits, s.drop count) else none

/-- A leap year of the calendar. -/
def isLeapYear (year : Nat) : Bool := year % 4 = 0 && (year % 100 ≠ 0 || year % 400 = 0)

/-- The number of days in a month, which is zero if there is no such month. -/
def daysInMonth (year month : Nat) : Nat :=
  if month = 2 then if isLeapYear year then 29 else 28
  else if month = 4 ∨ month = 6 ∨ month = 9 ∨ month = 11 then 30
  else if 1 ≤ month ∧ month ≤ 12 then 31
  else 0

/-- The text after a date of the calendar. -/
def afterDate? (s : List Char) : Option (List Char) := do
  let (year, s) ← paddedNumber? 4 s
  let s ← Text.stripStart? ['-'] s
  let (month, s) ← paddedNumber? 2 s
  let s ← Text.stripStart? ['-'] s
  let (day, s) ← paddedNumber? 2 s
  if 1 ≤ day ∧ day ≤ daysInMonth year month then some s else none

/-- The text after hours and minutes. -/
def afterMinutes? (s : List Char) : Option (List Char) := do
  let (hour, s) ← paddedNumber? 2 s
  let s ← Text.stripStart? [':'] s
  let (minute, s) ← paddedNumber? 2 s
  if hour < 24 ∧ minute < 60 then some s else none

/-- The text after a fraction, if it begins with a point. -/
def afterFraction? : List Char → Option (List Char)
  | '.' :: s => if s.head?.any Char.isDigit then some (s.dropWhile Char.isDigit) else none
  | s => some s

/-- The text after seconds and their fraction, if it begins with a colon. A minute may have a leap
second. -/
def afterSeconds? : List Char → Option (List Char)
  | ':' :: s => do
    let (second, s) ← paddedNumber? 2 s
    if second ≤ 60 then afterFraction? s else none
  | s => some s

/-- The text after a time. -/
def afterTime? (s : List Char) : Option (List Char) := (afterMinutes? s).bind afterSeconds?

/-- The offset of a time from that of Greenwich, which may be left out. -/
def isOffset : List Char → Bool
  | [] => true
  | [c] => c = 'Z' || c = 'z'
  | c :: s => (c = '+' || c = '-') && afterMinutes? s = some []

/-- A character between a date and a time. -/
def dividesTime (c : Char) : Bool := c = 'T' || c = 't' || c = ' '

/-- A text that is a date, a time, or a date with a time. -/
def isDateTime (s : List Char) : Bool :=
  match afterDate? s with
  | some [] => true
  | some (c :: s) => dividesTime c && (afterTime? s).any isOffset
  | none => afterTime? s = some []

end ComponentAudit.Toml
