/-!
# Reading numbers

Decimal texts as doubles and natural numbers. A decimal is read as its digits and the place of its
point, and then rounded once.
-/

namespace ComponentAudit.Decimal

/-- The number that a list of decimal digits stands for. -/
def digitsValue (ds : List Char) : Nat := ds.foldl (fun n c => 10 * n + (c.toNat - 48)) 0

/-- The value of a hexadecimal digit. -/
def hexValue? (c : Char) : Option Nat :=
  if '0' ≤ c ∧ c ≤ '9' then some (c.toNat - 48)
  else if 'a' ≤ c ∧ c ≤ 'f' then some (c.toNat - 87)
  else if 'A' ≤ c ∧ c ≤ 'F' then some (c.toNat - 55)
  else none

/-- The number that digits in the given base stand for; there must be one at least. -/
def radixValue? (base : Nat) : List Char → Option Nat
  | [] => none
  | ds => ds.foldlM (fun n c =>
      (hexValue? c).bind fun d => if d < base then some (base * n + d) else none) 0

/-- The digits of a decimal, and the power of ten that they are multiplied by. -/
structure Scientific where
  negative : Bool
  digits : Nat
  exponent : Int
  deriving DecidableEq, Repr

/-- The nearest double. Beyond the exponents that a double can have there is nothing to compute. -/
def Scientific.toFloat (s : Scientific) : Float :=
  let x :=
    if s.digits = 0 then 0.0
    else if 400 < s.exponent then 1.0 / 0.0
    else if s.exponent + s.digits.log2 < -2000 then 0.0
    else Float.ofScientific s.digits (s.exponent < 0) s.exponent.natAbs
  if s.negative then -x else x

/-- An optional sign and the text after it. -/
def splitSign : List Char → Bool × List Char
  | '-' :: s => (true, s)
  | '+' :: s => (false, s)
  | s => (false, s)

/-- The exponent that a text is; an empty text is the exponent zero. -/
def readExponent? : List Char → Option Int
  | [] => some 0
  | c :: s =>
    if c = 'e' ∨ c = 'E' then
      let (negative, ds) := splitSign s
      if ds ≠ [] ∧ ds.all Char.isDigit then
        some (if negative then - (digitsValue ds : Int) else digitsValue ds)
      else none
    else none

/-- A decimal: an optional sign, digits with a point among, before or after them, and an optional
exponent. -/
def readDecimal? (text : List Char) : Option Scientific :=
  let (negative, s) := splitSign text
  let whole := s.takeWhile Char.isDigit
  let rest := s.dropWhile Char.isDigit
  let (fraction, rest) := match rest with
    | '.' :: r => (r.takeWhile Char.isDigit, r.dropWhile Char.isDigit)
    | r => ([], r)
  if whole = [] ∧ fraction = [] then none
  else (readExponent? rest).map fun e =>
    ⟨negative, digitsValue (whole ++ fraction), e - fraction.length⟩

end ComponentAudit.Decimal
