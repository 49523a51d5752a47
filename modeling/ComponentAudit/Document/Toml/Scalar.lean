import ComponentAudit.Document.Toml.Date
import ComponentAudit.Document.Value

/-!
# Scalars of TOML

Truth values, integers, doubles and dates. Integers have up to 128 bits; how many of them a reader
takes is left to it. A double that is too large is no number. A date is a table with its text as the
only field, so it can be passed over where a record with optional fields is expected.
-/

namespace ComponentAudit.Toml

/-- The digits without the underscores, each of which must stand between two of them. -/
def digits? (isDigit : Char → Bool) : List Char → Option (List Char)
  | [] => none
  | [c] => if isDigit c then some [c] else none
  | c :: '_' :: s => if isDigit c then (digits? isDigit s).map (c :: ·) else none
  | c :: s => if isDigit c then (digits? isDigit s).map (c :: ·) else none

/-- Digits without padding, as they stand in front of a point. -/
def wholeDigits? (s : List Char) : Option (List Char) :=
  (digits? Char.isDigit s).bind fun ds =>
    if 1 < ds.length ∧ ds.head? = some '0' then none else some ds

/-- An integer of 128 bits, with or without sign. -/
def integer? (n : Int) : Option Document :=
  if -(Int.pow 2 127) ≤ n ∧ n < Int.pow 2 128 then some (.int n) else none

/-- A decimal integer without padding. -/
def decimalInteger? (negative : Bool) (s : List Char) : Option Document :=
  (wholeDigits? s).bind fun ds =>
    let n : Int := Decimal.digitsValue ds
    integer? (if negative then -n else n)

/-- An integer in another base. -/
def radixInteger? (base : Nat) (s : List Char) : Option Document :=
  (digits? Char.isAlphanum s).bind fun ds => (Decimal.radixValue? base ds).bind fun n => integer? n

/-- The mark of an exponent. -/
def isExponentMark (c : Char) : Bool := c = 'e' || c = 'E'

/-- The digits behind the point, none if there is no point. -/
def fractionDigits? : List Char → Option (List Char)
  | [] => some []
  | '.' :: s => digits? Char.isDigit s
  | _ => none

/-- The exponent that the text is, zero if it is empty. -/
def exponent? : List Char → Option Int
  | [] => some 0
  | _ :: s =>
    let (negative, ds) := Decimal.splitSign s
    (digits? Char.isDigit ds).map fun ds =>
      if negative then -(Decimal.digitsValue ds : Int) else Decimal.digitsValue ds

/-- A double with a fraction, an exponent or both. -/
def double? (negative : Bool) (s : List Char) : Option Document := do
  let mantissa := s.takeWhile fun c => !isExponentMark c
  let whole := mantissa.takeWhile (· ≠ '.')
  let wholeDigits ← wholeDigits? whole
  let fraction ← fractionDigits? (mantissa.drop whole.length)
  let exponent ← exponent? (s.drop mantissa.length)
  let x := Decimal.Scientific.toFloat
    ⟨negative, Decimal.digitsValue (wholeDigits ++ fraction), exponent - fraction.length⟩
  if x.isFinite then some (.float x) else none

/-- The key under which the text of a date stands. -/
def dateKey : String := "date"

/-- A value that is no string, list or table. -/
def scalar? (s : List Char) : Option Document :=
  if s = "true".toList then some (.bool true)
  else if s = "false".toList then some (.bool false)
  else if isDateTime s then some (.table [(dateKey, .string (String.ofList s))])
  else
    let (negative, r) := Decimal.splitSign s
    if r = "inf".toList then some (.float (if negative then -1.0 / 0.0 else 1.0 / 0.0))
    else if r = "nan".toList then some (.float (0.0 / 0.0))
    else match s with
      | '0' :: 'x' :: ds => radixInteger? 16 ds
      | '0' :: 'o' :: ds => radixInteger? 8 ds
      | '0' :: 'b' :: ds => radixInteger? 2 ds
      | _ =>
        if r.any fun c => c = '.' || isExponentMark c then double? negative r
        else decimalInteger? negative r

/-- A character of a scalar. -/
def isScalarChar (c : Char) : Bool := c.isAlphanum || "+-._:".toList.contains c

/-- The characters of the scalar at the start of the text. One blank may stand between a date and a
time. -/
def scalarText (s : List Char) : List Char :=
  let first := s.takeWhile isScalarChar
  match s.drop first.length with
  | ' ' :: c :: r =>
    if c.isDigit && afterDate? first = some [] then
      first ++ ' ' :: (c :: r).takeWhile isScalarChar
    else first
  | _ => first

end ComponentAudit.Toml
