import ComponentAudit.Decimal.Reading
import ComponentAudit.Json.Value

/-!
# JSON numbers

The grammar of numbers and the values that they have. A number without fraction and exponent is an
integer if it fits in 64 bits, with or without a sign. Any other is a double: as many of its digits
as fit in 64 bits, scaled by a power of ten. A number that is too large for a double has no value.
-/

namespace ComponentAudit.Json

/-- A number as written. -/
structure NumberText where
  negative : Bool
  whole : List Char
  /-- The digits after the point, if there is one. -/
  fraction : Option (List Char)
  /-- Whether the exponent is negative, and its digits, if there is one. -/
  exponent : Option (Bool × List Char)
  deriving DecidableEq, Repr

/-! ### Grammar -/

/-- At least one digit. -/
def digits? (s : List Char) : Option (List Char × List Char) :=
  match s.takeWhile Char.isDigit with
  | [] => none
  | ds => some (ds, s.dropWhile Char.isDigit)

/-- The digits before the point: a zero, or digits that do not begin with one. -/
def whole? (s : List Char) : Option (List Char × List Char) :=
  match digits? s with
  | some ('0' :: _ :: _, _) => none
  | r => r

/-- The digits after the point. -/
def fraction? : List Char → Option (Option (List Char) × List Char)
  | '.' :: s => (digits? s).map fun (ds, r) => (some ds, r)
  | s => some (none, s)

/-- The exponent. -/
def exponent? : List Char → Option (Option (Bool × List Char) × List Char)
  | c :: s =>
    if c = 'e' ∨ c = 'E' then
      let (negative, r) := Decimal.splitSign s
      (digits? r).map fun (ds, r) => (some (negative, ds), r)
    else some (none, c :: s)
  | [] => some (none, [])

/-- A number at the start of a text. -/
def numberText? (s : List Char) : Option (NumberText × List Char) := do
  let (negative, s) := match s with
    | '-' :: r => (true, r)
    | s => (false, s)
  let (whole, s) ← whole? s
  let (fraction, s) ← fraction? s
  let (exponent, s) ← exponent? s
  return (⟨negative, whole, fraction, exponent⟩, s)

/-! ### Values -/

/-- The largest integer of 64 bits. -/
def maxWord : Nat := UInt64.size - 1

/-- Puts digits to a number as long as it fits in 64 bits, and counts those that are left. -/
def fitDigits (n : Nat) : List Char → Nat × Nat
  | [] => (n, 0)
  | c :: ds =>
    let next := 10 * n + (c.toNat - 48)
    if maxWord < next then (n, ds.length + 1) else fitDigits next ds

/-- A power of ten, for exponents that a double can have. -/
def powerOfTen (n : Nat) : Float := Float.ofScientific 1 false n

/-- The largest exponent of ten of a double. -/
def maxTen : Nat := 308

/-- The double `x` times ten to the power `e`, unless it is too large. A division by more than the
largest power of ten goes in steps; after `steps` of them nothing is left of a 64-bit number. -/
def scale? : (steps : Nat) → (x : Float) → (e : Int) → Option Float
  | 0, _, _ => some 0.0
  | steps + 1, x, e =>
    if e.natAbs ≤ maxTen then
      if 0 ≤ e then
        let y := x * powerOfTen e.natAbs
        -- Too large for a double.
        if y.isInf then none else some y
      else some (x / powerOfTen e.natAbs)
    else if x == 0.0 then some x
    else if 0 ≤ e then none
    else scale? steps (x / powerOfTen maxTen) (e + maxTen)

/-- The double of a number. -/
def NumberText.double? (t : NumberText) : Option Float :=
  let (n, left) := fitDigits 0 t.whole
  let fraction := t.fraction.getD []
  let (n, unused) := fitDigits n fraction
  let point : Int := left - (fraction.length - unused : Nat)
  let (negative, ds) := t.exponent.getD (false, [])
  let e : Int := Decimal.digitsValue ds
  (scale? 4 (Float.ofNat n) (if negative then point - e else point + e)).map fun x =>
    if t.negative then -x else x

/-- The value of a number. There is no integer `-0`. -/
def NumberText.value? (t : NumberText) : Option Json :=
  let n := Decimal.digitsValue t.whole
  let isInteger := t.fraction = none ∧ t.exponent = none ∧
    if t.negative then 0 < n ∧ n ≤ Nat.pow 2 63 else n ≤ maxWord
  if isInteger then some (.int (if t.negative then - (n : Int) else n))
  else t.double?.map .float

end ComponentAudit.Json
