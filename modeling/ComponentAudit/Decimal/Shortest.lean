/-!
# Shortest decimals

The decimal with the fewest digits that reads back to a given double, and of those the nearest to
it. A double is `mantissa * 2 ^ exponent`; the reals that round to it form an interval whose ends
belong to it when the mantissa is even. For one digit, two digits and so on the two neighbours of
the value on that decimal grid are tried, in exact arithmetic; seventeen digits always suffice.
-/

namespace ComponentAudit.Decimal

/-- A finite non-negative double: `mantissa * 2 ^ exponent`. -/
structure Binary where
  mantissa : Nat
  exponent : Int
  deriving DecidableEq, Repr

/-- The magnitude of a finite double, from its bits. -/
def Binary.ofBits (bits : UInt64) : Binary :=
  let fraction := (bits &&& 0xFFFFFFFFFFFFF).toNat
  let biased := ((bits >>> 52) &&& 0x7FF).toNat
  if biased = 0 then ⟨fraction, -1074⟩ else ⟨fraction + Nat.pow 2 52, (biased : Int) - 1075⟩

/-- A quotient of natural numbers. -/
structure Ratio where
  num : Nat
  den : Nat
  deriving DecidableEq, Repr

/-- `n * 2 ^ e` as a quotient. -/
def Ratio.ofScaled (n : Nat) (e : Int) : Ratio :=
  match e with
  | .ofNat k => ⟨n * Nat.pow 2 k, 1⟩
  | .negSucc k => ⟨n, Nat.pow 2 (k + 1)⟩

/-- The quotient divided by `10 ^ e`. -/
def Ratio.shift (r : Ratio) (e : Int) : Ratio :=
  match e with
  | .ofNat k => ⟨r.num, r.den * Nat.pow 10 k⟩
  | .negSucc k => ⟨r.num * Nat.pow 10 (k + 1), r.den⟩

/-- The value of a double. -/
def Binary.value (b : Binary) : Ratio := .ofScaled b.mantissa b.exponent

/-- Number of decimal digits; zero has none. -/
def digitCount (n : Nat) : Nat := if n = 0 then 0 else (Nat.toDigits 10 n).length

/-- How far a quotient below one must be shifted to have a digit before the point, looking no
further than `fuel` places. -/
def leadingZeros (r : Ratio) : (fuel : Nat) → Nat
  | 0 => 0
  | fuel + 1 => if r.den ≤ r.num then 0 else leadingZeros ⟨r.num * 10, r.den⟩ fuel + 1

/-- The exponent of the leading decimal digit of a positive quotient. -/
def leadingExponent (r : Ratio) : Int :=
  if r.den ≤ r.num then (digitCount (r.num / r.den) : Int) - 1 else - (leadingZeros r 1100 : Int)

/-- A decimal: `digits * 10 ^ exponent`. -/
structure Written where
  digits : Nat
  exponent : Int
  deriving DecidableEq, Repr

/-- Whether the decimal lies in the interval of reals that round to the double. The bounds are
taken in quarters of the last binary place, since below a power of two the doubles are denser. -/
def Binary.readsBack (b : Binary) (d : Written) : Bool :=
  -- The next double below a power of two is only half as far away as the next one above.
  let low := if b.mantissa = Nat.pow 2 52 && -1074 < b.exponent then 1 else 2
  let lower := (Ratio.ofScaled (4 * b.mantissa - low) (b.exponent - 2)).shift d.exponent
  let upper := (Ratio.ofScaled (4 * b.mantissa + 2) (b.exponent - 2)).shift d.exponent
  if b.mantissa % 2 = 0 then
    lower.num ≤ d.digits * lower.den && d.digits * upper.den ≤ upper.num
  else
    lower.num < d.digits * lower.den && d.digits * upper.den < upper.num

/-- The decimal `digits * 10 ^ exponent` with at most `count` digits, given that it has one digit
more only by a carry. -/
def Written.carry (count digits : Nat) (exponent : Int) : Written :=
  if digits = Nat.pow 10 count then ⟨Nat.pow 10 (count - 1), exponent + 1⟩ else ⟨digits, exponent⟩

/-- The neighbour of the value on the grid of `count` digits that reads back; of two the nearer,
and at equal distance the even one. -/
def Binary.onGrid? (b : Binary) (count : Nat) : Option Written :=
  let exponent := leadingExponent b.value - count + 1
  let scaled := b.value.shift exponent
  let below : Written := ⟨scaled.num / scaled.den, exponent⟩
  let above := Written.carry count (scaled.num / scaled.den + 1) exponent
  let rest := 2 * (scaled.num % scaled.den)
  match b.readsBack below, b.readsBack above with
  | true, true =>
    if rest < scaled.den || (rest = scaled.den && below.digits % 2 = 0) then some below
    else some above
  | true, false => some below
  | false, true => some above
  | false, false => none

/-- The shortest decimal of a positive double. -/
def Binary.shortest (b : Binary) : Written :=
  match (List.range 17).findSome? fun n => b.onGrid? (n + 1) with
  | some d => d
  | none => ⟨0, 0⟩

end ComponentAudit.Decimal
