import ComponentAudit.Decimal.Shortest

/-!
# Number texts

How doubles are written. In records a double has the fewest digits that read back and always a
fraction or an exponent: `100.0`, `66.66666666666666`, `1e+16`. In summaries it has a fixed number
of places, and a value halfway between two goes to the one with the even last digit.
-/

namespace ComponentAudit.Decimal

/-- The digits of a number. -/
def digitText (n : Nat) : String := String.ofList (Nat.toDigits 10 n)

/-- So many zeros. -/
def zeros (n : Nat) : String := String.ofList (List.replicate n '0')

/-- A decimal without trailing zeros in records: positional while the point stands no more than
sixteen digits to the right and five to the left, with a signed exponent beyond. -/
def Written.layout (d : Written) : String :=
  let digits := Nat.toDigits 10 d.digits
  let point : Int := digits.length + d.exponent
  if 0 ≤ d.exponent && point ≤ 16 then
    String.ofList digits ++ zeros d.exponent.toNat ++ ".0"
  else if 0 < point && point ≤ 16 then
    String.ofList (digits.take point.toNat) ++ "." ++ String.ofList (digits.drop point.toNat)
  else if -5 < point && point ≤ 0 then
    "0." ++ zeros (-point).toNat ++ String.ofList digits
  else
    let mantissa := match digits with
      | [d] => String.ofList [d]
      | d :: ds => String.ofList (d :: '.' :: ds)
      | [] => ""
    mantissa ++ "e" ++ (if point - 1 < 0 then "-" else "+") ++ digitText (point - 1).natAbs

/-- The text of a finite double in records. -/
def shortestText (x : Float) : String :=
  let bits := x.toBits
  let sign := if bits >>> 63 = 1 then "-" else ""
  let b := Binary.ofBits bits
  if b.mantissa = 0 then sign ++ "0.0" else sign ++ b.shortest.layout

/-- The quotient rounded to the nearest natural number, a half to the even neighbour. -/
def roundHalfEven (num den : Nat) : Nat :=
  let q := num / den
  let twice := 2 * (num % den)
  if twice < den || (twice = den && q % 2 = 0) then q else q + 1

/-- The text of a finite double with the given number of places, at least one. -/
def fixedText (places : Nat) (x : Float) : String :=
  let bits := x.toBits
  let sign := if bits >>> 63 = 1 then "-" else ""
  let r := (Binary.ofBits bits).value
  let scaled := roundHalfEven (r.num * Nat.pow 10 places) r.den
  let fraction := digitText (scaled % Nat.pow 10 places)
  let whole := digitText (scaled / Nat.pow 10 places)
  sign ++ whole ++ "." ++ zeros (places - fraction.length) ++ fraction

end ComponentAudit.Decimal
