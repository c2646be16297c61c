import BatchDigest.Binary64.Shortest

/-!
# Positional text of a double

The shortest digits of a double, written without an exponent: whole numbers have no point, fractions
have a digit before it. The sign is written for every number with the sign bit, zero included.
-/

namespace BatchDigest.Binary64

/-- A decimal number written without an exponent. -/
def Decimal.positional (d : Decimal) : String :=
  let digits := Nat.toDigits 10 d.digits
  if 0 ≤ d.exponent then String.ofList (digits ++ List.replicate d.exponent.toNat '0')
  else
    let places := (-d.exponent).toNat
    let padded := List.replicate (places + 1 - digits.length) '0' ++ digits
    let whole := padded.length - places
    String.ofList (padded.take whole ++ '.' :: padded.drop whole)

/-- The text of a double: shortest digits, no exponent, no needless point. -/
def positional (x : Float) : String :=
  if x.isNaN then "NaN"
  else
    let body := if x.isInf then "inf" else (shortest x).positional
    if isSigned x then "-" ++ body else body

end BatchDigest.Binary64
