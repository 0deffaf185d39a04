import HeapScript.Number.Decimal

/-!
# Text of floats

Two texts of a float. `displayFloat` is what a program prints: at most 14 significant digits,
with an exponent for magnitudes of 10 ^ 14 and more or below 10 ^ -4. `listingFloat` is what a
listing shows: the fewest digits that read back, with an exponent from 10 ^ 6 on.
-/

namespace HeapScript

/-- The significant digits that a program prints of a float. -/
def displayDigits : Nat := 14

/-- The sign and digits of an exponent, padded to `width` digits. -/
def exponentText (width : Nat) (e : Int) : String :=
  let digits := toString e.natAbs
  (if e < 0 then "-" else "+") ++ "".pushn '0' (width - digits.length) ++ digits

/-- The text a program prints for a float: `3`, `0.1`, `1.0E+25`. -/
def displayFloat (f : Float) : String :=
  if f.isNaN then "NAN"
  else if f.isInf then if f > 0 then "INF" else "-INF"
  else
    let s := Float.scaled f
    let d := Decimal.rounded displayDigits s.mantissa s.exponent
    let sign := if s.negative then "-" else ""
    let e := d.exponent
    if e < -4 || e ≥ displayDigits then
      let mantissa := match d.digits with
        | [_] => d.significand ++ ".0"
        | _ => d.significand
      sign ++ mantissa ++ "E" ++ exponentText 1 e
    else sign ++ d.positional

/-- The text of a float constant in a listing: `3`, `0.1`, `1e+25`. -/
def listingFloat (f : Float) : String :=
  if f.isNaN then "NaN"
  else if f.isInf then if f > 0 then "+Inf" else "-Inf"
  else
    let s := Float.scaled f
    let d := Decimal.shortest s
    let sign := if s.negative then "-" else ""
    let e := d.exponent
    if e < -4 || e ≥ 6 then sign ++ d.significand ++ "e" ++ exponentText 2 e
    else sign ++ d.positional

end HeapScript
