import HeapScript.Number.Binary64

/-!
# Decimal digits of binary numbers

Exact decimal digits of a positive number `m · 2 ^ q`, computed with natural numbers only.

* `Decimal.rounded`: a given number of significant digits, half to even.
* `Decimal.shortest`: the fewest digits that identify the number among all floats, and of
  those the nearest to it.

Neither result ends in a zero.
-/

namespace HeapScript

/-- The number `0.d₁d₂… · 10 ^ point` with digits `d₁d₂…`; no digits at all for zero. -/
structure Decimal where
  digits : List Nat
  point : Int

namespace Decimal

def exponent (d : Decimal) : Int := d.point - 1

/-- The decimal digits of a natural number, most significant first. -/
def digitsOf (n : Nat) : List Nat := (Nat.toDigits 10 n).map fun c => c.toNat - 48

def trim (digits : List Nat) : List Nat := (digits.reverse.dropWhile (· == 0)).reverse

/-- `base ^ e` for a positive exponent, 1 otherwise. -/
def powPos (base : Nat) (e : Int) : Nat := base.pow e.toNat

/-- The exponent of the leading decimal digit of `m · 2 ^ q`, for `m` positive. -/
def leading (m : Nat) (q : Int) : Int :=
  let shift : Nat := 400
  let scaled := m * powPos 10 shift * powPos 2 q / powPos 2 (-q)
  ((digitsOf scaled).length : Int) - 1 - shift

/-- `num / den` rounded to the nearest integer, half to even. -/
def roundDiv (num den : Nat) : Nat :=
  let quotient := num / den
  let rest := num % den
  if 2 * rest > den || (2 * rest == den && quotient % 2 == 1) then quotient + 1 else quotient

/-- The integer `n` scaled by `10 ^ unit` as a decimal. -/
def ofScaled (n : Nat) (unit : Int) : Decimal :=
  let digits := digitsOf n
  { digits := trim digits, point := digits.length + unit }

/-- `m · 2 ^ q` rounded to `count` significant digits. -/
def rounded (count : Nat) (m : Nat) (q : Int) : Decimal :=
  if m == 0 then { digits := [], point := 0 } else
    let unit := leading m q - count + 1
    let num := m * powPos 2 q * powPos 10 (-unit)
    let den := powPos 2 (-q) * powPos 10 unit
    ofScaled (roundDiv num den) unit

/-- The nearest multiple of `10 ^ unit` to the number that still reads back as it, if any.
Numbers are compared in quarters of the binary unit: the neighbours' midpoints lie two quarters
above and two (one where the spacing changes) below. -/
def onGrid? (s : Scaled) (unit : Int) : Option Nat :=
  let q := s.exponent - 2
  let mul := powPos 2 q * powPos 10 (-unit)
  let den := powPos 2 (-q) * powPos 10 unit
  let value := 4 * s.mantissa * mul
  let low := (4 * s.mantissa - (if s.narrowBelow then 1 else 2)) * mul
  let high := (4 * s.mantissa + 2) * mul
  let inside (n : Nat) : Bool :=
    let x := n * den
    if s.mantissa % 2 == 0 then low ≤ x && x ≤ high else low < x && x < high
  let below := value / den
  let nearest := roundDiv value den
  if inside nearest then some nearest
  else if inside below then some below
  else if inside (below + 1) then some (below + 1)
  else none

/-- The first grid from `count` digits on that holds a number reading back as `s`. -/
def shortestFrom (s : Scaled) (lead : Int) : (tries count : Nat) → Decimal
  | 0, count => rounded count s.mantissa s.exponent
  | tries + 1, count =>
    let unit := lead - count + 1
    match onGrid? s unit with
    | some n => ofScaled n unit
    | none => shortestFrom s lead tries (count + 1)

/-- The fewest digits that read back as `s`. -/
def shortest (s : Scaled) : Decimal :=
  if s.mantissa == 0 then { digits := [], point := 0 }
  else shortestFrom s (leading s.mantissa s.exponent) 17 1

def digitText (digits : List Nat) : String :=
  String.ofList (digits.map fun d => Char.ofNat (48 + d))

def positional (d : Decimal) : String :=
  let whole :=
    if d.point ≤ 0 then "0"
    else
      let n := d.point.toNat
      digitText (d.digits.take n ++ List.replicate (n - d.digits.length) 0)
  let part :=
    if d.point < 0 then List.replicate (-d.point).toNat 0 ++ d.digits
    else d.digits.drop d.point.toNat
  if part.isEmpty then whole else whole ++ "." ++ digitText part

def significand (d : Decimal) : String :=
  match d.digits with
  | [] => "0"
  | [a] => digitText [a]
  | a :: rest => digitText [a] ++ "." ++ digitText rest

end Decimal

end HeapScript
