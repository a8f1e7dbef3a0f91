/-
# Shortest decimal text of a double

A double is written with the fewest significant digits that read back as the
same double, and of those decimals the one nearest to it; two that are
equally near go to the larger.  The text is always positional: no exponent,
no decimal point for whole numbers.

The decimals that read back are the ones in the rounding interval of the
double: half a step down to half a step up, both ends included exactly when
the mantissa is even.  On the grid of multiples of a power of ten, if any
point lies in the interval then so does a neighbour of the double itself, so
two candidates a grid suffice.
-/
import KeyLoop.Binary64.Basic

namespace KeyLoop.Binary64

/-- The decimal `digits * 10 ^ exponent`. -/
structure Decimal where
  digits : Nat
  exponent : Int
deriving DecidableEq, Repr

/-- A positive number and its rounding interval, as fractions over one
common denominator. -/
structure Interval where
  low : Nat
  number : Nat
  high : Nat
  denominator : Nat
  /-- Whether the two ends round to the number as well. -/
  closed : Bool

/-- The rounding interval of `mantissa * 2 ^ exponent`.  Just above a power of
two the step below is half as wide as the step above. -/
def Interval.ofFinite (mantissa : Nat) (exponent : Int) : Interval :=
  let scale := 1 <<< (exponent - 2).toNat
  let below := if mantissa = leadingBit ∧ leastExponent < exponent then 1 else 2
  { low := (4 * mantissa - below) * scale
    number := 4 * mantissa * scale
    high := (4 * mantissa + 2) * scale
    denominator := 1 <<< (2 - exponent).toNat
    closed := mantissa % 2 = 0 }

/-- The decimal `digits * 10 ^ exponent` over the interval's denominator, as
a numerator and the factor by which the interval has to be stretched. -/
def Interval.scaled (i : Interval) (d : Decimal) : Nat × Nat :=
  (d.digits * Nat.pow 10 d.exponent.toNat * i.denominator, Nat.pow 10 (-d.exponent).toNat)

/-- The decimal rounds to the number. -/
def Interval.holds (i : Interval) (d : Decimal) : Bool :=
  let (point, stretch) := i.scaled d
  if i.closed then i.low * stretch ≤ point && point ≤ i.high * stretch
  else i.low * stretch < point && point < i.high * stretch

/-- The distance of the decimal from the number, in units that depend on the
decimal's exponent only. -/
def Interval.distance (i : Interval) (d : Decimal) : Nat :=
  let (point, stretch) := i.scaled d
  (point - i.number * stretch) + (i.number * stretch - point)

/-- How many decimal digits `n` has. -/
def digitCount (n : Nat) : Nat := (Nat.toDigits 10 n).length

/-- The exponent of ten just above the number's leading digit. -/
def Interval.magnitude (i : Interval) : Int :=
  if i.denominator ≤ i.number then digitCount (i.number / i.denominator)
  else 1 - (digitCount (i.denominator / i.number) : Int)

/-- Of the two multiples of `10 ^ exponent` around the number, the nearest
one that rounds to it. -/
def Interval.onGrid? (i : Interval) (exponent : Int) : Option Decimal :=
  let down : Nat :=
    i.number * Nat.pow 10 (-exponent).toNat / (i.denominator * Nat.pow 10 exponent.toNat)
  let below : Decimal := ⟨down, exponent⟩
  let above : Decimal := ⟨down + 1, exponent⟩
  match i.holds below, i.holds above with
  | true, true => if i.distance above ≤ i.distance below then some above else some below
  | true, false => some below
  | false, true => some above
  | false, false => none

/-- The decimal without the zeros its digits end in. -/
def Decimal.normal (d : Decimal) : Decimal :=
  if h : d.digits ≠ 0 ∧ d.digits % 10 = 0 then
    Decimal.normal ⟨d.digits / 10, d.exponent + 1⟩
  else d
termination_by d.digits
decreasing_by omega

/-- The shortest decimal that reads back as `mantissa * 2 ^ exponent`;
seventeen digits are always enough. -/
def shortest (mantissa : Nat) (exponent : Int) : Decimal :=
  let i := Interval.ofFinite mantissa exponent
  match (List.range 17).findSome? fun n => i.onGrid? (i.magnitude - (n + 1 : Nat)) with
  | some d => d.normal
  | none => ⟨0, 0⟩

/-- The decimal written out: zeros up to the units place, a point only when
digits stand behind it. -/
def Decimal.positional (d : Decimal) : String :=
  let digits := Nat.toDigits 10 d.digits
  let point : Int := digits.length + d.exponent
  if 0 ≤ d.exponent then String.ofList (digits ++ List.replicate d.exponent.toNat '0')
  else if point ≤ 0 then
    String.ofList ('0' :: '.' :: List.replicate (-point).toNat '0' ++ digits)
  else String.ofList (digits.take point.toNat ++ '.' :: digits.drop point.toNat)

def text (x : Float) : String :=
  let signed (negative : Bool) (s : String) := if negative then "-" ++ s else s
  match read x with
  | nan => "NaN"
  | infinite negative => signed negative "inf"
  | finite negative mantissa exponent =>
      signed negative
        (if mantissa = 0 then "0" else (shortest mantissa exponent).positional)

end KeyLoop.Binary64
