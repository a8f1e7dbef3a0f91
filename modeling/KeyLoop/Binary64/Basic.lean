/-
# `Binary64` — the numbers that double-precision bits stand for

A double is a bit pattern; what arithmetic on whole numbers, remainders and
decimal text need is the number behind it.  `Binary64.read` takes the pattern
apart into a sign, a natural mantissa and a power of two, and `pack` puts an
exactly representable number together again.  All computation in between is
on `Nat` and `Int`, so nothing is rounded on the way.
-/

namespace KeyLoop

/-- What a double stands for. -/
inductive Binary64 where
  | nan
  | infinite (negative : Bool)
  /-- The number `mantissa * 2 ^ exponent`, negated when `negative`. -/
  | finite (negative : Bool) (mantissa : Nat) (exponent : Int)
deriving DecidableEq, Repr

namespace Binary64

/-- The exponent of the last mantissa bit of the smallest doubles. -/
def leastExponent : Int := -1074

/-- The mantissa from which on a double has a leading one bit. -/
def leadingBit : Nat := 1 <<< 52

/-- The number behind a double.  A zero exponent field marks the small
numbers that have no implicit leading bit. -/
def read (x : Float) : Binary64 :=
  let bits := x.toBits.toNat
  let negative := bits.testBit 63
  let exponent := (bits >>> 52) % 2048
  let fraction := bits % leadingBit
  if exponent = 2047 then (if fraction = 0 then infinite negative else nan)
  else if exponent = 0 then finite negative fraction leastExponent
  else finite negative (leadingBit + fraction) (leastExponent + (exponent - 1 : Nat))

/-- The double with value `mantissa * 2 ^ exponent`, for a mantissa below
`2 ^ 53` and an exponent of at least `leastExponent` whose product is in range. -/
def pack (negative : Bool) (mantissa : Nat) (exponent : Int) : Float :=
  let room := (exponent - leastExponent).toNat
  let shift := min (52 - mantissa.log2) room
  let fraction := mantissa <<< shift
  let field := if fraction < leadingBit then 0 else room - shift + 1
  let sign := if negative then 1 <<< 63 else 0
  Float.ofBits (UInt64.ofNat (sign + field * leadingBit + fraction % leadingBit))

/-- The whole number next to `x` toward zero; none for NaN and the infinities. -/
def truncate? (x : Float) : Option Int :=
  match read x with
  | finite negative mantissa exponent =>
      let size : Nat :=
        if 0 ≤ exponent then mantissa <<< exponent.toNat else mantissa >>> (-exponent).toNat
      some (if negative then -(size : Int) else size)
  | _ => none

/-- The remainder of `x` divided by `y` with the quotient rounded toward
zero.  It has the sign of `x` and is always exact; an infinite dividend or a
zero divisor has none, and an infinite divisor leaves `x` as it is. -/
def remainder (x y : Float) : Float :=
  match read x, read y with
  | finite negative m e, finite _ n f =>
      if n = 0 then 0.0 / 0.0
      else
        let low := min e f
        pack negative ((m <<< (e - low).toNat) % (n <<< (f - low).toNat)) low
  | finite _ _ _, infinite _ => x
  | _, _ => 0.0 / 0.0

end Binary64

end KeyLoop
