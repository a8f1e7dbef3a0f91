/-
# `Hex` — numbers written in base sixteen

Listings and messages show addresses, masks and opcodes as hexadecimal
digits of a fixed minimal width.  Two alphabets are in use: upper case in
listings and messages, lower case for metadata tokens.
-/

namespace KeyLoop.Hex

/-- The digit of value `d` (below sixteen), upper case. -/
def upperDigit (d : Nat) : Char :=
  if d < 10 then Char.ofNat (48 + d) else Char.ofNat (55 + d)

/-- The digit of value `d` (below sixteen), lower case. -/
def lowerDigit (d : Nat) : Char :=
  if d < 10 then Char.ofNat (48 + d) else Char.ofNat (87 + d)

/-- The base-sixteen digit values of `n`, least significant first; none for zero. -/
def digitValues (n : Nat) : List Nat :=
  if n = 0 then [] else n % 16 :: digitValues (n / 16)
termination_by n
decreasing_by omega

/-- The digits of `n`, padded on the left with zeros to `width` characters
and never cut; at least one digit stands for zero. -/
def write (digit : Nat → Char) (width n : Nat) : String :=
  let digits := ((digitValues n).map digit).reverse
  String.ofList (List.replicate (max width 1 - digits.length) '0' ++ digits)

/-- Upper-case digits of `n`, at least `width` of them. -/
def upper (width n : Nat) : String := write upperDigit width n

/-- Lower-case digits of `n`, at least `width` of them. -/
def lower (width n : Nat) : String := write lowerDigit width n

end KeyLoop.Hex
