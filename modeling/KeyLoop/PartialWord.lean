/-
# `PartialWord` — 32-bit words of which only some bits are known

A partial word is a pair of bit patterns: `known` marks the positions whose
bit is determined, `value` holds those bits and is zero elsewhere.  It stands
for all the ordinary words that agree with it on its known bits; `x ∈ w` says
that `x` is one of them.

    known = 0…0   every word is a completion          (`unknown`)
    known = 1…1   exactly one word is a completion    (`concrete`)

The bitwise operations, shifts and extensions keep exactly the bits that all
completions agree on.  Addition, subtraction and multiplication keep the low
bits up to the first unknown one: a carry out of an unknown position could
reach every position above it.
-/
import KeyLoop.Text.Hex

namespace KeyLoop

/-- A 32-bit word whose bits are known only at the positions set in `known`. -/
structure PartialWord where
  /-- The known bits, zero at every unknown position. -/
  value : BitVec 32
  /-- The positions whose bit is known. -/
  known : BitVec 32
  /-- Unknown positions carry no bits, so equal knowledge is equality. -/
  value_known : value &&& ~~~known = 0#32
deriving DecidableEq, Repr

namespace PartialWord

/-- The partial word that knows the bits of `bits` at the positions of `known`. -/
def of (bits known : BitVec 32) : PartialWord where
  value := bits &&& known
  known := known
  value_known := by simp [BitVec.and_assoc]

/-- The word with every bit known. -/
def concrete (bits : BitVec 32) : PartialWord := of bits (BitVec.allOnes 32)

/-- The word with no bit known. -/
def unknown : PartialWord := of 0 0

/-- The known value of a truth test: all bits but the lowest are zero. -/
def anyFlag : PartialWord := of 0 0xFFFFFFFE#32

def isConcrete (w : PartialWord) : Bool := w.known == BitVec.allOnes 32

/-- The word itself, when every bit is known. -/
def toBits? (w : PartialWord) : Option (BitVec 32) :=
  if w.isConcrete then some w.value else none

/-- `x` completes `w`: it has the known bits of `w`. -/
def Completes (w : PartialWord) (x : BitVec 32) : Prop := x &&& w.known = w.value

instance : Membership (BitVec 32) PartialWord := ⟨Completes⟩

instance (x : BitVec 32) (w : PartialWord) : Decidable (x ∈ w) :=
  inferInstanceAs (Decidable (x &&& w.known = w.value))

/-! ## Bit patterns -/

/-- The pattern with the low `n` bits set, all of them from 32 on. -/
def lowMask (n : Nat) : BitVec 32 := ~~~(BitVec.allOnes 32 <<< n)

/-- How many bits of `x` are set before the first clear one, from the lowest up. -/
def trailingOnes (x : BitVec 32) : Nat :=
  ((List.range 32).takeWhile fun i => x.getLsbD i).length

/-- The positions known to be zero. -/
def zeros (w : PartialWord) : BitVec 32 := w.known &&& ~~~w.value

/-- The low bits that no carry from an unknown position of either word can reach. -/
def carryMask (a b : PartialWord) : BitVec 32 := lowMask (trailingOnes (a.known &&& b.known))

/-! ## Bitwise operations -/

/-- Conjunction: a bit is known where both are, or where one is a known zero. -/
def and (a b : PartialWord) : PartialWord :=
  of (a.value &&& b.value) (a.known &&& b.known ||| (a.zeros ||| b.zeros))

/-- Disjunction: a bit is known where both are, or where one is a known one. -/
def or (a b : PartialWord) : PartialWord :=
  of (a.value ||| b.value) (a.known &&& b.known ||| (a.value ||| b.value))

/-- Exclusive disjunction: a bit is known where both are. -/
def xor (a b : PartialWord) : PartialWord :=
  of (a.value ^^^ b.value) (a.known &&& b.known)

/-- Complement: knowledge is unchanged. -/
def not (a : PartialWord) : PartialWord := of (~~~a.value) a.known

/-! ## Arithmetic modulo `2 ^ 32` -/

/-- Sum, known up to the first unknown bit of either summand. -/
def add (a b : PartialWord) : PartialWord := of (a.value + b.value) (carryMask a b)

/-- Difference, known up to the first unknown bit of either operand. -/
def sub (a b : PartialWord) : PartialWord := of (a.value - b.value) (carryMask a b)

/-- Product, known up to the first unknown bit of either factor. -/
def mul (a b : PartialWord) : PartialWord := of (a.value * b.value) (carryMask a b)

def neg (a : PartialWord) : PartialWord := add a.not (concrete 1)

instance : AndOp PartialWord := ⟨and⟩
instance : OrOp PartialWord := ⟨or⟩
instance : XorOp PartialWord := ⟨xor⟩
instance : Complement PartialWord := ⟨not⟩
instance : Add PartialWord := ⟨add⟩
instance : Sub PartialWord := ⟨sub⟩
instance : Mul PartialWord := ⟨mul⟩
instance : Neg PartialWord := ⟨neg⟩

/-! ## Shifts -/

/-- A shift amount counts modulo the width of the word. -/
def shiftAmount (amount : BitVec 32) : Nat := amount.toNat % 32

/-- Left shift; the positions filled from below are known zeros. -/
def shl (a : PartialWord) (amount : BitVec 32) : PartialWord :=
  let s := shiftAmount amount
  of (a.value <<< s) (a.known <<< s ||| lowMask s)

/-- Right shift without sign; the positions filled from above are known zeros. -/
def shrUnsigned (a : PartialWord) (amount : BitVec 32) : PartialWord :=
  let s := shiftAmount amount
  of (a.value >>> s) (a.known >>> s ||| ~~~(BitVec.allOnes 32 >>> s))

/-- Right shift that repeats the sign bit, known or not. -/
def shr (a : PartialWord) (amount : BitVec 32) : PartialWord :=
  let s := shiftAmount amount
  of (a.value.sshiftRight s) (a.known.sshiftRight s)

/-! ## Extensions from a narrower width -/

/-- Keep the low `bits` bits and repeat the topmost of them upwards; while
that bit is unknown, so is everything above it. -/
def signExtend (a : PartialWord) (bits : Nat) : PartialWord :=
  if 32 ≤ bits then a
  else
    let low := lowMask bits
    if a.known.getLsbD (bits - 1) then
      let extension := if a.value.getLsbD (bits - 1) then ~~~low else 0
      of (a.value &&& low ||| extension) (a.known &&& low ||| ~~~low)
    else of (a.value &&& low) (a.known &&& low)

/-- Keep the low `bits` bits; everything above is a known zero. -/
def zeroExtend (a : PartialWord) (bits : Nat) : PartialWord :=
  if 32 ≤ bits then a
  else
    let low := lowMask bits
    of (a.value &&& low) (a.known &&& low ||| ~~~low)

/-! ## Text -/

/-- The value in eight hexadecimal digits, followed by the mask of known
bits when some are unknown. -/
def render (w : PartialWord) : String :=
  let value := "0x" ++ Hex.upper 8 w.value.toNat
  if w.isConcrete then value else value ++ "/0x" ++ Hex.upper 8 w.known.toNat

end PartialWord

end KeyLoop
