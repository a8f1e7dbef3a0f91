/-
# Arithmetic on values

The integer operations are defined once for words of any width: a result, or
none when the operation faults (division by zero, an overflow that is
checked, the one quotient that does not fit).  Values then follow their kind:

    int32, int32          bit by bit where the operation allows it
    int32, unknown        as if the unknown value were an unknown word
    int32, int64          both widened, if fully known
    int64, int64          whole words
    float, float          the four operations and the remainder

Every other pair, and every fault, gives the unknown value.
-/
import KeyLoop.Value.Basic
import KeyLoop.Value.Operation

namespace KeyLoop

/-- The result on two whole words, none when the operation faults. -/
def Arithmetic.apply {w : Nat} (op : Arithmetic) (a b : BitVec w) : Option (BitVec w) :=
  match op with
  | add .wrap => some (a + b)
  | add (.check .signed) => if a.saddOverflow b then none else some (a + b)
  | add (.check .unsigned) => if a.uaddOverflow b then none else some (a + b)
  | sub .wrap => some (a - b)
  | sub (.check .signed) => if a.ssubOverflow b then none else some (a - b)
  | sub (.check .unsigned) => if a.usubOverflow b then none else some (a - b)
  | mul .wrap => some (a * b)
  | mul (.check .signed) => if a.smulOverflow b then none else some (a * b)
  | mul (.check .unsigned) => if a.umulOverflow b then none else some (a * b)
  | div .signed => if b = 0 ∨ a.sdivOverflow b then none else some (a.sdiv b)
  | div .unsigned => if b = 0 then none else some (a / b)
  | rem .signed => if b = 0 ∨ a.sdivOverflow b then none else some (a.srem b)
  | rem .unsigned => if b = 0 then none else some (a % b)
  | and => some (a &&& b)
  | or => some (a ||| b)
  | xor => some (a ^^^ b)

/-- The result on two partial words.  An operation that does not work bit by
bit needs both words whole, and a fault makes even the kind unknown. -/
def Arithmetic.onWords (op : Arithmetic) (a b : PartialWord) : Value :=
  match op with
  | add .wrap => .int32 (a + b)
  | sub .wrap => .int32 (a - b)
  | mul .wrap => .int32 (a * b)
  | and => .int32 (a &&& b)
  | or => .int32 (a ||| b)
  | xor => .int32 (a ^^^ b)
  | _ =>
      match a.toBits?, b.toBits? with
      | some x, some y => (op.apply x y).elim .unknown Value.ofBits
      | _, _ => .anyInt32

/-- The result on two floats, for the operations that floats have. -/
def Arithmetic.onFloats (op : Arithmetic) (x y : Float) : Value :=
  match op with
  | add .wrap => .float (x + y)
  | sub .wrap => .float (x - y)
  | mul .wrap => .float (x * y)
  | div .signed => .float (x / y)
  | rem .signed => .float (Binary64.remainder x y)
  | _ => .unknown

/-- The result on two integers of mixed width, both widened to 64 bits. -/
def Arithmetic.onWide (op : Arithmetic) (a b : Value) : Value :=
  match a.widened?, b.widened? with
  | some x, some y => (op.apply x y).elim .unknown Value.int64
  | _, _ => .unknown

/-- The result on two values, by their kinds. -/
def Arithmetic.onValues (op : Arithmetic) : Value → Value → Value
  | .int32 a, .int32 b => op.onWords a b
  | .int32 a, .unknown => op.onWords a .unknown
  | .unknown, .int32 b => op.onWords .unknown b
  | .float x, .float y => op.onFloats x y
  | a, b => op.onWide a b

/-! ## Shifts -/

/-- The amount a value stands for as the right operand of a shift. -/
def Shift.amount? : Value → Option (BitVec 32)
  | .int32 w => w.toBits?
  | .int64 b => some (b.truncate 32)
  | _ => none

/-- The shift of a partial word by a known amount. -/
def Shift.onWord (op : Shift) (a : PartialWord) (amount : BitVec 32) : PartialWord :=
  match op with
  | left => a.shl amount
  | right .signed => a.shr amount
  | right .unsigned => a.shrUnsigned amount

/-- The shift of a 64-bit word; the amount counts modulo the width. -/
def Shift.onWide (op : Shift) (a : BitVec 64) (amount : BitVec 32) : BitVec 64 :=
  let s := amount.toNat % 64
  match op with
  | left => a <<< s
  | right .signed => a.sshiftRight s
  | right .unsigned => a >>> s

/-- The result of a shift.  An unknown left operand counts as an unknown
32-bit word; floats have no shifts. -/
def Shift.onValues (op : Shift) (a b : Value) : Value :=
  let word (w : PartialWord) : Value :=
    match amount? b with
    | some n => .int32 (op.onWord w n)
    | none => .anyInt32
  match a with
  | .int32 w => word w
  | .unknown => word .unknown
  | .int64 x => (amount? b).elim .unknown fun n => .int64 (op.onWide x n)
  | .float _ => .unknown

namespace Value

/-- The result of an operation on two values. -/
def binary (a : Value) (op : BinaryOp) (b : Value) : Value :=
  match op with
  | .arithmetic op => op.onValues a b
  | .shift op => op.onValues a b

/-- The result of an operation on one value; floats have no complement. -/
def unary (a : Value) (op : UnaryOp) : Value :=
  match op, a with
  | .neg, int32 w => int32 (-w)
  | .not, int32 w => int32 (~~~w)
  | .neg, int64 b => int64 (-b)
  | .not, int64 b => int64 (~~~b)
  | .neg, float x => float (-x)
  | _, _ => unknown

end Value

end KeyLoop
