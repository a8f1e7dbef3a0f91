/-
# Conversion of values

An unchecked conversion cuts an integer down to its low bits or extends it,
and sends a float that has no place in the target to a fixed number.  A
checked conversion first asks which whole number its source is, and gives the
unknown value when there is none or when the target does not hold it.
-/
import KeyLoop.Value.Basic
import KeyLoop.Value.Operation

namespace KeyLoop

/-- The nearest single-precision number, as a double. -/
def roundToSingle (x : Float) : Float := x.toFloat32.toFloat

/-! ## Floats to integers -/

/-- The whole number of a float cut to `w` bits if it is one that `w` signed
bits hold, and the least such number otherwise. -/
def signedOfFloat (w : Nat) (x : Float) : BitVec w :=
  match Binary64.truncate? x with
  | some n =>
      if (BitVec.intMin w).toInt ≤ n ∧ n ≤ (BitVec.intMax w).toInt then BitVec.ofInt w n
      else BitVec.intMin w
  | none => BitVec.intMin w

/-- The whole number of a float cut to `w` bits if it lies between the least
64-bit signed number and `greatest`, and zero otherwise. -/
def unsignedOfFloat (w : Nat) (greatest : Int) (x : Float) : BitVec w :=
  match Binary64.truncate? x with
  | some n => if (BitVec.intMin 64).toInt ≤ n ∧ n ≤ greatest then BitVec.ofInt w n else 0
  | none => 0

namespace Conversion

/-- The unchecked conversion of a partial word to an integer type. -/
def wordToInteger (t : IntType) (w : PartialWord) : Value :=
  match t with
  | .i1 => .int32 (w.signExtend 8)
  | .i2 => .int32 (w.signExtend 16)
  | .u1 => .int32 (w.zeroExtend 8)
  | .u2 => .int32 (w.zeroExtend 16)
  | .i4 | .u4 => .int32 w
  | .i8 | .i => w.toBits?.elim .unknown fun b => .int64 (b.signExtend 64)
  | .u8 | .u => w.toBits?.elim .unknown fun b => .int64 (b.zeroExtend 64)

/-- The whole number a value is, under a reading of its sign. -/
def source? (s : Signedness) : Value → Option Int
  | .int32 w => w.toBits?.map fun b =>
      match s with
      | .signed => b.toInt
      | .unsigned => (b.toNat : Int)
  | .int64 b => some
      (match s with
      | .signed => b.toInt
      | .unsigned => (b.toNat : Int))
  | .float x => Binary64.truncate? x
  | .unknown => none

/-- The whole number `n` as a value of the integer type. -/
def embed (t : IntType) (n : Int) : Value :=
  if t.width = 64 then .int64 (BitVec.ofInt 64 n) else .ofBits (BitVec.ofInt 32 n)

/-- The checked conversion: the source number if the target holds it. -/
def onChecked (t : IntType) (s : Signedness) (v : Value) : Value :=
  match source? s v with
  | some n => if t.holds n then embed t n else .unknown
  | none => .unknown

/-- The unchecked conversion of a partial word. -/
def onWord (c : Conversion) (w : PartialWord) : Value :=
  let whole (f : BitVec 32 → Float) : Value := w.toBits?.elim .unknown fun b => .float (f b)
  match c with
  | integer t => wordToInteger t w
  | float32 => whole fun b => (Int32.ofBitVec b).toFloat32.toFloat
  | float64 => whole fun b => (Int32.ofBitVec b).toFloat
  | floatUnsigned => whole fun b => (UInt32.ofBitVec b).toFloat
  | checked t s => onChecked t s (.int32 w)

/-- The unchecked conversion of a 64-bit integer; the narrow targets see its low half. -/
def onWide (c : Conversion) (b : BitVec 64) : Value :=
  match c with
  | integer t =>
      if t.width = 64 then .int64 b else wordToInteger t (.concrete (b.truncate 32))
  | float32 => .float (Int64.ofBitVec b).toFloat32.toFloat
  | float64 => .float (Int64.ofBitVec b).toFloat
  | floatUnsigned => .float (UInt64.ofBitVec b).toFloat
  | checked t s => onChecked t s (.int64 b)

/-- The unchecked conversion of a float. -/
def onFloat (c : Conversion) (x : Float) : Value :=
  match c with
  | integer t =>
      match t with
      | .i1 | .i2 | .i4 => wordToInteger t (.concrete (signedOfFloat 32 x))
      | .u1 | .u2 | .u4 => wordToInteger t (.concrete (unsignedOfFloat 32 IntType.i8.greatest x))
      | .i8 | .i => .int64 (signedOfFloat 64 x)
      | .u8 | .u => .int64 (unsignedOfFloat 64 IntType.u8.greatest x)
  | float32 => .float (roundToSingle x)
  | float64 | floatUnsigned => .float x
  | checked t s => onChecked t s (.float x)

/-- The unchecked conversion of an unknown value: the types that live in a
32-bit word still bound what is unknown. -/
def onUnknown (c : Conversion) : Value :=
  match c with
  | integer t => wordToInteger t .unknown
  | _ => .unknown

end Conversion

namespace Value

def convert (v : Value) (c : Conversion) : Value :=
  match v with
  | int32 w => c.onWord w
  | int64 b => c.onWide b
  | float x => c.onFloat x
  | unknown => c.onUnknown

end Value

end KeyLoop
