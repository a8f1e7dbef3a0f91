/-
# Operations on values, by name

The operations of the instruction set that compute on the evaluation stack,
grouped by what they have in common: arithmetic on two operands, shifts,
arithmetic on one operand, comparisons and conversions.  Each one has the
name under which instructions refer to it, and `ofName?` finds it again.
-/

namespace KeyLoop

/-- Whether an operand is read as a signed number. -/
inductive Signedness where
  | signed | unsigned
deriving DecidableEq, Repr

/-- What happens to a result that does not fit: it wraps around, or it is a
fault, with the operands read as signed or as unsigned numbers. -/
inductive Overflow where
  | wrap
  | check (s : Signedness)
deriving DecidableEq, Repr

/-- Arithmetic and bitwise operations on two operands of one type. -/
inductive Arithmetic where
  | add (overflow : Overflow)
  | sub (overflow : Overflow)
  | mul (overflow : Overflow)
  | div (s : Signedness)
  | rem (s : Signedness)
  | and
  | or
  | xor
deriving DecidableEq, Repr

/-- Shifts, whose second operand is an amount and not of the operation's type. -/
inductive Shift where
  | left
  | right (s : Signedness)
deriving DecidableEq, Repr

inductive BinaryOp where
  | arithmetic (op : Arithmetic)
  | shift (op : Shift)
deriving DecidableEq, Repr

inductive UnaryOp where
  | neg | not
deriving DecidableEq, Repr

/-- Comparisons that push their outcome. -/
inductive CompareOp where
  | eq
  | gt (s : Signedness)
  | lt (s : Signedness)
deriving DecidableEq, Repr

/-- The integer types that conversions lead to. -/
inductive IntType where
  | i1 | i2 | i4 | i8 | u1 | u2 | u4 | u8 | i | u
deriving DecidableEq, Repr

/-- Conversions of one value to another type.  A checked conversion refuses a
number outside the range of its target. -/
inductive Conversion where
  | integer (target : IntType)
  | float32
  | float64
  | floatUnsigned
  | checked (target : IntType) (source : Signedness)
deriving DecidableEq, Repr

namespace IntType

def all : List IntType := [i1, i2, i4, i8, u1, u2, u4, u8, i, u]

def name : IntType → String
  | i1 => "i1" | i2 => "i2" | i4 => "i4" | i8 => "i8"
  | u1 => "u1" | u2 => "u2" | u4 => "u4" | u8 => "u8"
  | i => "i" | u => "u"

/-- The width in bits; the native types are as wide as an address. -/
def width : IntType → Nat
  | i1 | u1 => 8
  | i2 | u2 => 16
  | i4 | u4 => 32
  | i8 | u8 | i | u => 64

/-- Whether the type holds negative numbers. -/
def signedness : IntType → Signedness
  | i1 | i2 | i4 | i8 | i => .signed
  | u1 | u2 | u4 | u8 | u => .unsigned

def least (t : IntType) : Int :=
  match t.signedness with
  | .signed => (BitVec.intMin t.width).toInt
  | .unsigned => 0

def greatest (t : IntType) : Int :=
  match t.signedness with
  | .signed => (BitVec.intMax t.width).toInt
  | .unsigned => (BitVec.allOnes t.width).toNat

def holds (t : IntType) (n : Int) : Bool := t.least ≤ n && n ≤ t.greatest

end IntType

/-! ## Names -/

/-- What a name gains when the operands are read as unsigned. -/
def Signedness.mark : Signedness → String
  | signed => ""
  | unsigned => ".un"

/-- What a name gains when overflow is checked. -/
def Overflow.mark : Overflow → String
  | wrap => ""
  | check s => ".ovf" ++ s.mark

def Arithmetic.name : Arithmetic → String
  | add o => "add" ++ o.mark
  | sub o => "sub" ++ o.mark
  | mul o => "mul" ++ o.mark
  | div s => "div" ++ s.mark
  | rem s => "rem" ++ s.mark
  | and => "and"
  | or => "or"
  | xor => "xor"

def Shift.name : Shift → String
  | left => "shl"
  | right s => "shr" ++ s.mark

def BinaryOp.name : BinaryOp → String
  | arithmetic op => op.name
  | shift op => op.name

def UnaryOp.name : UnaryOp → String
  | neg => "neg"
  | not => "not"

def CompareOp.name : CompareOp → String
  | eq => "ceq"
  | gt s => "cgt" ++ s.mark
  | lt s => "clt" ++ s.mark

def Conversion.name : Conversion → String
  | integer t => "conv." ++ t.name
  | float32 => "conv.r4"
  | float64 => "conv.r8"
  | floatUnsigned => "conv.r.un"
  | checked t s => "conv.ovf." ++ t.name ++ s.mark

/-! ## All operations of a group -/

def Overflow.all : List Overflow := [wrap, check .signed, check .unsigned]

def Signedness.all : List Signedness := [signed, unsigned]

def Arithmetic.all : List Arithmetic :=
  Overflow.all.map add ++ Overflow.all.map sub ++ Overflow.all.map mul
    ++ Signedness.all.map div ++ Signedness.all.map rem ++ [and, or, xor]

def BinaryOp.all : List BinaryOp :=
  Arithmetic.all.map arithmetic
    ++ (Shift.left :: Signedness.all.map Shift.right).map shift

def UnaryOp.all : List UnaryOp := [neg, not]

def CompareOp.all : List CompareOp := eq :: Signedness.all.map gt ++ Signedness.all.map lt

def Conversion.all : List Conversion :=
  IntType.all.map integer ++ [float32, float64, floatUnsigned]
    ++ Signedness.all.flatMap fun s => IntType.all.map (checked · s)

def BinaryOp.ofName? (s : String) : Option BinaryOp := all.find? (·.name == s)

def UnaryOp.ofName? (s : String) : Option UnaryOp := all.find? (·.name == s)

def CompareOp.ofName? (s : String) : Option CompareOp := all.find? (·.name == s)

def Conversion.ofName? (s : String) : Option Conversion := all.find? (·.name == s)

/-! ## Properties of single operations -/

def BinaryOp.isShift : BinaryOp → Bool
  | shift _ => true
  | arithmetic _ => false

/-- The conversion refuses numbers out of range. -/
def Conversion.isChecked : Conversion → Bool
  | checked _ _ => true
  | _ => false

/-- The conversion reads an integer source as unsigned. -/
def Conversion.readsUnsigned : Conversion → Bool
  | floatUnsigned => true
  | checked _ .unsigned => true
  | _ => false

end KeyLoop
