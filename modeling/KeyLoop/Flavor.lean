/-
# `Flavor` — the declared types of locals and arguments

A slot is declared with one of these types.  Storing a value narrows it to
the declared type, and an initialized slot starts at the zero of its type.
-/
import KeyLoop.Value.Conversion

namespace KeyLoop

/-- The declared type of a slot. -/
inductive Flavor where
  | boolean | char
  | i1 | u1 | i2 | u2 | i4 | u4 | i8 | u8
  | r4 | r8
  | i | u
  | object | valueType
deriving DecidableEq, Repr

namespace Flavor

def all : List Flavor :=
  [boolean, char, i1, u1, i2, u2, i4, u4, i8, u8, r4, r8, i, u, object, valueType]

def name : Flavor → String
  | boolean => "Boolean" | char => "Char"
  | i1 => "I1" | u1 => "U1" | i2 => "I2" | u2 => "U2"
  | i4 => "I4" | u4 => "U4" | i8 => "I8" | u8 => "U8"
  | r4 => "R4" | r8 => "R8"
  | i => "I" | u => "U"
  | object => "Object" | valueType => "ValueType"

def ofName? (s : String) : Option Flavor := all.find? (·.name == s)

/-- Neither a reference nor a compound value. -/
def isPrimitive : Flavor → Bool
  | object | valueType => false
  | _ => true

/-- The slot loads as a 32-bit integer. -/
def isInt32 : Flavor → Bool
  | boolean | char | i1 | u1 | i2 | u2 | i4 | u4 => true
  | _ => false

/-- The slot loads as a 64-bit integer. -/
def isInt64 : Flavor → Bool
  | i8 | u8 | i | u => true
  | _ => false

/-- The slot loads as a float. -/
def isFloat : Flavor → Bool
  | r4 | r8 => true
  | _ => false

/-- The width in bits of an integer slot. -/
def intBits? : Flavor → Option Nat
  | boolean | i1 | u1 => some 8
  | char | i2 | u2 => some 16
  | i4 | u4 => some 32
  | i8 | u8 | i | u => some 64
  | _ => none

def isSigned : Flavor → Bool
  | i1 | i2 | i4 | i8 | i => true
  | _ => false

/-- What an initialized slot holds at first; compound values and references
are not modelled, so nothing is known about them. -/
def zero (f : Flavor) : Value :=
  if f.isInt32 then .ofBits 0
  else if f.isInt64 then .int64 0
  else if f.isFloat then .float 0.0
  else .unknown

end Flavor

/-- The value as it is after a store to a slot of this flavor.  Slots narrower
than 32 bits cut every value down; the wider integer slots convert the other
integer width only, and leave alone what is not an integer. -/
def Value.coerce (v : Value) (f : Flavor) : Value :=
  match f, v with
  | .boolean, v | .u1, v => v.convert (.integer .u1)
  | .i1, v => v.convert (.integer .i1)
  | .char, v | .u2, v => v.convert (.integer .u2)
  | .i2, v => v.convert (.integer .i2)
  | .i4, .int64 b | .u4, .int64 b => Value.convert (.int64 b) (.integer .i4)
  | .i8, .int32 w | .i, .int32 w => Value.convert (.int32 w) (.integer .i8)
  | .u8, .int32 w | .u, .int32 w => Value.convert (.int32 w) (.integer .u8)
  | .r4, .float x => .float (roundToSingle x)
  | _, v => v

end KeyLoop
