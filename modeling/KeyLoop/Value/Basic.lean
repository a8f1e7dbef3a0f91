/-
# `Value` — what a stack position or a slot can hold

Evaluation works on four kinds of value: 32-bit integers of which only some
bits need be known, 64-bit integers and floats that are always fully known,
and a value about which nothing is known, not even its kind.
-/
import KeyLoop.PartialWord
import KeyLoop.Binary64.Shortest

namespace KeyLoop

/-- A value of the evaluation stack. -/
inductive Value where
  | int32 (word : PartialWord)
  | int64 (bits : BitVec 64)
  | float (number : Float)
  | unknown
deriving DecidableEq, Repr

namespace Value

/-- The kinds of value, by representation on the stack. -/
inductive Kind where
  | int32 | int64 | float | unknown
deriving DecidableEq, Repr

def Kind.name : Kind → String
  | int32 => "int32"
  | int64 => "int64"
  | float => "float"
  | unknown => "unknown"

def kind : Value → Kind
  | int32 _ => .int32
  | int64 _ => .int64
  | float _ => .float
  | unknown => .unknown

/-- The fully known 32-bit integer with these bits. -/
def ofBits (bits : BitVec 32) : Value := int32 (.concrete bits)

/-- A 32-bit integer about which nothing else is known. -/
def anyInt32 : Value := int32 .unknown

/-- The 32-bit integer a test pushes: one when it holds, zero when not. -/
def flag (b : Bool) : Value := ofBits (if b then 1 else 0)

/-- The outcome of a test that could not be decided: zero or one. -/
def anyFlag : Value := int32 .anyFlag

/-- Everything about the value is known. -/
def isConcrete : Value → Bool
  | int32 w => w.isConcrete
  | int64 _ => true
  | float _ => true
  | unknown => false

/-- The bits of a fully known 32-bit integer. -/
def toBits? : Value → Option (BitVec 32)
  | int32 w => w.toBits?
  | _ => none

/-- The value is fully known and different from zero; NaN counts as such. -/
def isNonzero : Value → Bool
  | int32 w => w.toBits?.any (· != 0)
  | int64 b => b != 0
  | float x => !(x == 0.0)
  | unknown => false

/-- The bits of a fully known integer of either width, sign-extended to 64 bits. -/
def widened? : Value → Option (BitVec 64)
  | int32 w => w.toBits?.map (·.signExtend 64)
  | int64 b => some b
  | _ => none

/-- The text of a value in messages: its kind, and its content in parentheses. -/
def render : Value → String
  | int32 w => "int32(" ++ w.render ++ ")"
  | int64 b => "int64(" ++ toString b.toInt ++ ")"
  | float x => "float(" ++ Binary64.text x ++ ")"
  | unknown => "unknown"

end Value

end KeyLoop
