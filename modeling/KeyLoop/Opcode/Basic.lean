/-
# `Opcode` — how instructions are told apart, and what their class says

An opcode is one byte, or the lead byte `FE` and one more.  This module has
the vocabulary in which the instruction set is tabulated: operand types,
categories, the ways control leaves an instruction, and what an instruction
asks the evaluation machine to do.
-/
import KeyLoop.Bytes.LittleEndian
import KeyLoop.Value.Operation

namespace KeyLoop

/-- An opcode: its last byte, and the byte in front of it, zero when there is none. -/
structure Opcode where
  lead : Byte
  code : Byte
deriving DecidableEq, Repr

namespace Opcode

/-- The lead byte that opens a two-byte opcode. -/
def extendedLead : Byte := 0xFE

def single (code : Byte) : Opcode := ⟨0, code⟩

def extended (code : Byte) : Opcode := ⟨extendedLead, code⟩

def bytes (o : Opcode) : List Byte := if o.lead = 0 then [o.code] else [o.lead, o.code]

end Opcode

/-- The number types of immediate operands. -/
inductive ScalarType where
  | int8 | uint8 | int16 | uint16 | int32 | uint32 | int64 | uint64 | float32 | float64
deriving DecidableEq, Repr

namespace ScalarType

def size : ScalarType → Nat
  | int8 | uint8 => 1
  | int16 | uint16 => 2
  | int32 | uint32 | float32 => 4
  | int64 | uint64 | float64 => 8

def width (t : ScalarType) : Nat := 8 * t.size

def isSignedInt : ScalarType → Bool
  | int8 | int16 | int32 | int64 => true
  | _ => false

def name : ScalarType → String
  | int8 => "Int8" | uint8 => "UInt8"
  | int16 => "Int16" | uint16 => "UInt16"
  | int32 => "Int32" | uint32 => "UInt32"
  | int64 => "Int64" | uint64 => "UInt64"
  | float32 => "Float32" | float64 => "Float64"

end ScalarType

/-- What follows the opcode in code. -/
inductive OperandType where
  | none
  | scalar (t : ScalarType)
  | token
  /-- A count and as many displacements. -/
  | switch
deriving DecidableEq, Repr

namespace OperandType

/-- The size in bytes, when the type alone fixes it. -/
def size? : OperandType → Option Nat
  | none => some 0
  | scalar t => some t.size
  | token => some 4
  | switch => Option.none

def name : OperandType → String
  | none => "None"
  | scalar t => t.name
  | token => "Token"
  | switch => "Switch"

end OperandType

/-- The families that listings sort instructions into. -/
inductive Category where
  | arithmetic | bitwise | comparison | controlFlow | conversion
  | loadStore | objectModel | modifier | misc
deriving DecidableEq, Repr

def Category.name : Category → String
  | arithmetic => "Arithmetic"
  | bitwise => "BitwiseLogical"
  | comparison => "Comparison"
  | controlFlow => "ControlFlow"
  | conversion => "Conversion"
  | loadStore => "LoadStore"
  | objectModel => "ObjectModel"
  | modifier => "Prefix"
  | misc => "Misc"

/-- Where control goes after an instruction. -/
inductive Flow where
  | sequential | conditional | unconditional | call | ret | switch | throw | endFinally | leave
deriving DecidableEq, Repr

namespace Flow

def all : List Flow :=
  [sequential, conditional, unconditional, call, ret, switch, throw, endFinally, leave]

def name : Flow → String
  | sequential => "Sequential"
  | conditional => "ConditionalBranch"
  | unconditional => "UnconditionalBranch"
  | call => "Call"
  | ret => "Return"
  | switch => "Switch"
  | throw => "Throw"
  | endFinally => "EndFinally"
  | leave => "Leave"

def ofName? (s : String) : Option Flow := all.find? (·.name == s)

/-- Control may go to a target in the same method. -/
def isBranch : Flow → Bool
  | conditional | unconditional | switch => true
  | _ => false

/-- The instruction has one target, written as a displacement. -/
def hasLabel : Flow → Bool
  | conditional | unconditional | leave => true
  | _ => false

/-- Control leaves the straight line in a way that evaluation does not follow. -/
def isUnmodelled : Flow → Bool
  | call | ret | throw | endFinally | leave => true
  | _ => false

end Flow

/-- The two kinds of slot a method declares. -/
inductive SlotKind where
  | argument | localVar
deriving DecidableEq, Repr

/-- What an instruction does with a slot. -/
inductive SlotAccess where
  | load | store | address
deriving DecidableEq, Repr

/-- Where an instruction keeps a small number: in its opcode or in its operand. -/
inductive Place (α : Type) where
  | implied (x : α)
  | operand
deriving DecidableEq, Repr

/-- What an instruction asks the evaluation machine to do. -/
inductive Action where
  | nop
  | dup
  | pop
  | slot (kind : SlotKind) (access : SlotAccess) (index : Place (BitVec 16))
  /-- Push a 32-bit constant. -/
  | int32 (constant : Place (BitVec 32))
  /-- Push the 64-bit constant of the operand. -/
  | int64
  /-- Push the floating-point constant of the operand. -/
  | float
  /-- Take the condition away; evaluation does not follow the branch. -/
  | branch
  /-- Load a number of so many bits from memory, which is not modelled. -/
  | loadNarrow (bits : Nat)
  | binary (op : BinaryOp)
  | unary (op : UnaryOp)
  | compare (op : CompareOp)
  | convert (op : Conversion)
  /-- Nothing is known of what it does beyond its effect on the stack depth. -/
  | unmodelled
deriving DecidableEq, Repr

/-- What all occurrences of an instruction have in common. -/
structure Traits where
  mnemonic : String
  category : Category
  flow : Flow
  /-- How many values it takes from the stack. -/
  pops : Nat
  /-- How many values it puts on the stack. -/
  pushes : Nat
deriving DecidableEq, Repr

/-- How far the stack grows, negative when it shrinks. -/
def Traits.net (t : Traits) : Int := (t.pushes : Int) - t.pops

end KeyLoop
