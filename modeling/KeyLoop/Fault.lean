/-
# `Fault` — everything that can go wrong, by cause

A fault names its cause and carries what its message needs.  `message` is the
only place where wording is chosen.  Faults of the evaluation machine form a
type of their own, since the machine can fail in no other way.
-/
import KeyLoop.Opcode.Basic
import KeyLoop.Value.Basic

namespace KeyLoop

/-- The constants an instruction can lack in its operand. -/
inductive Constant where
  | slotIndex | int32 | int64 | float
deriving DecidableEq, Repr

def Constant.name : Constant → String
  | slotIndex => "slot index"
  | int32 => "int32"
  | int64 => "int64"
  | float => "float"

/-- The ways a step of the evaluation machine can fail. -/
inductive MachineFault where
  | stackOverflow (limit : Nat)
  | stackUnderflow
  | slotUndeclared (kind : SlotKind) (index : BitVec 16) (count : Nat)
  | instructionLimit (executed limit : Nat)
  | unsupported (opcode : Opcode) (mnemonic : String)
  | operandMissing (mnemonic : String) (wanted : Constant)
deriving DecidableEq, Repr

/-- The ways the bytes of code or of a method header can be meaningless. -/
inductive Malformation where
  | unassignedOpcode (opcode : Opcode)
  | reservedOpcode (opcode : Opcode) (address : BitVec 64)
  | emptyBody
  | headerTooShort (size : Nat)
  | unknownHeader (first : Byte)
  | displacementTooWide
  /-- A jump table has more entries than its count can say. -/
  | tooManyTargets
  /-- A label lies behind more code than a position can say. -/
  | codeTooLong
deriving DecidableEq, Repr

/-- The ways a request to assemble a branch can be wrong. -/
inductive BranchFault where
  /-- A branch was asked for without a label. -/
  | needsLabel (mnemonic : String)
  /-- A label was given to an instruction that is no branch. -/
  | notABranch (mnemonic : String)
  /-- The branch has no displacement of one or four bytes. -/
  | noDisplacement
  /-- The label lies too far away for the branch's one byte. -/
  | outOfReach (displacement : Int) (label : String)
deriving DecidableEq, Repr

/-- The ways the computation of one key word can fail. -/
inductive KeyWordFault where
  | machine (fault : MachineFault)
  /-- The loop ran, and left a value that is no fully known 32-bit integer. -/
  | notConcrete (result : Value)
deriving DecidableEq, Repr

/-- Everything that can go wrong. -/
inductive Fault where
  | malformed (cause : Malformation)
  | outOfBounds
  | unknownMnemonic (mnemonic : String)
  | wrongOperand (expected : OperandType)
  | unexpectedOperand
  | branch (cause : BranchFault)
  | duplicateLabel (label : String)
  | undefinedLabel (label : String)
  | machine (fault : MachineFault)
  | loopNotFound
  | keyWord (cause : KeyWordFault)
  | bufferUnderrun (offset available : Nat)
deriving DecidableEq, Repr

/-- What an opcode looks like in messages: its bytes, parted by a colon. -/
def Opcode.inMessage (o : Opcode) : String :=
  let code := "0x" ++ Hex.upper 2 o.code.toNat
  if o.lead = 0 then code else "0x" ++ Hex.upper 2 o.lead.toNat ++ ":" ++ code

def MachineFault.message : MachineFault → String
  | stackOverflow limit => s!"evaluation stack overflow (limit: {limit})"
  | stackUnderflow => "evaluation stack underflow"
  | slotUndeclared .localVar index count =>
      s!"local variable index {index.toNat} out of bounds (count: {count})"
  | slotUndeclared .argument index count =>
      s!"argument index {index.toNat} out of bounds (count: {count})"
  | instructionLimit executed limit =>
      s!"instruction limit exceeded: {executed} (limit: {limit})"
  | unsupported opcode mnemonic => s!"unsupported opcode: {opcode.inMessage} ({mnemonic})"
  | operandMissing mnemonic wanted =>
      s!"invalid operand for {mnemonic}: expected {wanted.name}"

/-- The message of a machine fault among other faults. -/
def MachineFault.report (f : MachineFault) : String := "Emulation - " ++ f.message

def Malformation.message : Malformation → String
  | unassignedOpcode o =>
      let code := Hex.upper 2 o.code.toNat
      if o.lead = 0 then s!"Invalid opcode: {code}"
      else s!"Invalid opcode: {Hex.upper 2 o.lead.toNat} {code}"
  | reservedOpcode o address =>
      "Reserved opcode: " ++ Hex.upper 2 o.lead.toNat ++ Hex.upper 2 o.code.toNat
        ++ " at RVA 0x" ++ Hex.upper 1 address.toNat
  | emptyBody => "Provided data for body parsing is empty"
  | headerTooShort size => s!"Fat method header declares {size} bytes"
  | unknownHeader first => s!"MethodHeader is neither FAT nor TINY - {first.toNat}"
  | displacementTooWide => "Branch offset exceeds i32 range"
  | tooManyTargets => "Too many switch targets"
  | codeTooLong => "Bytecode length exceeds u32 range"

def BranchFault.message : BranchFault → String
  | needsLabel mnemonic => "branch '" ++ mnemonic ++ "' needs a label"
  | notABranch mnemonic => "instruction '" ++ mnemonic ++ "' is not a branch instruction"
  | noDisplacement => "operand type must be Int8 or Int32"
  | outOfReach displacement label =>
      "offset " ++ toString displacement ++ " to '" ++ label
        ++ "' out of range for 1-byte instruction"

/-- Why a key word could not be computed. -/
def KeyWordFault.reason : KeyWordFault → String
  | machine fault => fault.report
  | notConcrete result => "final stack value " ++ result.render ++ " is not a concrete int32"

def Fault.message : Fault → String
  | malformed cause => cause.message
  | outOfBounds => "Out of Bound read would have occurred!"
  | unknownMnemonic mnemonic => s!"Invalid instruction mnemonic: {mnemonic}"
  | wrongOperand expected => s!"Wrong operand type - expected {expected.name}"
  | unexpectedOperand => "Unexpected operand for instruction without operands"
  | branch cause => s!"Invalid branch - {cause.message}"
  | duplicateLabel label => s!"Duplicate label: {label}"
  | undefinedLabel label => s!"Undefined label: {label}"
  | machine fault => fault.report
  | loopNotFound => "No recognizable keystream loop found in decrypter method"
  | keyWord cause => s!"Could not calculate magic value - {cause.reason}"
  | bufferUnderrun offset available =>
      s!"Buffer underrun at offset {offset} ({available} bytes available)"

end KeyLoop
