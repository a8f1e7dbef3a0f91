/-
# `Instruction` — one decoded instruction

An instruction knows where it stands, what the table says of its opcode, its
operand, and the addresses it may branch to.  The queries below read the
operand under one number type or another, and tell which slot or constant an
instruction is about.  They look at the opcode only, never at the name.
-/
import KeyLoop.Opcode.Table
import KeyLoop.Text.Hex

namespace KeyLoop

/-- A metadata token: a table number in the top byte and a row number below. -/
structure Token where
  value : BitVec 32
deriving DecidableEq, Repr

namespace Token

def table (t : Token) : Nat := t.value.toNat >>> 24

/-- The row within the table, counted from one. -/
def row (t : Token) : Nat := t.value.toNat % 0x1000000

def isNull (t : Token) : Bool := t.value == 0

def render (t : Token) : String := "0x" ++ Hex.lower 8 t.value.toNat

end Token

/-- A number in code, with its type. -/
structure Immediate where
  type : ScalarType
  bits : BitVec type.width
deriving DecidableEq, Repr

namespace Immediate

/-- The number read as its type says, for the integer types; the bits of a float. -/
def toInt (i : Immediate) : Int :=
  if i.type.isSignedInt then i.bits.toInt else i.bits.toNat

/-- The number in 64 bits: signed integers repeat their sign, everything else
is filled with zeros. -/
def toBits64 (i : Immediate) : BitVec 64 := BitVec.ofInt 64 i.toInt

def hex (i : Immediate) : String := Hex.upper (2 * i.type.size) i.bits.toNat

end Immediate

/-- What an instruction carries besides its opcode. -/
inductive Operand where
  | none
  | immediate (value : Immediate)
  | target (address : BitVec 64)
  | token (token : Token)
  | slot (kind : SlotKind) (index : BitVec 16)
  /-- The displacements of a jump table, from the end of the instruction. -/
  | switch (displacements : List (BitVec 32))
deriving DecidableEq, Repr

namespace Operand

/-- How many bytes the operand takes in code; resolved targets and slots have
no written form of their own. -/
def size : Operand → Nat
  | none | target _ | slot _ _ => 0
  | immediate i => i.type.size
  | token _ => 4
  | switch displacements => 4 + 4 * displacements.length

/-- The operand as a 16-bit unsigned number: a slot index, or an immediate
whose 64-bit pattern is that small. -/
def uint16? : Operand → Option (BitVec 16)
  | slot _ index => some index
  | immediate i =>
      if i.toBits64.toNat < 0x10000 then some (i.toBits64.truncate 16) else Option.none
  | _ => Option.none

/-- The operand as an 8-bit signed number: an immediate of one byte. -/
def int8? : Operand → Option (BitVec 8)
  | immediate ⟨.int8, bits⟩ => some bits
  | immediate ⟨.uint8, bits⟩ => some bits
  | _ => Option.none

/-- The operand as a 32-bit signed number: an integer of at most four bytes. -/
def int32? : Operand → Option (BitVec 32)
  | immediate i =>
      if i.type.size ≤ 4 ∧ i.type ≠ .float32 then some (BitVec.ofInt 32 i.toInt)
      else Option.none
  | _ => Option.none

/-- The operand as a 64-bit signed number: an integer of eight bytes, or the
sign extension of what it is as a 32-bit signed number. -/
def int64? (o : Operand) : Option (BitVec 64) :=
  match o with
  | immediate ⟨.int64, bits⟩ => some bits
  | immediate ⟨.uint64, bits⟩ => some bits
  | _ => o.int32?.map (·.signExtend 64)

/-- The operand as a double: a float of either precision. -/
def float? : Operand → Option Float
  | immediate ⟨.float32, bits⟩ => some (Float32.ofBits (UInt32.ofBitVec bits)).toFloat
  | immediate ⟨.float64, bits⟩ => some (Float.ofBits (UInt64.ofBitVec bits))
  | _ => Option.none

end Operand

structure Instruction extends Traits where
  /-- The address of its first byte. -/
  address : BitVec 64
  /-- The distance of its first byte from the start of the buffer. -/
  offset : Nat
  size : Nat
  opcode : Opcode
  operand : Operand
  /-- The addresses it may branch to. -/
  targets : List (BitVec 64)
deriving DecidableEq, Repr

namespace Instruction

/-- The address of the byte behind the instruction. -/
def next (i : Instruction) : BitVec 64 := i.address + BitVec.ofNat 64 i.size

/-- What the instruction asks of the evaluation machine. -/
def action (i : Instruction) : Action := i.opcode.action

def isBranch (i : Instruction) : Bool := i.flow.isBranch

def isSequential (i : Instruction) : Bool := i.flow == .sequential

/-- An unconditional branch, short or long. -/
def isBr (i : Instruction) : Bool := i.opcode == .br || i.opcode == .brShort

/-- A branch on inequality, short or long. -/
def isBneUn (i : Instruction) : Bool := i.opcode == .bneUn || i.opcode == .bneUnShort

/-- The slot access the opcode stands for: kind, access, and where the index is. -/
def slotAccess? (i : Instruction) : Option (SlotKind × SlotAccess × Place (BitVec 16)) :=
  match i.action with
  | .slot kind access index => some (kind, access, index)
  | _ => none

/-- The instruction accesses a slot of this kind in this way. -/
def accesses (i : Instruction) (kind : SlotKind) (access : SlotAccess) : Bool :=
  match i.slotAccess? with
  | some (k, a, _) => k == kind && a == access
  | none => false

def loadsLocal (i : Instruction) : Bool := i.accesses .localVar .load

def storesLocal (i : Instruction) : Bool := i.accesses .localVar .store

def addressesLocal (i : Instruction) : Bool := i.accesses .localVar .address

/-- The slot index kept at a place: in the opcode, or in the operand. -/
def indexAt? (i : Instruction) : Place (BitVec 16) → Option (BitVec 16)
  | .implied index => some index
  | .operand => i.operand.uint16?

/-- The index of the slot of this kind that the instruction accesses. -/
def slotIndex? (i : Instruction) (kind : SlotKind) : Option (BitVec 16) :=
  match i.slotAccess? with
  | some (k, _, place) => if k = kind then i.indexAt? place else none
  | none => none

def localIndex? (i : Instruction) : Option (BitVec 16) := i.slotIndex? .localVar

def argumentIndex? (i : Instruction) : Option (BitVec 16) := i.slotIndex? .argument

/-- The 32-bit constant kept at a place.  The short form has a signed byte as
operand, and only the opcode tells the two forms apart. -/
def int32At? (i : Instruction) : Place (BitVec 32) → Option (BitVec 32)
  | .implied constant => some constant
  | .operand =>
      if i.opcode = .ldcI4Short then i.operand.int8?.map (·.signExtend 32)
      else i.operand.int32?

def int32Constant? (i : Instruction) : Option (BitVec 32) :=
  match i.action with
  | .int32 place => i.int32At? place
  | _ => none

/-- The address the instruction branches to, the first of several. -/
def branchTarget? (i : Instruction) : Option (BitVec 64) :=
  match i.operand with
  | .target address => some address
  | _ => if i.isBranch || i.flow == .leave then i.targets.head? else none

end Instruction

end KeyLoop
