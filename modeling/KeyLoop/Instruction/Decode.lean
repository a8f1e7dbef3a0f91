/-
# Decoding code into instructions

An instruction is its opcode and the operand its row asks for.  Decoding
reads one after the other from the front of the bytes that are left, so what
an instruction means depends on nothing before it but its address, and on
nothing behind it but the count of bytes left, against which the length of a
jump table is checked before the table is read.
-/
import KeyLoop.Bytes.Reader
import KeyLoop.Instruction.Basic

namespace KeyLoop

namespace Decode

/-- Read an opcode: one byte, or the lead byte and one more. -/
def opcode : Reader Opcode := do
  let first ← Reader.byte
  if first = Opcode.extendedLead then return .extended (← Reader.byte)
  else return .single first

/-- The row of an opcode read at an address. -/
def row (address : BitVec 64) (o : Opcode) : Reader Row :=
  match o.row? with
  | some row => pure row
  | none =>
      if o.isAssigned then throw (.malformed (.reservedOpcode o address))
      else throw (.malformed (.unassignedOpcode o))

/-- Read the displacements of a jump table.  A count that the bytes left
cannot hold is refused before any displacement is read. -/
def switchTable : Reader Operand := do
  let count ← Reader.word 32
  let left ← Reader.remaining
  if left / 4 < count.toNat then throw .outOfBounds
  else return .switch (← Reader.words 32 count.toNat)

/-- Read an operand of the given type. -/
def operand : OperandType → Reader Operand
  | .none => return .none
  | .scalar t => do return .immediate ⟨t, ← Reader.word t.width⟩
  | .token => do return .token ⟨← Reader.word 32⟩
  | .switch => switchTable

/-- The addresses an instruction that ends before `next` may branch to. -/
def targets (flow : Flow) (next : BitVec 64) : Operand → List (BitVec 64)
  | .immediate i => if flow.hasLabel then [next + i.toBits64] else []
  | .switch displacements => displacements.map fun d => next + d.signExtend 64
  | _ => []

/-- Read the instruction at an address and an offset in the buffer. -/
def instruction (address : BitVec 64) (offset : Nat) : Reader Instruction := do
  let o ← opcode
  let row ← row address o
  let operand ← operand row.operandType
  let size := o.bytes.length + operand.size
  let next := address + BitVec.ofNat 64 size
  return { row.toTraits with
    address, offset, size, opcode := o, operand, targets := targets row.flow next operand }

/-! ## Every instruction takes at least one byte -/

theorem consumes_row (address : BitVec 64) (o : Opcode) : (row address o).Consumes := by
  unfold row
  split
  · exact Reader.consumes_pure _
  · split <;> exact Reader.consumes_throw _

theorem consumes_switchTable : switchTable.Consumes :=
  Reader.consumes_bind (Reader.consumes_word _) fun count =>
    Reader.consumes_bind Reader.consumes_remaining fun left => by
      split
      · exact Reader.consumes_throw _
      · exact Reader.consumes_bind (Reader.consumes_words _ _) fun _ => Reader.consumes_pure _

theorem consumes_operand (t : OperandType) : (operand t).Consumes := by
  cases t with
  | none => exact Reader.consumes_pure _
  | scalar t => exact Reader.consumes_bind (Reader.consumes_word _) fun _ => Reader.consumes_pure _
  | token => exact Reader.consumes_bind (Reader.consumes_word _) fun _ => Reader.consumes_pure _
  | switch => exact consumes_switchTable

/-- Reading an opcode takes a byte whenever there is one. -/
theorem length_rest_opcode_lt (b : Byte) (bs : List Byte) :
    (opcode.rest (b :: bs)).length < (b :: bs).length := by
  have hb : Reader.byte (b :: bs) = .ok b bs := rfl
  have hf : ∀ first, Reader.Consumes
      (if first = Opcode.extendedLead then return .extended (← Reader.byte)
        else return .single first : Reader Opcode) := by
    intro first
    split
    · exact Reader.consumes_bind Reader.consumes_byte fun _ => Reader.consumes_pure _
    · exact Reader.consumes_pure _
  have h := Reader.length_rest_bind_le (r := Reader.byte) hf (b :: bs)
  simp only [Reader.rest, hb] at h
  exact Nat.lt_succ_of_le h

/-- Reading an instruction takes a byte whenever there is one. -/
theorem length_rest_instruction_lt (address : BitVec 64) (offset : Nat) (b : Byte)
    (bs : List Byte) :
    ((instruction address offset).rest (b :: bs)).length < (b :: bs).length :=
  Nat.lt_of_le_of_lt
    (Reader.length_rest_bind_le
      (fun o => Reader.consumes_bind (consumes_row address o) fun row =>
        Reader.consumes_bind (consumes_operand row.operandType) fun _ => Reader.consumes_pure _)
      (b :: bs))
    (length_rest_opcode_lt b bs)

/-! ## Whole listings -/

/-- Read instructions, one behind the other, until no byte is left. -/
def stream (address : BitVec 64) (offset : Nat) : Reader (List Instruction)
  | [] => .ok [] []
  | b :: bs =>
      match _h : instruction address offset (b :: bs) with
      | .error e left => .error e left
      | .ok i left =>
          match stream i.next (offset + i.size) left with
          | .error e left => .error e left
          | .ok is left => .ok (i :: is) left
termination_by input => input.length
decreasing_by
  have hlt := length_rest_instruction_lt address offset b bs
  simpa [Reader.rest, _h] using hlt

end Decode

/-- The instructions that a piece of code consists of. -/
def decode (address : BitVec 64) (code : List Byte) : Except Fault (List Instruction) :=
  match Decode.stream address 0 code with
  | .ok instructions _ => .ok instructions
  | .error e _ => .error e

def Cursor.instruction (address : BitVec 64) : EStateM Fault Cursor Instruction := fun c =>
  Cursor.read (Decode.instruction address c.position) c

/-- Read instructions from the cursor to the end of the buffer. -/
def Cursor.stream (address : BitVec 64) : EStateM Fault Cursor (List Instruction) := fun c =>
  Cursor.read (Decode.stream address c.position) c

end KeyLoop
