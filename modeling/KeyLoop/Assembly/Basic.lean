/-
# `Assembly` — code under construction

Code is built up from pieces: bytes that are final, and displacements that
wait for the position of a label.  Labels may be used before they are
defined; `finish` replaces every displacement when all positions are known.

Each request looks its instruction up by name.  A request that fails after
its opcode was written leaves the opcode in the code: what has been written
is never taken back.

Alongside, the assembly follows the stack depth that straight-line execution
would have, and remembers the greatest one.  Depths are 16-bit numbers that
stop at both ends of their range.
-/
import KeyLoop.Instruction.Basic
import KeyLoop.Fault

namespace KeyLoop

/-- The displacements a branch can have, in bytes. -/
inductive Reach where
  | short | long
deriving DecidableEq, Repr

def Reach.size : Reach → Nat
  | short => 1
  | long => 4

/-- A stretch of code under construction. -/
inductive Piece where
  | final (bytes : List Byte)
  /-- The distance from the end of this piece to the label. -/
  | displacement (reach : Reach) (label : String)
deriving DecidableEq, Repr

def Piece.size : Piece → Nat
  | final bytes => bytes.length
  | displacement reach _ => reach.size

/-- Code under construction. -/
structure Assembly where
  /-- The code so far, in order. -/
  pieces : Array Piece
  /-- The labels in the order of their definition, with their positions. -/
  labels : List (String × Nat)
  /-- The stack depth after the code so far. -/
  depth : Nat
  /-- The greatest stack depth so far. -/
  maxDepth : Nat
deriving DecidableEq, Repr

/-- Finished code. -/
structure Program where
  code : List Byte
  maxStack : Nat
  labels : List (String × Nat)
deriving DecidableEq, Repr

/-- A request to an assembly; a failure keeps what was written before it. -/
abbrev Assembler := EStateM Fault Assembly

namespace Assembly

def empty : Assembly := ⟨#[], [], 0, 0⟩

def size (a : Assembly) : Nat := a.pieces.toList.foldr (fun p n => p.size + n) 0

def position? (labels : List (String × Nat)) (label : String) : Option Nat :=
  (labels.find? (·.1 == label)).map (·.2)

/-- The greatest depth that is tracked. -/
def depthLimit : Nat := 65535

/-! ## Requests -/

def write (p : Piece) : Assembler Unit := modify fun a => { a with pieces := a.pieces.push p }

/-- Account for an instruction's effect on the stack depth. -/
def track (t : Traits) : Assembler Unit := modify fun a =>
  let depth := min (a.depth - t.pops + t.pushes) depthLimit
  { a with depth, maxDepth := max a.maxDepth depth }

def row (mnemonic : String) : Assembler Row :=
  match Row.ofMnemonic? mnemonic with
  | some row => pure row
  | none => throw (.unknownMnemonic mnemonic)

/-- The bytes of an operand, if it is of the type that the instruction wants.
A slot index goes wherever an unsigned number of its size does. -/
def operandBytes : OperandType → Option Operand → Except Fault (List Byte)
  | .none, none => .ok []
  | .none, some _ => .error .unexpectedOperand
  | .token, some (.token t) => .ok (LittleEndian.ofBits t.value)
  | .switch, some (.switch displacements) =>
      if displacements.length < 0x100000000 then
        .ok (LittleEndian.ofNat 4 displacements.length
          ++ displacements.flatMap fun d => LittleEndian.ofBits d)
      else .error (.malformed .tooManyTargets)
  | .scalar t, some (.slot _ index) =>
      if (t = .uint8 ∧ index.toNat < 0x100) ∨ t = .uint16 then
        .ok (LittleEndian.ofNat t.size index.toNat)
      else .error (.wrongOperand (.scalar t))
  | .scalar t, some (.immediate i) =>
      if i.type = t then .ok (LittleEndian.ofBits i.bits) else .error (.wrongOperand (.scalar t))
  | t, _ => .error (.wrongOperand t)

/-- Write an instruction that is no labelled branch. -/
def emit (mnemonic : String) (operand : Option Operand) : Assembler Unit := do
  let row ← row mnemonic
  if row.flow.hasLabel then throw (.branch (.needsLabel mnemonic))
  write (.final row.opcode.bytes)
  match operandBytes row.operandType operand with
  | .ok bytes =>
      write (.final bytes)
      track row.toTraits
  | .error e => throw e

/-- The displacement of a branch with this operand type. -/
def reach? : OperandType → Option Reach
  | .scalar .int8 => some .short
  | .scalar .int32 => some .long
  | _ => none

def emitBranch (mnemonic label : String) : Assembler Unit := do
  let row ← row mnemonic
  if !row.flow.hasLabel then throw (.branch (.notABranch mnemonic))
  match reach? row.operandType with
  | none => throw (.branch .noDisplacement)
  | some reach =>
      write (.final row.opcode.bytes)
      write (.displacement reach label)
      track row.toTraits

/-- Define a label at the end of the code so far. -/
def define (label : String) : Assembler Unit := do
  let a ← get
  if (position? a.labels label).isSome then throw (.duplicateLabel label)
  if 0x100000000 ≤ a.size then throw (.malformed .codeTooLong)
  set { a with labels := a.labels ++ [(label, a.size)] }

/-! ## Shortest forms -/

def uint8 (n : Nat) : Operand := .immediate ⟨.uint8, BitVec.ofNat 8 n⟩

def uint16 (n : BitVec 16) : Operand := .immediate ⟨.uint16, n⟩

/-- A slot access whose operand is one byte if the index fits, else two. -/
def emitAddressed (stem : String) (index : BitVec 16) : Assembler Unit :=
  if index.toNat < 0x100 then emit (stem ++ ".s") (some (uint8 index.toNat))
  else emit stem (some (uint16 index))

/-- A slot access that has forms of its own for the first four slots. -/
def emitSlot (stem : String) (index : BitVec 16) : Assembler Unit :=
  if index.toNat < 4 then emit (stem ++ "." ++ toString index.toNat) none
  else emitAddressed stem index

/-- Push a 32-bit constant; minus one to eight have forms of their own. -/
def emitInt32 (constant : BitVec 32) : Assembler Unit :=
  if constant = -1 then emit "ldc.i4.m1" none
  else if constant.toNat ≤ 8 then emit ("ldc.i4." ++ toString constant.toNat) none
  else if -0x80 ≤ constant.toInt ∧ constant.toInt < 0x80 then
    emit "ldc.i4.s" (some (.immediate ⟨.int8, constant.truncate 8⟩))
  else emit "ldc.i4" (some (.immediate ⟨.int32, constant⟩))

/-! ## Finishing -/

/-- The bytes of the distance from a branch's end to its label. -/
def displacementBytes (reach : Reach) (label : String) (distance : Int) :
    Except Fault (List Byte) :=
  match reach with
  | .short =>
      if -0x80 ≤ distance ∧ distance < 0x80 then
        .ok (LittleEndian.ofBits (BitVec.ofInt 8 distance))
      else .error (.branch (.outOfReach distance label))
  | .long =>
      if -0x80000000 ≤ distance ∧ distance < 0x80000000 then
        .ok (LittleEndian.ofBits (BitVec.ofInt 32 distance))
      else .error (.malformed .displacementTooWide)

/-- The final bytes of a piece that starts at `start`. -/
def resolvePiece (labels : List (String × Nat)) (start : Nat) : Piece → Except Fault (List Byte)
  | .final bytes => .ok bytes
  | .displacement reach label =>
      match position? labels label with
      | none => .error (.undefinedLabel label)
      | some target =>
          displacementBytes reach label ((target : Int) - (start + reach.size : Nat))

/-- The final bytes of pieces of which the first starts at `start`; of
several displacements that cannot be written the first one counts. -/
def resolve (labels : List (String × Nat)) : (start : Nat) → List Piece → Except Fault (List Byte)
  | _, [] => .ok []
  | start, p :: ps => do
      let bytes ← resolvePiece labels start p
      return bytes ++ (← resolve labels (start + p.size) ps)

/-- The finished code, with every displacement written. -/
def finish (a : Assembly) : Except Fault Program := do
  return { code := ← resolve a.labels 0 a.pieces.toList, maxStack := a.maxDepth, labels := a.labels }

end Assembly

end KeyLoop
