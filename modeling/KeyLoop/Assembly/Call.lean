/-
# `Call` — an assembly listing, line by line

A `Call` is one line of an assembly listing: a label, a branch, an access to
a slot, a constant, or an instruction without or with a token operand.  The
lines that take a number choose the shortest instruction for it.
-/
import KeyLoop.Assembly.Basic

namespace KeyLoop

/-- One line of an assembly listing. -/
inductive Call where
  | label (name : String)
  | branch (mnemonic label : String)
  | loadLocal (index : BitVec 16)
  | storeLocal (index : BitVec 16)
  | loadArgument (index : BitVec 16)
  | localAddress (index : BitVec 16)
  | int32 (constant : BitVec 32)
  | int64 (constant : BitVec 64)
  | float32 (bits : BitVec 32)
  | float64 (bits : BitVec 64)
  /-- An instruction without an operand. -/
  | plain (mnemonic : String)
  | token (mnemonic : String) (token : Token)
deriving DecidableEq, Repr

namespace Call

/-- What a line asks of the assembly. -/
def run : Call → Assembler Unit
  | label name => Assembly.define name
  | branch mnemonic name => Assembly.emitBranch mnemonic name
  | loadLocal index => Assembly.emitSlot "ldloc" index
  | storeLocal index => Assembly.emitSlot "stloc" index
  | loadArgument index => Assembly.emitSlot "ldarg" index
  | localAddress index => Assembly.emitAddressed "ldloca" index
  | int32 constant => Assembly.emitInt32 constant
  | int64 constant => Assembly.emit "ldc.i8" (some (.immediate ⟨.int64, constant⟩))
  | float32 bits => Assembly.emit "ldc.r4" (some (.immediate ⟨.float32, bits⟩))
  | float64 bits => Assembly.emit "ldc.r8" (some (.immediate ⟨.float64, bits⟩))
  | plain mnemonic => Assembly.emit mnemonic none
  | token mnemonic t => Assembly.emit mnemonic (some (.token t))

/-- The code of a listing; the first line that fails decides. -/
def assemble (lines : List Call) : Except Fault Program :=
  match lines.forM run Assembly.empty with
  | .ok _ a => a.finish
  | .error e _ => .error e

end Call

end KeyLoop
