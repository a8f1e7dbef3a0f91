/-
# `Method` — decoded code and its declared slots

A method is a list of instructions with the slots they refer to.  The
declared slots of each kind are kept in the order of their indices, each
index once; of several declarations of one index the first counts.

Decoded code stands in the order of its addresses, so the instruction at an
address is looked up by halving: of the instructions that are left, the one in
the middle tells which half to keep.  Where the code is not in order, as when
its addresses wrap around, halving may miss an address that is there.
-/
import KeyLoop.Instruction.Decode
import KeyLoop.Machine.Slots
import KeyLoop.Method.Body

namespace KeyLoop

namespace Declaration

/-- The declarations with one more, unless its index is there already. -/
def insert (d : Declaration) : List Declaration → List Declaration
  | [] => [d]
  | e :: rest =>
      if d.index.toNat < e.index.toNat then d :: e :: rest
      else if d.index = e.index then e :: rest
      else e :: insert d rest

/-- The declarations in the order of their indices, the first of each index. -/
def normalize (ds : List Declaration) : List Declaration := ds.foldl (fun acc d => insert d acc) []

end Declaration

structure Method where
  token : Token
  name : String
  /-- The declared arguments, by index. -/
  arguments : List Declaration
  /-- The declared locals, by index. -/
  locals : List Declaration
  initLocals : Bool
  /-- The instructions in the order of the code. -/
  code : List Instruction
deriving DecidableEq, Repr

namespace Method

/-- The method with these instructions and declarations. -/
def ofInstructions (token : Token) (name : String) (code : List Instruction)
    (arguments locals : List Declaration) (initLocals : Bool) : Method :=
  { token, name, initLocals, code
    arguments := Declaration.normalize arguments
    locals := Declaration.normalize locals }

/-- The method with this body, header and code; addresses count from the
start of the code. -/
def ofBody (token : Token) (name : String) (data : List Byte)
    (arguments locals : List Declaration) : Except Fault Method := do
  let body ← Body.parse data
  let instructions ← decode 0 (← body.code data)
  return ofInstructions token name instructions arguments locals body.initLocals

/-- The index that is left when `count` instructions from `first` on are halved. -/
def halve (m : Method) (address : BitVec 64) (first count : Nat) : Nat :=
  if count ≤ 1 then first
  else
    let middle := first + count / 2
    if (m.code[middle]?).any (address < ·.address) then halve m address first (count - count / 2)
    else halve m address middle (count - count / 2)
termination_by count

/-- The index of the instruction at an address, by halving. -/
def indexOf? (m : Method) (address : BitVec 64) : Option Nat :=
  let index := m.halve address 0 m.code.length
  if (m.code[index]?).any (·.address == address) then some index else none

/-- The index of the instruction that the one at `index` branches to. -/
def branchTarget? (m : Method) (index : Nat) : Option Nat := do
  let i ← m.code[index]?
  m.indexOf? (← i.branchTarget?)

def local? (m : Method) (index : BitVec 16) : Option Declaration :=
  m.locals.find? (·.index == index)

/-- The declared local that an instruction loads. -/
def loadedLocal? (m : Method) (i : Instruction) : Option (BitVec 16) :=
  if i.loadsLocal then i.localIndex?.filter fun n => (m.local? n).isSome else none

/-- The declared local that an instruction stores. -/
def storedLocal? (m : Method) (i : Instruction) : Option (BitVec 16) :=
  if i.storesLocal then i.localIndex?.filter fun n => (m.local? n).isSome else none

end Method

end KeyLoop
