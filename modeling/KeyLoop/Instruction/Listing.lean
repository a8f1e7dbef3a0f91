/-
# Instructions in a listing

One line shows where an instruction stands, its opcode and name, its operand,
its category, and whatever of its control flow and stack effect is not the
ordinary: a flow that is not sequential, a change of the stack depth, the
addresses it may branch to.
-/
import KeyLoop.Instruction.Basic

namespace KeyLoop

/-- The operand as a listing shows it, with a blank in front. -/
def Operand.listing : Operand → String
  | none => ""
  | immediate i => " 0x" ++ i.hex
  | target address => " -> 0x" ++ Hex.upper 8 address.toNat
  | token t => " token:" ++ t.render
  | slot .localVar index => " local:" ++ toString index.toNat
  | slot .argument index => " arg:" ++ toString index.toNat
  | switch displacements => " switch[" ++ toString displacements.length ++ "]"

/-- Text filled up with blanks on the right. -/
def padRight (width : Nat) (s : String) : String :=
  s ++ String.ofList (List.replicate (width - s.length) ' ')

namespace Instruction

/-- The opcode as a listing shows it. -/
def opcodeListing (i : Instruction) : String :=
  let code := Hex.upper 2 i.opcode.code.toNat
  if i.opcode.lead = 0 then code else Hex.upper 2 i.opcode.lead.toNat ++ ":" ++ code

/-- A number with its sign, also when it is positive. -/
def signed (n : Int) : String := if 0 ≤ n then "+" ++ toString n else toString n

/-- The columns behind the operand. -/
def remarks (i : Instruction) : List String :=
  [i.category.name]
    ++ (if i.flow = .sequential then [] else [i.flow.name])
    ++ (if i.net = 0 then [] else ["stack:" ++ signed i.net])
    ++ (if i.targets = [] then []
        else ["targets:[" ++ ", ".intercalate (i.targets.map (Hex.upper 1 ·.toNat)) ++ "]"])

/-- The line of the instruction. -/
def listing (i : Instruction) : String :=
  " | ".intercalate
    ((Hex.upper 8 i.address.toNat ++ " - " ++ i.opcodeListing ++ " - "
      ++ padRight 12 i.mnemonic ++ i.operand.listing) :: i.remarks)

end Instruction

end KeyLoop
