/-
# Code at another address

Code does not say where it starts.  The same bytes decoded `r` addresses
further up give the same instructions, shifted by `r`, or the same fault:

    where an instruction stands             shifted
    the addresses it may branch to          shifted
    the address in the fault about a
    reserved opcode                         shifted
    everything else                         the same

The shift wraps around, as branching does.  A backward branch at the start of
code at address zero leads to one of the last addresses there are, and the
shift brings it back in front of the code.

`Relocated r φ x y` says of two readers that they take the same bytes, that
the answer of the second is `φ` of the first one's, and that their faults are
those of one piece of code at two places.
-/
import KeyLoop.Proofs.Instruction.Shape

namespace KeyLoop

/-- The same cause in code that starts `r` addresses further up. -/
def Malformation.relocate (r : BitVec 64) : Malformation → Malformation
  | .reservedOpcode o address => .reservedOpcode o (address + r)
  | cause => cause

/-- The same fault in code that starts `r` addresses further up. -/
def Fault.relocate (r : BitVec 64) : Fault → Fault
  | .malformed cause => .malformed (cause.relocate r)
  | fault => fault

/-- The same instruction in code that starts `r` addresses further up. -/
def Instruction.relocate (r : BitVec 64) (i : Instruction) : Instruction :=
  { i with address := i.address + r, targets := i.targets.map (· + r) }

/-- A distance is kept by the shift. -/
theorem add_shift (address r distance : BitVec 64) :
    address + r + distance = address + distance + r := by ac_rfl

theorem Instruction.next_relocate (r : BitVec 64) (i : Instruction) :
    (i.relocate r).next = i.next + r := add_shift i.address r _

theorem Instruction.size_relocate (r : BitVec 64) (i : Instruction) :
    (i.relocate r).size = i.size := rfl

/-! ## Readers at two places -/

namespace Reader

variable {α β : Type} {r : BitVec 64}

/-- The readers take the same bytes and give answers or faults that belong to
two places, `r` addresses apart. -/
def Relocated (r : BitVec 64) (φ : α → α) (x y : Reader α) : Prop :=
  ∀ input, y input =
    match x input with
    | .ok a left => .ok (φ a) left
    | .error e left => .error (e.relocate r) left

theorem relocated_pure (φ : α → α) (a : α) : Relocated r φ (pure a) (pure (φ a)) := fun _ => rfl

theorem relocated_throw (φ : α → α) (e : Fault) :
    Relocated r φ (throw e) (throw (e.relocate r)) := fun _ => rfl

theorem relocated_bind {φ : α → α} {ψ : β → β} {x y : Reader α} {f g : α → Reader β}
    (h : Relocated r φ x y) (hnext : ∀ a, Relocated r ψ (f a) (g (φ a))) :
    Relocated r ψ (x >>= f) (y >>= g) := by
  intro input
  simp only [bind, EStateM.bind, h input]
  cases x input with
  | ok a left => exact hnext a left
  | error e left => rfl

theorem relocated_bytes (count : Nat) : Relocated r id (bytes count) (bytes count) := by
  intro input
  by_cases h : count ≤ input.length
  · simp only [bytes, if_pos h, id]
  · simp only [bytes, if_neg h]
    rfl

theorem relocated_byte : Relocated r id byte byte := by
  intro input
  cases input <;> rfl

theorem relocated_word (w : Nat) : Relocated r id (word w) (word w) :=
  relocated_bind (relocated_bytes _) fun _ => relocated_pure id _

theorem relocated_remaining : Relocated r id remaining remaining := fun _ => rfl

theorem relocated_words (w count : Nat) : Relocated r id (words w count) (words w count) := by
  induction count with
  | zero => exact relocated_pure id []
  | succ count ih =>
    exact relocated_bind (relocated_word w) fun _ =>
      relocated_bind ih fun _ => relocated_pure id _

end Reader

open Reader (Relocated relocated_pure relocated_throw relocated_bind)

/-! ## Decoding at two places -/

namespace Decode

variable {r : BitVec 64}

theorem relocated_opcode : Relocated r id opcode opcode := by
  refine relocated_bind Reader.relocated_byte fun first => ?_
  dsimp only [id]
  split
  · exact relocated_bind Reader.relocated_byte fun _ => relocated_pure id _
  · exact relocated_pure id _

/-- Only the fault about a reserved opcode says where it was read. -/
theorem relocated_row (address : BitVec 64) (o : Opcode) :
    Relocated r id (row address o) (row (address + r) o) := by
  unfold row
  split
  · exact relocated_pure id _
  · split
    · exact relocated_throw id (.malformed (.reservedOpcode o address))
    · exact relocated_throw id (.malformed (.unassignedOpcode o))

theorem relocated_switchTable : Relocated r id switchTable switchTable := by
  refine relocated_bind (Reader.relocated_word 32) fun count => ?_
  refine relocated_bind Reader.relocated_remaining fun left => ?_
  dsimp only [id]
  split
  · exact relocated_throw id .outOfBounds
  · exact relocated_bind (Reader.relocated_words 32 _) fun _ => relocated_pure id _

theorem relocated_operand (t : OperandType) : Relocated r id (operand t) (operand t) := by
  cases t with
  | none => exact relocated_pure id _
  | scalar t => exact relocated_bind (Reader.relocated_word _) fun _ => relocated_pure id _
  | token => exact relocated_bind (Reader.relocated_word _) fun _ => relocated_pure id _
  | switch => exact relocated_switchTable

/-- Targets keep their distance from the end of the instruction. -/
theorem targets_add (flow : Flow) (next r : BitVec 64) (o : Operand) :
    targets flow (next + r) o = (targets flow next o).map (· + r) := by
  cases o with
  | immediate i =>
    show (if flow.hasLabel then [next + r + i.toBits64] else []) =
      (if flow.hasLabel then [next + i.toBits64] else []).map (· + r)
    rw [add_shift]
    split <;> rfl
  | switch displacements =>
    simp only [targets, List.map_map, Function.comp_def, add_shift]
  | none => rfl
  | target _ => rfl
  | token _ => rfl
  | slot _ _ => rfl

theorem relocated_instruction (address : BitVec 64) (offset : Nat) :
    Relocated r (Instruction.relocate r) (instruction address offset)
      (instruction (address + r) offset) := by
  refine relocated_bind relocated_opcode fun o => ?_
  refine relocated_bind (relocated_row address o) fun row => ?_
  refine relocated_bind (relocated_operand row.operandType) fun operand => ?_
  dsimp only [id]
  rw [add_shift, targets_add row.flow _ r]
  exact relocated_pure (Instruction.relocate r) _

theorem relocated_stream (address : BitVec 64) (offset : Nat) :
    Relocated r (List.map (Instruction.relocate r)) (stream address offset)
      (stream (address + r) offset) := by
  intro input
  induction address, offset, input using Decode.stream.induct with
  | case1 address offset =>
    rw [stream, stream]
    rfl
  | case2 address offset b bs e left hi =>
    have hi' := relocated_instruction (r := r) address offset (b :: bs)
    rw [hi] at hi'
    rw [stream, stream, hi, hi']
  | case3 address offset b bs i left hi e left' hrest ih =>
    have hi' := relocated_instruction (r := r) address offset (b :: bs)
    rw [hi] at hi'
    rw [hrest, ← Instruction.next_relocate, ← Instruction.size_relocate r] at ih
    rw [stream, stream, hi, hi']
    dsimp only
    rw [hrest, ih]
  | case4 address offset b bs i left hi is left' hrest ih =>
    have hi' := relocated_instruction (r := r) address offset (b :: bs)
    rw [hi] at hi'
    rw [hrest, ← Instruction.next_relocate, ← Instruction.size_relocate r] at ih
    rw [stream, stream, hi, hi']
    dsimp only
    rw [hrest, ih]
    rfl

end Decode

/-- **Decoding commutes with relocation.** -/
theorem decode_relocate (r base : BitVec 64) (code : List Byte) :
    decode (base + r) code =
      ((decode base code).map (·.map (·.relocate r))).mapError (·.relocate r) := by
  unfold decode
  rw [Decode.relocated_stream base 0 code]
  cases Decode.stream base 0 code <;> rfl

-- a branch back by three, in front of the code at address zero
example :
    (decode 0 [0x2B, 0xFD]).toOption.map (·.flatMap (·.targets)) = some [0xFFFFFFFFFFFFFFFF] ∧
      (decode 0x10 [0x2B, 0xFD]).toOption.map (·.flatMap (·.targets)) = some [0x0F] := by
  decide +kernel

/-! ## Instructions at two places -/

/-- A statement is relocated by reading it at another address. -/
theorem Statement.relocate_instruction (s : Statement) (r address : BitVec 64) (offset : Nat) :
    (s.instruction address offset).relocate r = s.instruction (address + r) offset := by
  simp only [instruction, Instruction.relocate, add_shift address r, Decode.targets_add _ _ r]

namespace Instruction.IsStatement

variable {i : Instruction}

theorem relocate (hi : i.IsStatement) (r : BitVec 64) : (i.relocate r).IsStatement := by
  obtain ⟨s, address, offset, rfl⟩ := hi
  exact ⟨s, address + r, offset, s.relocate_instruction r address offset⟩

/-- What an instruction does has nothing to do with where it stands. -/
theorem sameShape_relocate (hi : i.IsStatement) (r : BitVec 64) : i.SameShape id (i.relocate r) := by
  cases haction : i.action with
  | slot kind way place =>
    obtain ⟨s, address, offset, rfl⟩ := hi
    obtain ⟨n, hn⟩ := s.exists_isAccess address offset haction
    have hn' : ((s.instruction address offset).relocate r).IsAccess kind way n := by
      rw [s.relocate_instruction]
      exact (s.isAccess_iff (address + r) offset).mpr ((s.isAccess_iff address offset).mp hn)
    refine .slot hn ?_
    cases kind <;> exact hn'
  | _ => exact .same (by rw [slotAccess?, haction]) rfl rfl

end Instruction.IsStatement

end KeyLoop
