/-
# What an instruction does, whatever its encoding

A slot access does the same in all its encodings, and so does a constant
that is pushed.  Of an instruction that accesses slot `n`, or pushes constant
`c`, the machine asks nothing else:

    access kind n       of a slot of this kind, in one of the three ways
    push c              of a constant

Around that a step is always the same: it checks the limit and counts,
provided that the machine has a model of the instruction, as it has of
everything in a straight line (`step_straight`).  So what a step does is read
off the slot or the constant (`step_access`, `step_constant`).
-/
import KeyLoop.Machine.Basic
import KeyLoop.Proofs.Instruction.Accesses

namespace KeyLoop

namespace Machine

/-- Access slot `n` of a kind. -/
def access (kind : SlotKind) (n : BitVec 16) : SlotAccess → Run Unit
  | .load => do push (← onSlots kind (Slots.get n))
  | .store => do onSlots kind (Slots.set n (← pop))
  | .address => push .unknown

/-- An action, counted as one instruction where the limit leaves room for one. -/
def counted (act : Run Unit) : Run Unit := fun m =>
  if m.Exhausted then .error (.instructionLimit m.executed m.limits.maxInstructions) m
  else act m.begun

variable {i : Instruction}

theorem step_eq_counted (h : ¬ Unsupported i) : step i = counted (perform i i.action) := by
  funext m
  rw [step_eq, if_neg h, counted]

theorem perform_of_touches {kind : SlotKind} {way : SlotAccess} {n : BitVec 16}
    (h : i.Touches kind way n) : perform i i.action = access kind n way := by
  obtain ⟨place, haction, hindex⟩ := h
  rw [haction]
  cases way <;> simp only [perform, accessSlot, access, hindex, require, pure_bind]

theorem perform_of_constant {c : BitVec 32} (h : i.int32Constant? = some c) :
    perform i i.action = push (.ofBits c) := by
  obtain ⟨place, haction⟩ := Instruction.exists_action_of_int32Constant? h
  rw [Instruction.int32Constant?, haction] at h
  simp only [haction, perform, h, require, pure_bind]

end Machine

/-! ## Straight lines are modelled -/

/-- The action leaves the machine in the straight line, and is known in full. -/
def Action.isStraight : Action → Bool
  | .branch | .unmodelled => false
  | _ => true

namespace Row

theorem flow_of_isStraight {row : Row} (h : row ∈ all) (hstraight : row.action.isStraight = true) :
    row.flow = .sequential := by
  have hall : all.all (fun row => !row.action.isStraight || row.flow == .sequential) = true := by
    decide +kernel
  simpa [hstraight] using List.all_eq_true.mp hall row h

theorem hasKnownLead {row : Row} (h : row ∈ all) : row.opcode.hasKnownLead = true := by
  rcases opcode_cases h with ⟨code, hcode, -⟩ | ⟨code, hcode⟩
  · rw [hcode]
    rfl
  · rw [hcode]
    rfl

end Row

namespace Instruction

variable {i : Instruction}

/-- An access in some encoding is an action. -/
theorem IsAccess.exists_action {kind : SlotKind} {way : SlotAccess} {n : BitVec 16}
    (h : i.IsAccess kind way n) : ∃ place, i.action = .slot kind way place :=
  exists_action_of_accesses h.queries.1

/-- Accesses and constants stand in a straight line. -/
theorem IsAccess.isStraight {kind : SlotKind} {way : SlotAccess} {n : BitVec 16}
    (h : i.IsAccess kind way n) : i.action.isStraight = true := by
  obtain ⟨place, haction⟩ := h.exists_action
  rw [haction]
  rfl

theorem isStraight_of_int32Constant? {c : BitVec 32} (h : i.int32Constant? = some c) :
    i.action.isStraight = true := by
  obtain ⟨place, haction⟩ := exists_action_of_int32Constant? h
  rw [haction]
  rfl

/-- An instruction of a straight line is none of these branches. -/
theorem opcode_ne_of_isStraight (h : i.action.isStraight = true) :
    ∀ o ∈ [Opcode.br, .brShort, .bneUn, .bneUnShort], i.opcode ≠ o := by
  have hbranches : ∀ o ∈ [Opcode.br, .brShort, .bneUn, .bneUnShort], o.action.isStraight = false := by
    decide +kernel
  rintro o ho rfl
  exact absurd h (Bool.eq_false_iff.mp (hbranches _ ho))

theorem isBr_of_isStraight (h : i.action.isStraight = true) : i.isBr = false := by
  have hne := opcode_ne_of_isStraight h
  simp [isBr, hne]

theorem isBneUn_of_isStraight (h : i.action.isStraight = true) : i.isBneUn = false := by
  have hne := opcode_ne_of_isStraight h
  simp [isBneUn, hne]

end Instruction

namespace Instruction.IsStatement

variable {i : Instruction}

/-- The table knows the instruction and its action. -/
theorem exists_row (hi : i.IsStatement) :
    ∃ row ∈ Row.all, i.opcode = row.opcode ∧ i.action = row.action ∧ i.toTraits = row.toTraits := by
  obtain ⟨s, address, offset, rfl⟩ := hi
  exact ⟨s.row, s.defined, rfl, s.action_instruction address offset, rfl⟩

/-- Of decoded instructions the flow alone says whether the machine has a model. -/
theorem unsupported_iff (hi : i.IsStatement) :
    Machine.Unsupported i ↔ i.flow.isUnmodelled = true := by
  obtain ⟨row, hmem, hopcode, -⟩ := hi.exists_row
  constructor
  · rintro (hleaves | hlead)
    · exact hleaves
    · rw [hopcode, Row.hasKnownLead hmem] at hlead
      cases hlead
  · exact .inl

/-- A straight action does not branch, and a step of it is counted and acts. -/
theorem step_straight (hi : i.IsStatement) (hstraight : i.action.isStraight = true) :
    i.isSequential = true ∧ Machine.step i = Machine.counted (Machine.perform i i.action) := by
  obtain ⟨row, hmem, -, haction, htraits⟩ := hi.exists_row
  rw [haction] at hstraight
  have hsequential : i.flow = .sequential :=
    (congrArg Traits.flow htraits).trans (Row.flow_of_isStraight hmem hstraight)
  refine ⟨beq_iff_eq.mpr hsequential, Machine.step_eq_counted ?_⟩
  rw [hi.unsupported_iff, hsequential]
  nofun

theorem step_access (hi : i.IsStatement) {kind : SlotKind} {way : SlotAccess} {n : BitVec 16}
    (h : i.IsAccess kind way n) : Machine.step i = Machine.counted (Machine.access kind n way) := by
  rw [(hi.step_straight h.isStraight).2, Machine.perform_of_touches (hi.touches_iff.mpr h)]

theorem step_constant (hi : i.IsStatement) {c : BitVec 32} (h : i.int32Constant? = some c) :
    Machine.step i = Machine.counted (Machine.push (.ofBits c)) := by
  rw [(hi.step_straight (Instruction.isStraight_of_int32Constant? h)).2, Machine.perform_of_constant h]

end Instruction.IsStatement

end KeyLoop
