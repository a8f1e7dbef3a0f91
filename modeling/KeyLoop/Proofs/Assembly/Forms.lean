/-
# The shortest forms say what the long ones say

A slot access has a form of its own for each of the first four slots, one
with a byte for the index, and one with two.  A 32-bit constant has forms of
its own from minus one to eight, one with a signed byte, and one with four
bytes.  Whichever form is chosen, the instruction that is read again is
about the same slot (`slotIndex?_slotForm`) or the same constant
(`int32Constant?_int32Form`).
-/
import KeyLoop.Proofs.Assembly.Requests
import KeyLoop.Proofs.Instruction.Accesses

namespace KeyLoop

/-- What the table says of the instruction with this name. -/
def Row.forms? (mnemonic : String) : Option (Action × OperandType) :=
  (Row.ofMnemonic? mnemonic).map fun row => (row.action, row.operandType)

namespace Assembly

/-! ## Slots -/

/-- The forms of a slot access are in the table under its name. -/
structure SlotForms (stem : String) (kind : SlotKind) (access : SlotAccess) : Prop where
  implied : ∀ k < 4, Row.forms? (stem ++ "." ++ toString k) =
    some (.slot kind access (.implied (BitVec.ofNat 16 k)), .none)
  short : Row.forms? (stem ++ ".s") = some (.slot kind access .operand, .scalar .uint8)
  long : Row.forms? stem = some (.slot kind access .operand, .scalar .uint16)

theorem loadLocal_forms : SlotForms "ldloc" .localVar .load :=
  ⟨by decide +kernel, by decide +kernel, by decide +kernel⟩

theorem storeLocal_forms : SlotForms "stloc" .localVar .store :=
  ⟨by decide +kernel, by decide +kernel, by decide +kernel⟩

theorem loadArgument_forms : SlotForms "ldarg" .argument .load :=
  ⟨by decide +kernel, by decide +kernel, by decide +kernel⟩

theorem action_of_forms? {mnemonic : String} {row : Row} {action : Action} {t : OperandType}
    (h : Row.ofMnemonic? mnemonic = some row) (hforms : Row.forms? mnemonic = some (action, t)) :
    row.action = action := by
  rw [Row.forms?, h] at hforms
  cases hforms
  rfl

theorem uint16?_uint8 {index : BitVec 16} (h : index.toNat < 0x100) :
    (uint8 index.toNat).uint16? = some index := by
  refine Operand.uint16?_immediate ?_
  show ((BitVec.ofNat 8 index.toNat).toNat : Int) = index.toNat
  rw [BitVec.toNat_ofNat]
  omega

theorem uint16?_uint16 (index : BitVec 16) : (uint16 index).uint16? = some index :=
  Operand.uint16?_immediate rfl

/-- **Slot accesses.**  The instruction read for the shortest form accesses
the slot that was asked for, in the way that was asked for. -/
theorem slotIndex?_slotForm {stem : String} {kind : SlotKind} {access : SlotAccess}
    (hforms : SlotForms stem kind access) {index : BitVec 16} {s : Statement}
    (hrow : Row.ofMnemonic? (slotForm stem index).1 = some s.row)
    (hreads : Operand.ReadsAs (slotForm stem index).2 s.operand) (address : BitVec 64)
    (offset : Nat) :
    (s.instruction address offset).accesses kind access = true ∧
      (s.instruction address offset).slotIndex? kind = some index := by
  -- the place of the index differs from form to form, and the rest does not
  have hplace : ∃ place, s.row.action = .slot kind access place ∧
      (s.instruction address offset).indexAt? place = some index := by
    unfold slotForm at hrow hreads
    by_cases hown : index.toNat < 4
    · rw [if_pos hown] at hrow
      refine ⟨_, action_of_forms? hrow (hforms.implied index.toNat hown), ?_⟩
      simp [Instruction.indexAt?]
    · rw [if_neg hown] at hrow hreads
      by_cases hshort : index.toNat < 0x100
      · rw [if_pos hshort] at hrow hreads
        refine ⟨.operand, action_of_forms? hrow hforms.short, ?_⟩
        have hoperand : s.operand = uint8 index.toNat := hreads
        show s.operand.uint16? = some index
        rw [hoperand, uint16?_uint8 hshort]
      · rw [if_neg hshort] at hrow hreads
        refine ⟨.operand, action_of_forms? hrow hforms.long, ?_⟩
        have hoperand : s.operand = uint16 index := hreads
        show s.operand.uint16? = some index
        rw [hoperand, uint16?_uint16]
  obtain ⟨place, haction, hindex⟩ := hplace
  have haccess : (s.instruction address offset).slotAccess? = some (kind, access, place) := by
    rw [Instruction.slotAccess?, s.action_instruction, haction]
  constructor
  · simp [Instruction.accesses, haccess]
  · rw [Instruction.slotIndex?, haccess]
    simpa using hindex

/-! ## Constants -/

theorem minusOne_form : Row.forms? "ldc.i4.m1" = some (.int32 (.implied (-1)), .none) := by
  decide +kernel

theorem small_forms : ∀ k < 9, Row.forms? ("ldc.i4." ++ toString k) =
    some (.int32 (.implied (BitVec.ofNat 32 k)), .none) := by
  decide +kernel

theorem short_form : (Row.ofMnemonic? "ldc.i4.s").map (fun row => (row.action, row.opcode)) =
    some (.int32 .operand, .ldcI4Short) := by
  decide +kernel

theorem long_form : (Row.ofMnemonic? "ldc.i4").map (fun row => (row.action, row.opcode)) =
    some (.int32 .operand, .single 0x20) := by
  decide +kernel

theorem opcode_of_form {mnemonic : String} {row : Row} {action : Action} {opcode : Opcode}
    (h : Row.ofMnemonic? mnemonic = some row)
    (hform : (Row.ofMnemonic? mnemonic).map (fun row => (row.action, row.opcode)) =
      some (action, opcode)) : row.action = action ∧ row.opcode = opcode := by
  rw [h] at hform
  cases hform
  exact ⟨rfl, rfl⟩

/-- A number in the range of a signed byte is its low byte, extended again. -/
theorem signExtend_truncate {constant : BitVec 32} (hlow : -0x80 ≤ constant.toInt)
    (hhigh : constant.toInt < 0x80) : (constant.truncate 8).signExtend 32 = constant := by
  apply BitVec.eq_of_toInt_eq
  rw [BitVec.toInt_signExtend_of_le (by decide)]
  simp only [BitVec.toInt_eq_toNat_cond, BitVec.truncate_eq_setWidth, BitVec.toNat_setWidth]
    at hlow hhigh ⊢
  omega

/-- **Constants.**  The instruction read for the shortest form pushes the
constant that was asked for. -/
theorem int32Constant?_int32Form {constant : BitVec 32} {s : Statement}
    (hrow : Row.ofMnemonic? (int32Form constant).1 = some s.row)
    (hreads : Operand.ReadsAs (int32Form constant).2 s.operand) (address : BitVec 64)
    (offset : Nat) :
    (s.instruction address offset).int32Constant? = some constant := by
  have hplace : ∃ place, s.row.action = .int32 place ∧
      (s.instruction address offset).int32At? place = some constant := by
    unfold int32Form at hrow hreads
    by_cases hminus : constant = -1
    · rw [if_pos hminus] at hrow
      exact ⟨_, action_of_forms? hrow minusOne_form, by rw [hminus]; rfl⟩
    · rw [if_neg hminus] at hrow hreads
      by_cases hsmall : constant.toNat ≤ 8
      · rw [if_pos hsmall] at hrow
        refine ⟨_, action_of_forms? hrow (small_forms constant.toNat (by omega)), ?_⟩
        simp [Instruction.int32At?]
      · rw [if_neg hsmall] at hrow hreads
        by_cases hshort : -0x80 ≤ constant.toInt ∧ constant.toInt < 0x80
        · rw [if_pos hshort] at hrow hreads
          obtain ⟨haction, hopcode⟩ := opcode_of_form hrow short_form
          refine ⟨.operand, haction, ?_⟩
          have hoperand : s.operand = .immediate ⟨.int8, constant.truncate 8⟩ := hreads
          show (if s.row.opcode = .ldcI4Short then s.operand.int8?.map (·.signExtend 32)
            else s.operand.int32?) = some constant
          rw [if_pos hopcode, hoperand]
          exact congrArg some (signExtend_truncate hshort.1 hshort.2)
        · rw [if_neg hshort] at hrow hreads
          obtain ⟨haction, hopcode⟩ := opcode_of_form hrow long_form
          refine ⟨.operand, haction, ?_⟩
          have hoperand : s.operand = .immediate ⟨.int32, constant⟩ := hreads
          have hother : s.row.opcode ≠ .ldcI4Short := by
            rw [hopcode]
            decide
          show (if s.row.opcode = .ldcI4Short then s.operand.int8?.map (·.signExtend 32)
            else s.operand.int32?) = some constant
          rw [if_neg hother, hoperand]
          exact congrArg some BitVec.ofInt_toInt
  obtain ⟨place, haction, hconstant⟩ := hplace
  rw [Instruction.int32Constant?, s.action_instruction, haction]
  exact hconstant

end Assembly

end KeyLoop
