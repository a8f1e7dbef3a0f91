/-
# What holds of every row of the instruction table

The table is one list, so a property of its rows is checked row by row:

    names        no two rows have the same
    opcodes      they ascend, so no two rows have the same; a one-byte opcode
                 is not the lead byte of the others
    labels       a displacement of one or of four bytes follows the opcode
    unmodelled   what the machine has no model of pushes one value at most

Decoding and encoding both go through `Row.ofMnemonic?` and `Opcode.row?`;
what they need of the table is in this module.
-/
import KeyLoop.Opcode.Table

namespace KeyLoop

/-- The opcode as one number, in the order of the table. -/
def Opcode.number (o : Opcode) : Nat := o.lead.toNat * 256 + o.code.toNat

namespace Row

/-- An instruction found by its name is in the table, under that name. -/
theorem mem_of_ofMnemonic? {mnemonic : String} {row : Row}
    (h : ofMnemonic? mnemonic = some row) : row ∈ all ∧ row.mnemonic = mnemonic := by
  refine ⟨List.mem_of_find?_eq_some h, ?_⟩
  simpa using List.find?_some h

/-- The rows stand in the order of their opcodes, from `k` on. -/
def ascending : (k : Nat) → List Row → Bool
  | _, [] => true
  | k, row :: rows => k ≤ row.opcode.number && ascending (row.opcode.number + 1) rows

theorem le_of_ascending {k : Nat} {rows : List Row} (h : ascending k rows = true) :
    ∀ row ∈ rows, k ≤ row.opcode.number := by
  induction rows generalizing k with
  | nil =>
    intro row hrow
    cases hrow
  | cons first rows ih =>
    simp only [ascending, Bool.and_eq_true, decide_eq_true_eq] at h
    obtain ⟨hfirst, hrest⟩ := h
    intro row hrow
    rcases List.mem_cons.mp hrow with rfl | hrow
    · exact hfirst
    · have hlater := ih hrest row hrow
      omega

/-- In ascending order no opcode comes twice, so the first row found is the only one. -/
theorem find?_of_ascending {k : Nat} {rows : List Row} (h : ascending k rows = true) {row : Row}
    (hrow : row ∈ rows) : rows.find? (·.opcode == row.opcode) = some row := by
  induction rows generalizing k with
  | nil => cases hrow
  | cons first rows ih =>
    simp only [ascending, Bool.and_eq_true, decide_eq_true_eq] at h
    obtain ⟨-, hrest⟩ := h
    rcases List.mem_cons.mp hrow with rfl | hrow
    · exact List.find?_cons_of_pos (beq_self_eq_true _)
    · have hlater := le_of_ascending hrest row hrow
      have hdiffer : ¬ (first.opcode == row.opcode) = true := by
        intro hsame
        rw [beq_iff_eq.mp hsame] at hlater
        omega
      exact (List.find?_cons_of_neg (p := fun r : Row => r.opcode == row.opcode) hdiffer).trans (ih hrest hrow)

/-- The opcode finds its row again. -/
theorem row?_opcode {row : Row} (h : row ∈ all) : row.opcode.row? = some row := by
  have hall : ascending 0 all = true := by decide +kernel
  exact find?_of_ascending hall h

/-- A number for a name.  It is small, so that a set of such numbers can be
the bits of one number, and it differs from row to row. -/
def nameNumber (name : String) : Nat :=
  name.toByteArray.data.toList.foldl (fun n b => (n * 257 + b.toNat) % 8191) 0

/-- The names of the rows have numbers that differ from each other and from
the bits of `seen`. -/
def distinct : (seen : Nat) → List Row → Bool
  | _, [] => true
  | seen, row :: rows =>
      let n := nameNumber row.mnemonic
      !seen.testBit n && distinct (seen ||| 1 <<< n) rows

theorem testBit_of_distinct {seen : Nat} {rows : List Row} (h : distinct seen rows = true) :
    ∀ row ∈ rows, seen.testBit (nameNumber row.mnemonic) = false := by
  induction rows generalizing seen with
  | nil =>
    intro row hrow
    cases hrow
  | cons first rows ih =>
    simp only [distinct, Bool.and_eq_true, Bool.not_eq_true'] at h
    obtain ⟨hfirst, hrest⟩ := h
    intro row hrow
    rcases List.mem_cons.mp hrow with rfl | hrow
    · exact hfirst
    · have hlater := ih hrest row hrow
      rw [Nat.testBit_or, Bool.or_eq_false_iff] at hlater
      exact hlater.1

/-- Where no number comes twice, the first row with a name is the only one. -/
theorem find?_of_distinct {seen : Nat} {rows : List Row} (h : distinct seen rows = true) {row : Row}
    (hrow : row ∈ rows) : rows.find? (·.mnemonic == row.mnemonic) = some row := by
  induction rows generalizing seen with
  | nil => cases hrow
  | cons first rows ih =>
    simp only [distinct, Bool.and_eq_true] at h
    obtain ⟨-, hrest⟩ := h
    rcases List.mem_cons.mp hrow with rfl | hrow
    · exact List.find?_cons_of_pos (beq_self_eq_true _)
    · have hlater := testBit_of_distinct hrest row hrow
      have hdiffer : ¬ (first.mnemonic == row.mnemonic) = true := by
        intro hsame
        rw [beq_iff_eq.mp hsame, Nat.testBit_or, Nat.testBit_shiftLeft] at hlater
        simp at hlater
      exact (List.find?_cons_of_neg (p := fun r : Row => r.mnemonic == row.mnemonic) hdiffer).trans
        (ih hrest hrow)

/-- The name finds its row again. -/
theorem ofMnemonic?_mnemonic {row : Row} (h : row ∈ all) : ofMnemonic? row.mnemonic = some row := by
  have hall : distinct 0 all = true := by decide +kernel
  exact find?_of_distinct hall h

/-- An opcode is the lead byte and one more, or one byte that is not the lead byte. -/
theorem opcode_cases {row : Row} (h : row ∈ all) :
    (∃ code, row.opcode = .single code ∧ code ≠ Opcode.extendedLead) ∨
      ∃ code, row.opcode = .extended code := by
  have hall : all.all (fun row =>
      (row.opcode.lead == 0 && row.opcode.code != Opcode.extendedLead) ||
        row.opcode.lead == Opcode.extendedLead) = true := by decide +kernel
  have hrow := List.all_eq_true.mp hall row h
  simp only [Bool.or_eq_true, Bool.and_eq_true, beq_iff_eq, bne_iff_ne] at hrow
  rcases hrow with ⟨hlead, hcode⟩ | hlead
  · exact .inl ⟨row.opcode.code, by rw [Opcode.single, ← hlead], hcode⟩
  · exact .inr ⟨row.opcode.code, by rw [Opcode.extended, ← hlead]⟩

/-- What has a label has a displacement of one byte or of four. -/
theorem operandType_of_hasLabel {row : Row} (h : row ∈ all) (hlabel : row.flow.hasLabel = true) :
    row.operandType = .scalar .int8 ∨ row.operandType = .scalar .int32 := by
  have hall : all.all (fun row => !row.flow.hasLabel || row.operandType == .scalar .int8 ||
      row.operandType == .scalar .int32) = true := by decide +kernel
  simpa [hlabel] using List.all_eq_true.mp hall row h

/-- What the machine does not model, pushes one value at most. -/
theorem pushes_of_unmodelled {row : Row} (h : row ∈ all) (haction : row.action = .unmodelled) :
    row.pushes ≤ 1 := by
  have hall : all.all (fun row => row.action != .unmodelled || decide (row.pushes ≤ 1)) = true := by
    decide +kernel
  simpa [haction] using List.all_eq_true.mp hall row h

end Row

end KeyLoop
