/-
# Instructions of one shape

What an instruction does has, in some cases, more than one encoding, and it
may name a local.  Two instructions are of one shape, under a renaming `r` of
the locals, if they differ in nothing but that:

    same        no slot access, and the same opcode and operand
    slot        accesses of one kind, of argument `n` and `n`, or of local `n`
                and `r n`, each in any encoding
    constant    the same 32-bit constant, each in any encoding
    branch      the same branch, in its short or in its long form

Where a branch leads is not said here: that is a matter of the methods in
which the two instructions stand.

Of instructions that came out of decoding, a shape is all that the queries
see (`SameShape.answers`), and it can be computed (`looksLike_iff`).  The
table settles the one case where the opcodes differ in more than the place of
a number: both forms of a branch have one row but for the name and the size
of the operand.
-/
import KeyLoop.Proofs.Machine.Meaning

namespace KeyLoop

/-- The long form of a branch.  Every other opcode is its own. -/
def Opcode.long (o : Opcode) : Opcode :=
  if o.lead = 0 ∧ 0x2B ≤ o.code ∧ o.code ≤ 0x37 then .single (o.code + 0x0D)
  else if o = .single 0xDE then .single 0xDD
  else o

/-- The index of a slot when locals are renamed. -/
def SlotKind.rename (r : BitVec 16 → BitVec 16) : SlotKind → BitVec 16 → BitVec 16
  | .argument => id
  | .localVar => r

/-- The action is written in one way only. -/
def Action.hasOneForm : Action → Bool
  | .slot .. | .int32 _ | .branch | .unmodelled => false
  | _ => true

namespace Instruction

variable {r : BitVec 16 → BitVec 16} {i j : Instruction}

/-- Control may go to a target that is written in the instruction. -/
def transfers (i : Instruction) : Bool := i.isBranch || i.flow == .leave

/-- The instructions differ in their encodings and in the names of locals only. -/
inductive SameShape (r : BitVec 16 → BitVec 16) (i j : Instruction) : Prop
  | same : i.slotAccess? = none → j.opcode = i.opcode → j.operand = i.operand → SameShape r i j
  | slot {kind : SlotKind} {way : SlotAccess} {n : BitVec 16} :
      i.IsAccess kind way n → j.IsAccess kind way (kind.rename r n) → SameShape r i j
  | constant {c : BitVec 32} :
      i.int32Constant? = some c → j.int32Constant? = some c → SameShape r i j
  | branch : i.transfers = true → j.opcode.long = i.opcode.long → SameShape r i j

/-- The queries answer the same of both instructions, with locals renamed. -/
structure SameAnswers (r : BitVec 16 → BitVec 16) (i j : Instruction) : Prop where
  flow : j.flow = i.flow
  isBr : j.isBr = i.isBr
  isBneUn : j.isBneUn = i.isBneUn
  accesses : ∀ kind way, j.accesses kind way = i.accesses kind way
  slotIndex? : ∀ kind, j.slotIndex? kind = (i.slotIndex? kind).map (kind.rename r)
  int32Constant? : j.int32Constant? = i.int32Constant?
  opcode : ∀ o : Opcode, o.action.hasOneForm = true → (j.opcode = o ↔ i.opcode = o)

end Instruction

/-! ## Both forms of a branch -/

namespace Row

/-- What a row says besides the name and the size of the operand. -/
def nature (row : Row) : Flow × Nat × Nat × Action := (row.flow, row.pops, row.pushes, row.action)

/-- The long form of a branch does what the short form does. -/
theorem nature_long {row : Row} (h : row ∈ all) :
    row.opcode.long.row?.map nature = some row.nature := by
  -- the lookup is computed for the short forms only
  have hall : all.all (fun row => row.opcode.long == row.opcode ||
      row.opcode.long.row?.map nature == some row.nature) = true := by decide +kernel
  have hrow := List.all_eq_true.mp hall row h
  simp only [Bool.or_eq_true, beq_iff_eq] at hrow
  rcases hrow with hlong | hlookup
  · rw [hlong, row?_opcode h]
    rfl
  · exact hlookup

/-- The two branches that have a query of their own are known by their long form. -/
theorem opcode_long {row : Row} (h : row ∈ all) :
    (row.opcode == .br || row.opcode == .brShort) = (row.opcode.long == .br) ∧
      (row.opcode == .bneUn || row.opcode == .bneUnShort) = (row.opcode.long == .bneUn) := by
  have hall : all.all (fun row =>
      (row.opcode == .br || row.opcode == .brShort) == (row.opcode.long == .br) &&
        (row.opcode == .bneUn || row.opcode == .bneUnShort) == (row.opcode.long == .bneUn)) = true := by
    decide +kernel
  have hrow := List.all_eq_true.mp hall row h
  rw [Bool.and_eq_true, beq_iff_eq, beq_iff_eq] at hrow
  exact hrow

end Row

namespace Instruction

variable {r : BitVec 16 → BitVec 16} {i j : Instruction}

/-- What a branch and its other form have in common. -/
theorem IsStatement.eq_of_long (hi : i.IsStatement) (hj : j.IsStatement)
    (h : j.opcode.long = i.opcode.long) :
    (j.flow = i.flow ∧ j.pops = i.pops ∧ j.pushes = i.pushes ∧ j.action = i.action) ∧
      j.isBr = i.isBr ∧ j.isBneUn = i.isBneUn := by
  obtain ⟨row, hrow, hopcode, haction, htraits⟩ := hi.exists_row
  obtain ⟨row', hrow', hopcode', haction', htraits'⟩ := hj.exists_row
  rw [hopcode, hopcode'] at h
  have hnature : row'.nature = row.nature := by
    have hlong := Row.nature_long hrow'
    rw [h, Row.nature_long hrow] at hlong
    exact (Option.some.inj hlong).symm
  simp only [Row.nature, Prod.mk.injEq] at hnature
  obtain ⟨hflow, hpops, hpushes, hact⟩ := hnature
  obtain ⟨hbr, hbne⟩ := Row.opcode_long hrow
  obtain ⟨hbr', hbne'⟩ := Row.opcode_long hrow'
  refine ⟨⟨?_, ?_, ?_, ?_⟩, ?_, ?_⟩
  · rw [htraits, htraits', hflow]
  · rw [htraits, htraits', hpops]
  · rw [htraits, htraits', hpushes]
  · rw [haction, haction', hact]
  · rw [isBr, isBr, hopcode, hopcode', hbr, hbr', h]
  · rw [isBneUn, isBneUn, hopcode, hopcode', hbne, hbne', h]

/-- What has a target is a branch, or nothing is known of it. -/
theorem IsStatement.action_of_transfers (hi : i.IsStatement) (h : i.transfers = true) :
    i.action = .branch ∨ i.action = .unmodelled := by
  have hnot : ¬ i.action.isStraight = true := by
    intro hstraight
    have hflow : i.flow = .sequential := beq_iff_eq.mp (hi.step_straight hstraight).1
    rw [transfers, isBranch, hflow] at h
    cases h
  cases haction : i.action with
  | branch => exact .inl rfl
  | unmodelled => exact .inr rfl
  | _ =>
    rw [haction] at hnot
    exact absurd rfl hnot

theorem IsStatement.slotAccess?_of_transfers (hi : i.IsStatement) (h : i.transfers = true) :
    i.slotAccess? = none := by
  rcases hi.action_of_transfers h with haction | haction
  · rw [slotAccess?, haction]
  · rw [slotAccess?, haction]

/-! ## Queries about two instructions -/

/-- Decoded instructions of one opcode have the row of the opcode in common. -/
theorem IsStatement.toTraits_of_opcode (hi : i.IsStatement) (hj : j.IsStatement)
    (h : j.opcode = i.opcode) : j.toTraits = i.toTraits := by
  obtain ⟨row, hrow, hopcode, -, htraits⟩ := hi.exists_row
  obtain ⟨row', hrow', hopcode', -, htraits'⟩ := hj.exists_row
  have hsame : row' = row := by
    refine Option.some.inj ((Row.row?_opcode hrow').symm.trans ?_)
    rw [← hopcode', h, hopcode, Row.row?_opcode hrow]
  rw [htraits, htraits', hsame]

/-- No two instructions in straight lines can be told apart as branches. -/
theorem IsStatement.sameBranch_of_isStraight (hi : i.IsStatement) (hj : j.IsStatement)
    (h : i.action.isStraight = true) (h' : j.action.isStraight = true) :
    j.flow = i.flow ∧ j.isBr = i.isBr ∧ j.isBneUn = i.isBneUn := by
  have hflow : i.flow = .sequential := beq_iff_eq.mp (hi.step_straight h).1
  have hflow' : j.flow = .sequential := beq_iff_eq.mp (hj.step_straight h').1
  refine ⟨hflow'.trans hflow.symm, ?_, ?_⟩
  · rw [isBr_of_isStraight h, isBr_of_isStraight h']
  · rw [isBneUn_of_isStraight h, isBneUn_of_isStraight h']

/-- Instructions that access no slot answer the same about slots. -/
theorem sameSlots_of_none (h : i.slotAccess? = none) (h' : j.slotAccess? = none) :
    (∀ kind way, j.accesses kind way = i.accesses kind way) ∧
      ∀ kind, j.slotIndex? kind = (i.slotIndex? kind).map (kind.rename r) := by
  constructor
  · intro kind way
    rw [accesses, accesses, h, h']
  · intro kind
    rw [slotIndex?, slotIndex?, h, h']
    rfl

/-- Opcodes written in one way are not those of other actions. -/
theorem opcode_iff_of_hasOneForm (h : i.action.hasOneForm = false) (h' : j.action.hasOneForm = false)
    (o : Opcode) (ho : o.action.hasOneForm = true) : j.opcode = o ↔ i.opcode = o := by
  constructor
  · rintro rfl
    exact absurd ho (Bool.eq_false_iff.mp h')
  · rintro rfl
    exact absurd ho (Bool.eq_false_iff.mp h)

/-- Instructions with one opcode and one operand. -/
theorem sameAnswers_of_same (hi : i.IsStatement) (hj : j.IsStatement) (hslot : i.slotAccess? = none)
    (hopcode : j.opcode = i.opcode) (hoperand : j.operand = i.operand) : SameAnswers r i j := by
  obtain ⟨⟨hflow, -, -, haction⟩, hbr, hbne⟩ := hi.eq_of_long hj (congrArg Opcode.long hopcode)
  have hslot' : j.slotAccess? = none := by rw [slotAccess?, haction]; exact hslot
  obtain ⟨haccess, hindex⟩ := sameSlots_of_none hslot hslot'
  exact
    { flow := hflow
      isBr := hbr
      isBneUn := hbne
      accesses := haccess
      slotIndex? := hindex
      int32Constant? := by simp only [int32Constant?, int32At?, haction, hopcode, hoperand]
      opcode := fun o _ => by rw [hopcode] }

/-- Accesses of a slot under its two names. -/
theorem sameAnswers_of_slot (hi : i.IsStatement) (hj : j.IsStatement) {kind : SlotKind}
    {way : SlotAccess} {n : BitVec 16} (h : i.IsAccess kind way n)
    (h' : j.IsAccess kind way (kind.rename r n)) : SameAnswers r i j := by
  obtain ⟨place, haction⟩ := h.exists_action
  obtain ⟨place', haction'⟩ := h'.exists_action
  have hindex := (accesses_of_action haction).2.symm.trans h.queries.2
  have hindex' := (accesses_of_action haction').2.symm.trans h'.queries.2
  obtain ⟨hflow, hbr, hbne⟩ := hi.sameBranch_of_isStraight hj (by rw [haction]; rfl) (by rw [haction']; rfl)
  exact
    { flow := hflow
      isBr := hbr
      isBneUn := hbne
      accesses := fun k w => by simp only [accesses, slotAccess?, haction, haction']
      slotIndex? := fun k => by
        simp only [slotIndex?, slotAccess?, haction, haction', hindex, hindex']
        split
        · rename_i hk
          rw [Option.map_some, hk]
        · rfl
      int32Constant? := by simp only [int32Constant?, haction, haction']
      opcode := opcode_iff_of_hasOneForm (by rw [haction]; rfl) (by rw [haction']; rfl) }

/-- The same constant in two encodings. -/
theorem sameAnswers_of_constant (hi : i.IsStatement) (hj : j.IsStatement) {c : BitVec 32}
    (h : i.int32Constant? = some c) (h' : j.int32Constant? = some c) : SameAnswers r i j := by
  obtain ⟨place, haction⟩ := exists_action_of_int32Constant? h
  obtain ⟨place', haction'⟩ := exists_action_of_int32Constant? h'
  obtain ⟨hflow, hbr, hbne⟩ := hi.sameBranch_of_isStraight hj (by rw [haction]; rfl) (by rw [haction']; rfl)
  obtain ⟨haccess, hindex⟩ :=
    sameSlots_of_none (i := i) (j := j) (by rw [slotAccess?, haction]) (by rw [slotAccess?, haction'])
  exact
    { flow := hflow
      isBr := hbr
      isBneUn := hbne
      accesses := haccess
      slotIndex? := hindex
      int32Constant? := h'.trans h.symm
      opcode := opcode_iff_of_hasOneForm (by rw [haction]; rfl) (by rw [haction']; rfl) }

/-- A branch in its short and in its long form. -/
theorem sameAnswers_of_branch (hi : i.IsStatement) (hj : j.IsStatement) (h : i.transfers = true)
    (hlong : j.opcode.long = i.opcode.long) : SameAnswers r i j := by
  obtain ⟨⟨hflow, -, -, hsame⟩, hbr, hbne⟩ := hi.eq_of_long hj hlong
  have hnone : ∀ x : Instruction, x.action = i.action →
      x.slotAccess? = none ∧ x.int32Constant? = none ∧ x.action.hasOneForm = false := by
    intro x hx
    rcases hi.action_of_transfers h with haction | haction
    · rw [haction] at hx
      exact ⟨by rw [slotAccess?, hx], by rw [int32Constant?, hx], by rw [hx]; rfl⟩
    · rw [haction] at hx
      exact ⟨by rw [slotAccess?, hx], by rw [int32Constant?, hx], by rw [hx]; rfl⟩
  obtain ⟨hslot, hconstant, hform⟩ := hnone i rfl
  obtain ⟨hslot', hconstant', hform'⟩ := hnone j hsame
  obtain ⟨haccess, hindex⟩ := sameSlots_of_none hslot hslot'
  exact
    { flow := hflow
      isBr := hbr
      isBneUn := hbne
      accesses := haccess
      slotIndex? := hindex
      int32Constant? := hconstant'.trans hconstant.symm
      opcode := opcode_iff_of_hasOneForm hform hform' }

/-- **A shape is all that the queries see.** -/
theorem SameShape.answers (hi : i.IsStatement) (hj : j.IsStatement) (h : SameShape r i j) :
    SameAnswers r i j := by
  cases h with
  | same hslot hopcode hoperand => exact sameAnswers_of_same hi hj hslot hopcode hoperand
  | slot haccess haccess' => exact sameAnswers_of_slot hi hj haccess haccess'
  | constant hconstant hconstant' => exact sameAnswers_of_constant hi hj hconstant hconstant'
  | branch htransfers hlong => exact sameAnswers_of_branch hi hj htransfers hlong

/-! ## Shapes can be computed -/

/-- Decision procedure for `SameShape`. -/
def looksLike (r : BitVec 16 → BitVec 16) (i j : Instruction) : Bool :=
  match i.slotAccess? with
  | some (kind, way, _) =>
      j.accesses kind way &&
        (i.slotIndex? kind).any fun n => j.slotIndex? kind == some (kind.rename r n)
  | none =>
      (j.opcode == i.opcode && j.operand == i.operand) ||
        (i.int32Constant?.isSome && j.int32Constant? == i.int32Constant?) ||
        (i.transfers && j.opcode.long == i.opcode.long)

theorem looksLike_iff (hi : i.IsStatement) (hj : j.IsStatement) :
    i.looksLike r j = true ↔ SameShape r i j := by
  unfold looksLike
  constructor
  · intro h
    split at h
    · rename_i kind way place hslot
      simp only [Bool.and_eq_true, Option.any_eq_true, beq_iff_eq] at h
      obtain ⟨haccess', n, hindex, hindex'⟩ := h
      have haccess : i.accesses kind way = true := by simp [accesses, hslot]
      exact .slot (hi.isAccess_iff.mpr ⟨haccess, hindex⟩) (hj.isAccess_iff.mpr ⟨haccess', hindex'⟩)
    · rename_i hslot
      simp only [Bool.or_eq_true, Bool.and_eq_true, beq_iff_eq, Option.isSome_iff_exists] at h
      rcases h with (⟨hopcode, hoperand⟩ | ⟨⟨c, hc⟩, hconstant⟩) | ⟨htransfers, hlong⟩
      · exact .same hslot hopcode hoperand
      · exact .constant hc (hconstant.trans hc)
      · exact .branch htransfers hlong
  · intro h
    cases h with
    | same hslot hopcode hoperand => simp [hslot, hopcode, hoperand]
    | slot haccess haccess' =>
      obtain ⟨place, haction⟩ := haccess.exists_action
      simp [slotAccess?, haction, haccess.queries.2, haccess'.queries.1, haccess'.queries.2]
    | constant hconstant hconstant' =>
      obtain ⟨place, haction⟩ := exists_action_of_int32Constant? hconstant
      simp [slotAccess?, haction, hconstant, hconstant']
    | branch htransfers hlong => simp [hi.slotAccess?_of_transfers htransfers, htransfers, hlong]

end Instruction

end KeyLoop
