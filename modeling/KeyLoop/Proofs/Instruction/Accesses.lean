/-
# Slot accesses in every encoding

An instruction that loads or stores a slot, or takes its address, has up to
three encodings: opcodes of its own for the first four slots, a short form
with one byte for the index, and behind the lead byte a long form with two.

                     own        short    long
    load argument    02 .. 05   0E       FE 09
    argument address            0F       FE 0A
    store argument              10       FE 0B
    load local       06 .. 09   11       FE 0C
    local address               12       FE 0D
    store local      0A .. 0D   13       FE 0E

`IsAccess` says it of an instruction without a look at the instruction
table.  The table says the same: of an instruction that came out of decoding
the queries find exactly the accesses that its encoding makes
(`isAccess_iff`), and no access leaves the straight line.
-/
import KeyLoop.Proofs.Instruction.Decoding

namespace KeyLoop

/-- The opcodes of a slot access. -/
structure SlotCodes where
  /-- The first of four opcodes, one for each of the first four slots. -/
  own : Option Byte
  /-- The opcode in front of an index of one byte. -/
  short : Byte
  /-- The code behind the lead byte, in front of an index of two bytes. -/
  long : Byte

def slotCodes : SlotKind → SlotAccess → SlotCodes
  | .argument, .load => ⟨some 0x02, 0x0E, 0x09⟩
  | .argument, .address => ⟨none, 0x0F, 0x0A⟩
  | .argument, .store => ⟨none, 0x10, 0x0B⟩
  | .localVar, .load => ⟨some 0x06, 0x11, 0x0C⟩
  | .localVar, .address => ⟨none, 0x12, 0x0D⟩
  | .localVar, .store => ⟨some 0x0A, 0x13, 0x0E⟩

/-- The instruction accesses slot `n` of a kind in one of the encodings. -/
inductive Instruction.IsAccess (i : Instruction) (kind : SlotKind) (access : SlotAccess) :
    (n : BitVec 16) → Prop
  | own {code : Byte} {k : Nat} : (slotCodes kind access).own = some code → k < 4 →
      i.opcode = .single (code + BitVec.ofNat 8 k) → IsAccess i kind access (BitVec.ofNat 16 k)
  | short {index : Byte} : i.opcode = .single (slotCodes kind access).short →
      i.operand = .immediate ⟨.uint8, index⟩ → IsAccess i kind access (index.setWidth 16)
  | long {index : BitVec 16} : i.opcode = .extended (slotCodes kind access).long →
      i.operand = .immediate ⟨.uint16, index⟩ → IsAccess i kind access index

/-- The instruction asks for an access of slot `n`. -/
def Instruction.Touches (i : Instruction) (kind : SlotKind) (access : SlotAccess) (n : BitVec 16) :
    Prop :=
  ∃ place, i.action = .slot kind access place ∧ i.indexAt? place = some n

/-! ## What the table says of the encodings -/

theorem action_own {kind : SlotKind} {access : SlotAccess} {code : Byte}
    (h : (slotCodes kind access).own = some code) {k : Nat} (hk : k < 4) :
    (Opcode.single (code + BitVec.ofNat 8 k)).action =
      .slot kind access (.implied (BitVec.ofNat 16 k)) := by
  have hall : ((slotCodes kind access).own.all fun code => (List.range 4).all fun k =>
      (Opcode.single (code + BitVec.ofNat 8 k)).action ==
        .slot kind access (.implied (BitVec.ofNat 16 k))) = true := by
    cases kind <;> cases access <;> decide +kernel
  rw [h] at hall
  exact beq_iff_eq.mp (List.all_eq_true.mp hall k (List.mem_range.mpr hk))

theorem action_short (kind : SlotKind) (access : SlotAccess) :
    (Opcode.single (slotCodes kind access).short).action = .slot kind access .operand := by
  cases kind <;> cases access <;> decide +kernel

theorem action_long (kind : SlotKind) (access : SlotAccess) :
    (Opcode.extended (slotCodes kind access).long).action = .slot kind access .operand := by
  cases kind <;> cases access <;> decide +kernel

namespace Row

/-- A row for a slot access is one of the encodings, and goes on in the straight line. -/
def isEncoding (row : Row) : Bool :=
  match row.action with
  | .slot kind access place =>
      row.flow == .sequential &&
        match place with
        | .implied n => (slotCodes kind access).own.any fun code =>
            (List.range 4).any fun k =>
              row.opcode == .single (code + BitVec.ofNat 8 k) && n == BitVec.ofNat 16 k
        | .operand =>
            (row.opcode == .single (slotCodes kind access).short &&
                row.operandType == .scalar .uint8) ||
              (row.opcode == .extended (slotCodes kind access).long &&
                row.operandType == .scalar .uint16)
  | _ => true

theorem isEncoding_of_mem {row : Row} (h : row ∈ all) : row.isEncoding = true := by
  have hall : all.all isEncoding = true := by decide +kernel
  exact List.all_eq_true.mp hall row h

/-- The encodings of a slot access, by opcode and type of the operand. -/
theorem encoding_cases {row : Row} (h : row ∈ all) {kind : SlotKind} {access : SlotAccess}
    {place : Place (BitVec 16)} (haction : row.action = .slot kind access place) :
    (∃ code k, (slotCodes kind access).own = some code ∧ k < 4 ∧
        row.opcode = .single (code + BitVec.ofNat 8 k)) ∨
      (row.opcode = .single (slotCodes kind access).short ∧ row.operandType = .scalar .uint8) ∨
        (row.opcode = .extended (slotCodes kind access).long ∧ row.operandType = .scalar .uint16) := by
  have hencoding := isEncoding_of_mem h
  simp only [isEncoding, haction, Bool.and_eq_true] at hencoding
  obtain ⟨-, hencoding⟩ := hencoding
  cases place with
  | implied n =>
    simp only [Option.any_eq_true, List.any_eq_true, List.mem_range, Bool.and_eq_true,
      beq_iff_eq] at hencoding
    obtain ⟨code, hcode, k, hk, hopcode, -⟩ := hencoding
    exact .inl ⟨code, k, hcode, hk, hopcode⟩
  | operand =>
    simp only [Bool.or_eq_true, Bool.and_eq_true, beq_iff_eq] at hencoding
    exact .inr hencoding

end Row

/-! ## The queries find the accesses -/

/-- A number in the range of slot indices reads as the index. -/
theorem Operand.uint16?_immediate {i : Immediate} {index : BitVec 16}
    (h : i.toInt = index.toNat) : (immediate i).uint16? = some index := by
  have hlt := index.isLt
  have htoNat : i.toBits64.toNat = index.toNat := by
    rw [Immediate.toBits64, h, BitVec.ofInt_natCast, BitVec.toNat_ofNat]
    omega
  have hsmall : i.toBits64.toNat < 0x10000 := by omega
  rw [uint16?, if_pos hsmall]
  congr 1
  apply BitVec.eq_of_toNat_eq
  rw [BitVec.truncate_eq_setWidth, BitVec.toNat_setWidth, htoNat]
  omega

theorem Operand.uint16?_uint8 (index : Byte) :
    (immediate ⟨.uint8, index⟩).uint16? = some (index.setWidth 16) := by
  refine uint16?_immediate ?_
  show (index.toNat : Int) = (index.setWidth 16).toNat
  rw [BitVec.toNat_setWidth]
  omega

/-- An operand of two bytes is an index. -/
theorem Operand.uint16?_uint16 (index : BitVec 16) :
    (immediate ⟨.uint16, index⟩).uint16? = some index := uint16?_immediate rfl

namespace Instruction

variable {kind : SlotKind} {access : SlotAccess} {n : BitVec 16}

/-- What an access looks like to the queries. -/
theorem accesses_of_action {i : Instruction} {place : Place (BitVec 16)}
    (h : i.action = .slot kind access place) :
    i.accesses kind access = true ∧ i.slotIndex? kind = i.indexAt? place := by
  have haccess : i.slotAccess? = some (kind, access, place) := by rw [slotAccess?, h]
  constructor
  · simp [accesses, haccess]
  · simp [slotIndex?, haccess]

theorem exists_action_of_accesses {i : Instruction} (h : i.accesses kind access = true) :
    ∃ place, i.action = .slot kind access place := by
  unfold accesses slotAccess? at h
  cases haction : i.action with
  | slot k a place =>
    simp only [haction, Bool.and_eq_true, beq_iff_eq] at h
    obtain ⟨rfl, rfl⟩ := h
    exact ⟨place, rfl⟩
  | _ => simp [haction] at h

/-- The queries say which access the machine is asked for. -/
theorem touches_iff_queries {i : Instruction} :
    i.Touches kind access n ↔ i.accesses kind access = true ∧ i.slotIndex? kind = some n := by
  constructor
  · rintro ⟨place, haction, hindex⟩
    obtain ⟨haccess, hslot⟩ := accesses_of_action haction
    exact ⟨haccess, hslot.trans hindex⟩
  · rintro ⟨haccess, hslot⟩
    obtain ⟨place, haction⟩ := exists_action_of_accesses haccess
    exact ⟨place, haction, (accesses_of_action haction).2.symm.trans hslot⟩

/-- An instruction with a 32-bit constant pushes it. -/
theorem exists_action_of_int32Constant? {i : Instruction} {c : BitVec 32}
    (h : i.int32Constant? = some c) : ∃ place, i.action = .int32 place := by
  unfold int32Constant? at h
  split at h
  · rename_i place haction
    exact ⟨place, haction⟩
  · cases h

/-- An access is found by the queries, in whatever encoding. -/
theorem IsAccess.queries {i : Instruction} (h : i.IsAccess kind access n) :
    i.accesses kind access = true ∧ i.slotIndex? kind = some n := by
  cases h with
  | own hcode hk hopcode =>
    have haction : i.action = _ := (congrArg Opcode.action hopcode).trans (action_own hcode hk)
    exact accesses_of_action haction
  | short hopcode hoperand =>
    have haction : i.action = _ := (congrArg Opcode.action hopcode).trans (action_short kind access)
    obtain ⟨haccess, hindex⟩ := accesses_of_action haction
    refine ⟨haccess, hindex.trans ?_⟩
    rw [indexAt?, hoperand, Operand.uint16?_uint8]
  | long hopcode hoperand =>
    have haction : i.action = _ := (congrArg Opcode.action hopcode).trans (action_long kind access)
    obtain ⟨haccess, hindex⟩ := accesses_of_action haction
    refine ⟨haccess, hindex.trans ?_⟩
    rw [indexAt?, hoperand, Operand.uint16?_uint16]

end Instruction

namespace Statement

variable {kind : SlotKind} {access : SlotAccess} {n : BitVec 16} (s : Statement)
  (address : BitVec 64) (offset : Nat)

/-- The operand that follows a one-byte or two-byte index. -/
theorem operand_of_scalar {t : ScalarType} (h : s.row.operandType = .scalar t) :
    ∃ bits, s.operand = .immediate ⟨t, bits⟩ := by
  have hfits := s.fits
  rw [h] at hfits
  cases hoperand : s.operand with
  | immediate i =>
    rw [hoperand] at hfits
    obtain ⟨type, bits⟩ := i
    obtain rfl : type = t := hfits
    exact ⟨bits, rfl⟩
  | _ =>
    rw [hoperand] at hfits
    cases hfits

/-- Every access of a slot is written in one of the encodings. -/
theorem exists_isAccess {place : Place (BitVec 16)}
    (haction : (s.instruction address offset).action = .slot kind access place) :
    ∃ n, (s.instruction address offset).IsAccess kind access n := by
  rw [s.action_instruction] at haction
  rcases Row.encoding_cases s.defined haction with
    ⟨code, k, hcode, hk, hopcode⟩ | ⟨hopcode, htype⟩ | ⟨hopcode, htype⟩
  · exact ⟨_, .own hcode hk hopcode⟩
  · obtain ⟨index, hoperand⟩ := s.operand_of_scalar htype
    exact ⟨_, .short hopcode hoperand⟩
  · obtain ⟨index, hoperand⟩ := s.operand_of_scalar htype
    exact ⟨_, .long hopcode hoperand⟩

/-- **Accesses of decoded instructions.**  The queries find what the encoding
says, and nothing else. -/
theorem isAccess_iff :
    (s.instruction address offset).IsAccess kind access n ↔
      (s.instruction address offset).accesses kind access = true ∧
        (s.instruction address offset).slotIndex? kind = some n := by
  constructor
  · exact Instruction.IsAccess.queries
  · rintro ⟨haccess, hindex⟩
    obtain ⟨place, haction⟩ := Instruction.exists_action_of_accesses haccess
    obtain ⟨m, hm⟩ := s.exists_isAccess address offset haction
    obtain rfl : m = n := Option.some.inj (hm.queries.2.symm.trans hindex)
    exact hm

/-- What the machine is asked to do is what the encoding says. -/
theorem touches_iff :
    (s.instruction address offset).Touches kind access n ↔
      (s.instruction address offset).IsAccess kind access n := by
  rw [isAccess_iff, Instruction.touches_iff_queries]

/-- No slot access leaves the straight line. -/
theorem isSequential_of_isAccess (h : (s.instruction address offset).IsAccess kind access n) :
    (s.instruction address offset).isSequential = true := by
  obtain ⟨place, haction⟩ := Instruction.exists_action_of_accesses h.queries.1
  have hencoding := Row.isEncoding_of_mem s.defined
  rw [s.action_instruction] at haction
  simp only [Row.isEncoding, haction, Bool.and_eq_true] at hencoding
  exact hencoding.1

end Statement

namespace Instruction.IsStatement

variable {i : Instruction} {kind : SlotKind} {access : SlotAccess} {n : BitVec 16}

theorem isAccess_iff (h : i.IsStatement) :
    i.IsAccess kind access n ↔ i.accesses kind access = true ∧ i.slotIndex? kind = some n := by
  obtain ⟨s, address, offset, rfl⟩ := h
  exact s.isAccess_iff address offset

theorem touches_iff (h : i.IsStatement) : i.Touches kind access n ↔ i.IsAccess kind access n := by
  obtain ⟨s, address, offset, rfl⟩ := h
  exact s.touches_iff address offset

end Instruction.IsStatement

end KeyLoop
