/-
# What decoding accepts

Decoding undoes encoding (`Statement.decode_bytes`), and it accepts nothing
else.  Whatever a reader has taken from the front stood there in its written
form:

    a word            as its bytes                        (`word_ok`)
    an opcode         as its bytes                        (`opcode_ok`)
    an operand        as its bytes, and of its type       (`operand_ok`)
    an instruction    as a statement                      (`instruction_ok`)
    a listing         as statements, up to the last byte  (`decode_ok_iff`)

So every listing that comes out of decoding is the listing of statements,
and what has to be known of decoded instructions is read off those: where
they stand, and that their addresses ascend.
-/
import KeyLoop.Proofs.Instruction.Encoding

namespace KeyLoop

/-! ## Numbers -/

namespace Reader

theorem bytes_ok {count : Nat} {input bs left : List Byte} (h : bytes count input = .ok bs left) :
    bs.length = count ∧ input = bs ++ left := by
  unfold bytes at h
  split at h
  · rename_i hcount
    cases h
    exact ⟨List.length_take_of_le hcount, (List.take_append_drop count input).symm⟩
  · cases h

/-- A word of a width that its bytes fill. -/
theorem word_ok {w : Nat} (hw : LittleEndian.capacity (w / 8) = Nat.pow 2 w)
    {input left : List Byte} {bits : BitVec w} (h : word w input = .ok bits left) :
    input = LittleEndian.ofBits bits ++ left := by
  obtain ⟨bs, _, hbs, hbits⟩ := bind_ok h
  cases hbits
  obtain ⟨hlength, rfl⟩ := bytes_ok hbs
  have hlt := LittleEndian.value_lt bs
  rw [hlength, hw] at hlt
  have hvalue : (BitVec.ofNat w (LittleEndian.value bs)).toNat = LittleEndian.value bs := by
    rw [BitVec.toNat_ofNat]
    exact Nat.mod_eq_of_lt hlt
  rw [LittleEndian.ofBits, hvalue, ← hlength, LittleEndian.ofNat_value]

theorem words_ok {w : Nat} (hw : LittleEndian.capacity (w / 8) = Nat.pow 2 w) {count : Nat}
    {input left : List Byte} {list : List (BitVec w)} (h : words w count input = .ok list left) :
    list.length = count ∧ input = list.flatMap LittleEndian.ofBits ++ left := by
  induction count generalizing input list with
  | zero =>
    cases h
    exact ⟨rfl, rfl⟩
  | succ count ih =>
    obtain ⟨bits, _, hbits, h⟩ := bind_ok h
    obtain ⟨rest, _, hrest, h⟩ := bind_ok h
    cases h
    obtain ⟨hlength, hinput⟩ := ih hrest
    refine ⟨by rw [List.length_cons, hlength], ?_⟩
    rw [word_ok hw hbits, hinput, List.flatMap_cons, List.append_assoc]

end Reader

namespace Decode

/-! ## The parts of an instruction -/

theorem opcode_ok {input left : List Byte} {o : Opcode} (h : opcode input = .ok o left) :
    input = o.bytes ++ left := by
  cases input with
  | nil => cases h
  | cons first rest =>
    obtain ⟨_, _, hfirst, h⟩ := bind_ok h
    cases hfirst
    by_cases hlead : first = Opcode.extendedLead
    · rw [if_pos hlead] at h
      obtain ⟨code, _, hcode, h⟩ := bind_ok h
      cases rest with
      | nil => cases hcode
      | cons second rest =>
        cases hcode
        cases h
        rw [hlead]
        rfl
    · rw [if_neg hlead] at h
      cases h
      rfl

theorem row_ok {address : BitVec 64} {o : Opcode} {input left : List Byte} {r : Row}
    (h : row address o input = .ok r left) : left = input ∧ r ∈ Row.all ∧ r.opcode = o := by
  unfold row at h
  cases hrow : o.row? with
  | none =>
    rw [hrow] at h
    dsimp only at h
    split at h <;> cases h
  | some found =>
    rw [hrow] at h
    cases h
    refine ⟨rfl, List.mem_of_find?_eq_some hrow, ?_⟩
    simpa using List.find?_some hrow

theorem switchTable_ok {input left : List Byte} {o : Operand} (h : switchTable input = .ok o left) :
    o.Fits .switch ∧ input = o.bytes ++ left := by
  obtain ⟨count, _, hcount, h⟩ := bind_ok h
  obtain ⟨_, _, hremaining, h⟩ := bind_ok h
  cases hremaining
  split at h
  · cases h
  · obtain ⟨displacements, _, hwords, h⟩ := bind_ok h
    cases h
    obtain ⟨hlength, hrest⟩ := Reader.words_ok rfl hwords
    refine ⟨?_, ?_⟩
    · show displacements.length < 0x100000000
      rw [hlength]
      exact count.isLt
    · rw [Reader.word_ok rfl hcount, hrest, Operand.bytes, hlength, List.append_assoc]
      rfl

/-- An operand that was read fits its type, and stood there as it is written. -/
theorem operand_ok {t : OperandType} {input left : List Byte} {o : Operand}
    (h : operand t input = .ok o left) : o.Fits t ∧ input = o.bytes ++ left := by
  cases t with
  | none =>
    cases h
    exact ⟨trivial, rfl⟩
  | scalar t =>
    obtain ⟨bits, _, hbits, h⟩ := bind_ok h
    cases h
    have hw : LittleEndian.capacity (t.width / 8) = Nat.pow 2 t.width := by
      cases t <;> rfl
    exact ⟨rfl, Reader.word_ok hw hbits⟩
  | token =>
    obtain ⟨bits, _, hbits, h⟩ := bind_ok h
    cases h
    exact ⟨trivial, Reader.word_ok rfl hbits⟩
  | switch => exact switchTable_ok h

/-! ## Instructions and listings -/

/-- An instruction that was read is a statement that stood there. -/
theorem instruction_ok {address : BitVec 64} {offset : Nat} {input left : List Byte}
    {i : Instruction} (h : instruction address offset input = .ok i left) :
    ∃ s : Statement, input = s.bytes ++ left ∧ i = s.instruction address offset := by
  obtain ⟨o, _, hopcode, h⟩ := bind_ok h
  obtain ⟨row, _, hrow, h⟩ := bind_ok h
  obtain ⟨operand, _, hoperand, h⟩ := bind_ok h
  cases h
  obtain ⟨rfl, hdefined, rfl⟩ := row_ok hrow
  obtain ⟨hfits, hrest⟩ := operand_ok hoperand
  refine ⟨⟨row, operand, hdefined, hfits⟩, ?_, rfl⟩
  rw [opcode_ok hopcode, hrest, Statement.bytes, List.append_assoc]

theorem stream_ok_iff {address : BitVec 64} {offset : Nat} {input left : List Byte}
    {is : List Instruction} :
    stream address offset input = .ok is left ↔
      left = [] ∧ ∃ ss : List Statement, input = ss.flatMap Statement.bytes ∧
        is = Statement.listing address offset ss := by
  constructor
  · intro h
    induction address, offset, input using Decode.stream.induct generalizing is with
    | case1 address offset =>
      rw [stream] at h
      cases h
      exact ⟨rfl, [], rfl, rfl⟩
    | case2 address offset b bs e rest hi =>
      rw [stream, hi] at h
      cases h
    | case3 address offset b bs i rest hi e rest' hrest ih =>
      rw [stream, hi] at h
      dsimp only at h
      rw [hrest] at h
      cases h
    | case4 address offset b bs i rest hi is' rest' hrest ih =>
      rw [stream, hi] at h
      dsimp only at h
      rw [hrest] at h
      cases h
      obtain ⟨s, hinput, rfl⟩ := instruction_ok hi
      obtain ⟨hleft, ss, rfl, rfl⟩ := ih hrest
      exact ⟨hleft, s :: ss, hinput, rfl⟩
  · rintro ⟨rfl, ss, rfl, rfl⟩
    exact Statement.reads_stream ss address offset

end Decode

namespace Instruction

/-- Decoding reads the instruction somewhere. -/
def IsDecoded (i : Instruction) : Prop :=
  ∃ address offset input left, Decode.instruction address offset input = .ok i left

/-- What decoding reads are the statements. -/
theorem isDecoded_iff {i : Instruction} : i.IsDecoded ↔ i.IsStatement := by
  constructor
  · rintro ⟨address, offset, input, left, h⟩
    obtain ⟨s, -, hs⟩ := Decode.instruction_ok h
    exact ⟨s, address, offset, hs⟩
  · rintro ⟨s, address, offset, rfl⟩
    exact ⟨address, offset, _, [], s.reads_instruction address offset []⟩

end Instruction

/-- **Decoding accepts statements, and nothing else.** -/
theorem decode_ok_iff {address : BitVec 64} {code : List Byte} {is : List Instruction} :
    decode address code = .ok is ↔
      ∃ ss : List Statement, code = ss.flatMap Statement.bytes ∧
        is = Statement.listing address 0 ss := by
  unfold decode
  constructor
  · intro h
    split at h
    · rename_i is' left hstream
      cases h
      exact (Decode.stream_ok_iff.mp hstream).2
    · cases h
  · rintro ⟨ss, rfl, rfl⟩
    rw [Statement.reads_stream]

/-- The bytes decode, and what they decode to passes a test. -/
def decodesTo (bytes : List Byte) (test : List Instruction → Bool) : Bool :=
  (decode 0 bytes).toOption.any test

theorem exists_of_decodesTo (bytes : List Byte) (test : List Instruction → Bool)
    (h : decodesTo bytes test = true) : ∃ is, decode 0 bytes = .ok is ∧ test is = true := by
  unfold decodesTo at h
  cases hdecode : decode 0 bytes with
  | error fault =>
    rw [hdecode] at h
    cases h
  | ok is =>
    rw [hdecode] at h
    exact ⟨is, rfl, h⟩

/-! ## Where instructions stand -/

namespace Statement

theorem size_pos (s : Statement) : 0 < s.size := by
  rw [← s.length_bytes]
  exact List.length_pos_iff.mpr s.bytes_ne_nil

/-- The listing of code that starts at `base`, from `start` on. -/
theorem listing_cons (base : BitVec 64) (start : Nat) (s : Statement) (rest : List Statement) :
    listing (base + BitVec.ofNat 64 start) start (s :: rest) =
      s.instruction (base + BitVec.ofNat 64 start) start ::
        listing (base + BitVec.ofNat 64 (start + s.size)) (start + s.size) rest := by
  rw [listing, BitVec.add_assoc, ← BitVec.ofNat_add]

/-- An instruction stands among the bytes of the code, and its address says where. -/
theorem of_mem_listing {base : BitVec 64} {start : Nat} {ss : List Statement} {i : Instruction} :
    i ∈ listing (base + BitVec.ofNat 64 start) start ss →
      ∃ s : Statement, i = s.instruction (base + BitVec.ofNat 64 i.offset) i.offset ∧
        start ≤ i.offset ∧ i.offset < start + (ss.flatMap bytes).length := by
  induction ss generalizing start with
  | nil =>
    intro hi
    cases hi
  | cons s rest ih =>
    intro hi
    rw [listing_cons] at hi
    rw [List.flatMap_cons, List.length_append, s.length_bytes]
    have hsize := s.size_pos
    rcases List.mem_cons.mp hi with rfl | hi
    · exact ⟨s, rfl, Nat.le_refl start, Nat.lt_add_of_pos_right (Nat.add_pos_left hsize _)⟩
    · obtain ⟨t, ht, hlow, hhigh⟩ := ih hi
      exact ⟨t, ht, by omega, by omega⟩

/-- Every instruction stands behind those before it. -/
theorem pairwise_listing (base : BitVec 64) (start : Nat) (ss : List Statement) :
    (listing (base + BitVec.ofNat 64 start) start ss).Pairwise (·.offset < ·.offset) := by
  induction ss generalizing start with
  | nil => exact .nil
  | cons s rest ih =>
    rw [listing_cons]
    refine .cons ?_ (ih _)
    intro i hi
    obtain ⟨-, -, hlow, -⟩ := of_mem_listing hi
    have hsize := s.size_pos
    show start < i.offset
    omega

/-- Every instruction stands right behind the one before it. -/
theorem adjacent_listing {address : BitVec 64} {offset : Nat} {ss : List Statement} {k : Nat}
    {i i' : Instruction} : (listing address offset ss)[k]? = some i →
      (listing address offset ss)[k + 1]? = some i' → i'.address = i.next := by
  induction ss generalizing address offset k with
  | nil =>
    intro hi
    cases hi
  | cons s rest ih =>
    intro hi hi'
    cases k with
    | zero =>
      cases rest with
      | nil => cases hi'
      | cons t rest =>
        cases hi
        cases hi'
        rfl
    | succ k => exact ih hi hi'

end Statement

section Decoded

variable {base : BitVec 64} {code : List Byte} {is : List Instruction}

theorem of_mem_decode (h : decode base code = .ok is) {i : Instruction} (hi : i ∈ is) :
    ∃ s : Statement, i = s.instruction (base + BitVec.ofNat 64 i.offset) i.offset ∧
      i.offset < code.length := by
  obtain ⟨ss, rfl, rfl⟩ := decode_ok_iff.mp h
  have hi : i ∈ Statement.listing (base + BitVec.ofNat 64 0) 0 ss := by
    rwa [BitVec.add_zero]
  obtain ⟨s, hs, -, hlt⟩ := Statement.of_mem_listing hi
  exact ⟨s, hs, by omega⟩

theorem isStatement_of_mem_decode (h : decode base code = .ok is) {i : Instruction} (hi : i ∈ is) :
    i.IsStatement := by
  obtain ⟨s, hs, -⟩ := of_mem_decode h hi
  exact ⟨s, _, _, hs⟩

theorem pairwise_decode (h : decode base code = .ok is) : is.Pairwise (·.offset < ·.offset) := by
  obtain ⟨ss, -, rfl⟩ := decode_ok_iff.mp h
  rw [← BitVec.add_zero base]
  exact Statement.pairwise_listing base 0 ss

/-- The address behind an instruction is that of the next one. -/
theorem address_eq_next (h : decode base code = .ok is) {k : Nat} {i i' : Instruction}
    (hi : is[k]? = some i) (hi' : is[k + 1]? = some i') : i'.address = i.next := by
  obtain ⟨ss, -, rfl⟩ := decode_ok_iff.mp h
  exact Statement.adjacent_listing hi hi'

/-- The addresses of code that does not reach past the last address ascend. -/
theorem ascending_decode (h : decode base code = .ok is)
    (hroom : base.toNat + code.length ≤ 0x10000000000000000) :
    is.Pairwise (·.address.toNat < ·.address.toNat) := by
  have haddress : ∀ i ∈ is, i.address.toNat = base.toNat + i.offset := by
    intro i hi
    obtain ⟨s, hs, hlt⟩ := of_mem_decode h hi
    have hsum : i.address = base + BitVec.ofNat 64 i.offset := by rw [hs]; rfl
    rw [hsum, BitVec.toNat_add, BitVec.toNat_ofNat]
    omega
  refine (pairwise_decode h).imp_of_mem fun hi hj hlt => ?_
  rw [haddress _ hi, haddress _ hj]
  omega

end Decoded

end KeyLoop
