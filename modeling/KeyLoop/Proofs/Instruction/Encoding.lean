/-
# Instructions in code and back

A statement is a defined instruction with an operand of the type that its
row asks for.  `bytes` writes it, opcode first, and `instruction` is what it
looks like once it has been read at an address.  Reading undoes writing:

    a word        of a whole number of bytes              (`reads_word`)
    an operand    of the type it is read as               (`reads_operand`)
    a statement   with its opcode                         (`reads_instruction`)
    a list        of statements, one behind the other     (`decode_bytes`)

`r.Reads bs a` says that reader `r` takes exactly the bytes `bs` from the
front, whatever comes behind them, and answers `a`.
-/
import KeyLoop.Proofs.Opcode.Table
import KeyLoop.Instruction.Decode

namespace KeyLoop

/-! ## Runs of two steps -/

/-- A run of two steps that succeeds is a success of each. -/
theorem bind_ok {ε σ α β : Type} {run : EStateM ε σ α} {next : α → EStateM ε σ β} {s s' : σ} {b : β}
    (h : (run >>= next) s = .ok b s') :
    ∃ a t, run s = .ok a t ∧ next a t = .ok b s' := by
  simp only [bind, EStateM.bind] at h
  cases hr : run s with
  | ok a t =>
    rw [hr] at h
    exact ⟨a, t, rfl, h⟩
  | error e t =>
    rw [hr] at h
    cases h

/-! ## Readers that take given bytes -/

namespace Reader

/-- The reader takes these bytes from the front, and no more, and answers `a`. -/
def Reads {α : Type} (r : Reader α) (bs : List Byte) (a : α) : Prop :=
  ∀ rest, r (bs ++ rest) = .ok a rest

theorem reads_pure {α : Type} (a : α) : Reads (pure a) [] a := fun _ => rfl

theorem reads_bind {α β : Type} {r : Reader α} {f : α → Reader β} {bs cs : List Byte} {a : α}
    {b : β} (h : Reads r bs a) (hf : Reads (f a) cs b) : Reads (r >>= f) (bs ++ cs) b := by
  intro rest
  have hfirst := h (cs ++ rest)
  rw [← List.append_assoc] at hfirst
  simp only [bind, EStateM.bind, hfirst]
  exact hf rest

/-- A last step that only shapes the answer. -/
theorem reads_map {α β : Type} {r : Reader α} {f : α → β} {bs : List Byte} {a : α}
    (h : Reads r bs a) : Reads (do return f (← r)) bs (f a) := by
  have hbind := reads_bind (f := fun a => pure (f a)) h (reads_pure (f a))
  rwa [List.append_nil] at hbind

theorem reads_byte (b : Byte) : Reads byte [b] b := fun _ => rfl

theorem reads_bytes (bs : List Byte) : Reads (bytes bs.length) bs bs := by
  intro rest
  have hroom : bs.length ≤ (bs ++ rest).length := by simp
  rw [bytes, if_pos hroom, List.take_left, List.drop_left]

/-- A word that its bytes have room for. -/
theorem reads_word {w : Nat} (bits : BitVec w)
    (h : bits.toNat < LittleEndian.capacity (w / 8)) :
    Reads (word w) (LittleEndian.ofBits bits) bits := by
  have hbytes := reads_bytes (LittleEndian.ofBits bits)
  have hlength : (LittleEndian.ofBits bits).length = w / 8 := LittleEndian.length_ofNat _ _
  have hvalue : BitVec.ofNat w (LittleEndian.value (LittleEndian.ofBits bits)) = bits := by
    rw [LittleEndian.ofBits, LittleEndian.value_ofNat, Nat.mod_eq_of_lt h, BitVec.ofNat_toNat,
      BitVec.setWidth_eq]
  rw [hlength] at hbytes
  have hmap := reads_map (f := fun bs => BitVec.ofNat w (LittleEndian.value bs)) hbytes
  rwa [hvalue] at hmap

theorem reads_words {w : Nat} (h : ∀ bits : BitVec w, bits.toNat < LittleEndian.capacity (w / 8))
    (list : List (BitVec w)) :
    Reads (words w list.length) (list.flatMap LittleEndian.ofBits) list := by
  induction list with
  | nil => exact reads_pure []
  | cons bits list ih => exact reads_bind (reads_word bits (h bits)) (reads_map ih)

end Reader

open Reader (Reads reads_pure reads_bind reads_map reads_byte reads_word reads_words)

theorem toNat_lt_capacity32 (bits : BitVec 32) : bits.toNat < LittleEndian.capacity (32 / 8) :=
  bits.isLt

/-! ## Operands -/

namespace Operand

/-- The operand as it stands in code. -/
def bytes : Operand → List Byte
  | immediate i => LittleEndian.ofBits i.bits
  | token t => LittleEndian.ofBits t.value
  | switch displacements =>
      LittleEndian.ofNat 4 displacements.length ++ displacements.flatMap LittleEndian.ofBits
  | none | target _ | slot _ _ => []

/-- The operand can stand in code where this type is expected. -/
def Fits : Operand → OperandType → Prop
  | none, .none => True
  | immediate i, .scalar t => i.type = t
  | token _, .token => True
  | switch displacements, .switch => displacements.length < 0x100000000
  | _, _ => False

/-- A number takes as many bytes as its type has. -/
theorem bytes_immediate (i : Immediate) :
    (immediate i).bytes = LittleEndian.ofNat i.type.size i.bits.toNat := by
  have hsize : i.type.width / 8 = i.type.size := Nat.mul_div_cancel_left i.type.size (by decide)
  rw [bytes, LittleEndian.ofBits, hsize]

theorem length_flatMap_ofBits (list : List (BitVec 32)) :
    (list.flatMap LittleEndian.ofBits).length = 4 * list.length := by
  induction list with
  | nil => rfl
  | cons bits list ih =>
    have hfirst : (LittleEndian.ofBits bits).length = 4 := LittleEndian.length_ofNat _ _
    simp only [List.flatMap_cons, List.length_append, List.length_cons, hfirst, ih]
    omega

/-- Where the type of an operand fixes the size, the operand has it. -/
theorem size_of_fits {o : Operand} {t : OperandType} (h : o.Fits t) {n : Nat} (ht : t.size? = some n) :
    o.size = n := by
  cases t with
  | none =>
    cases o <;> cases h
    cases ht
    rfl
  | scalar t =>
    cases o <;> cases h
    cases ht
    rfl
  | token =>
    cases o <;> cases h
    cases ht
    rfl
  | switch => cases ht

theorem length_bytes {o : Operand} {t : OperandType} (h : o.Fits t) : o.bytes.length = o.size := by
  cases o with
  | none => rfl
  | immediate i =>
    rw [bytes_immediate]
    exact LittleEndian.length_ofNat _ _
  | target a => cases t <;> cases h
  | token token => exact LittleEndian.length_ofNat _ _
  | slot kind index => cases t <;> cases h
  | switch displacements =>
    simp only [bytes, size, List.length_append, LittleEndian.length_ofNat, length_flatMap_ofBits]

theorem reads_switchTable {displacements : List (BitVec 32)}
    (h : displacements.length < 0x100000000) :
    Reads Decode.switchTable (switch displacements).bytes (switch displacements) := by
  have hback : (BitVec.ofNat 32 displacements.length).toNat = displacements.length := by
    rw [BitVec.toNat_ofNat]
    exact Nat.mod_eq_of_lt h
  have hcount : Reads (Reader.word 32) (LittleEndian.ofNat 4 displacements.length)
      (BitVec.ofNat 32 displacements.length) := by
    have hword := reads_word (BitVec.ofNat 32 displacements.length) (toNat_lt_capacity32 _)
    rwa [LittleEndian.ofBits, hback] at hword
  intro rest
  -- the bytes left are enough for the table, so the count is not refused
  have henough : ¬ (displacements.flatMap LittleEndian.ofBits ++ rest).length / 4 <
      displacements.length := by
    rw [List.length_append, length_flatMap_ofBits]
    omega
  have hremaining : Reader.remaining (displacements.flatMap LittleEndian.ofBits ++ rest) =
      .ok (displacements.flatMap LittleEndian.ofBits ++ rest).length
        (displacements.flatMap LittleEndian.ofBits ++ rest) := rfl
  have htable := reads_map (f := switch) (reads_words toNat_lt_capacity32 displacements) rest
  simp only [Decode.switchTable, bytes, List.append_assoc, bind, EStateM.bind,
    hcount (displacements.flatMap LittleEndian.ofBits ++ rest), hremaining, hback, henough, if_false]
  exact htable

/-- Reading an operand as the type it fits undoes writing it. -/
theorem reads_operand {o : Operand} {t : OperandType} (h : o.Fits t) :
    Reads (Decode.operand t) o.bytes o := by
  cases o with
  | none =>
    cases t with
    | none => exact reads_pure _
    | scalar s => cases h
    | token => cases h
    | switch => cases h
  | immediate i =>
    cases t with
    | scalar s =>
      obtain ⟨type, bits⟩ := i
      obtain rfl : type = s := h
      have hroom : bits.toNat < LittleEndian.capacity (type.width / 8) := by
        cases type <;> exact bits.isLt
      exact reads_map (reads_word bits hroom)
    | none => cases h
    | token => cases h
    | switch => cases h
  | target a => cases t <;> cases h
  | token token =>
    cases t with
    | token => exact reads_map (reads_word token.value (toNat_lt_capacity32 _))
    | none => cases h
    | scalar s => cases h
    | switch => cases h
  | slot kind index => cases t <;> cases h
  | switch displacements =>
    cases t with
    | switch => exact reads_switchTable h
    | none => cases h
    | scalar s => cases h
    | token => cases h

end Operand

/-! ## One instruction after the other -/

/-- Reading on, instruction by instruction. -/
theorem Decode.stream_eq {address : BitVec 64} {offset : Nat} {input : List Byte} (hinput : input ≠ []) :
    Decode.stream address offset input =
      match Decode.instruction address offset input with
      | .error e left => .error e left
      | .ok i left =>
          match Decode.stream i.next (offset + i.size) left with
          | .error e left => .error e left
          | .ok is left => .ok (i :: is) left := by
  cases input with
  | nil => exact absurd rfl hinput
  | cons b bs =>
    rw [Decode.stream]
    split
    · rename_i e left herror
      simp only [herror]
    · rename_i i left hok
      cases hrest : Decode.stream i.next (offset + i.size) left with
      | error e left' => simp only [hok, hrest]
      | ok is left' => simp only [hok, hrest]

/-! ## Statements -/

/-- A defined instruction with an operand of its type. -/
structure Statement where
  row : Row
  operand : Operand
  defined : row ∈ Row.all
  fits : operand.Fits row.operandType

namespace Statement

/-- The statement in code. -/
def bytes (s : Statement) : List Byte := s.row.opcode.bytes ++ s.operand.bytes

/-- How many bytes the statement takes. -/
def size (s : Statement) : Nat := s.row.opcode.bytes.length + s.operand.size

/-- The statement as it reads at an address and an offset in the buffer. -/
def instruction (s : Statement) (address : BitVec 64) (offset : Nat) : Instruction :=
  { s.row.toTraits with
    address, offset
    size := s.size
    opcode := s.row.opcode
    operand := s.operand
    targets := Decode.targets s.row.flow (address + BitVec.ofNat 64 s.size) s.operand }

/-- Statements as they read one behind the other. -/
def listing (address : BitVec 64) (offset : Nat) : List Statement → List Instruction
  | [] => []
  | s :: rest =>
      s.instruction address offset ::
        listing (address + BitVec.ofNat 64 s.size) (offset + s.size) rest

end Statement

/-- The instruction is a statement as it reads somewhere. -/
def Instruction.IsStatement (i : Instruction) : Prop :=
  ∃ (s : Statement) (address : BitVec 64) (offset : Nat), i = s.instruction address offset

namespace Statement

/-- The action of a statement is the one in its row. -/
theorem action_instruction (s : Statement) (address : BitVec 64) (offset : Nat) :
    (s.instruction address offset).action = s.row.action := by
  show s.row.opcode.action = s.row.action
  rw [Opcode.action, Row.row?_opcode s.defined]
  rfl

theorem length_bytes (s : Statement) : s.bytes.length = s.size := by
  rw [bytes, List.length_append, Operand.length_bytes s.fits, size]

/-- A statement has at least the byte of its opcode. -/
theorem bytes_ne_nil (s : Statement) : s.bytes ≠ [] := by
  rcases Row.opcode_cases s.defined with ⟨code, hcode, -⟩ | ⟨code, hcode⟩ <;>
    simp [bytes, hcode, Opcode.bytes, Opcode.single, Opcode.extended, Opcode.extendedLead]

theorem reads_opcode {row : Row} (h : row ∈ Row.all) :
    Reads Decode.opcode row.opcode.bytes row.opcode := by
  rcases Row.opcode_cases h with ⟨code, hcode, hlead⟩ | ⟨code, hcode⟩
  · rw [hcode]
    refine reads_bind (reads_byte code) ?_
    rw [if_neg hlead]
    exact reads_pure _
  · rw [hcode]
    exact reads_bind (reads_byte Opcode.extendedLead) (reads_map (reads_byte code))

theorem reads_row {row : Row} (h : row ∈ Row.all) (address : BitVec 64) :
    Reads (Decode.row address row.opcode) [] row := by
  rw [Decode.row, Row.row?_opcode h]
  exact reads_pure row

/-- Reading a statement undoes writing it, wherever it stands. -/
theorem reads_instruction (s : Statement) (address : BitVec 64) (offset : Nat) :
    Reads (Decode.instruction address offset) s.bytes (s.instruction address offset) := by
  refine reads_bind (reads_opcode s.defined) ?_
  rw [← List.nil_append s.operand.bytes]
  exact reads_bind (reads_row s.defined address) (reads_map (Operand.reads_operand s.fits))

theorem reads_stream (statements : List Statement) (address : BitVec 64) (offset : Nat) :
    Decode.stream address offset (statements.flatMap bytes) =
      .ok (listing address offset statements) [] := by
  induction statements generalizing address offset with
  | nil =>
    rw [List.flatMap_nil, Decode.stream]
    rfl
  | cons s rest ih =>
    have hread := s.reads_instruction address offset (rest.flatMap bytes)
    have hne : s.bytes ++ rest.flatMap bytes ≠ [] := by simp [s.bytes_ne_nil]
    have hrest := ih (s.instruction address offset).next (offset + (s.instruction address offset).size)
    rw [List.flatMap_cons, Decode.stream_eq hne]
    simp only [hread, hrest]
    rfl

/-- **Decoding undoes encoding**, at any address. -/
theorem decode_bytes (statements : List Statement) (address : BitVec 64) :
    decode address (statements.flatMap bytes) = .ok (listing address 0 statements) := by
  rw [decode, reads_stream]

end Statement

end KeyLoop
