/-
# Code that is cut

Code that decodes is statements, one behind the other, so there are places in
it where one ends and the next one begins.  Only there can it be cut:

    in front of an instruction      both parts decode, the second one from the
                                    address and the offset where it starts
    inside an instruction           decoding the first part runs out of bytes,
                                    and finds no other fault before that

`r.Cuts bs` says that reader `r` runs out of bytes wherever `bs` is cut.  It
goes along with `r.Reads bs a`: bytes that were read in two steps are cut in
one of them (`cuts_bind`), and a statement is cut in its opcode or in its
operand (`cuts_instruction`).  A jump table counts the bytes that are left
before it is read, all of them; where it is cut, these are too few.

Put together again, two pieces of code that decode are one that decodes
(`Statement.listing_append`).
-/
import KeyLoop.Proofs.Instruction.Relocation

namespace KeyLoop

/-! ## Readers that run out of bytes -/

namespace Reader

variable {α β : Type} {r : Reader α} {f : α → Reader β} {bs cs : List Byte}

/-- The reader runs out of bytes where these are cut. -/
def Cuts (r : Reader α) (bs : List Byte) : Prop :=
  ∀ part, part <+: bs → part.length < bs.length → ∃ left, r part = .error .outOfBounds left

theorem cuts_nil (r : Reader α) : Cuts r [] := fun _ _ h => absurd h (Nat.not_lt_zero _)

/-- What cuts the first step cuts both. -/
theorem Cuts.bind (h : Cuts r bs) (f : α → Reader β) : Cuts (r >>= f) bs := by
  intro part hpart hshort
  obtain ⟨left, hleft⟩ := h part hpart hshort
  exact ⟨left, by simp only [Bind.bind, EStateM.bind, hleft]⟩

/-- Bytes that are read in two steps are cut in the first or in the second. -/
theorem cuts_bind {a : α} (hreads : Reads r bs a) (h : Cuts r bs) (hf : Cuts (f a) cs) :
    Cuts (r >>= f) (bs ++ cs) := by
  intro part hpart hshort
  by_cases hfirst : part.length < bs.length
  · have hpre : part <+: bs :=
      List.prefix_of_prefix_length_le hpart (List.prefix_append bs cs) (Nat.le_of_lt hfirst)
    exact h.bind f part hpre hfirst
  · have hpre : bs <+: part :=
      List.prefix_of_prefix_length_le (List.prefix_append bs cs) hpart (Nat.le_of_not_lt hfirst)
    obtain ⟨part', rfl⟩ := hpre
    have hpart' : part' <+: cs := (List.prefix_append_right_inj bs).mp hpart
    rw [List.length_append, List.length_append] at hshort
    obtain ⟨left, hleft⟩ := hf part' hpart' (by omega)
    refine ⟨left, ?_⟩
    simp only [Bind.bind, EStateM.bind, hreads part', hleft]

theorem cuts_byte (b : Byte) : Cuts byte [b] := by
  intro part _ hshort
  have hnone : part = [] := List.length_eq_zero_iff.mp (Nat.lt_one_iff.mp hshort)
  subst hnone
  exact ⟨[], rfl⟩

theorem cuts_bytes (bs : List Byte) : Cuts (bytes bs.length) bs :=
  fun part _ hshort => ⟨part, if_neg (Nat.not_le_of_lt hshort)⟩

theorem cuts_word {w : Nat} (bits : BitVec w) : Cuts (word w) (LittleEndian.ofBits bits) := by
  have hbytes := cuts_bytes (LittleEndian.ofBits bits)
  have hlength : (LittleEndian.ofBits bits).length = w / 8 := LittleEndian.length_ofNat _ _
  rw [hlength] at hbytes
  exact hbytes.bind _

end Reader

open Reader (Cuts cuts_nil cuts_bind cuts_byte cuts_word)

/-! ## Statements that are cut -/

/-- A table that is cut behind its count is found to be too short for it. -/
theorem Operand.cuts_switchTable {displacements : List (BitVec 32)}
    (h : displacements.length < 0x100000000) :
    Cuts Decode.switchTable (switch displacements).bytes := by
  have hback : (BitVec.ofNat 32 displacements.length).toNat = displacements.length := by
    rw [BitVec.toNat_ofNat]
    exact Nat.mod_eq_of_lt h
  have hcount : LittleEndian.ofNat 4 displacements.length =
      LittleEndian.ofBits (BitVec.ofNat 32 displacements.length) := by
    rw [LittleEndian.ofBits, hback]
  rw [bytes, hcount]
  refine cuts_bind (Reader.reads_word _ (toNat_lt_capacity32 _)) (cuts_word _) ?_
  intro part _ hshort
  rw [length_flatMap_ofBits] at hshort
  have hfew : part.length / 4 < displacements.length := by omega
  refine ⟨part, ?_⟩
  have hremaining : Reader.remaining part = .ok part.length part := rfl
  simp only [Bind.bind, EStateM.bind, hremaining, hback, if_pos hfew]
  rfl

theorem Operand.cuts_operand {o : Operand} {t : OperandType} (h : o.Fits t) :
    Cuts (Decode.operand t) o.bytes := by
  cases o with
  | none => exact cuts_nil _
  | target a => exact cuts_nil _
  | slot kind index => exact cuts_nil _
  | immediate i =>
    cases t with
    | scalar s =>
      obtain ⟨type, bits⟩ := i
      obtain rfl : type = s := h
      exact (cuts_word bits).bind _
    | none => cases h
    | token => cases h
    | switch => cases h
  | token token =>
    cases t with
    | token => exact (cuts_word token.value).bind _
    | none => cases h
    | scalar s => cases h
    | switch => cases h
  | switch displacements =>
    cases t with
    | switch => exact cuts_switchTable h
    | none => cases h
    | scalar s => cases h
    | token => cases h

namespace Statement

theorem cuts_opcode {row : Row} (h : row ∈ Row.all) : Cuts Decode.opcode row.opcode.bytes := by
  rcases Row.opcode_cases h with ⟨code, hcode, -⟩ | ⟨code, hcode⟩
  · rw [hcode]
    exact (cuts_byte code).bind _
  · rw [hcode]
    exact cuts_bind (Reader.reads_byte Opcode.extendedLead) (cuts_byte _) ((cuts_byte code).bind _)

/-- **A statement that is cut** runs out of bytes, in its opcode or in its operand. -/
theorem cuts_instruction (s : Statement) (address : BitVec 64) (offset : Nat) :
    Cuts (Decode.instruction address offset) s.bytes := by
  refine cuts_bind (reads_opcode s.defined) (cuts_opcode s.defined) ?_
  rw [← List.nil_append s.operand.bytes]
  exact cuts_bind (reads_row s.defined address) (cuts_nil _) ((Operand.cuts_operand s.fits).bind _)

/-- Whole statements with a part of another one behind them. -/
theorem stream_cut (ss : List Statement) (s : Statement) {part : List Byte} (hpart : part <+: s.bytes)
    (hsome : part ≠ []) (hshort : part.length < s.bytes.length) (address : BitVec 64) (offset : Nat) :
    ∃ left, Decode.stream address offset (ss.flatMap bytes ++ part) = .error .outOfBounds left := by
  induction ss generalizing address offset with
  | nil =>
    obtain ⟨left, hleft⟩ := s.cuts_instruction address offset part hpart hshort
    exact ⟨left, by rw [List.flatMap_nil, List.nil_append, Decode.stream_eq hsome, hleft]⟩
  | cons t ss ih =>
    have hread := t.reads_instruction address offset (ss.flatMap bytes ++ part)
    obtain ⟨left, hleft⟩ := ih (t.instruction address offset).next
      (offset + (t.instruction address offset).size)
    have hne : t.bytes ++ (ss.flatMap bytes ++ part) ≠ [] := by simp [t.bytes_ne_nil]
    refine ⟨left, ?_⟩
    rw [List.flatMap_cons, List.append_assoc, Decode.stream_eq hne]
    simp only [hread, hleft]

/-- A place in code lies in front of a statement or behind the last one, or a
statement is cut there. -/
theorem exists_cut (ss : List Statement) {n : Nat} (hn : n ≤ (ss.flatMap bytes).length) :
    (∃ k, n = ((ss.take k).flatMap bytes).length) ∨
      ∃ (before : List Statement) (s : Statement) (part : List Byte),
        (ss.flatMap bytes).take n = before.flatMap bytes ++ part ∧ part <+: s.bytes ∧ part ≠ [] ∧
          part.length < s.bytes.length := by
  induction ss generalizing n with
  | nil => exact .inl ⟨0, Nat.le_zero.mp hn⟩
  | cons s ss ih =>
    rw [List.flatMap_cons, List.length_append] at hn
    by_cases hzero : n = 0
    · exact .inl ⟨0, hzero⟩
    · by_cases hinside : n < s.bytes.length
      · refine .inr ⟨[], s, s.bytes.take n, ?_, List.take_prefix n s.bytes, ?_, ?_⟩
        · rw [List.flatMap_cons, List.take_append_of_le_length (Nat.le_of_lt hinside)]
          rfl
        · intro hnone
          have hlength := congrArg List.length hnone
          rw [List.length_take_of_le (Nat.le_of_lt hinside)] at hlength
          exact hzero hlength
        · rwa [List.length_take_of_le (Nat.le_of_lt hinside)]
      · have hsplit : n = s.bytes.length + (n - s.bytes.length) := by omega
        rcases ih (n := n - s.bytes.length) (by omega) with ⟨k, hk⟩ | ⟨before, t, part, htake, hpart⟩
        · refine .inl ⟨k + 1, ?_⟩
          rw [List.take_succ_cons, List.flatMap_cons, List.length_append, ← hk]
          exact hsplit
        · refine .inr ⟨s :: before, t, part, ?_, hpart⟩
          rw [List.flatMap_cons, List.flatMap_cons, hsplit, List.take_length_add_append, htake,
            List.append_assoc]

end Statement

/-! ## Where the instructions of a listing stand -/

/-- How many bytes instructions take. -/
def extent (is : List Instruction) : Nat := is.foldr (fun i n => i.size + n) 0

/-- The same instruction in code that starts `n` bytes further on. -/
def Instruction.moved (n : Nat) (i : Instruction) : Instruction :=
  { i.relocate (BitVec.ofNat 64 n) with offset := i.offset + n }

namespace Statement

variable (base : BitVec 64) (start : Nat) (ss : List Statement)

theorem extent_listing (address : BitVec 64) (offset : Nat) :
    extent (listing address offset ss) = (ss.flatMap bytes).length := by
  induction ss generalizing address offset with
  | nil => rfl
  | cons s ss ih =>
    have hrest := ih (address + BitVec.ofNat 64 s.size) (offset + s.size)
    rw [List.flatMap_cons, List.length_append, ← hrest, s.length_bytes]
    rfl

/-- Two pieces of code, one behind the other. -/
theorem listing_append (ts : List Statement) :
    listing (base + BitVec.ofNat 64 start) start (ss ++ ts) =
      listing (base + BitVec.ofNat 64 start) start ss ++
        listing (base + BitVec.ofNat 64 (start + (ss.flatMap bytes).length))
          (start + (ss.flatMap bytes).length) ts := by
  induction ss generalizing start with
  | nil => rfl
  | cons s ss ih =>
    rw [List.cons_append, listing_cons, ih, listing_cons, List.cons_append, List.flatMap_cons,
      List.length_append, s.length_bytes, Nat.add_assoc]

theorem flatMap_take_drop (k : Nat) :
    (ss.take k).flatMap bytes ++ (ss.drop k).flatMap bytes = ss.flatMap bytes := by
  rw [← List.flatMap_append, List.take_append_drop]

theorem take_listing (address : BitVec 64) (offset k : Nat) :
    (listing address offset ss).take k = listing address offset (ss.take k) := by
  induction ss generalizing address offset k with
  | nil =>
    rw [List.take_nil]
    exact List.take_nil
  | cons s ss ih =>
    cases k with
    | zero => rfl
    | succ k => exact congrArg (_ :: ·) (ih _ _ k)

theorem drop_listing (k : Nat) :
    (listing (base + BitVec.ofNat 64 start) start ss).drop k =
      listing (base + BitVec.ofNat 64 (start + ((ss.take k).flatMap bytes).length))
        (start + ((ss.take k).flatMap bytes).length) (ss.drop k) := by
  have hparts := listing_append base start (ss.take k) (ss.drop k)
  have hsplit := List.take_append_drop k (listing (base + BitVec.ofNat 64 start) start ss)
  rw [take_listing] at hsplit
  rw [List.take_append_drop, ← hsplit] at hparts
  exact List.append_cancel_left hparts

/-- An instruction stands where those before it end. -/
theorem getElem?_listing {k : Nat} {i : Instruction}
    (hi : (listing (base + BitVec.ofNat 64 start) start ss)[k]? = some i) :
    i.offset = start + ((ss.take k).flatMap bytes).length ∧ i.address = base + BitVec.ofNat 64 i.offset ∧
      0 < i.size := by
  rw [← List.head?_drop, drop_listing] at hi
  cases hrest : ss.drop k with
  | nil =>
    rw [hrest] at hi
    cases hi
  | cons s rest =>
    rw [hrest] at hi
    cases hi
    exact ⟨rfl, rfl, s.size_pos⟩

/-- Code that starts further on. -/
theorem map_moved_listing (address : BitVec 64) (offset n : Nat) :
    (listing address offset ss).map (·.moved n) =
      listing (address + BitVec.ofNat 64 n) (offset + n) ss := by
  induction ss generalizing address offset with
  | nil => rfl
  | cons s ss ih =>
    have hfirst : (s.instruction address offset).moved n =
        s.instruction (address + BitVec.ofNat 64 n) (offset + n) := by
      rw [Instruction.moved, s.relocate_instruction]
      rfl
    rw [listing, listing, List.map_cons, hfirst, ih, add_shift, Nat.add_right_comm]

end Statement

/-! ## Decoding parts of code -/

section Parts

variable {r : BitVec 64} {code : List Byte} {is : List Instruction}

/-- Where decoded instructions stand: each behind those before it, and all of
the code is theirs. -/
theorem tiles_of_decode (h : decode r code = .ok is) :
    extent is = code.length ∧ ∀ k i, is[k]? = some i →
      i.offset = extent (is.take k) ∧ i.address = r + BitVec.ofNat 64 i.offset ∧ 0 < i.size := by
  obtain ⟨ss, rfl, rfl⟩ := decode_ok_iff.mp h
  refine ⟨Statement.extent_listing ss r 0, fun k i hi => ?_⟩
  rw [Statement.take_listing, Statement.extent_listing]
  rw [← BitVec.add_zero r] at hi
  obtain ⟨hoffset, haddress, hsize⟩ := Statement.getElem?_listing r 0 ss hi
  rw [Nat.zero_add] at hoffset
  exact ⟨hoffset, haddress, hsize⟩

/-- The first `k` instructions are those of the bytes that they take. -/
theorem decode_take (h : decode r code = .ok is) (k : Nat) :
    decode r (code.take (extent (is.take k))) = .ok (is.take k) := by
  obtain ⟨ss, rfl, rfl⟩ := decode_ok_iff.mp h
  refine decode_ok_iff.mpr ⟨ss.take k, ?_, Statement.take_listing ss r 0 k⟩
  rw [Statement.take_listing, Statement.extent_listing]
  rw [← Statement.flatMap_take_drop ss k]
  exact List.take_left

/-- From where the first `k` instructions end, the others are read. -/
theorem stream_drop (h : decode r code = .ok is) (k : Nat) :
    Decode.stream (r + BitVec.ofNat 64 (extent (is.take k))) (extent (is.take k))
      (code.drop (extent (is.take k))) = .ok (is.drop k) [] := by
  obtain ⟨ss, rfl, rfl⟩ := decode_ok_iff.mp h
  have hdrop := Statement.drop_listing r 0 ss k
  rw [BitVec.add_zero, Nat.zero_add] at hdrop
  rw [hdrop, Statement.take_listing, Statement.extent_listing]
  refine Decode.stream_ok_iff.mpr ⟨rfl, ss.drop k, ?_, rfl⟩
  rw [← Statement.flatMap_take_drop ss k]
  exact List.drop_left

/-- Code that ends inside an instruction. -/
theorem decode_cut (h : decode r code = .ok is) {n : Nat} (hn : n ≤ code.length)
    (hinside : ∀ k, n ≠ extent (is.take k)) : decode r (code.take n) = .error .outOfBounds := by
  obtain ⟨ss, rfl, rfl⟩ := decode_ok_iff.mp h
  rcases Statement.exists_cut ss hn with ⟨k, hk⟩ | ⟨before, s, part, htake, hpart, hsome, hshort⟩
  · refine absurd ?_ (hinside k)
    rw [Statement.take_listing, Statement.extent_listing, hk]
  · obtain ⟨left, hleft⟩ := Statement.stream_cut before s hpart hsome hshort r 0
    rw [decode, htake, hleft]

/-- Code that decodes, and other code that decodes, behind it. -/
theorem decode_append {code' : List Byte} {js : List Instruction} (h : decode r code = .ok is)
    (h' : decode r code' = .ok js) :
    decode r (code ++ code') = .ok (is ++ js.map (·.moved code.length)) := by
  obtain ⟨ss, rfl, rfl⟩ := decode_ok_iff.mp h
  obtain ⟨ts, rfl, rfl⟩ := decode_ok_iff.mp h'
  refine decode_ok_iff.mpr ⟨ss ++ ts, List.flatMap_append.symm, ?_⟩
  have hparts := Statement.listing_append r 0 ss ts
  rw [BitVec.add_zero, Nat.zero_add] at hparts
  rw [hparts, Statement.map_moved_listing, Nat.zero_add]

namespace Cursor

variable {c : Cursor}

/-- A cursor that stands where the first `k` instructions end reads the others. -/
theorem stream_drop (h : decode r code = .ok is) (k : Nat) (hdata : c.data = code)
    (hposition : c.position = extent (is.take k)) :
    Cursor.stream (r + BitVec.ofNat 64 (extent (is.take k))) c = .ok (is.drop k) ⟨code, []⟩ := by
  have hrest : c.rest = code.drop (extent (is.take k)) := by
    rw [← hdata, ← hposition]
    exact List.drop_left.symm
  have hstream : Decode.stream (r + BitVec.ofNat 64 (extent (is.take k))) c.position c.rest =
      .ok (is.drop k) [] := by
    rw [hposition, hrest]
    exact KeyLoop.stream_drop h k
  have hend : c.advance [] = ⟨code, []⟩ := by
    rw [← hdata, advance, List.length_nil, Nat.sub_zero, List.take_length]
    rfl
  simp only [Cursor.stream, read, hstream, hend]

theorem seek_eq {n : Nat} (hdata : c.data = code) (hn : n < code.length) :
    seek n c = .ok () ⟨code.take n, code.drop n⟩ := by
  subst hdata
  exact if_pos hn

end Cursor

end Parts

/-- **Code can be cut between its instructions, and nowhere else.**  The
instructions of code that decodes tile it, each at the address of its offset.
Cut in front of one of them, the code falls into two parts: the first one
decodes to the instructions before the cut, and a cursor that stands there, or
has been moved there, reads those behind it.  Cut anywhere else, the first part
runs out of bytes.  And code that decodes may be followed by other code that
decodes; the instructions of the latter stand that much further on. -/
theorem decode_boundaries (r : BitVec 64) (code : List Byte) (is : List Instruction)
    (h : decode r code = .ok is) :
    (extent is = code.length ∧ ∀ k i, is[k]? = some i →
      i.offset = extent (is.take k) ∧ 0 < i.size ∧ i.address = r + BitVec.ofNat 64 i.offset ∧
        (r.toNat + code.length < 0x10000000000000000 → i.address.toNat = r.toNat + i.offset)) ∧
    (∀ n ≤ code.length,
      (∀ k, n = extent (is.take k) →
        decode r (code.take n) = .ok (is.take k) ∧
        (∀ c : Cursor, c.data = code → c.position = n →
          Cursor.stream (r + BitVec.ofNat 64 n) c = .ok (is.drop k) ⟨code, []⟩) ∧
        (n < code.length → ∀ c : Cursor, c.data = code →
          (do Cursor.seek n; Cursor.stream (r + BitVec.ofNat 64 n)) c = .ok (is.drop k) ⟨code, []⟩)) ∧
      ((∀ k, n ≠ extent (is.take k)) → decode r (code.take n) = .error .outOfBounds)) ∧
    ∀ code' js, decode r code' = .ok js →
      decode r (code ++ code') = .ok (is ++ js.map (·.moved code.length)) := by
  obtain ⟨hall, htiles⟩ := tiles_of_decode h
  refine ⟨⟨hall, fun k i hi => ?_⟩, fun n hn => ⟨?_, decode_cut h hn⟩, fun code' js => decode_append h⟩
  · obtain ⟨hoffset, haddress, hsize⟩ := htiles k i hi
    refine ⟨hoffset, hsize, haddress, fun hroom => ?_⟩
    obtain ⟨s, -, hinside⟩ := of_mem_decode h (List.mem_of_getElem? hi)
    rw [haddress, BitVec.toNat_add, BitVec.toNat_ofNat]
    omega
  · rintro k rfl
    refine ⟨decode_take h k, fun c hdata hposition => Cursor.stream_drop h k hdata hposition,
      fun hinside c hdata => ?_⟩
    simp only [bind, EStateM.bind, Cursor.seek_eq hdata hinside]
    exact Cursor.stream_drop h k (List.take_append_drop _ code) (List.length_take_of_le hn)

/-- A comparison with an opcode of two bytes, a jump table of one entry, and a return. -/
def compareAndJump : List Byte :=
  [0xFE, 0x01, 0x45, 0x01, 0x00, 0x00, 0x00, 0x00, 0x00, 0x00, 0x00, 0x2A]

/-- Cut behind the lead byte, behind the count of the table, and behind the table. -/
theorem decode_boundaries_compareAndJump :
    ∃ is, decode 0 compareAndJump = .ok is ∧ is.map (·.offset) = [0, 2, 11] ∧
      decode 0 (compareAndJump.take 1) = .error .outOfBounds ∧
      decode 0 (compareAndJump.take 7) = .error .outOfBounds ∧
      decode 0 (compareAndJump.take 11) = .ok (is.take 2) ∧
      (do Cursor.seek 11; Cursor.stream 11) (.start compareAndJump) =
        .ok (is.drop 2) ⟨compareAndJump, []⟩ ∧
      decode 0 (compareAndJump ++ compareAndJump) = .ok (is ++ is.map (·.moved 12)) := by
  obtain ⟨is, hdecode, hsizes⟩ := exists_of_decodesTo compareAndJump
    (fun is => is.map (·.size) == [2, 9, 1]) (by decide +kernel)
  obtain ⟨⟨-, htiles⟩, hcuts, happend⟩ := decode_boundaries 0 compareAndJump is hdecode
  obtain _ | ⟨i, _ | ⟨j, _ | ⟨l, _ | _⟩⟩⟩ := is <;> simp at hsizes
  obtain ⟨hi, hj, hl⟩ := hsizes
  have hplaces : ∀ k, extent ([i, j, l].take k) ∈ [0, 2, 11, 12] := by
    rintro (_ | _ | _ | k) <;> simp [extent, hi, hj, hl]
  have houtside : ∀ n ∉ [0, 2, 11, 12], ∀ k, n ≠ extent ([i, j, l].take k) := by
    rintro n hn k rfl
    exact hn (hplaces k)
  have htwo : 11 = extent ([i, j, l].take 2) := by simp [extent, hi, hj]
  obtain ⟨htake, -, hdrop⟩ := (hcuts 11 (by decide)).1 2 htwo
  refine ⟨[i, j, l], hdecode, ?_, (hcuts 1 (by decide)).2 (houtside 1 (by decide)),
    (hcuts 7 (by decide)).2 (houtside 7 (by decide)), htake, hdrop (by decide) _ rfl,
    happend _ _ hdecode⟩
  have hfirst := (htiles 0 i rfl).1
  have hsecond := (htiles 1 j rfl).1
  have hthird := (htiles 2 l rfl).1
  simp [extent, hi, hj] at hfirst hsecond hthird
  simp [hfirst, hsecond, hthird]

end KeyLoop
