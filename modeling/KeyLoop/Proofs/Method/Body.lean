/-
# What a method header accepts

The two low bits of the first byte tell the format of the header, and the
header says how long it is itself and how long the code behind it.

    first byte % 4     header                            code
    2                  the one byte                      first byte / 4 bytes
    3                  4 * (second byte / 16) bytes,     as many bytes as the
                       but no fewer than twelve          bytes 4 to 7 say

`Announces` is this table.  A header is accepted exactly if the data is long
enough for both parts.  What is no header at all (`Meaningless`) is told from
data that ends too early: only the latter may be cured by more data, and data
that is accepted is read in the same way whatever follows it.

The code is never so long that its addresses would not ascend; so every method
that comes out of a body is decoded in the sense of `IsDecoded`
(`isDecoded_ofBody`).
-/
import KeyLoop.Proofs.Method.Decoded

namespace KeyLoop

namespace Body

/-! ## What the first bytes say -/

/-- The data begins with a header, which says how many bytes header and code take. -/
inductive Announces : List Byte → (header code : Nat) → Prop
  | tiny {first : Byte} {rest : List Byte} (hkind : first.toNat % 4 = 2) :
      Announces (first :: rest) 1 (first.toNat / 4)
  | fat {first second : Byte} {rest : List Byte} (hkind : first.toNat % 4 = 3)
      (hlength : 12 ≤ (first :: second :: rest).length) (hheader : 12 ≤ 4 * (second.toNat / 16)) :
      Announces (first :: second :: rest) (4 * (second.toNat / 16))
        (field (first :: second :: rest) 4 4)

/-- The data begins with what cannot be a header. -/
inductive Meaningless : List Byte → Malformation → Prop
  | empty : Meaningless [] .emptyBody
  | kind {first : Byte} {rest : List Byte} (hkind : first.toNat % 4 < 2) :
      Meaningless (first :: rest) (.unknownHeader first)
  | short {first second : Byte} {rest : List Byte} (hkind : first.toNat % 4 = 3)
      (hlength : 12 ≤ (first :: second :: rest).length) (hheader : 4 * (second.toNat / 16) < 12) :
      Meaningless (first :: second :: rest) (.headerTooShort (4 * (second.toNat / 16)))

/-- The header is a fat one with its flag for initialized locals set. -/
def AsksForZeros (data : List Byte) : Prop :=
  ∃ first rest, data = first :: rest ∧ first.toNat % 4 = 3 ∧ first.getLsbD 4 = true

/-! ## Fields -/

theorem field_append {data : List Byte} {start count : Nat} (h : start + count ≤ data.length)
    (more : List Byte) : field (data ++ more) start count = field data start count := by
  have hdrop : count ≤ (data.drop start).length := by
    rw [List.length_drop]
    omega
  rw [field, field, List.drop_append_of_le_length (by omega), List.take_append_of_le_length hdrop]

/-- The flags of a fat header are its first two bytes. -/
theorem field_flags (first second : Byte) (rest : List Byte) :
    field (first :: second :: rest) 0 2 = first.toNat + 256 * second.toNat := by
  show first.toNat + 256 * (second.toNat + 256 * 0) = _
  omega

theorem headerSize_flags (first second : Byte) :
    ((first.toNat + 256 * second.toNat) >>> 12) * 4 = 4 * (second.toNat / 16) := by
  have hfirst := first.isLt
  rw [Nat.shiftRight_eq_div_pow]
  omega

theorem testBit_flags (first second : Byte) :
    (first.toNat + 256 * second.toNat).testBit 4 = first.getLsbD 4 := by
  have hlow : (first.toNat + 256 * second.toNat) % Nat.pow 2 8 = first.toNat := by
    have hfirst := first.isLt
    show (first.toNat + 256 * second.toNat) % 256 = first.toNat
    omega
  have hbit := Nat.testBit_mod_two_pow (first.toNat + 256 * second.toNat) 8 4
  rw [show (2 : Nat) ^ 8 = Nat.pow 2 8 from rfl, hlow] at hbit
  exact hbit.symm

/-! ## The two formats -/

theorem parse_tiny {first : Byte} (hkind : first.toNat % 4 = 2) (rest : List Byte) :
    parse (first :: rest) =
      if (first :: rest).length < first.toNat / 4 + 1 then .error .outOfBounds
      else .ok
        { codeSize := first.toNat / 4, headerSize := 1, localsToken := 0, maxStack := tinyMaxStack
          isFat := false, initLocals := false, hasSections := false } := by
  rw [parse, if_pos hkind, tiny]

theorem parse_fat {first : Byte} (hkind : first.toNat % 4 = 3) (second : Byte) (rest : List Byte) :
    parse (first :: second :: rest) =
      let data := first :: second :: rest
      if data.length < 12 then .error .outOfBounds
      else if 4 * (second.toNat / 16) < 12 then
        .error (.malformed (.headerTooShort (4 * (second.toNat / 16))))
      else if data.length < field data 4 4 + 4 * (second.toNat / 16) then .error .outOfBounds
      else .ok
        { codeSize := field data 4 4, headerSize := 4 * (second.toNat / 16)
          localsToken := BitVec.ofNat 32 (field data 8 4)
          maxStack := field data 2 2
          isFat := true
          initLocals := first.getLsbD 4
          hasSections := (first.toNat + 256 * second.toNat).testBit 3 } := by
  have htiny : ¬ first.toNat % 4 = 2 := by omega
  rw [parse, if_neg htiny, if_pos hkind, fat]
  dsimp only
  rw [field_flags, headerSize_flags, testBit_flags]

/-- A lone byte is no fat header, whatever it says. -/
theorem parse_lone {first : Byte} (hkind : first.toNat % 4 = 3) :
    parse [first] = .error .outOfBounds := by
  have htiny : ¬ first.toNat % 4 = 2 := by omega
  exact (if_neg htiny).trans (if_pos hkind)

/-! ## What parsing answers -/

theorem Announces.not_meaningless {data : List Byte} {header code : Nat} {cause : Malformation}
    (h : Announces data header code) : ¬ Meaningless data cause := by
  intro hnone
  cases h with
  | tiny hkind =>
    cases hnone with
    | kind hkind' => omega
    | short hkind' => omega
  | fat hkind hlength hheader =>
    cases hnone with
    | kind hkind' => omega
    | short _ _ hshort => omega

/-- The code that is announced is not longer than four bytes can say. -/
theorem Announces.code_lt {data : List Byte} {header code : Nat} (h : Announces data header code) :
    code < 0x100000000 := by
  cases h with
  | @tiny first rest hkind =>
    have hfirst := first.isLt
    omega
  | @fat first second rest hkind hlength hheader =>
    have hcount : (((first :: second :: rest).drop 4).take 4).length = 4 := by
      rw [List.length_take, List.length_drop]
      omega
    have hlt := LittleEndian.value_lt (((first :: second :: rest).drop 4).take 4)
    rwa [hcount] at hlt

/-- The answers that parsing may give, and when. -/
inductive Outcome (data : List Byte) : Except Fault Body → Prop
  | accepted {b : Body} (announced : Announces data b.headerSize b.codeSize)
      (fits : b.size ≤ data.length) (zeros : b.initLocals = true ↔ AsksForZeros data) :
      Outcome data (.ok b)
  | refused {cause : Malformation} (meaningless : Meaningless data cause) :
      Outcome data (.error (.malformed cause))
  | cut (short : ∀ header code, Announces data header code → data.length < header + code)
      (meaning : ∀ cause, ¬ Meaningless data cause) : Outcome data (.error .outOfBounds)

theorem outcome_tiny {first : Byte} (hkind : first.toNat % 4 = 2) (rest : List Byte) :
    Outcome (first :: rest) (parse (first :: rest)) := by
  have hannounced : Announces (first :: rest) 1 (first.toNat / 4) := .tiny hkind
  rw [parse_tiny hkind]
  split
  · refine .cut (fun header code h => ?_) (fun cause => hannounced.not_meaningless)
    cases h with
    | tiny _ => omega
    | fat hkind' => omega
  · rename_i hfits
    refine .accepted hannounced (Nat.le_of_not_lt hfits) ⟨nofun, ?_⟩
    rintro ⟨_, _, ⟨⟩, hkind', -⟩
    omega

theorem outcome_fat {first : Byte} (hkind : first.toNat % 4 = 3) (second : Byte) (rest : List Byte) :
    Outcome (first :: second :: rest) (parse (first :: second :: rest)) := by
  rw [parse_fat hkind]
  dsimp only
  split
  · rename_i hshort
    refine .cut (fun header code h => ?_) (fun cause h => ?_)
    · cases h with
      | tiny hkind' => omega
      | fat _ hlength _ => omega
    · cases h with
      | kind hkind' => omega
      | short _ hlength _ => omega
  · rename_i hlength
    split
    · rename_i hheader
      exact .refused (.short hkind (Nat.le_of_not_lt hlength) hheader)
    · rename_i hheader
      have hannounced : Announces (first :: second :: rest) (4 * (second.toNat / 16))
          (field (first :: second :: rest) 4 4) :=
        .fat hkind (Nat.le_of_not_lt hlength) (Nat.le_of_not_lt hheader)
      split
      · refine .cut (fun header code h => ?_) (fun cause => hannounced.not_meaningless)
        cases h with
        | tiny hkind' => omega
        | fat _ _ _ => omega
      · rename_i hfits
        refine .accepted hannounced (Nat.le_of_not_lt hfits) ⟨fun hbit => ⟨_, _, rfl, hkind, hbit⟩, ?_⟩
        rintro ⟨_, _, ⟨⟩, -, hbit⟩
        exact hbit

/-- Every answer of parsing is one of the three. -/
theorem outcome_parse (data : List Byte) : Outcome data (parse data) := by
  cases data with
  | nil => exact .refused .empty
  | cons first rest =>
    have hkinds : first.toNat % 4 < 2 ∨ first.toNat % 4 = 2 ∨ first.toNat % 4 = 3 := by omega
    rcases hkinds with hkind | hkind | hkind
    · have htiny : ¬ first.toNat % 4 = 2 := by omega
      have hfat : ¬ first.toNat % 4 = 3 := by omega
      rw [parse, if_neg htiny, if_neg hfat]
      exact .refused (.kind hkind)
    · exact outcome_tiny hkind rest
    · cases rest with
      | nil =>
        rw [parse_lone hkind]
        refine .cut (fun header code h => ?_) (fun cause h => ?_)
        · cases h
          omega
        · cases h
          omega
      | cons second rest => exact outcome_fat hkind second rest

/-- The data holds the header and the code that it announces. -/
def Holds (data : List Byte) : Prop :=
  ∃ header code, Announces data header code ∧ header + code ≤ data.length

theorem Outcome.holds_iff {data : List Byte} {answer : Except Fault Body} (h : Outcome data answer) :
    Holds data ↔ ∃ b, answer = .ok b := by
  constructor
  · rintro ⟨header, code, hannounced, hfits⟩
    cases h with
    | accepted => exact ⟨_, rfl⟩
    | refused hnone => exact absurd hnone hannounced.not_meaningless
    | cut hshort =>
      have hlt := hshort header code hannounced
      omega
  · rintro ⟨b, rfl⟩
    obtain ⟨hannounced, hfits, -⟩ := h
    exact ⟨_, _, hannounced, Nat.add_comm b.codeSize b.headerSize ▸ hfits⟩

theorem Outcome.meaningless_iff {data : List Byte} {answer : Except Fault Body}
    (h : Outcome data answer) {cause : Malformation} :
    Meaningless data cause ↔ answer = .error (.malformed cause) := by
  constructor
  · intro hnone
    cases h with
    | accepted hannounced => exact absurd hnone hannounced.not_meaningless
    | @refused cause' hnone' =>
      have hsame : cause = cause' := by
        cases hnone <;> cases hnone' <;> first | rfl | omega
      rw [hsame]
    | cut _ hmeaning => exact absurd hnone (hmeaning cause)
  · rintro rfl
    obtain ⟨⟩ | hnone := h
    exact hnone

theorem Outcome.cut_iff {data : List Byte} {answer : Except Fault Body} (h : Outcome data answer) :
    (¬ Holds data ∧ ∀ cause, ¬ Meaningless data cause) ↔ answer = .error .outOfBounds := by
  constructor
  · rintro ⟨hnot, hmeaning⟩
    cases h with
    | accepted hannounced hfits => exact absurd ⟨_, _, hannounced, by rwa [Nat.add_comm]⟩ hnot
    | refused hnone => exact absurd hnone (hmeaning _)
    | cut => rfl
  · rintro rfl
    refine ⟨fun hholds => ?_, fun cause hnone => ?_⟩
    · obtain ⟨b, hb⟩ := h.holds_iff.mp hholds
      cases hb
    · have hsame := h.meaningless_iff.mp hnone
      cases hsame

/-- What is accepted is read in the same way in front of other data. -/
theorem parse_append {data : List Byte} {b : Body} (h : parse data = .ok b) (more : List Byte) :
    parse (data ++ more) = .ok b := by
  have houtcome := outcome_parse data
  rw [h] at houtcome
  obtain ⟨hannounced, hfits, -⟩ := houtcome
  have hlonger : data.length ≤ (data ++ more).length := by simp
  generalize b.headerSize = header, b.codeSize = code at hannounced
  cases hannounced with
  | tiny hkind =>
    rw [parse_tiny hkind] at h
    rw [List.cons_append, parse_tiny hkind, ← List.cons_append]
    split at h
    · cases h
    · rwa [if_neg (by omega)]
  | @fat first second rest hkind hlength hheader =>
    have hfield : ∀ start count, start + count ≤ 12 →
        field (first :: second :: rest ++ more) start count =
          field (first :: second :: rest) start count :=
      fun start count hwithin => field_append (Nat.le_trans hwithin hlength) more
    rw [parse_fat hkind] at h
    rw [List.cons_append, List.cons_append, parse_fat hkind, ← List.cons_append, ← List.cons_append]
    dsimp only at h ⊢
    rw [hfield 4 4 (by decide), hfield 8 4 (by decide), hfield 2 2 (by decide)]
    rw [if_neg (Nat.not_lt.mpr hlength), if_neg (Nat.not_lt.mpr hheader)] at h
    rw [if_neg (by omega), if_neg (Nat.not_lt.mpr hheader)]
    split at h
    · cases h
    · rwa [if_neg (by omega)]

/-- The code of a body lies behind its header, whatever follows it. -/
theorem code_eq {data : List Byte} {b : Body} (h : b.size ≤ data.length) :
    ∃ header code rest, data = header ++ code ++ rest ∧ header.length = b.headerSize ∧
      code.length = b.codeSize ∧ b.code data = .ok code ∧ ∀ more, b.code (data ++ more) = .ok code := by
  have hsize : b.size = b.codeSize + b.headerSize := rfl
  have hcode : b.codeSize ≤ (data.drop b.headerSize).length := by
    rw [List.length_drop]
    omega
  refine ⟨data.take b.headerSize, (data.drop b.headerSize).take b.codeSize,
    (data.drop b.headerSize).drop b.codeSize, ?_, List.length_take_of_le (by omega),
    List.length_take_of_le hcode, if_pos h, fun more => ?_⟩
  · rw [List.append_assoc, List.take_append_drop, List.take_append_drop]
  · have hlonger : b.size ≤ (data ++ more).length := by
      rw [List.length_append]
      omega
    rw [code, if_pos hlonger, List.drop_append_of_le_length (by omega),
      List.take_append_of_le_length hcode]

end Body

/-- A method of a body that is accepted has the instructions of its code. -/
theorem Method.ofBody_eq {data code : List Byte} {b : Body} (hparse : Body.parse data = .ok b)
    (hcode : b.code data = .ok code) (token : Token) (name : String)
    (arguments locals : List Declaration) :
    ofBody token name data arguments locals =
      (decode 0 code).map fun is => ofInstructions token name is arguments locals b.initLocals := by
  unfold ofBody
  simp only [hparse, hcode, bind, Except.bind]
  cases decode 0 code <;> rfl

/-- A method that comes out of a body is decoded: its addresses count from
zero, and there are far more than the code can need. -/
theorem Method.isDecoded_ofBody {token : Token} {name : String} {data : List Byte}
    {arguments locals : List Declaration} {m : Method}
    (h : ofBody token name data arguments locals = .ok m) : m.IsDecoded := by
  have houtcome := Body.outcome_parse data
  cases hparse : Body.parse data with
  | error fault =>
    rw [ofBody, hparse] at h
    cases h
  | ok b =>
    rw [hparse] at houtcome
    obtain ⟨hannounced, hfits, -⟩ := houtcome
    obtain ⟨header, code, rest, -, -, hlength, hcode, -⟩ := Body.code_eq hfits
    rw [ofBody_eq hparse hcode] at h
    cases hdecode : decode 0 code with
    | error fault =>
      rw [hdecode] at h
      cases h
    | ok is =>
      rw [hdecode] at h
      cases h
      have hlt := hannounced.code_lt
      have hzero : (0 : BitVec 64).toNat = 0 := rfl
      exact ⟨0, code, by omega, hdecode⟩

/-- **Headers are accepted exactly, and delimit the code.**  Data is accepted
exactly if it holds the header and the code that it announces; it is malformed
exactly if it begins with no header; otherwise it ends too early.  Data that is
accepted falls into the header, the code and a rest.  More data behind it
changes neither the header nor the code.  And a method comes out of it exactly
if the code decodes: it has the decoded instructions, and zeroed locals if a
fat header asks for them. -/
theorem Body.parse_delimits (data : List Byte) :
    ((∃ b, parse data = .ok b) ↔ Holds data) ∧
    (∀ cause, parse data = .error (.malformed cause) ↔ Meaningless data cause) ∧
    (parse data = .error .outOfBounds ↔ ¬ Holds data ∧ ∀ cause, ¬ Meaningless data cause) ∧
    ∀ b, parse data = .ok b →
      ∃ header code rest, data = header ++ code ++ rest ∧
        header.length = b.headerSize ∧ code.length = b.codeSize ∧
        Announces data b.headerSize b.codeSize ∧ (b.initLocals = true ↔ AsksForZeros data) ∧
        b.code data = .ok code ∧
        (∀ more, parse (data ++ more) = .ok b ∧ b.code (data ++ more) = .ok code) ∧
        ∀ token name arguments locals m,
          Method.ofBody token name data arguments locals = .ok m ↔
            ∃ is, decode 0 code = .ok is ∧
              m = .ofInstructions token name is arguments locals b.initLocals := by
  have houtcome := outcome_parse data
  refine ⟨houtcome.holds_iff.symm, fun cause => houtcome.meaningless_iff.symm,
    houtcome.cut_iff.symm, fun b hb => ?_⟩
  have haccepted := houtcome
  rw [hb] at haccepted
  obtain ⟨hannounced, hfits, hzeros⟩ := haccepted
  obtain ⟨header, code, rest, hdata, hheader, hlength, hcode, hmore⟩ := code_eq hfits
  refine ⟨header, code, rest, hdata, hheader, hlength, hannounced, hzeros, hcode,
    fun more => ⟨parse_append hb more, hmore more⟩, fun token name arguments locals m => ?_⟩
  rw [Method.ofBody_eq hb hcode]
  cases decode 0 code with
  | error fault => exact ⟨nofun, fun ⟨_, h, _⟩ => nomatch h⟩
  | ok is =>
    constructor
    · rintro ⟨⟩
      exact ⟨is, rfl, rfl⟩
    · rintro ⟨_, ⟨⟩, rfl⟩
      rfl

/-- A fat header that asks for zeroed locals, in front of a constant and a return. -/
def fatConstant : List Byte :=
  [0x13, 0x30, 0x05, 0x00, 0x02, 0x00, 0x00, 0x00, 0x59, 0x00, 0x00, 0x11, 0x17, 0x2A]

/-- More data behind the return makes no difference to header and code. -/
theorem parse_delimits_fatConstant :
    ∃ b is, Body.parse fatConstant = .ok b ∧ b.initLocals = true ∧
      Body.parse (fatConstant ++ [0xFF]) = .ok b ∧ b.code (fatConstant ++ [0xFF]) = .ok [0x17, 0x2A] ∧
      decode 0 [0x17, 0x2A] = .ok is ∧
      Method.ofBody ⟨0⟩ "M" fatConstant [] [] = .ok (.ofInstructions ⟨0⟩ "M" is [] [] true) := by
  obtain ⟨is, hdecode, -⟩ := exists_of_decodesTo [0x17, 0x2A] (fun _ => true) (by decide +kernel)
  obtain ⟨-, -, -, hbody⟩ := Body.parse_delimits fatConstant
  obtain ⟨_, code, _, -, -, -, -, -, hcode, hmore, hmethod⟩ := hbody _ rfl
  have hreturn : code = [0x17, 0x2A] := (Except.ok.inj hcode).symm
  subst hreturn
  exact ⟨_, is, rfl, rfl, (hmore [0xFF]).1, (hmore [0xFF]).2, hdecode,
    (hmethod ⟨0⟩ "M" [] [] _).mpr ⟨is, hdecode, rfl⟩⟩

end KeyLoop
