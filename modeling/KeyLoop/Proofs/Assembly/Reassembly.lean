/-
# Code taken apart and put together again

The listing of decoded code says how to assemble the code again: a label in
front of every instruction and one behind the last, a branch to a label for
every instruction with a displacement, and for every other instruction its
name and its operand.

    an instruction    writes the line it was read from          (`exists_line`)
    a listing         writes its lines, and a label at each      (`run_reassembly`)
                      place between them
    the labels        give every displacement its old distance   (`distance_eq`)

So if every branch leads to an instruction or to the end of the code, all
requests succeed, and what they are finished to is the code that was decoded
(`finish_reassembly`).
-/
import KeyLoop.Proofs.Assembly.Resolution
import KeyLoop.Proofs.Instruction.Decoding

namespace KeyLoop

/-! ## Requests for a listing -/

/-- The operand as an assembly is given it. -/
def Operand.given? : Operand → Option Operand
  | none => Option.none
  | o => some o

namespace Request

/-- The request for an instruction, where `name` gives the label of every place. -/
def ofInstruction (name : Nat → String) (i : Instruction) : Request :=
  if i.flow.hasLabel then branch i.mnemonic (name (i.targets.headD 0).toNat)
  else emit i.mnemonic i.operand.given?

/-- The requests for a listing of code of the given size: every place gets
its label, and every instruction is asked for behind it. -/
def reassembly (name : Nat → String) (size : Nat) : List Instruction → List Request
  | [] => [label (name size)]
  | i :: is => label (name i.offset) :: ofInstruction name i :: reassembly name size is

/-- The places of a listing: in front of every instruction, and at the end. -/
def places (size : Nat) (is : List Instruction) : List Nat := is.map (·.offset) ++ [size]

end Request

namespace Assembly

/-! ## Requests that succeed -/

theorem define_new {a : Assembly} {label : String} (hnew : position? a.labels label = none)
    (hsize : a.size < 0x100000000) :
    define label a = .ok () { a with labels := a.labels ++ [(label, a.size)] } := by
  have hfree : ¬ (position? a.labels label).isSome = true := by rw [hnew]; decide
  have hroom : ¬ 0x100000000 ≤ a.size := by omega
  rw [define_eq, if_neg hfree, if_neg hroom]

theorem operandBytes_given? {o : Operand} {t : OperandType} (h : o.Fits t) :
    operandBytes t o.given? = .ok o.bytes := by
  cases o with
  | none =>
    cases t with
    | none => rfl
    | scalar s => cases h
    | token => cases h
    | switch => cases h
  | immediate i =>
    cases t with
    | scalar s => exact if_pos h
    | none => cases h
    | token => cases h
    | switch => cases h
  | target a => cases t <;> cases h
  | token token =>
    cases t with
    | token => rfl
    | none => cases h
    | scalar s => cases h
    | switch => cases h
  | slot kind index => cases t <;> cases h
  | switch displacements =>
    cases t with
    | switch => exact if_pos h
    | none => cases h
    | scalar s => cases h
    | token => cases h

theorem emit_statement (s : Statement) (h : s.row.flow.hasLabel = false) (a : Assembly) :
    ∃ a', emit s.row.mnemonic s.operand.given? a = .ok () a' ∧
      a'.pieces.toList = a.pieces.toList ++ (Line.plain s).pieces ∧ a'.labels = a.labels := by
  unfold emit row
  simp only [Row.ofMnemonic?_mnemonic s.defined, pure_bind, h, Bool.false_eq_true, if_false,
    operandBytes_given? s.fits]
  exact ⟨_, rfl, by simp [Line.pieces], rfl⟩

theorem emitBranch_row {row : Row} {reach : Reach} (hdefined : row ∈ Row.all)
    (hlabel : row.flow.hasLabel = true) (hreach : reach? row.operandType = some reach)
    (label : String) (a : Assembly) :
    ∃ a', emitBranch row.mnemonic label a = .ok () a' ∧
      a'.pieces.toList =
        a.pieces.toList ++ (Line.branch row reach label hdefined hlabel hreach).pieces ∧
      a'.labels = a.labels := by
  unfold emitBranch Assembly.row
  simp only [Row.ofMnemonic?_mnemonic hdefined, pure_bind, hlabel, Bool.not_true,
    Bool.false_eq_true, if_false, hreach]
  exact ⟨_, rfl, by simp [Line.pieces], rfl⟩

/-- A label stands where it was defined, if every place has a name of its own. -/
theorem position?_places {name : Nat → String} (hname : Function.Injective name)
    {places : List Nat} {k : Nat} :
    k ∈ places → position? (places.map fun k => (name k, k)) (name k) = some k := by
  induction places with
  | nil =>
    intro hk
    cases hk
  | cons first places ih =>
    intro hk
    unfold position? at ih ⊢
    by_cases hsame : first = k
    · rw [hsame, List.map_cons, List.find?_cons, beq_self_eq_true]
      rfl
    · have hdiffer : (name first == name k) = false := by
        simpa using fun h => hsame (hname h)
      rw [List.map_cons, List.find?_cons, hdiffer]
      exact ih ((List.mem_cons.mp hk).resolve_left (Ne.symm hsame))

end Assembly

/-! ## Displacements -/

/-- A statement with a label has a displacement, and the distance fits in it. -/
theorem Statement.exists_displacement (s : Statement) (h : s.row.flow.hasLabel = true) :
    ∃ reach distance, Assembly.reach? s.row.operandType = some reach ∧ reach.Holds distance ∧
      s.operand = .immediate (reach.immediate distance) := by
  obtain ⟨row, operand, defined, fits⟩ := s
  dsimp only at h ⊢
  rcases Row.operandType_of_hasLabel defined h with htype | htype
  · rw [htype] at fits ⊢
    cases operand with
    | immediate i =>
      obtain ⟨type, bits⟩ := i
      obtain rfl : type = .int8 := fits
      refine ⟨.short, bits.toInt, rfl, ⟨BitVec.le_toInt bits, BitVec.toInt_lt⟩, ?_⟩
      exact congrArg (fun b => Operand.immediate ⟨.int8, b⟩) BitVec.ofInt_toInt.symm
    | none => cases fits
    | target a => cases fits
    | token token => cases fits
    | slot kind index => cases fits
    | switch displacements => cases fits
  · rw [htype] at fits ⊢
    cases operand with
    | immediate i =>
      obtain ⟨type, bits⟩ := i
      obtain rfl : type = .int32 := fits
      refine ⟨.long, bits.toInt, rfl, ⟨BitVec.le_toInt bits, BitVec.toInt_lt⟩, ?_⟩
      exact congrArg (fun b => Operand.immediate ⟨.int32, b⟩) BitVec.ofInt_toInt.symm
    | none => cases fits
    | target a => cases fits
    | token token => cases fits
    | slot kind index => cases fits
    | switch displacements => cases fits

/-- From the end of a branch to the place it leads to, in code that is small
enough for addresses not to wrap around. -/
theorem distance_eq {reach : Reach} {distance : Int} {ending : Nat} {target : BitVec 64}
    (hholds : reach.Holds distance) (hending : ending < 0x80000000)
    (htarget : target = BitVec.ofNat 64 ending + BitVec.ofInt 64 distance)
    (hplace : target.toNat < 0x80000000) : distance = (target.toNat : Int) - ending := by
  have hbounds : -0x80000000 ≤ distance ∧ distance < 0x80000000 := by
    cases reach with
    | short =>
      obtain ⟨hlow, hhigh⟩ := hholds
      omega
    | long => exact hholds
  have hsum : target.toInt = ((ending : Int) + distance).bmod (2 ^ 64) := by
    rw [htarget, ← BitVec.ofInt_natCast, ← BitVec.ofInt_add, BitVec.toInt_ofInt]
  have hsmall : target.toInt = target.toNat := BitVec.toInt_eq_toNat_of_lt (by omega)
  rw [hsmall, Int.bmod_eq_of_le (by omega) (by omega)] at hsum
  omega

namespace Request

variable {name : Nat → String}

/-! ## Lines -/

/-- All places that the instruction branches to have their labels, and the
code is small. -/
def Labelled (name : Nat → String) (labels : List (String × Nat)) (i : Instruction) : Prop :=
  i.flow.hasLabel = true → ∀ t ∈ i.targets, t.toNat < 0x80000000 ∧
    Assembly.position? labels (name t.toNat) = some t.toNat

/-- An instruction writes a line of its size, and the line becomes the
statement that was read. -/
theorem exists_line (name : Nat → String) (s : Statement) (start : Nat)
    (hend : start + s.size < 0x80000000) :
    ∃ l : Line, l.size = s.size ∧
      (∀ a, ∃ a', (ofInstruction name (s.instruction (BitVec.ofNat 64 start) start)).run a =
          .ok () a' ∧ a'.pieces.toList = a.pieces.toList ++ l.pieces ∧ a'.labels = a.labels) ∧
      ∀ labels, Labelled name labels (s.instruction (BitVec.ofNat 64 start) start) →
        l.statement? labels start = some s := by
  cases hlabel : s.row.flow.hasLabel with
  | false =>
    have hstatement : (Line.plain s).statement? [] start = some s := rfl
    refine ⟨.plain s, (Line.size_of_statement? hstatement).symm, ?_, fun _ _ => rfl⟩
    intro a
    have hrequest : ofInstruction name (s.instruction (BitVec.ofNat 64 start) start) =
        emit s.row.mnemonic s.operand.given? := by
      unfold ofInstruction
      exact if_neg (by simp [Statement.instruction, hlabel])
    rw [hrequest]
    exact Assembly.emit_statement s hlabel a
  | true =>
    obtain ⟨reach, distance, hreach, hholds, hoperand⟩ := s.exists_displacement hlabel
    obtain ⟨row, operand, defined, fits⟩ := s
    dsimp only at hlabel hreach hoperand
    subst hoperand
    let s : Statement := ⟨row, .immediate (reach.immediate distance), defined, fits⟩
    let target := BitVec.ofNat 64 (start + s.size) + BitVec.ofInt 64 distance
    have htargets : (s.instruction (BitVec.ofNat 64 start) start).targets = [target] := by
      simp only [Statement.instruction, s, Decode.targets, hlabel, if_true]
      rw [Reach.toBits64_immediate hholds, ← BitVec.ofNat_add]
    have hrequest : ofInstruction name (s.instruction (BitVec.ofNat 64 start) start) =
        branch row.mnemonic (name target.toNat) := by
      unfold ofInstruction
      rw [htargets]
      exact if_pos hlabel
    have hsize : (Line.branch row reach (name target.toNat) defined hlabel hreach).size = s.size := by
      cases reach <;> rfl
    refine ⟨.branch row reach (name target.toNat) defined hlabel hreach, hsize, ?_, ?_⟩
    · intro a
      rw [hrequest]
      exact Assembly.emitBranch_row defined hlabel hreach _ a
    · intro labels hlabels
      obtain ⟨hplace, hposition⟩ := hlabels hlabel target (by rw [htargets]; exact List.mem_singleton_self _)
      have hdistance := distance_eq hholds hend rfl hplace
      rw [Line.statement?, Option.map_eq_some_iff]
      refine ⟨distance, Branch.distance?_eq_some_iff.mpr ⟨target.toNat, hposition, ?_, hholds⟩, rfl⟩
      rw [hsize]
      exact hdistance

/-! ## Listings -/

theorem forM_cons_ok {r : Request} {rs : List Request} {a b c : Assembly}
    (hr : r.run a = .ok () b) (hrs : rs.forM run b = .ok () c) : (r :: rs).forM run a = .ok () c := by
  show (r.run >>= fun _ => rs.forM run) a = .ok () c
  simp only [bind, EStateM.bind, hr]
  exact hrs

/-- The label of a place is new where all labels are those of places before it. -/
theorem define_place (hname : Function.Injective name) {a : Assembly} (hsize : a.size < 0x100000000)
    (hlabels : ∀ l ∈ a.labels, ∃ k < a.size, l.1 = name k) :
    (label (name a.size)).run a = .ok () { a with labels := a.labels ++ [(name a.size, a.size)] } := by
  refine Assembly.define_new ?_ hsize
  rw [Assembly.position?, Option.map_eq_none_iff, List.find?_eq_none]
  intro l hl
  obtain ⟨k, hk, hlk⟩ := hlabels l hl
  rw [hlk, beq_iff_eq]
  intro hsame
  have hplace := hname hsame
  omega

/-- Requests for a listing succeed, write lines, and define a label at every
place.  Where the labels of all targets are known, the lines become the
statements that were read. -/
theorem run_reassembly (hname : Function.Injective name) {ss : List Statement} {a : Assembly}
    (hend : a.size + (ss.flatMap Statement.bytes).length < 0x80000000)
    (hlabels : ∀ l ∈ a.labels, ∃ k < a.size, l.1 = name k) {is : List Instruction} {size : Nat}
    (his : is = Statement.listing (BitVec.ofNat 64 a.size) a.size ss)
    (hsize : size = a.size + (ss.flatMap Statement.bytes).length) :
    ∃ (lines : List Line) (a' : Assembly), (reassembly name size is).forM run a = .ok () a' ∧
      a'.pieces.toList = a.pieces.toList ++ lines.flatMap Line.pieces ∧
      a'.labels = a.labels ++ (places size is).map (fun k => (name k, k)) ∧
      ∀ labels, (∀ i ∈ is, Labelled name labels i) →
        Line.statements? labels a.size lines = some ss := by
  have hdefine := define_place hname (by omega) hlabels
  induction ss generalizing a is with
  | nil =>
    subst his
    obtain rfl : size = a.size := hsize
    exact ⟨[], _, forM_cons_ok hdefine rfl, (List.append_nil _).symm, rfl, fun _ _ => rfl⟩
  | cons s rest ih =>
    rw [List.flatMap_cons, List.length_append, s.length_bytes] at hend hsize
    have hpos := s.size_pos
    obtain ⟨l, hl, hrun, hstatement⟩ := exists_line name s a.size (by omega)
    obtain ⟨b, hb, hpieces, hb'⟩ := hrun { a with labels := a.labels ++ [(name a.size, a.size)] }
    have hbsize : b.size = a.size + s.size := by
      rw [Assembly.size_eq, hpieces, Assembly.piecesSize_append, ← hl]
      rfl
    have hblabels : ∀ l ∈ b.labels, ∃ k < b.size, l.1 = name k := by
      intro l hl
      rw [hb'] at hl
      rcases List.mem_append.mp hl with hl | hl
      · obtain ⟨k, hk, hlk⟩ := hlabels l hl
        exact ⟨k, by omega, hlk⟩
      · rw [List.mem_singleton.mp hl]
        exact ⟨a.size, by omega, rfl⟩
    obtain ⟨lines, c, hc, hcpieces, hclabels, hss⟩ := ih (by omega) hblabels rfl
      (by omega) (define_place hname (by omega) hblabels)
    rw [Statement.listing, ← BitVec.ofNat_add, ← hbsize] at his
    subst his
    refine ⟨l :: lines, c, forM_cons_ok hdefine (forM_cons_ok hb hc), ?_, ?_, ?_⟩
    · rw [hcpieces, hpieces, List.flatMap_cons, List.append_assoc]
    · rw [hclabels, hb', List.append_assoc]
      rfl
    · intro labels hlabelled
      obtain ⟨hfirst, hlater⟩ := List.forall_mem_cons.mp hlabelled
      refine Line.statements?_cons_eq_some_iff.mpr ⟨s, rest, hstatement labels hfirst, ?_, rfl⟩
      rw [hl, ← hbsize]
      exact hss labels hlater

theorem le_of_mem_places {code : List Byte} {is : List Instruction}
    (hdecode : decode 0 code = .ok is) {k : Nat} (hk : k ∈ places code.length is) :
    k ≤ code.length := by
  rcases List.mem_append.mp hk with hk | hk
  · obtain ⟨i, hi, rfl⟩ := List.mem_map.mp hk
    obtain ⟨-, -, hlt⟩ := of_mem_decode hdecode hi
    exact Nat.le_of_lt hlt
  · exact Nat.le_of_eq (List.mem_singleton.mp hk)

/-- **Decoded code assembles to itself.**  Every place of the code gets a
label of its own.  If every branch leads to a place, then all requests for
the listing succeed, and they are finished to the code that was decoded. -/
theorem finish_reassembly {code : List Byte} (hsmall : code.length < 0x80000000)
    {is : List Instruction} (hdecode : decode 0 code = .ok is)
    (htargets : ∀ i ∈ is, i.flow.hasLabel = true → ∀ t ∈ i.targets,
      t.toNat ∈ places code.length is)
    {name : Nat → String} (hname : Function.Injective name) :
    ∃ a p, (reassembly name code.length is).forM run .empty = .ok () a ∧ a.finish = .ok p ∧
      p.code = code := by
  obtain ⟨ss, hcode, his⟩ := decode_ok_iff.mp hdecode
  have hend : code.length = Assembly.empty.size + (ss.flatMap Statement.bytes).length := by
    rw [← hcode]
    exact (Nat.zero_add _).symm
  obtain ⟨lines, a, hrun, hpieces, hlabels, hss⟩ := run_reassembly hname (hend ▸ hsmall)
    (fun l hl => by cases hl) his hend
  have hlabelled : ∀ i ∈ is, Labelled name a.labels i := by
    intro i hi hlabel t ht
    have hplace := htargets i hi hlabel t ht
    have hle := le_of_mem_places hdecode hplace
    refine ⟨by omega, ?_⟩
    rw [hlabels]
    exact Assembly.position?_places hname hplace
  exact ⟨a, _, hrun, (Assembly.finish_ok_iff hpieces).mpr ⟨ss, hss a.labels hlabelled, rfl⟩,
    hcode.symm⟩

/-- A label of as many strokes as the place has bytes before it. -/
def strokes (place : Nat) : String := String.ofList (List.replicate place '|')

theorem strokes_injective : Function.Injective strokes := by
  intro m n h
  have hlength := congrArg (fun s : String => s.toList.length) h
  simpa [strokes] using hlength

/-- A branch back to the start, a jump table, and a leave to the end. -/
def outAndBack : List Byte := [0x06, 0x2D, 0xFD, 0x45, 1, 0, 0, 0, 0, 0, 0, 0, 0xDE, 0x00]

theorem finish_reassembly_outAndBack :
    ∃ is, outAndBack.length < 0x80000000 ∧ decode 0 outAndBack = .ok is ∧
      (∀ i ∈ is, i.flow.hasLabel = true → ∀ t ∈ i.targets,
        t.toNat ∈ places outAndBack.length is) ∧ Function.Injective strokes ∧
      ∃ a p, (reassembly strokes outAndBack.length is).forM run .empty = .ok () a ∧
        a.finish = .ok p ∧ p.code = outAndBack := by
  obtain ⟨is, hdecode, hcheck⟩ := exists_of_decodesTo outAndBack (fun is => is.all fun i =>
    !i.flow.hasLabel || i.targets.all fun t => t.toNat ∈ places outAndBack.length is) (by decide +kernel)
  have htargets : ∀ i ∈ is, i.flow.hasLabel = true → ∀ t ∈ i.targets,
      t.toNat ∈ places outAndBack.length is := by
    intro i hi hlabel t ht
    have hi := List.all_eq_true.mp hcheck i hi
    rw [hlabel, Bool.not_true, Bool.false_or, List.all_eq_true] at hi
    exact of_decide_eq_true (hi t ht)
  exact ⟨is, by decide, hdecode, htargets, strokes_injective,
    finish_reassembly (by decide) hdecode htargets strokes_injective⟩

end Request

end KeyLoop
