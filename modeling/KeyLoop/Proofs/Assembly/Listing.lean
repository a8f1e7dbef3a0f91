/-
# Lines that write one statement each

Most lines of a listing write one statement and nothing else.

    a slot, a constant     in the shortest form there is for it
    a plain line           the row with that name, without an operand

A listing of such lines is always assembled, and its code is what the
statements are in code (`assemble_of_writes`).  Of the statements it is
enough to know what they are about, and not in which form: `c.Yields P` says
that line `c` writes one of which `P` holds wherever it stands.  A line for
slot `n` yields an access of slot `n` (`yields_slot`), one for constant `c`
has constant `c` (`yields_int32`), and the code of a listing decodes into
what its lines yield (`decode_of_yields`).
-/
import KeyLoop.Assembly.Call
import KeyLoop.Proofs.Assembly.Forms
import KeyLoop.Proofs.Assembly.Reassembly
import KeyLoop.Proofs.Machine.Meaning
import Mathlib.Data.List.Forall2

namespace KeyLoop

namespace Call

/-- The line writes this statement, and nothing else. -/
def Writes (c : Call) (s : Statement) : Prop :=
  ∀ a, ∃ a', c.run a = .ok () a' ∧ a'.pieces.toList = a.pieces.toList ++ (Line.plain s).pieces ∧
    a'.labels = a.labels

theorem forM_of_writes {calls : List Call} {ss : List Statement}
    (h : List.Forall₂ Writes calls ss) (a : Assembly) :
    ∃ a', calls.forM run a = .ok () a' ∧
      a'.pieces.toList = a.pieces.toList ++ (ss.map Line.plain).flatMap Line.pieces ∧
      a'.labels = a.labels := by
  induction h generalizing a with
  | nil => exact ⟨a, rfl, (List.append_nil _).symm, rfl⟩
  | @cons c s calls ss hwrites _ ih =>
    obtain ⟨b, hb, hpieces, hlabels⟩ := hwrites a
    obtain ⟨a', ha', hpieces', hlabels'⟩ := ih b
    refine ⟨a', ?_, ?_, hlabels'.trans hlabels⟩
    · show (c.run >>= fun _ => calls.forM run) a = .ok () a'
      simp only [bind, EStateM.bind, hb]
      exact ha'
    · rw [hpieces', hpieces, List.map_cons, List.flatMap_cons, List.append_assoc]

theorem statements?_plain (labels : List (String × Nat)) (start : Nat) (ss : List Statement) :
    Line.statements? labels start (ss.map Line.plain) = some ss := by
  induction ss generalizing start with
  | nil => rfl
  | cons s ss ih =>
    exact Line.statements?_cons_eq_some_iff.mpr ⟨s, ss, rfl, ih _, rfl⟩

/-- Lines that write one statement each are assembled to these statements. -/
theorem assemble_of_writes {calls : List Call} {ss : List Statement}
    (h : List.Forall₂ Writes calls ss) :
    ∃ p, assemble calls = .ok p ∧ p.code = ss.flatMap Statement.bytes := by
  obtain ⟨a, ha, hpieces, -⟩ := forM_of_writes h Assembly.empty
  refine ⟨⟨ss.flatMap Statement.bytes, a.maxDepth, a.labels⟩, ?_, rfl⟩
  rw [assemble, ha]
  exact (Assembly.finish_ok_iff hpieces).mpr ⟨ss, statements?_plain _ 0 ss, rfl⟩

/-- The line writes one statement, which does not branch, and of which `P`
holds wherever it stands. -/
def Yields (c : Call) (P : Instruction → Prop) : Prop :=
  ∃ s : Statement, c.Writes s ∧ s.row.flow = .sequential ∧
    ∀ address offset, P (s.instruction address offset)

theorem Yields.imp {c : Call} {P Q : Instruction → Prop} (h : c.Yields P)
    (hPQ : ∀ i, i.IsStatement → P i → Q i) : c.Yields Q := by
  obtain ⟨s, hwrites, hflow, hP⟩ := h
  exact ⟨s, hwrites, hflow, fun address offset =>
    hPQ _ ⟨s, address, offset, rfl⟩ (hP address offset)⟩

theorem exists_of_yields {calls : List Call} {Ps : List (Instruction → Prop)}
    (h : List.Forall₂ Yields calls Ps) :
    ∃ ss : List Statement, List.Forall₂ Writes calls ss ∧
      ∀ address offset, (∀ i ∈ Statement.listing address offset ss, i.isSequential = true) ∧
        List.Forall₂ (fun P i => P i) Ps (Statement.listing address offset ss) := by
  induction h with
  | nil => exact ⟨[], .nil, fun _ _ => ⟨fun _ hi => absurd hi List.not_mem_nil, .nil⟩⟩
  | @cons c P calls Ps hyields _ ih =>
    obtain ⟨s, hwrites, hflow, hP⟩ := hyields
    obtain ⟨ss, hrest, hall⟩ := ih
    refine ⟨s :: ss, .cons hwrites hrest, fun address offset => ?_⟩
    obtain ⟨hline, hPs⟩ := hall (address + BitVec.ofNat 64 s.size) (offset + s.size)
    exact ⟨List.forall_mem_cons.mpr ⟨beq_iff_eq.mpr hflow, hline⟩, .cons (hP address offset) hPs⟩

/-- **Listings of such lines** are assembled; the code decodes at any address
into a straight line of what the lines yield. -/
theorem decode_of_yields {calls : List Call} {Ps : List (Instruction → Prop)}
    (h : List.Forall₂ Yields calls Ps) :
    ∃ p, assemble calls = .ok p ∧ ∀ base, ∃ is, decode base p.code = .ok is ∧
      (∀ i ∈ is, i.isSequential = true) ∧ List.Forall₂ (fun P i => P i) Ps is := by
  obtain ⟨ss, hwrites, hall⟩ := exists_of_yields h
  obtain ⟨p, hp, hcode⟩ := assemble_of_writes hwrites
  refine ⟨p, hp, fun base => ⟨_, ?_, hall base 0⟩⟩
  rw [hcode]
  exact Statement.decode_bytes ss base

end Call

/-! ## Statements by name -/

/-- An operand that fits is read as it is given. -/
theorem Operand.readsAs_given? {o : Operand} {t : OperandType} (h : o.Fits t) :
    ReadsAs o.given? o := by
  cases o with
  | slot kind index => cases t <;> cases h
  | _ => rfl

/-- A statement that is asked for under this name and with this operand, in a
straight line. -/
structure Statement.HasForm (s : Statement) (form : String × Option Operand) : Prop where
  row : Row.ofMnemonic? form.1 = some s.row
  operand : s.operand.given? = form.2
  sequential : s.row.flow = .sequential

namespace Statement

theorem exists_hasForm {mnemonic : String} {action : Action} {t : OperandType}
    (h : Row.forms? mnemonic = some (action, t)) (hstraight : action.isStraight = true)
    {o : Operand} (ho : o.Fits t) :
    ∃ s : Statement, s.HasForm (mnemonic, o.given?) ∧ s.row.action = action := by
  obtain ⟨row, hrow, hforms⟩ := Option.map_eq_some_iff.mp h
  cases hforms
  have hmem := (Row.mem_of_ofMnemonic? hrow).1
  exact ⟨⟨row, o, hmem, ho⟩, ⟨hrow, rfl, Row.flow_of_isStraight hmem hstraight⟩, rfl⟩

variable {s : Statement} {form : String × Option Operand}

theorem HasForm.readsAs (h : s.HasForm form) : Operand.ReadsAs form.2 s.operand := by
  rw [← h.operand]
  exact Operand.readsAs_given? s.fits

/-- The line that asks for the form writes the statement. -/
theorem HasForm.writes (h : s.HasForm form) {c : Call} (hc : c.run = Assembly.emit form.1 form.2) :
    c.Writes s := by
  intro a
  rw [hc, ← h.operand, ← (Row.mem_of_ofMnemonic? h.row).2]
  exact Assembly.emit_statement s (by rw [h.sequential]; rfl) a

/-- What is known of all statements of a form. -/
theorem HasForm.yields (h : s.HasForm form) {c : Call} (hc : c.run = Assembly.emit form.1 form.2)
    {P : Instruction → Prop} (hP : ∀ address offset, P (s.instruction address offset)) :
    c.Yields P := ⟨s, h.writes hc, h.sequential, hP⟩

end Statement

namespace Call

open Assembly

/-! ## Slots -/

theorem exists_hasForm_slotForm {stem : String} {kind : SlotKind} {way : SlotAccess}
    (hforms : SlotForms stem kind way) (n : BitVec 16) :
    ∃ s : Statement, s.HasForm (slotForm stem n) := by
  unfold slotForm
  split
  · rename_i hown
    obtain ⟨s, hs, -⟩ := Statement.exists_hasForm (hforms.implied n.toNat hown) rfl
      (o := .none) trivial
    exact ⟨s, hs⟩
  · split
    · obtain ⟨s, hs, -⟩ := Statement.exists_hasForm hforms.short rfl (o := uint8 n.toNat) rfl
      exact ⟨s, hs⟩
    · obtain ⟨s, hs, -⟩ := Statement.exists_hasForm hforms.long rfl (o := uint16 n) rfl
      exact ⟨s, hs⟩

/-- A line for slot `n` yields an access of slot `n`. -/
theorem yields_slot {stem : String} {kind : SlotKind} {way : SlotAccess}
    (hforms : SlotForms stem kind way) {n : BitVec 16} {c : Call} (hc : c.run = emitSlot stem n) :
    c.Yields (·.IsAccess kind way n) := by
  obtain ⟨s, hs⟩ := exists_hasForm_slotForm hforms n
  refine hs.yields (hc.trans (emitSlot_eq stem n)) fun address offset => ?_
  exact (s.isAccess_iff address offset).mpr
    (slotIndex?_slotForm hforms hs.row hs.readsAs address offset)

theorem yields_loadLocal (n : BitVec 16) : (loadLocal n).Yields (·.IsAccess .localVar .load n) :=
  yields_slot loadLocal_forms rfl

theorem yields_storeLocal (n : BitVec 16) :
    (storeLocal n).Yields (·.IsAccess .localVar .store n) := yields_slot storeLocal_forms rfl

theorem yields_loadArgument (n : BitVec 16) :
    (loadArgument n).Yields (·.IsAccess .argument .load n) := yields_slot loadArgument_forms rfl

theorem yields_localAddress (n : BitVec 16) :
    (localAddress n).Yields (·.action = .slot .localVar .address .operand) := by
  have hshort : Row.forms? "ldloca.s" = some (.slot .localVar .address .operand, .scalar .uint8) := by
    decide +kernel
  have hlong : Row.forms? "ldloca" = some (.slot .localVar .address .operand, .scalar .uint16) := by
    decide +kernel
  by_cases hsmall : n.toNat < 0x100
  · obtain ⟨s, hs, haction⟩ := Statement.exists_hasForm hshort rfl (o := uint8 n.toNat) rfl
    exact hs.yields (c := localAddress n) (if_pos hsmall) fun address offset =>
      (s.action_instruction address offset).trans haction
  · obtain ⟨s, hs, haction⟩ := Statement.exists_hasForm hlong rfl (o := uint16 n) rfl
    exact hs.yields (c := localAddress n) (if_neg hsmall) fun address offset =>
      (s.action_instruction address offset).trans haction

/-! ## Constants -/

theorem exists_hasForm_int32Form (c : BitVec 32) : ∃ s : Statement, s.HasForm (int32Form c) := by
  have hshort : Row.forms? "ldc.i4.s" = some (.int32 .operand, .scalar .int8) := by decide +kernel
  have hlong : Row.forms? "ldc.i4" = some (.int32 .operand, .scalar .int32) := by decide +kernel
  unfold int32Form
  split
  · obtain ⟨s, hs, -⟩ := Statement.exists_hasForm minusOne_form rfl (o := .none) trivial
    exact ⟨s, hs⟩
  · split
    · rename_i hsmall
      obtain ⟨s, hs, -⟩ := Statement.exists_hasForm (small_forms c.toNat (by omega)) rfl
        (o := .none) trivial
      exact ⟨s, hs⟩
    · split
      · obtain ⟨s, hs, -⟩ := Statement.exists_hasForm hshort rfl
          (o := .immediate ⟨.int8, c.truncate 8⟩) rfl
        exact ⟨s, hs⟩
      · obtain ⟨s, hs, -⟩ := Statement.exists_hasForm hlong rfl (o := .immediate ⟨.int32, c⟩) rfl
        exact ⟨s, hs⟩

/-- A line for constant `c` yields a constant `c`. -/
theorem yields_int32 (c : BitVec 32) : (int32 c).Yields (·.int32Constant? = some c) := by
  obtain ⟨s, hs⟩ := exists_hasForm_int32Form c
  exact hs.yields (c := int32 c) (emitInt32_eq c) (int32Constant?_int32Form hs.row hs.readsAs)

theorem yields_int64 (c : BitVec 64) :
    (int64 c).Yields fun i => i.action = .int64 ∧ i.operand.int64? = some c := by
  have hform : Row.forms? "ldc.i8" = some (.int64, .scalar .int64) := by decide +kernel
  obtain ⟨s, hs, haction⟩ := Statement.exists_hasForm hform rfl (o := .immediate ⟨.int64, c⟩) rfl
  refine hs.yields rfl fun address offset =>
    ⟨(s.action_instruction address offset).trans haction, ?_⟩
  have hoperand : s.operand = .immediate ⟨.int64, c⟩ := hs.readsAs
  show s.operand.int64? = some c
  rw [hoperand]
  rfl

/-! ## Plain lines -/

/-- A plain line yields the action of its name. -/
theorem yields_plain {name : String} {action : Action}
    (h : Row.forms? name = some (action, .none)) (hstraight : action.isStraight = true) :
    (plain name).Yields (·.action = action) := by
  obtain ⟨s, hs, haction⟩ := Statement.exists_hasForm h hstraight (o := .none) trivial
  exact hs.yields rfl fun address offset => (s.action_instruction address offset).trans haction

/-- A plain line yields the opcode of its name. -/
theorem yields_opcode {name : String} {opcode : Opcode} (action : Action)
    (h : (Row.ofMnemonic? name).map (fun row => (row.opcode, row.action, row.operandType)) =
      some (opcode, action, .none)) (hstraight : action.isStraight = true) :
    (plain name).Yields (·.opcode = opcode) := by
  obtain ⟨row, hrow, hfields⟩ := Option.map_eq_some_iff.mp h
  simp only [Prod.mk.injEq] at hfields
  obtain ⟨rfl, rfl, htype⟩ := hfields
  have hforms : Row.forms? name = some (row.action, .none) := by
    rw [Row.forms?, hrow, Option.map_some, htype]
  obtain ⟨s, hs, -⟩ := Statement.exists_hasForm hforms hstraight (o := .none) trivial
  have hsame : s.row = row := Option.some.inj (hs.row.symm.trans hrow)
  exact hs.yields rfl fun _ _ => congrArg Row.opcode hsame

end Call

end KeyLoop
