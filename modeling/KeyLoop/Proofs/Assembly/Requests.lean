/-
# What requests leave in an assembly

A request that succeeds either defines a label or writes one line: an
instruction with its operand, or a branch whose displacement waits for the
position of its label.

    emit, and the shortest forms     a statement of the row with that name
    emitBranch                       a labelled row, and as many bytes as its
                                     displacement takes
    define                           nothing but the label, at the size so far

`Lays rs start lines labels` says that requests `rs`, made where `start`
bytes are written already, write `lines` and define `labels`.  A run of
requests that all succeed lays its lines behind what was there before
(`lays_of_run`).
-/
import KeyLoop.Assembly.Basic
import KeyLoop.Proofs.Instruction.Encoding

namespace KeyLoop

/-- A request to an assembly. -/
inductive Request where
  | emit (mnemonic : String) (operand : Option Operand)
  | branch (mnemonic label : String)
  | loadLocal (index : BitVec 16)
  | storeLocal (index : BitVec 16)
  | loadArgument (index : BitVec 16)
  | int32 (constant : BitVec 32)
  | label (name : String)
deriving DecidableEq, Repr

/-- Make the request. -/
def Request.run : Request → Assembler Unit
  | emit mnemonic operand => Assembly.emit mnemonic operand
  | branch mnemonic name => Assembly.emitBranch mnemonic name
  | loadLocal index => Assembly.emitSlot "ldloc" index
  | storeLocal index => Assembly.emitSlot "stloc" index
  | loadArgument index => Assembly.emitSlot "ldarg" index
  | int32 constant => Assembly.emitInt32 constant
  | label name => Assembly.define name

/-- The request writes an instruction. -/
def Request.emits : Request → Bool
  | label _ => false
  | _ => true

/-! ## Operands that are written -/

/-- The operand that is read again for one that was written: a slot index
reads as the unsigned number that was written for it. -/
def Operand.ReadsAs : Option Operand → Operand → Prop
  | Option.none, shown => shown = .none
  | some (.slot _ index), shown =>
      shown = .immediate ⟨.uint16, index⟩ ∨
        index.toNat < 0x100 ∧ shown = .immediate ⟨.uint8, index.truncate 8⟩
  | some o, shown => shown = o

namespace Assembly

theorem operandBytes_ok {t : OperandType} {operand : Option Operand} {bs : List Byte}
    (h : operandBytes t operand = .ok bs) :
    ∃ o : Operand, o.Fits t ∧ bs = o.bytes ∧ Operand.ReadsAs operand o := by
  unfold operandBytes at h
  split at h
  · cases h
    exact ⟨.none, trivial, rfl, rfl⟩
  · cases h
  · rename_i token
    cases h
    exact ⟨.token token, trivial, rfl, rfl⟩
  · rename_i displacements
    split at h
    · rename_i hcount
      cases h
      exact ⟨.switch displacements, hcount, rfl, rfl⟩
    · cases h
  · rename_i t kind index
    split at h
    · rename_i hroom
      cases h
      rcases hroom with ⟨rfl, hsmall⟩ | rfl
      · have hlow : (index.truncate 8).toNat = index.toNat := by
          rw [BitVec.truncate_eq_setWidth, BitVec.toNat_setWidth]
          exact Nat.mod_eq_of_lt hsmall
        have hbytes := Operand.bytes_immediate ⟨.uint8, index.truncate 8⟩
        exact ⟨.immediate ⟨.uint8, index.truncate 8⟩, rfl,
          (congrArg (LittleEndian.ofNat 1) hlow.symm).trans hbytes.symm, .inr ⟨hsmall, rfl⟩⟩
      · exact ⟨.immediate ⟨.uint16, index⟩, rfl,
          (Operand.bytes_immediate ⟨.uint16, index⟩).symm, .inl rfl⟩
    · cases h
  · rename_i t i
    split at h
    · rename_i htype
      cases h
      exact ⟨.immediate i, htype, rfl, rfl⟩
    · cases h
  · cases h

/-! ## The shortest forms -/

/-- The name and the operand of the shortest form of a slot access. -/
def slotForm (stem : String) (index : BitVec 16) : String × Option Operand :=
  if index.toNat < 4 then (stem ++ "." ++ toString index.toNat, none)
  else if index.toNat < 0x100 then (stem ++ ".s", some (uint8 index.toNat))
  else (stem, some (uint16 index))

theorem emitSlot_eq (stem : String) (index : BitVec 16) :
    emitSlot stem index = emit (slotForm stem index).1 (slotForm stem index).2 := by
  unfold emitSlot emitAddressed slotForm
  split
  · rfl
  · split <;> rfl

/-- The name and the operand of the shortest form of a 32-bit constant. -/
def int32Form (constant : BitVec 32) : String × Option Operand :=
  if constant = -1 then ("ldc.i4.m1", none)
  else if constant.toNat ≤ 8 then ("ldc.i4." ++ toString constant.toNat, none)
  else if -0x80 ≤ constant.toInt ∧ constant.toInt < 0x80 then
    ("ldc.i4.s", some (.immediate ⟨.int8, constant.truncate 8⟩))
  else ("ldc.i4", some (.immediate ⟨.int32, constant⟩))

theorem emitInt32_eq (constant : BitVec 32) :
    emitInt32 constant = emit (int32Form constant).1 (int32Form constant).2 := by
  unfold emitInt32 int32Form
  split
  · rfl
  · split
    · rfl
    · split <;> rfl

/-! ## Sizes -/

/-- The size of pieces in bytes. -/
def piecesSize (pieces : List Piece) : Nat := pieces.foldr (fun p n => p.size + n) 0

theorem size_eq (a : Assembly) : a.size = piecesSize a.pieces.toList := rfl

theorem piecesSize_append (ps qs : List Piece) : piecesSize (ps ++ qs) = piecesSize ps + piecesSize qs := by
  induction ps with
  | nil => simp [piecesSize]
  | cons p ps ih =>
    simp only [piecesSize, List.cons_append, List.foldr_cons] at ih ⊢
    omega

end Assembly

/-- A line of code: a statement, or a branch to a label. -/
inductive Line where
  | plain (statement : Statement)
  | branch (row : Row) (reach : Reach) (label : String) (defined : row ∈ Row.all)
      (labelled : row.flow.hasLabel = true) (reaches : Assembly.reach? row.operandType = some reach)

namespace Line

/-- The pieces that a line adds to an assembly. -/
def pieces : Line → List Piece
  | plain s => [.final s.row.opcode.bytes, .final s.operand.bytes]
  | branch row reach label .. => [.final row.opcode.bytes, .displacement reach label]

/-- How many bytes a line takes. -/
def size (l : Line) : Nat := Assembly.piecesSize l.pieces

end Line

namespace Assembly

theorem emit_ok {mnemonic : String} {operand : Option Operand} {a a' : Assembly}
    (h : emit mnemonic operand a = .ok () a') :
    ∃ s : Statement, Row.ofMnemonic? mnemonic = some s.row ∧
      Operand.ReadsAs operand s.operand ∧
      a'.pieces.toList = a.pieces.toList ++ (Line.plain s).pieces ∧ a'.labels = a.labels := by
  unfold emit row at h
  cases hrow : Row.ofMnemonic? mnemonic with
  | none =>
    rw [hrow] at h
    cases h
  | some row =>
    obtain ⟨hmem, -⟩ := Row.mem_of_ofMnemonic? hrow
    simp only [hrow, pure_bind] at h
    by_cases hlabel : row.flow.hasLabel = true
    · rw [if_pos hlabel] at h
      cases h
    · rw [if_neg hlabel] at h
      cases hbytes : operandBytes row.operandType operand with
      | error e =>
        rw [hbytes] at h
        cases h
      | ok bs =>
        rw [hbytes] at h
        obtain ⟨o, hfits, rfl, hreads⟩ := operandBytes_ok hbytes
        cases h
        refine ⟨⟨row, o, hmem, hfits⟩, rfl, hreads, ?_, rfl⟩
        simp [Line.pieces]

theorem emitBranch_ok {mnemonic label : String} {a a' : Assembly}
    (h : emitBranch mnemonic label a = .ok () a') :
    ∃ row reach defined labelled reaches, Row.ofMnemonic? mnemonic = some row ∧
      a'.pieces.toList =
        a.pieces.toList ++ (Line.branch row reach label defined labelled reaches).pieces ∧
      a'.labels = a.labels := by
  unfold emitBranch row at h
  cases hrow : Row.ofMnemonic? mnemonic with
  | none =>
    rw [hrow] at h
    cases h
  | some row =>
    obtain ⟨hmem, -⟩ := Row.mem_of_ofMnemonic? hrow
    simp only [hrow, pure_bind] at h
    cases hlabel : row.flow.hasLabel with
    | false =>
      rw [hlabel] at h
      cases h
    | true =>
      cases hreach : reach? row.operandType with
      | none =>
        rw [hlabel, hreach] at h
        cases h
      | some reach =>
        rw [hlabel, hreach] at h
        cases h
        exact ⟨row, reach, hmem, hlabel, hreach, rfl, by simp [Line.pieces], rfl⟩

theorem define_eq (label : String) (a : Assembly) :
    define label a =
      if (position? a.labels label).isSome then .error (.duplicateLabel label) a
      else if 0x100000000 ≤ a.size then .error (.malformed .codeTooLong) a
      else .ok () { a with labels := a.labels ++ [(label, a.size)] } := by
  have hget : ∀ next : Assembly → Assembler Unit, (get >>= next) a = next a a := fun _ => rfl
  unfold define
  rw [hget]
  by_cases hdefined : (position? a.labels label).isSome = true
  · rw [if_pos hdefined, if_pos hdefined]
    rfl
  · rw [if_neg hdefined, if_neg hdefined]
    by_cases hlong : 0x100000000 ≤ a.size
    · rw [if_pos hlong, if_pos hlong]
      rfl
    · rw [if_neg hlong, if_neg hlong]
      rfl

theorem define_ok {label : String} {a a' : Assembly} (h : define label a = .ok () a') :
    a'.pieces = a.pieces ∧ a'.labels = a.labels ++ [(label, a.size)] := by
  rw [define_eq] at h
  by_cases hdefined : (position? a.labels label).isSome = true
  · rw [if_pos hdefined] at h
    cases h
  · rw [if_neg hdefined] at h
    by_cases hlong : 0x100000000 ≤ a.size
    · rw [if_pos hlong] at h
      cases h
    · rw [if_neg hlong] at h
      cases h
      exact ⟨rfl, rfl⟩

end Assembly

namespace Request

/-- The name and the operand that a request for a statement comes down to. -/
def emission? : Request → Option (String × Option Operand)
  | emit mnemonic operand => some (mnemonic, operand)
  | loadLocal index => some (Assembly.slotForm "ldloc" index)
  | storeLocal index => some (Assembly.slotForm "stloc" index)
  | loadArgument index => some (Assembly.slotForm "ldarg" index)
  | int32 constant => some (Assembly.int32Form constant)
  | branch _ _ | label _ => none

theorem run_of_emission? {r : Request} {form : String × Option Operand}
    (h : r.emission? = some form) : r.run = Assembly.emit form.1 form.2 := by
  cases r with
  | emit mnemonic operand =>
    cases h
    rfl
  | loadLocal index =>
    cases h
    exact Assembly.emitSlot_eq "ldloc" index
  | storeLocal index =>
    cases h
    exact Assembly.emitSlot_eq "stloc" index
  | loadArgument index =>
    cases h
    exact Assembly.emitSlot_eq "ldarg" index
  | int32 constant =>
    cases h
    exact Assembly.emitInt32_eq constant
  | branch mnemonic name => cases h
  | label name => cases h

/-- The request is for this line. -/
def Asks (r : Request) : Line → Prop
  | .plain s =>
      ∃ form, r.emission? = some form ∧ Row.ofMnemonic? form.1 = some s.row ∧
        Operand.ReadsAs form.2 s.operand
  | .branch row _ name .. => ∃ mnemonic, r = branch mnemonic name ∧ Row.ofMnemonic? mnemonic = some row

/-- A request that succeeds defines a label at the end of the code, or writes a line there. -/
theorem run_ok {r : Request} {a a' : Assembly} (h : r.run a = .ok () a') :
    (∃ name, r = label name ∧ a'.pieces = a.pieces ∧ a'.labels = a.labels ++ [(name, a.size)]) ∨
      ∃ l, r.Asks l ∧ a'.pieces.toList = a.pieces.toList ++ l.pieces ∧ a'.labels = a.labels := by
  have hplain : ∀ form, r.emission? = some form →
      ∃ l, r.Asks l ∧ a'.pieces.toList = a.pieces.toList ++ l.pieces ∧ a'.labels = a.labels := by
    intro form hform
    rw [run_of_emission? hform] at h
    obtain ⟨s, hrow, hreads, hpieces, hlabels⟩ := Assembly.emit_ok h
    exact ⟨.plain s, ⟨form, hform, hrow, hreads⟩, hpieces, hlabels⟩
  cases r with
  | label name =>
    obtain ⟨hpieces, hlabels⟩ := Assembly.define_ok h
    exact .inl ⟨name, rfl, hpieces, hlabels⟩
  | branch mnemonic name =>
    obtain ⟨row, reach, defined, labelled, reaches, hrow, hpieces, hlabels⟩ :=
      Assembly.emitBranch_ok h
    exact .inr ⟨.branch row reach name defined labelled reaches, ⟨mnemonic, rfl, hrow⟩, hpieces,
      hlabels⟩
  | emit mnemonic operand => exact .inr (hplain _ rfl)
  | loadLocal index => exact .inr (hplain _ rfl)
  | storeLocal index => exact .inr (hplain _ rfl)
  | loadArgument index => exact .inr (hplain _ rfl)
  | int32 constant => exact .inr (hplain _ rfl)

end Request

/-! ## Runs of requests -/

/-- Requests made where `start` bytes are written write these lines and define these labels. -/
inductive Lays : List Request → Nat → List Line → List (String × Nat) → Prop
  | nil (start : Nat) : Lays [] start [] []
  | line {r : Request} {rs : List Request} {start : Nat} {l : Line} {lines : List Line}
      {labels : List (String × Nat)} : r.Asks l → Lays rs (start + l.size) lines labels →
      Lays (r :: rs) start (l :: lines) labels
  | label {name : String} {rs : List Request} {start : Nat} {lines : List Line}
      {labels : List (String × Nat)} : Lays rs start lines labels →
      Lays (.label name :: rs) start lines ((name, start) :: labels)

/-- A branch that has been written: how far it reaches, the label it goes to,
and the position of the byte behind it. -/
structure Branch where
  reach : Reach
  label : String
  ending : Nat
deriving DecidableEq, Repr

/-- The branches among lines of which the first starts at `start`. -/
def Line.branches : (start : Nat) → List Line → List Branch
  | _, [] => []
  | start, .plain s :: lines => branches (start + (plain s).size) lines
  | start, .branch row reach label defined labelled reaches :: lines =>
      let ending := start + (branch row reach label defined labelled reaches).size
      ⟨reach, label, ending⟩ :: branches ending lines

namespace Request

/-- The reach and the label of a branch that is asked for. -/
def branch? : Request → Option (Reach × String)
  | branch mnemonic name => do
      let row ← Row.ofMnemonic? mnemonic
      return (← Assembly.reach? row.operandType, name)
  | _ => none

/-- The branches that requests write, one after the other, to an assembly. -/
def branches : List Request → Assembly → List Branch
  | [], _ => []
  | r :: rs, a =>
      match r.run a with
      | .ok _ a' =>
          (r.branch?.map fun (reach, name) => ⟨reach, name, a'.size⟩).toList ++ branches rs a'
      | .error _ _ => []

theorem branch?_of_asks {r : Request} {l : Line} (h : r.Asks l) :
    r.branch? =
      match l with
      | .plain _ => none
      | .branch _ reach name .. => some (reach, name) := by
  cases l with
  | plain s =>
    obtain ⟨form, hform, -, -⟩ := h
    cases r <;> first | rfl | cases hform
  | branch row reach label defined labelled reaches =>
    obtain ⟨mnemonic, rfl, hrow⟩ := h
    simp only [branch?, hrow, reaches, bind, Option.bind_some]
    rfl

/-- **What a run of requests leaves**: its lines behind the code that was
there, its labels where it came to define them, and its branches. -/
theorem lays_of_run {requests : List Request} {a a' : Assembly}
    (h : requests.forM run a = .ok () a') :
    ∃ lines labels, Lays requests a.size lines labels ∧
      a'.pieces.toList = a.pieces.toList ++ lines.flatMap Line.pieces ∧
      a'.labels = a.labels ++ labels ∧ branches requests a = Line.branches a.size lines := by
  induction requests generalizing a with
  | nil =>
    cases h
    exact ⟨[], [], .nil _, by simp, by simp, rfl⟩
  | cons r rs ih =>
    obtain ⟨⟨⟩, a₁, hr, hrs⟩ := bind_ok h
    obtain ⟨lines, labels, hlays, hpieces, hlabels, hbranches⟩ := ih hrs
    rcases run_ok hr with ⟨name, rfl, hp, hl⟩ | ⟨l, hasks, hp, hl⟩
    · have hsize : a₁.size = a.size := by rw [Assembly.size_eq, Assembly.size_eq, hp]
      rw [hsize] at hlays hbranches
      refine ⟨lines, (name, a.size) :: labels, .label hlays, by rw [hpieces, hp], ?_, ?_⟩
      · rw [hlabels, hl, List.append_assoc, List.singleton_append]
      · simp only [branches, hr, branch?, Option.map_none, Option.toList_none, List.nil_append]
        exact hbranches
    · have hsize : a₁.size = a.size + l.size := by
        rw [Assembly.size_eq, Assembly.size_eq, hp, Assembly.piecesSize_append, Line.size]
      rw [hsize] at hlays hbranches
      refine ⟨l :: lines, labels, .line hasks hlays, ?_, by rw [hlabels, hl], ?_⟩
      · rw [hpieces, hp, List.flatMap_cons, List.append_assoc]
      · simp only [branches, hr, branch?_of_asks hasks, hsize, hbranches]
        cases l <;> rfl

end Request

end KeyLoop
