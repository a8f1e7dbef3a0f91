/-
# What a failed request leaves

Most of what can be wrong with a request is found before anything is written.
An operand is looked at too late: the opcode stands in the code by then, and
it stays there (`Request.Does`).

    what is wrong                                       what is left

    the name, a branch without a label, a label
    without a branch, a label that is defined twice     nothing
    an operand that is missing, not wanted, of another
    type or too wide, or that has too many targets      the opcode

So where requests are made in turn whether or not the ones before them fail,
the failed ones may be left out if none of them failed on an operand.
Otherwise opcodes without their operands stand between the lines, and the
labels behind them are defined that much later.  The depths, the names of the
labels and the waiting displacements are the same even then.
-/
import KeyLoop.Proofs.Assembly.Forms
import KeyLoop.Proofs.Machine.Frame

namespace KeyLoop

/-- The fault is found where an operand is to be written. -/
def Fault.isAboutOperand : Fault → Bool
  | .unexpectedOperand | .wrongOperand _ | .malformed .tooManyTargets => true
  | _ => false

/-- The piece waits for the position of a label. -/
def Piece.waits : Piece → Bool
  | final _ => false
  | displacement _ _ => true

namespace Assembly

variable {a b : Assembly}

/-- The assembly with more code. -/
def append (a : Assembly) (pieces : List Piece) : Assembly :=
  { a with pieces := pieces.foldl Array.push a.pieces }

/-- The assembly after an instruction with these effects on the depth. -/
def tracked (a : Assembly) (t : Traits) : Assembly :=
  { a with
    depth := min (a.depth - t.pops + t.pushes) depthLimit
    maxDepth := max a.maxDepth (min (a.depth - t.pops + t.pushes) depthLimit) }

theorem toList_append (a : Assembly) (pieces : List Piece) :
    (a.append pieces).pieces.toList = a.pieces.toList ++ pieces := by
  induction pieces generalizing a with
  | nil => simp [append]
  | cons p pieces ih =>
    have hrest := ih (a.append [p])
    simp only [append, List.foldl_cons, List.foldl_nil, Array.toList_push] at hrest ⊢
    rw [hrest, List.append_assoc, List.singleton_append]

theorem size_append (a : Assembly) (pieces : List Piece) :
    (a.append pieces).pieces.size = a.pieces.size + pieces.length := by
  rw [← Array.length_toList, toList_append, List.length_append, Array.length_toList]

theorem piecesSize_mono {ps qs : List Piece} (h : ps.Sublist qs) : piecesSize ps ≤ piecesSize qs := by
  induction h with
  | slnil => exact Nat.le_refl _
  | cons p _ ih =>
    simp only [piecesSize, List.foldr_cons] at ih ⊢
    omega
  | cons_cons p _ ih =>
    simp only [piecesSize, List.foldr_cons] at ih ⊢
    omega

/-- A label has a position if it is defined. -/
theorem isSome_position?_iff {labels : List (String × Nat)} {label : String} :
    (position? labels label).isSome = true ↔ label ∈ labels.map (·.1) := by
  simp [position?]

/-! ## One request -/

theorem operandBytes_error {t : OperandType} {operand : Option Operand} {e : Fault}
    (h : operandBytes t operand = .error e) : e.isAboutOperand = true := by
  unfold operandBytes at h
  split at h
  · cases h
  · cases h
    rfl
  · cases h
  · split at h
    · cases h
    · cases h
      rfl
  · split at h
    · cases h
    · cases h
      rfl
  · split at h
    · cases h
    · cases h
      rfl
  · cases h
    rfl

/-- A request for an instruction writes it, or finds its fault before it
writes anything, or finds it behind the opcode. -/
theorem emit_cases (mnemonic : String) (operand : Option Operand) :
    (∃ pieces t, ∀ a, emit mnemonic operand a = .ok () ((append a pieces).tracked t)) ∨
      (∃ e : Fault, e.isAboutOperand = false ∧ ∀ a, emit mnemonic operand a = .error e a) ∨
      ∃ row e, Row.ofMnemonic? mnemonic = some row ∧ operandBytes row.operandType operand = .error e ∧
        ∀ a, emit mnemonic operand a = .error e (append a [.final row.opcode.bytes]) := by
  unfold emit row
  cases hrow : Row.ofMnemonic? mnemonic with
  | none => exact .inr (.inl ⟨.unknownMnemonic mnemonic, rfl, fun _ => rfl⟩)
  | some row =>
    simp only [pure_bind]
    by_cases hlabel : row.flow.hasLabel = true
    · simp only [if_pos hlabel]
      exact .inr (.inl ⟨.branch (.needsLabel mnemonic), rfl, fun _ => rfl⟩)
    · simp only [if_neg hlabel]
      cases hbytes : operandBytes row.operandType operand with
      | ok bytes =>
        exact .inl ⟨[.final row.opcode.bytes, .final bytes], row.toTraits, fun _ => rfl⟩
      | error e => exact .inr (.inr ⟨row, e, rfl, hbytes, fun _ => rfl⟩)

/-- A request for a branch has no operand to look at. -/
theorem emitBranch_cases (mnemonic label : String) :
    (∃ pieces t, ∀ a, emitBranch mnemonic label a = .ok () ((append a pieces).tracked t)) ∨
      ∃ e : Fault, e.isAboutOperand = false ∧ ∀ a, emitBranch mnemonic label a = .error e a := by
  unfold emitBranch row
  cases Row.ofMnemonic? mnemonic with
  | none => exact .inr ⟨.unknownMnemonic mnemonic, rfl, fun _ => rfl⟩
  | some row =>
    simp only [pure_bind]
    cases row.flow.hasLabel with
    | false => exact .inr ⟨.branch (.notABranch mnemonic), rfl, fun _ => rfl⟩
    | true =>
      cases reach? row.operandType with
      | none => exact .inr ⟨.branch .noDisplacement, rfl, fun _ => rfl⟩
      | some reach =>
        exact .inl ⟨[.final row.opcode.bytes, .displacement reach label], row.toTraits, fun _ => rfl⟩

/-! ## The shortest forms -/

theorem operandType_of_forms? {mnemonic : String} {row : Row} {action : Action} {t : OperandType}
    (h : Row.ofMnemonic? mnemonic = some row) (hforms : Row.forms? mnemonic = some (action, t)) :
    row.operandType = t := by
  rw [Row.forms?, h] at hforms
  cases hforms
  rfl

/-- The operand of the shortest slot access is the one its row wants. -/
theorem operandBytes_slotForm {stem : String} {kind : SlotKind} {access : SlotAccess}
    (hforms : SlotForms stem kind access) {index : BitVec 16} {row : Row}
    (hrow : Row.ofMnemonic? (slotForm stem index).1 = some row) :
    ∃ bytes, operandBytes row.operandType (slotForm stem index).2 = .ok bytes := by
  unfold slotForm at hrow ⊢
  by_cases hown : index.toNat < 4
  · rw [if_pos hown] at hrow ⊢
    rw [operandType_of_forms? hrow (hforms.implied index.toNat hown)]
    exact ⟨[], rfl⟩
  · rw [if_neg hown] at hrow ⊢
    by_cases hshort : index.toNat < 0x100
    · rw [if_pos hshort] at hrow ⊢
      rw [operandType_of_forms? hrow hforms.short]
      exact ⟨_, rfl⟩
    · rw [if_neg hshort] at hrow ⊢
      rw [operandType_of_forms? hrow hforms.long]
      exact ⟨_, rfl⟩

theorem signedByte_form : Row.forms? "ldc.i4.s" = some (.int32 .operand, .scalar .int8) := by
  decide +kernel

theorem signedWord_form : Row.forms? "ldc.i4" = some (.int32 .operand, .scalar .int32) := by
  decide +kernel

/-- The operand of the shortest constant is the one its row wants. -/
theorem operandBytes_int32Form {constant : BitVec 32} {row : Row}
    (hrow : Row.ofMnemonic? (int32Form constant).1 = some row) :
    ∃ bytes, operandBytes row.operandType (int32Form constant).2 = .ok bytes := by
  unfold int32Form at hrow ⊢
  by_cases hminus : constant = -1
  · rw [if_pos hminus] at hrow ⊢
    rw [operandType_of_forms? hrow minusOne_form]
    exact ⟨[], rfl⟩
  · rw [if_neg hminus] at hrow ⊢
    by_cases hsmall : constant.toNat ≤ 8
    · rw [if_pos hsmall] at hrow ⊢
      rw [operandType_of_forms? hrow (small_forms constant.toNat (by omega))]
      exact ⟨[], rfl⟩
    · rw [if_neg hsmall] at hrow ⊢
      by_cases hshort : -0x80 ≤ constant.toInt ∧ constant.toInt < 0x80
      · rw [if_pos hshort] at hrow ⊢
        rw [operandType_of_forms? hrow signedByte_form]
        exact ⟨_, rfl⟩
      · rw [if_neg hshort] at hrow ⊢
        rw [operandType_of_forms? hrow signedWord_form]
        exact ⟨_, rfl⟩

end Assembly

namespace Request

variable {r : Request} {a b : Assembly} {n : Nat}

/-- What a request does.  But for labels it is the same in every assembly. -/
inductive Does (r : Request) : Prop
  | label (name : String) (hr : r = .label name)
  | line (pieces : List Piece) (t : Traits) (h : ∀ a, r.run a = .ok () ((a.append pieces).tracked t))
  | nothing (e : Fault) (hfault : e.isAboutOperand = false) (h : ∀ a, r.run a = .error e a)
  | opcode (mnemonic : String) (operand : Option Operand) (row : Row) (e : Fault)
      (hr : r = .emit mnemonic operand) (hrow : Row.ofMnemonic? mnemonic = some row)
      (hbytes : Assembly.operandBytes row.operandType operand = .error e)
      (h : ∀ a, r.run a = .error e (a.append [.final row.opcode.bytes]))

/-- A shortest form whose operand is the one its row wants. -/
theorem does_of_form {form : String × Option Operand} (hform : r.emission? = some form)
    (hbytes : ∀ row, Row.ofMnemonic? form.1 = some row →
      ∃ bytes, Assembly.operandBytes row.operandType form.2 = .ok bytes) : r.Does := by
  have hrun : r.run = Assembly.emit form.1 form.2 := run_of_emission? hform
  rcases Assembly.emit_cases form.1 form.2 with ⟨pieces, t, h⟩ | ⟨e, hfault, h⟩ | ⟨row, e, hrow, hfail, -⟩
  · exact .line pieces t (by rwa [hrun])
  · exact .nothing e hfault (by rwa [hrun])
  · obtain ⟨bytes, hok⟩ := hbytes row hrow
    rw [hok] at hfail
    cases hfail

theorem does (r : Request) : r.Does := by
  cases r with
  | label name => exact .label name rfl
  | branch mnemonic name =>
    rcases Assembly.emitBranch_cases mnemonic name with ⟨pieces, t, h⟩ | ⟨e, hfault, h⟩
    · exact .line pieces t h
    · exact .nothing e hfault h
  | emit mnemonic operand =>
    rcases Assembly.emit_cases mnemonic operand with ⟨pieces, t, h⟩ | ⟨e, hfault, h⟩ |
      ⟨row, e, hrow, hbytes, h⟩
    · exact .line pieces t h
    · exact .nothing e hfault h
    · exact .opcode mnemonic operand row e rfl hrow hbytes h
  | loadLocal index =>
    exact does_of_form rfl fun _ hrow => Assembly.operandBytes_slotForm Assembly.loadLocal_forms hrow
  | storeLocal index =>
    exact does_of_form rfl fun _ hrow => Assembly.operandBytes_slotForm Assembly.storeLocal_forms hrow
  | loadArgument index =>
    exact does_of_form rfl fun _ hrow => Assembly.operandBytes_slotForm Assembly.loadArgument_forms hrow
  | int32 constant => exact does_of_form rfl fun _ hrow => Assembly.operandBytes_int32Form hrow

/-- The definition of a label that fails leaves nothing. -/
theorem define_error {name : String} {e : Fault} {a' : Assembly} (h : Assembly.define name a = .error e a') :
    a' = a ∧ e.isAboutOperand = false := by
  rw [Assembly.define_eq] at h
  split at h
  · cases h
    exact ⟨rfl, rfl⟩
  · split at h
    · cases h
      exact ⟨rfl, rfl⟩
    · cases h

/-- What a request leaves of an assembly when it fails. -/
inductive Leaves (r : Request) (a : Assembly) : Fault → Assembly → Prop
  /-- The fault is found before anything is written. -/
  | nothing {e : Fault} : e.isAboutOperand = false → Leaves r a e a
  /-- The operand that is given cannot be written, and its opcode has been. -/
  | opcode {e : Fault} {mnemonic : String} {operand : Option Operand} {row : Row} :
      e.isAboutOperand = true → r = .emit mnemonic operand → Row.ofMnemonic? mnemonic = some row →
      Assembly.operandBytes row.operandType operand = .error e →
      Leaves r a e (a.append [.final row.opcode.bytes])

theorem run_error {e : Fault} {a' : Assembly} (h : r.run a = .error e a') : r.Leaves a e a' := by
  cases r.does with
  | label name hr =>
    subst hr
    obtain ⟨rfl, hfault⟩ := define_error h
    exact .nothing hfault
  | line pieces t hline =>
    rw [hline] at h
    cases h
  | nothing e' hfault hnothing =>
    rw [hnothing] at h
    cases h
    exact .nothing hfault
  | opcode mnemonic operand row e' hr hrow hbytes hopcode =>
    rw [hopcode] at h
    cases h
    exact .opcode (Assembly.operandBytes_error hbytes) hr hrow hbytes

/-! ## Requests made in turn -/

/-- The assembly after requests that are made in turn, whether or not the ones
before them fail. -/
def afterAll (a : Assembly) : List Request → Assembly
  | [] => a
  | r :: rs => afterAll (after r.run a) rs

/-- The requests that succeed when all are made in turn. -/
def succeeding (a : Assembly) : List Request → List Request
  | [] => []
  | r :: rs =>
      match r.run a with
      | .ok _ a' => r :: succeeding a' rs
      | .error _ a' => succeeding a' rs

/-- The faults of the others. -/
def faults (a : Assembly) : List Request → List Fault
  | [] => []
  | r :: rs =>
      match r.run a with
      | .ok _ a' => faults a' rs
      | .error e a' => e :: faults a' rs

/-- `b` is `a` without `n` opcodes that failed requests have left. -/
structure Without (n : Nat) (a b : Assembly) : Prop where
  pieces : b.pieces.toList.Sublist a.pieces.toList
  count : a.pieces.size = b.pieces.size + n
  /-- The displacements that wait for their labels are the same. -/
  waiting : b.pieces.toList.filter Piece.waits = a.pieces.toList.filter Piece.waits
  /-- The labels are the same, though they may lie further behind in `a`. -/
  names : b.labels.map (·.1) = a.labels.map (·.1)
  depth : b.depth = a.depth
  maxDepth : b.maxDepth = a.maxDepth
  same : n = 0 → b = a

theorem Without.refl (a : Assembly) : Without 0 a a := ⟨.refl _, rfl, rfl, rfl, rfl, rfl, fun _ => rfl⟩

/-- Only where there are no such opcodes are the two the same. -/
theorem Without.eq_iff (h : Without n a b) : b = a ↔ n = 0 := by
  refine ⟨?_, h.same⟩
  rintro rfl
  have hcount := h.count
  omega

theorem Without.size_le (h : Without n a b) : b.size ≤ a.size := Assembly.piecesSize_mono h.pieces

/-- A line is written to both. -/
theorem Without.line (h : Without n a b) (pieces : List Piece) (t : Traits) :
    Without n ((a.append pieces).tracked t) ((b.append pieces).tracked t) where
  pieces := by
    show (b.append pieces).pieces.toList.Sublist (a.append pieces).pieces.toList
    rw [Assembly.toList_append, Assembly.toList_append]
    exact h.pieces.append (.refl pieces)
  count := by
    have hcount := h.count
    show (a.append pieces).pieces.size = (b.append pieces).pieces.size + n
    rw [Assembly.size_append, Assembly.size_append]
    omega
  waiting := by
    show (b.append pieces).pieces.toList.filter Piece.waits = (a.append pieces).pieces.toList.filter Piece.waits
    rw [Assembly.toList_append, Assembly.toList_append, List.filter_append, List.filter_append, h.waiting]
  names := h.names
  depth := by
    show min (b.depth - t.pops + t.pushes) Assembly.depthLimit =
      min (a.depth - t.pops + t.pushes) Assembly.depthLimit
    rw [h.depth]
  maxDepth := by
    show max b.maxDepth (min (b.depth - t.pops + t.pushes) Assembly.depthLimit) =
      max a.maxDepth (min (a.depth - t.pops + t.pushes) Assembly.depthLimit)
    rw [h.depth, h.maxDepth]
  same hn := by rw [h.same hn]

/-- An opcode is left in one of them. -/
theorem Without.opcode (h : Without n a b) (bytes : List Byte) :
    Without (n + 1) (a.append [.final bytes]) b where
  pieces := by
    rw [Assembly.toList_append]
    exact h.pieces.trans (List.sublist_append_left _ _)
  count := by
    rw [Assembly.size_append, h.count]
    rfl
  waiting := by
    rw [Assembly.toList_append, List.filter_append, h.waiting]
    exact (List.append_nil _).symm
  names := h.names
  depth := h.depth
  maxDepth := h.maxDepth
  same := nofun

/-- A label that is new in the one is new in the other. -/
theorem Without.label (h : Without n a b) {name : String} {a' : Assembly}
    (ha : Assembly.define name a = .ok () a') :
    ∃ b', Assembly.define name b = .ok () b' ∧ Without n a' b' := by
  rw [Assembly.define_eq] at ha
  split at ha
  · cases ha
  · rename_i hnew
    split at ha
    · cases ha
    · rename_i hroom
      cases ha
      have hsize := h.size_le
      have hnew' : ¬ (Assembly.position? b.labels name).isSome = true := by
        rwa [Assembly.isSome_position?_iff, h.names, ← Assembly.isSome_position?_iff]
      refine ⟨{ b with labels := b.labels ++ [(name, b.size)] }, ?_, ?_⟩
      · rw [Assembly.define_eq, if_neg hnew', if_neg (by omega)]
      · exact
          { h with
            names := by simp only [List.map_append, h.names, List.map_cons, List.map_nil]
            same := fun hn => by rw [h.same hn] }

/-- A request that succeeds is made in both. -/
theorem Without.run_ok (h : Without n a b) {a' : Assembly} (ha : r.run a = .ok () a') :
    ∃ b', r.run b = .ok () b' ∧ Without n a' b' := by
  cases r.does with
  | label name hr =>
    subst hr
    exact h.label ha
  | line pieces t hline =>
    rw [hline] at ha
    cases ha
    exact ⟨_, hline b, h.line pieces t⟩
  | nothing e hfault hnothing =>
    rw [hnothing] at ha
    cases ha
  | opcode mnemonic operand row e hr hrow hbytes hopcode =>
    rw [hopcode] at ha
    cases ha

/-- A request that fails is left out in one of them. -/
theorem Without.run_error (h : Without n a b) {e : Fault} {a' : Assembly} (ha : r.run a = .error e a') :
    Without (n + [e].countP Fault.isAboutOperand) a' b := by
  rw [List.countP_singleton]
  cases Request.run_error ha with
  | nothing hfault => rwa [hfault]
  | @opcode _ _ row hfault _ _ _ =>
    rw [hfault]
    exact h.opcode row.opcode.bytes

/-- Requests made in turn, and those of them that succeed, made alone. -/
theorem Without.run_succeeding (h : Without n a b) (rs : List Request) :
    ∃ b', (succeeding a rs).forM run b = .ok () b' ∧
      Without (n + (faults a rs).countP Fault.isAboutOperand) (afterAll a rs) b' := by
  induction rs generalizing n a b with
  | nil => exact ⟨b, rfl, h⟩
  | cons r rs ih =>
    cases hr : r.run a with
    | ok u a' =>
      obtain ⟨b₁, hb, h₁⟩ := h.run_ok hr
      obtain ⟨b', hrest, h'⟩ := ih h₁
      have hboth : (r :: succeeding a' rs).forM run b = (succeeding a' rs).forM run b₁ := by
        show (r.run >>= fun _ => (succeeding a' rs).forM run) b = _
        simp only [bind, EStateM.bind, hb]
      refine ⟨b', ?_, ?_⟩
      · simp only [succeeding, hr]
        exact hboth.trans hrest
      · simp only [faults, afterAll, after_ok hr, hr]
        exact h'
    | error e a' =>
      obtain ⟨b', hrest, h'⟩ := ih (h.run_error hr)
      refine ⟨b', ?_, ?_⟩
      · simp only [succeeding, hr]
        exact hrest
      · simp only [faults, afterAll, after_error hr, hr]
        rw [Nat.add_assoc, ← List.countP_append] at h'
        exact h'

/-- **What failed requests leave.**  A request that fails leaves the assembly as
it was, unless its fault is about an operand: then it was one for an
instruction, and its opcode, and nothing else, stands behind the code.  So of
requests that are made in turn, those that succeed can be made alone.  This
gives the assembly without these opcodes, with the same depths, the same
labels and the same displacements to fill in; and it gives the same assembly,
which is then finished alike, if and only if no fault was about an operand. -/
theorem failed_left_out (a : Assembly) (rs : List Request) :
    (∀ (r : Request) (e : Fault) (a' : Assembly), r.run a = .error e a' → r.Leaves a e a') ∧
    ∃ b, (succeeding a rs).forM run a = .ok () b ∧
      Without ((faults a rs).countP Fault.isAboutOperand) (afterAll a rs) b ∧
      (b = afterAll a rs ↔ ∀ e ∈ faults a rs, e.isAboutOperand = false) := by
  refine ⟨fun r e a' h => run_error h, ?_⟩
  obtain ⟨b, hrun, h⟩ := (Without.refl a).run_succeeding rs
  rw [Nat.zero_add] at h
  refine ⟨b, hrun, h, ?_⟩
  rw [h.eq_iff, List.countP_eq_zero]
  simp only [Bool.not_eq_true]

/-- A constant without its operand, and a label and an instruction behind it. -/
def strayOpcode : List Request := [.emit "ldc.i4.s" none, .label "end", .emit "ret" none]

/-- The first request fails, its opcode stays in the code, and the label lies
behind it. -/
theorem strayOpcode_moves_label :
    faults .empty strayOpcode = [.wrongOperand (.scalar .int8)] ∧
      succeeding .empty strayOpcode = [.label "end", .emit "ret" none] ∧
      (afterAll .empty strayOpcode).finish.toOption = some ⟨[0x1F, 0x2A], 0, [("end", 1)]⟩ ∧
      (afterAll .empty (succeeding .empty strayOpcode)).finish.toOption =
        some ⟨[0x2A], 0, [("end", 0)]⟩ := by
  decide +kernel

end Request

end KeyLoop
