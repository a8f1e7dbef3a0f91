/-
# What an instruction is asked about, and what it does

An instruction can be asked which local it loads or stores, which argument it
accesses, and which constant it pushes.  A step that succeeds has done just
that, also for an instruction that no decoding has given, with fields that do
not go together:

    it loads local `n`       its value has been put on the stack
    it stores local `n`      the value on top is there, cut down to the flavor
    it pushes constant `c`   the constant has been put on the stack

and where the queries deny it, it has not.  For stores this is what a step
keeps (`sameSlot_step`).  For loads it is said of two machines that differ in
the value of local `n` alone: if the instruction does not load it, they come
through or fail together, and still differ in nothing else
(`sameBut_step`).

The queries know no more than the opcode and the operand.  Which opcodes are
accepted as accesses is said by their encodings (`accesses_iff`).  Where an
opcode keeps its index or its constant is said once more, by ranges of codes
and apart from the table of instructions:

    06 .. 09, 0A .. 0D        a local, in the code
    11 .. 13, FE 0C .. 0E     a local, in the operand
    02 .. 05                  an argument, in the code
    0E .. 10, FE 09 .. 0B     an argument, in the operand
    15, 16 .. 1E              a constant, minus one or in the code
    1F, 20                    a constant, in the operand

The table agrees with the ranges on every opcode (`eq_of_ranges`), and so do
the queries.
-/
import KeyLoop.Proofs.Machine.Agreement
import KeyLoop.Proofs.Machine.Effects
import KeyLoop.Proofs.Machine.StackActions

namespace KeyLoop

/-! ## The queries -/

/-- The opcodes of a slot access, in all its encodings. -/
def SlotCodes.opcodes (codes : SlotCodes) : List Opcode :=
  (codes.own.elim [] fun code => (List.range 4).map fun k => .single (code + BitVec.ofNat 8 k)) ++
    [.single codes.short, .extended codes.long]

theorem Row.opcode_mem_opcodes {row : Row} (h : row ∈ all) {kind : SlotKind} {access : SlotAccess}
    {place : Place (BitVec 16)} (haction : row.action = .slot kind access place) :
    row.opcode ∈ (slotCodes kind access).opcodes := by
  unfold SlotCodes.opcodes
  rcases encoding_cases h haction with ⟨code, k, hcode, hk, hopcode⟩ | ⟨hopcode, -⟩ | ⟨hopcode, -⟩
  · rw [hcode, hopcode]
    exact List.mem_append_left _ (List.mem_map.mpr ⟨k, List.mem_range.mpr hk, rfl⟩)
  · exact List.mem_append_right _ (hopcode ▸ List.mem_cons_self)
  · exact List.mem_append_right _ (hopcode ▸ List.mem_cons_of_mem _ List.mem_cons_self)

theorem Opcode.exists_row_of_action {o : Opcode} {action : Action} (h : o.action = action)
    (hmodel : action ≠ .unmodelled) : ∃ row ∈ Row.all, row.opcode = o ∧ row.action = action := by
  unfold Opcode.action at h
  cases hrow : o.row? with
  | none =>
    rw [hrow] at h
    exact absurd h.symm hmodel
  | some row =>
    rw [hrow] at h
    exact ⟨row, List.mem_of_find?_eq_some hrow, by simpa using List.find?_some hrow, h⟩

namespace Opcode

/-- Where the index of a slot is, by ranges of codes: in the code, for four
codes from each of `own` on; in the operand, for three codes from `short` on,
and behind the lead byte from `long` on. -/
def slotPlace? (o : Opcode) (own : List Byte) (short long : Byte) : Option (Place (BitVec 16)) :=
  if o.lead = 0 then
    match own.find? fun first => first ≤ o.code ∧ o.code ≤ first + 3 with
    | some first => some (.implied ((o.code - first).setWidth 16))
    | none => if short ≤ o.code ∧ o.code ≤ short + 2 then some .operand else none
  else if o.lead = extendedLead ∧ long ≤ o.code ∧ o.code ≤ long + 2 then some .operand
  else none

/-- Where the constant is, by ranges of codes. -/
def constantPlace? (o : Opcode) : Option (Place (BitVec 32)) :=
  if o.lead ≠ 0 then none
  else if o.code = 0x15 then some (.implied (-1))
  else if 0x16 ≤ o.code ∧ o.code ≤ 0x1E then some (.implied ((o.code - 0x16).setWidth 32))
  else if o.code = 0x1F ∨ o.code = 0x20 then some .operand
  else none

/-- The table says of every opcode what the ranges say, if it says so in its
rows.  Opcodes without a row are outside of the ranges. -/
theorem eq_of_ranges {α : Type} {f : Action → Option α} {g : Opcode → Option α}
    (hnone : f .unmodelled = none) (hrows : ∀ row ∈ Row.all, f row.action = g row.opcode)
    (hsingle : ∀ code, ¬ code ≤ 0x20 → g (.single code) = none)
    (hextended : ∀ code, ¬ (0x09 ≤ code ∧ code ≤ 0x0E) → g (.extended code) = none)
    (hother : ∀ o, o.lead ≠ 0 → o.lead ≠ extendedLead → g o = none) (o : Opcode) : f o.action = g o := by
  unfold action
  cases hrow : o.row? with
  | some row =>
    have hopcode : row.opcode = o := by simpa using List.find?_some hrow
    exact (hrows row (List.mem_of_find?_eq_some hrow)).trans (congrArg g hopcode)
  | none =>
    refine hnone.trans (Eq.symm ?_)
    have hsingles : ∀ code : Byte, code ≤ 0x20 → (single code).row?.isSome = true := by decide +kernel
    have hextendeds : ∀ code : Byte, 0x09 ≤ code ∧ code ≤ 0x0E → (extended code).row?.isSome = true := by
      decide +kernel
    by_cases hzero : o.lead = 0
    · have ho : o = single o.code := congrArg (Opcode.mk · o.code) hzero
      rw [ho] at hrow ⊢
      exact hsingle _ fun hin => absurd (hsingles _ hin) (by rw [hrow]; nofun)
    · by_cases hlead : o.lead = extendedLead
      · have ho : o = extended o.code := congrArg (Opcode.mk · o.code) hlead
        rw [ho] at hrow ⊢
        exact hextended _ fun hin => absurd (hextendeds _ hin) (by rw [hrow]; nofun)
      · exact hother o hzero hlead

end Opcode

namespace Action

/-- Where the action finds the index of a slot of this kind. -/
def slotPlace? (kind : SlotKind) : Action → Option (Place (BitVec 16))
  | .slot k _ place => if k = kind then some place else none
  | _ => none

/-- Where the action finds its constant. -/
def constantPlace? : Action → Option (Place (BitVec 32))
  | .int32 place => some place
  | _ => none

end Action

namespace Opcode

theorem slotPlace?_of_lead {o : Opcode} (hzero : o.lead ≠ 0) (hlead : o.lead ≠ extendedLead)
    (own : List Byte) (short long : Byte) : o.slotPlace? own short long = none := by
  rw [slotPlace?, if_neg hzero, if_neg fun h => hlead h.1]

theorem slotPlace?_local (o : Opcode) :
    o.action.slotPlace? .localVar = o.slotPlace? [0x06, 0x0A] 0x11 0x0C :=
  eq_of_ranges (g := (·.slotPlace? [0x06, 0x0A] 0x11 0x0C)) rfl (by decide +kernel) (by decide +kernel)
    (by decide +kernel) (fun _ hzero hlead => slotPlace?_of_lead hzero hlead _ _ _) o

theorem slotPlace?_argument (o : Opcode) :
    o.action.slotPlace? .argument = o.slotPlace? [0x02] 0x0E 0x09 :=
  eq_of_ranges (g := (·.slotPlace? [0x02] 0x0E 0x09)) rfl (by decide +kernel) (by decide +kernel)
    (by decide +kernel) (fun _ hzero hlead => slotPlace?_of_lead hzero hlead _ _ _) o

theorem constantPlace?_action (o : Opcode) : o.action.constantPlace? = o.constantPlace? :=
  eq_of_ranges (g := constantPlace?) rfl (by decide +kernel) (by decide +kernel) (by decide +kernel)
    (fun _ hzero _ => if_pos hzero) o

end Opcode

namespace Instruction

variable {i : Instruction} {kind : SlotKind} {access : SlotAccess} {n : BitVec 16}

/-- An access is recognized by its opcode, whatever the rest of the instruction says. -/
theorem accesses_iff : i.accesses kind access = true ↔ i.opcode ∈ (slotCodes kind access).opcodes := by
  constructor
  · intro h
    obtain ⟨place, haction⟩ := exists_action_of_accesses h
    obtain ⟨row, hrow, hopcode, hslot⟩ := Opcode.exists_row_of_action haction nofun
    exact hopcode ▸ Row.opcode_mem_opcodes hrow hslot
  · intro h
    have hslot : ∀ {place}, i.opcode.action = .slot kind access place →
        i.accesses kind access = true := fun haction => (accesses_of_action haction).1
    rcases List.mem_append.mp h with hown | hoperand
    · cases hcode : (slotCodes kind access).own with
      | none =>
        rw [hcode] at hown
        cases hown
      | some code =>
        rw [hcode] at hown
        obtain ⟨k, hk, hopcode⟩ := List.mem_map.mp hown
        exact hslot (hopcode ▸ action_own hcode (List.mem_range.mp hk))
    · rcases List.mem_cons.mp hoperand with hopcode | hopcode
      · exact hslot (hopcode ▸ action_short kind access)
      · exact hslot (List.mem_singleton.mp hopcode ▸ action_long kind access)

/-- An index is kept where the action says. -/
theorem slotIndex?_eq (i : Instruction) (kind : SlotKind) :
    i.slotIndex? kind = (i.action.slotPlace? kind).bind i.indexAt? := by
  unfold slotIndex? slotAccess?
  cases i.action with
  | slot k access place =>
    dsimp only [Action.slotPlace?]
    split <;> rfl
  | _ => rfl

theorem localIndex?_eq (i : Instruction) :
    i.localIndex? = (i.opcode.slotPlace? [0x06, 0x0A] 0x11 0x0C).bind i.indexAt? := by
  rw [localIndex?, slotIndex?_eq, action, Opcode.slotPlace?_local]

theorem argumentIndex?_eq (i : Instruction) :
    i.argumentIndex? = (i.opcode.slotPlace? [0x02] 0x0E 0x09).bind i.indexAt? := by
  rw [argumentIndex?, slotIndex?_eq, action, Opcode.slotPlace?_argument]

theorem int32Constant?_eq (i : Instruction) :
    i.int32Constant? = i.opcode.constantPlace?.bind i.int32At? := by
  rw [← Opcode.constantPlace?_action]
  unfold int32Constant? action
  cases i.opcode.action <;> rfl

example : (slotCodes .localVar .load).opcodes =
    [.single 0x06, .single 0x07, .single 0x08, .single 0x09, .single 0x11, .extended 0x0C] := by
  decide

end Instruction

namespace Machine

variable {i : Instruction} {m m' : Machine} {kind : SlotKind} {access : SlotAccess}
  {n : BitVec 16} {u : Unit}

/-- A load or a store that succeeds has found an index. -/
theorem exists_touches_of_step_ok (haccess : i.accesses kind access = true)
    (haddress : access ≠ .address) (hstep : step i m = .ok u m') : ∃ n, i.Touches kind access n := by
  obtain ⟨place, haction⟩ := Instruction.exists_action_of_accesses haccess
  obtain ⟨-, -, hperform⟩ := step_ok_iff.mp hstep
  cases hindex : i.indexAt? place with
  | some n => exact ⟨n, place, haction, hindex⟩
  | none =>
    rw [haction] at hperform
    cases access with
    | address => exact absurd rfl haddress
    | load =>
      simp only [perform, accessSlot, hindex] at hperform
      cases hperform
    | store =>
      simp only [perform, accessSlot, hindex] at hperform
      cases hperform

/-- A store that succeeds has found a value and the slot for it. -/
theorem step_store_ok (hstore : i.Touches kind .store n) (hstep : step i m = .ok u m') :
    ∃ v rest slot, m.stack.values = v :: rest ∧ (m.slots kind).find? n = some slot ∧
      m'.stack.values = rest ∧
      (m'.slots kind).find? n = some { slot with value := v.coerce slot.flavor } := by
  obtain ⟨-, -, hperform⟩ := step_ok_iff.mp hstep
  rw [perform_of_touches hstore] at hperform
  obtain ⟨v, t, hpop, hset⟩ := bind_ok hperform
  obtain ⟨rest, hvalues, ht⟩ := (Holds.self m).begun.pop hpop
  obtain ⟨hdeclared, rfl⟩ := set_eq_ok_iff.mp hset
  rw [ht.slots] at hdeclared
  obtain ⟨slot, hslot⟩ := Option.isSome_iff_exists.mp hdeclared
  refine ⟨v, rest, slot, hvalues, hslot, ?_, ?_⟩
  · rw [storeSlot, stack_withSlots]
    exact ht.values
  · rw [storeSlot, slots_withSlots, Slots.find?_store, ht.slots, hslot, Option.map_some,
      if_pos (Slots.index_of_find? hslot)]

/-! ## Machines that differ in one local -/

/-- The machines are the same but for the value of local `n`. -/
structure SameBut (n : BitVec 16) (m t : Machine) : Prop where
  limits : t.limits = m.limits
  stack : t.stack = m.stack
  executed : t.executed = m.executed
  arguments : t.arguments = m.arguments
  frame : Slots.SameFrame t.locals m.locals
  locals : ∀ x, x ≠ n → t.locals.find? x = m.locals.find? x

namespace SameBut

variable {t : Machine}

/-- The other slots are the same. -/
theorem find? (h : SameBut n m t) {x : BitVec 16} (hx : ¬ (kind = .localVar ∧ x = n)) :
    (t.slots kind).find? x = (m.slots kind).find? x := by
  cases kind with
  | argument => exact congrArg (·.find? x) h.arguments
  | localVar => exact h.locals x fun hxn => hx ⟨rfl, hxn⟩

theorem slotFrame (h : SameBut n m t) (kind : SlotKind) :
    Slots.SameFrame (t.slots kind) (m.slots kind) := by
  cases kind with
  | argument =>
    show Slots.SameFrame t.arguments m.arguments
    rw [h.arguments]
    exact .refl _
  | localVar => exact h.frame

theorem storeSlot (h : SameBut n m t) (kind : SlotKind) (x : BitVec 16) (v : Value) :
    SameBut n (m.storeSlot kind x v) (t.storeSlot kind x v) := by
  cases kind with
  | argument =>
    exact ⟨h.limits, h.stack, h.executed, congrArg (·.store x v) h.arguments, h.frame, h.locals⟩
  | localVar =>
    refine ⟨h.limits, h.stack, h.executed, h.arguments, ?_, fun y hy => ?_⟩
    · exact ((frame_storeSlot t .localVar x v .localVar).trans h.frame).trans
        (frame_storeSlot m .localVar x v .localVar).symm
    · by_cases hyx : y = x
      · subst hyx
        exact find?_storeSlot (h.slotFrame .localVar) y v
      · have hother : ¬ (SlotKind.localVar = .localVar ∧ y = x) := fun hsame => hyx hsame.2
        exact (find?_storeSlot_of_ne t hother v).trans
          ((h.locals y hy).trans (find?_storeSlot_of_ne m hother v).symm)

end SameBut

variable {α : Type}

theorem onStack_sameBut (op : EStateM MachineFault Stack α) :
    Agrees (SameBut n) (onStack op) (onStack op) := by
  intro m t h
  unfold onStack
  rw [h.stack]
  cases op m.stack with
  | ok a s => exact ⟨rfl, { h with stack := rfl }⟩
  | error e s => exact trivial

/-- Loading another slot. -/
theorem get_sameBut {x : BitVec 16} (hx : ¬ (kind = .localVar ∧ x = n)) :
    Agrees (SameBut n) (onSlots kind (Slots.get x)) (onSlots kind (Slots.get x)) := by
  intro m t h
  rw [onSlots_eq, onSlots_eq]
  unfold Slots.get
  rw [h.find? hx]
  cases (m.slots kind).find? x with
  | none => exact trivial
  | some slot =>
    dsimp only
    rw [withSlots_slots, withSlots_slots]
    exact ⟨rfl, h⟩

theorem set_sameBut (kind : SlotKind) (x : BitVec 16) (v : Value) :
    Agrees (SameBut n) (onSlots kind (Slots.set x v)) (onSlots kind (Slots.set x v)) := by
  intro m t h
  have hdeclared := congrArg Option.isSome ((h.slotFrame kind).declaration x)
  rw [Option.isSome_map, Option.isSome_map] at hdeclared
  rw [set_eq, set_eq, hdeclared]
  by_cases hsome : ((m.slots kind).find? x).isSome = true
  · rw [if_pos hsome, if_pos hsome]
    exact ⟨rfl, h.storeSlot kind x v⟩
  · rw [if_neg hsome, if_neg hsome]
    exact trivial

theorem access_sameBut {x : BitVec 16} (hload : access = .load → ¬ (kind = .localVar ∧ x = n)) :
    Agrees (SameBut n) (Machine.access kind x access) (Machine.access kind x access) := by
  cases access with
  | load => exact agrees_bind (get_sameBut (hload rfl)) fun v => onStack_sameBut _
  | store => exact agrees_bind (onStack_sameBut _) fun v => set_sameBut kind x v
  | address => exact onStack_sameBut _

theorem perform_sameBut (h : ¬ i.Touches .localVar .load n) :
    Agrees (SameBut n) (perform i i.action) (perform i i.action) := by
  by_cases hslot : ∃ kind access place, i.action = .slot kind access place
  · obtain ⟨kind, access, place, haction⟩ := hslot
    cases hindex : i.indexAt? place with
    | some x =>
      rw [perform_of_touches ⟨place, haction, hindex⟩]
      refine access_sameBut ?_
      rintro rfl ⟨rfl, rfl⟩
      exact h ⟨place, haction, hindex⟩
    | none =>
      rw [haction]
      cases access with
      | load =>
        simp only [perform, accessSlot, hindex]
        exact agrees_throw _ _
      | store =>
        simp only [perform, accessSlot, hindex]
        exact agrees_throw _ _
      | address => exact onStack_sameBut _
  · obtain ⟨op, hop⟩ := onStack_perform i fun kind access place haction =>
      hslot ⟨kind, access, place, haction⟩
    rw [hop]
    exact onStack_sameBut op

/-- **What is not loaded makes no difference.**  Machines that differ in the
value of a local alone come through a step that does not load it, or fail,
together. -/
theorem sameBut_step (h : ¬ i.Touches .localVar .load n) : Agrees (SameBut n) (step i) (step i) := by
  by_cases hmodel : Unsupported i
  · exact agrees_unsupported hmodel hmodel
  · rw [step_eq_counted hmodel]
    refine agrees_counted (fun m t hmt => ?_) (fun m t hmt => ?_) (perform_sameBut h)
    · rw [Exhausted, Exhausted, hmt.limits, hmt.executed]
    · exact { hmt with executed := congrArg (· + 1) hmt.executed }

/-! ## Steps that succeed -/

/-- What a step that has led from `m` to `m'` did is what the queries say. -/
structure StepAnswers (i : Instruction) (m m' : Machine) : Prop where
  /-- The local that is loaded has been put on the stack. -/
  loads : i.loadsLocal = true → ∃ n v, i.localIndex? = some n ∧ m.local? n = some v ∧
    m'.stack.values = v :: m.stack.values
  /-- The value on top has been put in the local that is stored. -/
  stores : i.storesLocal = true → ∃ n v rest f, i.localIndex? = some n ∧
    m.stack.values = v :: rest ∧ m.locals.flavor? n = some f ∧
      m'.stack.values = rest ∧ m'.local? n = some (v.coerce f)
  /-- A local that makes a difference to the stack is the one that is loaded. -/
  reads : ∀ n t, SameBut n m t → (after (step i) t).stack.values ≠ m'.stack.values →
    i.loadsLocal = true ∧ i.localIndex? = some n
  /-- A local that has changed is the one that is stored. -/
  changedLocal : ∀ n, m'.locals.find? n ≠ m.locals.find? n →
    i.storesLocal = true ∧ i.localIndex? = some n
  /-- An argument that has changed is the one that is accessed. -/
  changedArgument : ∀ n, m'.arguments.find? n ≠ m.arguments.find? n → i.argumentIndex? = some n
  /-- The constant has been put on the stack. -/
  constant : ∀ c, i.int32Constant? = some c → m'.stack.values = .ofBits c :: m.stack.values

/-- A slot that has changed is the one that is stored. -/
theorem touches_of_changed (hstep : step i m = .ok u m')
    (hchanged : (m'.slots kind).find? n ≠ (m.slots kind).find? n) : i.Touches kind .store n := by
  apply Classical.byContradiction
  intro hnone
  have hkeeps := sameSlot_step (m := m) hnone m rfl
  rw [after_ok hstep] at hkeeps
  exact hchanged hkeeps

/-- A local that makes a difference to the stack is the one that is loaded. -/
theorem touches_of_difference {t : Machine} (hstep : step i m = .ok u m') (ht : SameBut n m t)
    (hdiffer : (after (step i) t).stack.values ≠ m'.stack.values) : i.Touches .localVar .load n := by
  apply Classical.byContradiction
  intro hnone
  rcases (sameBut_step hnone m t ht).cases with ⟨x, s, s', hs, hs', hsame⟩ | ⟨e, f, s, s', hs, -⟩
  · rw [hstep] at hs
    cases hs
    refine hdiffer ?_
    rw [after_ok hs', hsame.stack]
  · rw [hstep] at hs
    cases hs

/-- **The queries and the steps agree**, on every instruction whatever and in
every state from which its step succeeds; and which opcodes the queries are
about is said apart from the table that the steps go by. -/
theorem step_answers (i : Instruction) (hstep : step i m = .ok u m') :
    StepAnswers i m m' ∧
      (i.loadsLocal = true ↔ i.opcode ∈ (slotCodes .localVar .load).opcodes) ∧
      (i.storesLocal = true ↔ i.opcode ∈ (slotCodes .localVar .store).opcodes) ∧
      i.localIndex? = (i.opcode.slotPlace? [0x06, 0x0A] 0x11 0x0C).bind i.indexAt? ∧
      i.argumentIndex? = (i.opcode.slotPlace? [0x02] 0x0E 0x09).bind i.indexAt? ∧
      i.int32Constant? = i.opcode.constantPlace?.bind i.int32At? := by
  refine ⟨⟨fun hload => ?_, fun hstore => ?_, fun n t ht hdiffer => ?_, fun n hchanged => ?_,
    fun n hchanged => ?_, fun c hconstant => ?_⟩, Instruction.accesses_iff, Instruction.accesses_iff,
    i.localIndex?_eq, i.argumentIndex?_eq, i.int32Constant?_eq⟩
  · obtain ⟨n, htouches⟩ := exists_touches_of_step_ok hload nofun hstep
    obtain ⟨slot, hslot, hm'⟩ := (Holds.self m).step_load htouches hstep
    exact ⟨n, slot.value, (Instruction.touches_iff_queries.mp htouches).2,
      Option.map_eq_some_iff.mpr ⟨slot, hslot, rfl⟩, hm'.values⟩
  · obtain ⟨n, htouches⟩ := exists_touches_of_step_ok hstore nofun hstep
    obtain ⟨v, rest, slot, hvalues, hslot, hrest, hstored⟩ := step_store_ok htouches hstep
    exact ⟨n, v, rest, slot.flavor, (Instruction.touches_iff_queries.mp htouches).2, hvalues,
      Option.map_eq_some_iff.mpr ⟨slot, hslot, rfl⟩, hrest,
      Option.map_eq_some_iff.mpr ⟨_, hstored, rfl⟩⟩
  · exact Instruction.touches_iff_queries.mp (touches_of_difference hstep ht hdiffer)
  · have hstored : i.Touches .localVar .store n := touches_of_changed hstep hchanged
    exact Instruction.touches_iff_queries.mp hstored
  · have hstored : i.Touches .argument .store n := touches_of_changed hstep hchanged
    exact (Instruction.touches_iff_queries.mp hstored).2
  · exact ((Holds.self m).step_int32 hconstant hstep).values

/-- An instruction that no decoding gives: a store with the name and the counts
of an addition, and a displacement for its index. -/
theorem step_answers_patched :
    let i : Instruction :=
      { mnemonic := "add", category := .arithmetic, flow := .conditional, pops := 2, pushes := 1
        address := 0, offset := 0, size := 1, opcode := .extended 0x0E
        operand := .immediate ⟨.int32, 3#32⟩, targets := [] }
    let m : Machine :=
      { limits := ⟨8, 0⟩, stack := ⟨[.ofBits 0x180#32], 8⟩, arguments := .empty .argument
        locals := ⟨.localVar, [⟨⟨3, .i1⟩, .unknown⟩]⟩, executed := 0 }
    let m' : Machine :=
      { m with stack := ⟨[], 8⟩, locals := ⟨.localVar, [⟨⟨3, .i1⟩, .ofBits 0xFFFFFF80#32⟩]⟩
               executed := 1 }
    step i m = .ok () m' ∧ i.storesLocal = true ∧ i.localIndex? = some 3 ∧ StepAnswers i m m' := by
  intro i m m'
  have hstep : step i m = .ok () m' := rfl
  obtain ⟨hanswers, -⟩ := step_answers i hstep
  exact ⟨hstep, rfl, rfl, hanswers⟩

end Machine

end KeyLoop
