/-
# A machine under other names

Under a renaming `r` of the locals a machine does the same as before: what a
local holds is found under its new name, and nothing else has changed.

    m.Renamed r n       `n` is `m` with each local `x` renamed to `r x`
    Agrees R run run'   from states related by `R` both runs come through, with
                        one answer and in related states, or both fail

A step of two instructions of one shape agrees (`step_renamed`).  What the
renaming has to be for that is injective: a store under one name must not
reach a local that goes by another.  The faults of the two machines may
differ, since a fault names the slot that is missing.
-/
import KeyLoop.Proofs.Instruction.Shape
import KeyLoop.Proofs.Machine.Agreement
import KeyLoop.Proofs.Machine.Slots
import KeyLoop.Proofs.Machine.StackActions

namespace KeyLoop

/-- Different slots have different names. -/
theorem SlotKind.rename_injective {r : BitVec 16 → BitVec 16} (hr : Function.Injective r)
    (kind : SlotKind) : Function.Injective (kind.rename r) := by
  cases kind with
  | argument => exact Function.injective_id
  | localVar => exact hr

/-- What can be told of a slot without its name. -/
def Slot.contents (slot : Slot) : Flavor × Value := (slot.flavor, slot.value)

namespace Machine

/-- The machine `n` is the machine `m` with its locals renamed. -/
structure Renamed (r : BitVec 16 → BitVec 16) (m n : Machine) : Prop where
  limits : n.limits = m.limits
  stack : n.stack = m.stack
  executed : n.executed = m.executed
  slots : ∀ kind x, ((n.slots kind).find? (kind.rename r x)).map (·.contents) =
    ((m.slots kind).find? x).map (·.contents)

variable {r : BitVec 16 → BitVec 16} {m n : Machine}

/-! ## Slots under their new names -/

/-- A slot is there under its new name, or under neither. -/
theorem Renamed.find? (h : Renamed r m n) (kind : SlotKind) (x : BitVec 16) :
    ((m.slots kind).find? x = none ∧ (n.slots kind).find? (kind.rename r x) = none) ∨
      ∃ a b, (m.slots kind).find? x = some a ∧ (n.slots kind).find? (kind.rename r x) = some b ∧
        b.flavor = a.flavor ∧ b.value = a.value := by
  have hslots := h.slots kind x
  cases ha : (m.slots kind).find? x with
  | none =>
    rw [ha, Option.map_none, Option.map_eq_none_iff] at hslots
    exact .inl ⟨rfl, hslots⟩
  | some a =>
    rw [ha, Option.map_some, Option.map_eq_some_iff] at hslots
    obtain ⟨b, hb, hcontents⟩ := hslots
    exact .inr ⟨a, b, rfl, hb, congrArg Prod.fst hcontents, congrArg Prod.snd hcontents⟩

/-- A store under the old name, and under the new one. -/
theorem Renamed.storeSlot (hr : Function.Injective r) (h : Renamed r m n) (kind : SlotKind)
    (x : BitVec 16) (v : Value) :
    Renamed r (m.storeSlot kind x v) (n.storeSlot kind (kind.rename r x) v) where
  limits := by simpa only [Machine.storeSlot, limits_withSlots] using h.limits
  stack := by simpa only [Machine.storeSlot, stack_withSlots] using h.stack
  executed := by cases kind <;> exact h.executed
  slots := by
    intro k y
    by_cases hstored : k = kind ∧ y = x
    · obtain ⟨rfl, rfl⟩ := hstored
      unfold Machine.storeSlot
      rw [slots_withSlots, slots_withSlots, Slots.find?_store, Slots.find?_store]
      rcases h.find? k y with ⟨ha, hb⟩ | ⟨a, b, ha, hb, hflavor, -⟩
      · rw [ha, hb]
        rfl
      · rw [ha, hb]
        simp only [Option.map_some, Slots.index_of_find? ha, Slots.index_of_find? hb, if_true,
          Slot.contents, hflavor]
    · have hrenamed : ¬ (k = kind ∧ k.rename r y = kind.rename r x) := by
        rintro ⟨rfl, hname⟩
        exact hstored ⟨rfl, k.rename_injective hr hname⟩
      rw [find?_storeSlot_of_ne m hstored, find?_storeSlot_of_ne n hrenamed]
      exact h.slots k y

/-! ## Operations -/

variable {α : Type}

theorem onStack_renamed (op : EStateM MachineFault Stack α) :
    Agrees (Renamed r) (onStack op) (onStack op) := by
  intro m n h
  unfold onStack
  rw [h.stack]
  cases op m.stack with
  | ok a s => exact ⟨rfl, { h with stack := rfl }⟩
  | error e s => exact trivial

theorem get_renamed (kind : SlotKind) (x : BitVec 16) :
    Agrees (Renamed r) (onSlots kind (Slots.get x)) (onSlots kind (Slots.get (kind.rename r x))) := by
  intro m n h
  rw [onSlots_eq, onSlots_eq]
  unfold Slots.get
  rcases h.find? kind x with ⟨ha, hb⟩ | ⟨a, b, ha, hb, -, hvalue⟩
  · rw [ha, hb]
    exact trivial
  · rw [ha, hb]
    dsimp only
    rw [withSlots_slots, withSlots_slots]
    exact ⟨hvalue.symm, h⟩

theorem set_renamed (hr : Function.Injective r) (kind : SlotKind) (x : BitVec 16) (v : Value) :
    Agrees (Renamed r) (onSlots kind (Slots.set x v)) (onSlots kind (Slots.set (kind.rename r x) v)) := by
  intro m n h
  rw [set_eq, set_eq]
  rcases h.find? kind x with ⟨ha, hb⟩ | ⟨a, b, ha, hb, -, -⟩
  · rw [ha, hb]
    exact trivial
  · rw [ha, hb]
    exact ⟨rfl, h.storeSlot hr kind x v⟩

theorem access_renamed (hr : Function.Injective r) (kind : SlotKind) (x : BitVec 16)
    (way : SlotAccess) :
    Agrees (Renamed r) (access kind x way) (access kind (kind.rename r x) way) := by
  cases way with
  | load => exact agrees_bind (get_renamed kind x) fun v => onStack_renamed _
  | store => exact agrees_bind (onStack_renamed _) fun v => set_renamed hr kind x v
  | address => exact onStack_renamed _

/-- What is no slot access does not look at names. -/
theorem perform_renamed (i : Instruction) {action : Action}
    (h : ∀ kind way place, action ≠ .slot kind way place) :
    Agrees (Renamed r) (perform i action) (perform i action) := by
  obtain ⟨op, hop⟩ := onStack_perform i h
  rw [hop]
  exact onStack_renamed op

/-! ## Steps -/

theorem counted_renamed {act act' : Run Unit} (h : Agrees (Renamed r) act act') :
    Agrees (Renamed r) (counted act) (counted act') := by
  refine agrees_counted (fun m n hmn => ?_) (fun m n hmn => ?_) h
  · rw [Exhausted, Exhausted, hmn.limits, hmn.executed]
  · exact { hmn with executed := congrArg (· + 1) hmn.executed }

variable {i j : Instruction}

/-- An action reads the traits, the opcode and the operand of its instruction. -/
theorem perform_congr (htraits : j.toTraits = i.toTraits) (hopcode : j.opcode = i.opcode)
    (hoperand : j.operand = i.operand) (action : Action) : perform j action = perform i action := by
  obtain ⟨traits, address, offset, size, opcode, operand, targets⟩ := i
  obtain ⟨traits', address', offset', size', opcode', operand', targets'⟩ := j
  obtain rfl : traits' = traits := htraits
  obtain rfl : opcode' = opcode := hopcode
  obtain rfl : operand' = operand := hoperand
  cases action <;> rfl

/-- Both forms of a branch take the same away. -/
theorem perform_of_long (hi : i.IsStatement) (hj : j.IsStatement) (h : i.transfers = true)
    (hlong : j.opcode.long = i.opcode.long) : perform j j.action = perform i i.action := by
  obtain ⟨⟨-, hpops, hpushes, hsame⟩, -⟩ := hi.eq_of_long hj hlong
  rw [hsame]
  rcases hi.action_of_transfers h with haction | haction
  · simp only [haction, perform, hpops]
  · simp only [haction, perform, hpops, hpushes]

/-- Steps of two instructions that access no slot, and act alike. -/
theorem step_renamed_of_perform (hi : i.IsStatement) (hj : j.IsStatement) (hflow : j.flow = i.flow)
    (hslot : i.slotAccess? = none) (hperform : perform j j.action = perform i i.action) :
    Agrees (Renamed r) (step i) (step j) := by
  have hsupport : Unsupported j ↔ Unsupported i := by
    rw [hi.unsupported_iff, hj.unsupported_iff, hflow]
  by_cases hmodel : Unsupported i
  · exact agrees_unsupported hmodel (hsupport.mpr hmodel)
  · rw [step_eq_counted hmodel, step_eq_counted (mt hsupport.mp hmodel), hperform]
    refine counted_renamed (perform_renamed i fun kind way place haction => ?_)
    rw [Instruction.slotAccess?, haction] at hslot
    cases hslot

/-- **Steps of one shape agree.** -/
theorem step_renamed (hr : Function.Injective r) (hi : i.IsStatement) (hj : j.IsStatement)
    (h : Instruction.SameShape r i j) : Agrees (Renamed r) (step i) (step j) := by
  have hflow := (h.answers hi hj).flow
  cases h with
  | same hslot hopcode hoperand =>
    have haction : j.action = i.action := congrArg Opcode.action hopcode
    refine step_renamed_of_perform hi hj hflow hslot ?_
    rw [haction, perform_congr (hi.toTraits_of_opcode hj hopcode) hopcode hoperand]
  | slot haccess haccess' =>
    rw [hi.step_access haccess, hj.step_access haccess']
    exact counted_renamed (access_renamed hr _ _ _)
  | constant hconstant hconstant' =>
    rw [hi.step_constant hconstant, hj.step_constant hconstant']
    exact counted_renamed (onStack_renamed _)
  | branch htransfers hlong =>
    exact step_renamed_of_perform hi hj hflow (hi.slotAccess?_of_transfers htransfers)
      (perform_of_long hi hj htransfers hlong)

end Machine

end KeyLoop
