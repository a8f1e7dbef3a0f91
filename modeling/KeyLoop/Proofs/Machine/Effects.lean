/-
# What a step that succeeds has done

What a machine works on are the values on its stack and its slots:
`m.Holds values slots`.  A step that succeeds changes them as its action says,

    load                 puts the value of the slot on top
    32-bit constant      puts the constant on top
    two operands         puts the result in place of the two values on top
    branch               takes away as many values as it needs
    store                takes the top value away, into its slot

and leaves the rest.  One rule for each of these follows a run of known
instructions from what is held before to what is held behind.
-/
import KeyLoop.Proofs.Machine.Slots
import Mathlib.Logic.Function.Basic

namespace KeyLoop

namespace Machine

/-- The machine has these values on its stack, and these slots. -/
structure Holds (m : Machine) (values : List Value) (slots : SlotKind → Slots) : Prop where
  values : m.stack.values = values
  slots : m.slots = slots

variable {m m' : Machine} {values : List Value} {slots : SlotKind → Slots} {u : Unit}

namespace Holds

theorem self (m : Machine) : m.Holds m.stack.values m.slots := ⟨rfl, rfl⟩

theorem begun (h : m.Holds values slots) : m.begun.Holds values slots := by
  refine ⟨h.values, ?_⟩
  rw [← h.slots]
  funext kind
  cases kind <;> rfl

/-- Nothing but the stack has changed. -/
theorem withValues (h : m.Holds values slots) (values' : List Value) :
    Holds { m with stack := { m.stack with values := values' } } values' slots := by
  refine ⟨rfl, ?_⟩
  rw [← h.slots]
  funext kind
  cases kind <;> rfl

/-! ## The parts of an action -/

theorem push (h : m.Holds values slots) {v : Value} (hpush : Machine.push v m = .ok u m') :
    m'.Holds (v :: values) slots := by
  unfold Machine.push onStack Stack.push at hpush
  by_cases hroom : m.stack.depth < m.stack.limit
  · simp only [if_pos hroom, h.values] at hpush
    cases hpush
    exact h.withValues (v :: values)
  · simp only [if_neg hroom] at hpush
    cases hpush

theorem pop (h : m.Holds values slots) {v : Value} (hpop : Machine.pop m = .ok v m') :
    ∃ rest, values = v :: rest ∧ m'.Holds rest slots := by
  unfold Machine.pop onStack Stack.pop at hpop
  cases values with
  | nil =>
    simp only [h.values] at hpop
    cases hpop
  | cons top rest =>
    simp only [h.values] at hpop
    cases hpop
    exact ⟨rest, rfl, h.withValues rest⟩

theorem discard (h : m.Holds values slots) {count : Nat} (hdiscard : Machine.discard count m = .ok u m') :
    m'.Holds (values.drop count) slots := by
  unfold Machine.discard onStack Stack.discard at hdiscard
  by_cases henough : count ≤ m.stack.depth
  · simp only [if_pos henough, h.values] at hdiscard
    cases hdiscard
    exact h.withValues (values.drop count)
  · simp only [if_neg henough] at hdiscard
    cases hdiscard

theorem get (h : m.Holds values slots) {kind : SlotKind} {n : BitVec 16} {v : Value}
    (hget : onSlots kind (Slots.get n) m = .ok v m') :
    (∃ slot, (slots kind).find? n = some slot ∧ slot.value = v) ∧ m'.Holds values slots := by
  obtain ⟨rfl, rfl⟩ := h
  rw [onSlots_eq] at hget
  unfold Slots.get at hget
  cases hslot : (m.slots kind).find? n with
  | none =>
    simp only [hslot] at hget
    cases hget
  | some slot =>
    simp only [hslot, withSlots_slots] at hget
    cases hget
    exact ⟨⟨slot, rfl, rfl⟩, .self m⟩

theorem set (h : m.Holds values slots) {kind : SlotKind} {n : BitVec 16} {v : Value}
    (hset : onSlots kind (Slots.set n v) m = .ok u m') :
    m'.Holds values (Function.update slots kind ((slots kind).store n v)) := by
  obtain ⟨-, rfl⟩ := set_eq_ok_iff.mp hset
  refine ⟨?_, ?_⟩
  · rw [storeSlot, stack_withSlots, h.values]
  · funext kind'
    by_cases hkind : kind' = kind
    · rw [hkind, storeSlot, slots_withSlots, Function.update_self, h.slots]
    · rw [storeSlot, slots_withSlots_of_ne m hkind, Function.update_of_ne hkind, h.slots]

end Holds

/-! ## Steps -/

variable {i : Instruction}

theorem step_ok_iff :
    step i m = .ok u m' ↔
      ¬ m.Exhausted ∧ ¬ Unsupported i ∧ perform i i.action m.begun = .ok u m' := by
  rw [step_eq]
  by_cases hlimit : m.Exhausted
  · simp [hlimit]
  · by_cases hmodel : Unsupported i
    · simp [hlimit, hmodel]
    · simp [hlimit, hmodel]

namespace Holds

theorem step_load (h : m.Holds values slots) {kind : SlotKind} {n : BitVec 16}
    (hload : i.Touches kind .load n) (hstep : step i m = .ok u m') :
    ∃ slot, (slots kind).find? n = some slot ∧ m'.Holds (slot.value :: values) slots := by
  obtain ⟨place, haction, hindex⟩ := hload
  obtain ⟨-, -, hperform⟩ := step_ok_iff.mp hstep
  simp only [haction, perform, accessSlot, hindex, require, pure_bind] at hperform
  obtain ⟨v, t, hget, hpush⟩ := bind_ok hperform
  obtain ⟨⟨slot, hslot, rfl⟩, ht⟩ := h.begun.get hget
  exact ⟨slot, hslot, ht.push hpush⟩

theorem step_int32 (h : m.Holds values slots) {c : BitVec 32} (hconstant : i.int32Constant? = some c)
    (hstep : step i m = .ok u m') : m'.Holds (.ofBits c :: values) slots := by
  obtain ⟨-, -, hperform⟩ := step_ok_iff.mp hstep
  obtain ⟨place, haction⟩ := Instruction.exists_action_of_int32Constant? hconstant
  simp only [Instruction.int32Constant?, haction] at hconstant
  simp only [haction, perform, hconstant, require, pure_bind] at hperform
  exact h.begun.push hperform

theorem step_binary (h : m.Holds values slots) {op : BinaryOp} (haction : i.action = .binary op)
    (hstep : step i m = .ok u m') :
    ∃ right left rest, values = right :: left :: rest ∧
      m'.Holds (left.binary op right :: rest) slots := by
  obtain ⟨-, -, hperform⟩ := step_ok_iff.mp hstep
  simp only [haction, perform] at hperform
  obtain ⟨right, t, hright, hperform⟩ := bind_ok hperform
  obtain ⟨left, t', hleft, hpush⟩ := bind_ok hperform
  obtain ⟨rest, rfl, ht⟩ := h.begun.pop hright
  obtain ⟨rest', rfl, ht'⟩ := ht.pop hleft
  exact ⟨right, left, rest', rfl, ht'.push hpush⟩

theorem step_branch (h : m.Holds values slots) (haction : i.action = .branch)
    (hstep : step i m = .ok u m') : m'.Holds (values.drop i.pops) slots := by
  obtain ⟨-, -, hperform⟩ := step_ok_iff.mp hstep
  simp only [haction, perform] at hperform
  exact h.begun.discard hperform

theorem step_store (h : m.Holds values slots) {kind : SlotKind} {n : BitVec 16}
    (hstore : i.Touches kind .store n) (hstep : step i m = .ok u m') :
    ∃ v rest, values = v :: rest ∧
      m'.Holds rest (Function.update slots kind ((slots kind).store n v)) := by
  obtain ⟨place, haction, hindex⟩ := hstore
  obtain ⟨-, -, hperform⟩ := step_ok_iff.mp hstep
  simp only [haction, perform, accessSlot, hindex, require, pure_bind] at hperform
  obtain ⟨v, t, hpop, hset⟩ := bind_ok hperform
  obtain ⟨rest, rfl, ht⟩ := h.begun.pop hpop
  exact ⟨v, rest, rfl, ht.set hset⟩

end Holds

end Machine

end KeyLoop
