/-
# `Machine` — abstract execution of single instructions

The machine holds an evaluation stack, the arguments and the locals of a
method, and a count of the instructions begun.  One step does what one
instruction asks:

    slots, constants     move values between slots and the stack
    operations           take operands (the right one first), push the result
    branches             take the condition away and go on
    narrow loads         push a number of which the high bits are zero
    everything else      take and push as many values as the table says,
                         pushing unknown ones

A step that fails has still begun: it counts, and what it took from the
stack before it failed stays away.
-/
import KeyLoop.Instruction.Basic
import KeyLoop.Machine.Slots
import KeyLoop.Machine.Stack
import KeyLoop.Value.Arithmetic
import KeyLoop.Value.Comparison

namespace KeyLoop

/-- How far execution may go. -/
structure Limits where
  /-- The greatest stack depth. -/
  maxStack : Nat
  /-- The greatest number of instructions, zero for any number. -/
  maxInstructions : Nat
deriving DecidableEq, Repr

/-- The limits where none are chosen. -/
def Limits.standard : Limits := ⟨1024, 100000⟩

/-- The state of abstract execution. -/
structure Machine where
  limits : Limits
  stack : Stack
  arguments : Slots
  locals : Slots
  /-- How many instructions have been begun. -/
  executed : Nat
deriving DecidableEq, Repr

namespace Machine

/-- A machine that has no method's slots yet. -/
def new (limits : Limits) : Machine :=
  { limits
    stack := .empty limits.maxStack
    arguments := .empty .argument
    locals := .empty .localVar
    executed := 0 }

/-- The machine at the entry of a method.  Nothing is known of arguments;
locals start at zero if the method says so. -/
def enter (arguments locals : List Declaration) (zeroed : Bool) (m : Machine) : Machine :=
  { m with
    stack := .empty m.limits.maxStack
    arguments := .declare .argument arguments false
    locals := .declare .localVar locals zeroed
    executed := 0 }

/-- An operation on a machine; a failure keeps what was done before it. -/
abbrev Run := EStateM MachineFault Machine

/-- An operation on the stack. -/
def onStack {α : Type} (op : EStateM MachineFault Stack α) : Run α := fun m =>
  match op m.stack with
  | .ok a stack => .ok a { m with stack }
  | .error e stack => .error e { m with stack }

/-- An operation on the slots of one kind. -/
def onSlots {α : Type} (kind : SlotKind) (op : EStateM MachineFault Slots α) : Run α := fun m =>
  match kind with
  | .argument =>
      match op m.arguments with
      | .ok a arguments => .ok a { m with arguments }
      | .error e arguments => .error e { m with arguments }
  | .localVar =>
      match op m.locals with
      | .ok a locals => .ok a { m with locals }
      | .error e locals => .error e { m with locals }

/-- Put a value on the stack. -/
def push (v : Value) : Run Unit := onStack (Stack.push v)

/-- Take the top value from the stack. -/
def pop : Run Value := onStack Stack.pop

def discard (count : Nat) : Run Unit := onStack (Stack.discard count)

def pushUnknown : (count : Nat) → Run Unit
  | 0 => pure ()
  | count + 1 => do
      push .unknown
      pushUnknown count

/-- The limit on instructions leaves room for one more. -/
def checkLimit : Run Unit := fun m =>
  if m.limits.maxInstructions ≠ 0 ∧ m.limits.maxInstructions ≤ m.executed then
    .error (.instructionLimit m.executed m.limits.maxInstructions) m
  else .ok () m

/-- A constant that the instruction has to have in its operand. -/
def require {α : Type} (i : Instruction) (wanted : Constant) : Option α → Run α
  | some a => pure a
  | none => throw (.operandMissing i.mnemonic wanted)

/-- Access a slot.  Addresses are not modelled, so taking one pushes an
unknown value and does not even look at the index. -/
def accessSlot (i : Instruction) (kind : SlotKind) (access : SlotAccess)
    (place : Place (BitVec 16)) : Run Unit :=
  match access with
  | .load => do
      let index ← require i .slotIndex (i.indexAt? place)
      push (← onSlots kind (Slots.get index))
  | .store => do
      let index ← require i .slotIndex (i.indexAt? place)
      onSlots kind (Slots.set index (← pop))
  | .address => push .unknown

/-- Do what an action asks for. -/
def perform (i : Instruction) : Action → Run Unit
  | .nop => pure ()
  | .dup => onStack Stack.dup
  | .pop => do let _ ← pop
  | .slot kind access place => accessSlot i kind access place
  | .int32 place => do push (.ofBits (← require i .int32 (i.int32At? place)))
  | .int64 => do push (.int64 (← require i .int64 i.operand.int64?))
  | .float => do push (.float (← require i .float i.operand.float?))
  | .branch => discard i.pops
  | .loadNarrow bits => do
      discard i.pops
      push (.int32 (PartialWord.unknown.zeroExtend bits))
  | .binary op => do
      let right ← pop
      let left ← pop
      push (left.binary op right)
  | .unary op => do push ((← pop).unary op)
  | .compare op => do
      let right ← pop
      let left ← pop
      push (left.compare op right)
  | .convert op => do push ((← pop).convert op)
  | .unmodelled => do
      discard i.pops
      pushUnknown i.pushes

def step (i : Instruction) : Run Unit := do
  checkLimit
  modify fun m => { m with executed := m.executed + 1 }
  if i.flow.isUnmodelled || !i.opcode.hasKnownLead then
    throw (.unsupported i.opcode i.mnemonic)
  perform i i.action

/-- The machine after a step has begun. -/
def begun (m : Machine) : Machine := { m with executed := m.executed + 1 }

/-- The limit on instructions is used up. -/
def Exhausted (m : Machine) : Prop :=
  m.limits.maxInstructions ≠ 0 ∧ m.limits.maxInstructions ≤ m.executed

instance (m : Machine) : Decidable m.Exhausted := inferInstanceAs (Decidable (_ ∧ _))

/-- The machine has no model of what the instruction does, not even of the stack depth. -/
def Unsupported (i : Instruction) : Prop :=
  i.flow.isUnmodelled = true ∨ i.opcode.hasKnownLead = false

instance (i : Instruction) : Decidable (Unsupported i) := inferInstanceAs (Decidable (_ ∨ _))

/-- What a step does: it checks the limit, counts, and acts. -/
theorem step_eq (i : Instruction) (m : Machine) :
    step i m =
      if m.Exhausted then .error (.instructionLimit m.executed m.limits.maxInstructions) m
      else if Unsupported i then .error (.unsupported i.opcode i.mnemonic) m.begun
      else perform i i.action m.begun := by
  by_cases hlimit : m.Exhausted
  · have hcheck : checkLimit m = .error (.instructionLimit m.executed m.limits.maxInstructions) m :=
      if_pos hlimit
    simp only [step, bind, EStateM.bind, hcheck, if_pos hlimit]
  · have hcheck : checkLimit m = .ok () m := if_neg hlimit
    rw [if_neg hlimit]
    by_cases hmodel : Unsupported i
    · have htest : (i.flow.isUnmodelled || !i.opcode.hasKnownLead) = true := by
        simpa [Unsupported] using hmodel
      simp only [step, bind, EStateM.bind, hcheck, htest, if_true, if_pos hmodel]
      rfl
    · have htest : ¬ (i.flow.isUnmodelled || !i.opcode.hasKnownLead) = true := by
        simpa [Unsupported] using hmodel
      simp only [step, bind, EStateM.bind, hcheck, if_neg htest, if_neg hmodel]
      rfl

end Machine

end KeyLoop
