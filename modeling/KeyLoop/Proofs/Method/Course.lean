/-
# The course that control takes

The machine goes straight through the code of an update and takes away the
condition of every branch it meets.  A program goes where its branches lead.
`Method.advance?` is one step of a program, over the instructions that a
guarded decrement is made of: moves between locals and the stack, constants,
operations on two operands, and branches.  It stops where nothing is known of
how a branch decides, and there is no limit on the stack or on the steps.

    p, q            positions: an address, a stack, and the locals
    Reaches p q     the program comes from the one to the other

A branch on inequality compares numbers of any kind, so the float zero counts
as the integer zero, and what is not a number differs from every number.
-/
import KeyLoop.Machine.Emulator
import KeyLoop.Proofs.Method.Decoded

namespace KeyLoop

/-- A place in the course of a program, and what it works on there. -/
structure Position where
  /-- The address of the instruction that comes next. -/
  address : BitVec 64
  /-- The stack, its top in front. -/
  stack : List Value
  locals : Slots
deriving DecidableEq, Repr

namespace Value

/-- A known number as a float. -/
def toFloat? : Value → Option Float
  | .float x => some x
  | v => v.widened?.map fun bits => Float.ofInt bits.toInt

/-- Whether two numbers differ, when both are known. -/
def differs? (a b : Value) : Option Bool :=
  match a.widened?, b.widened? with
  | some x, some y => some (x != y)
  | _, _ => do return !((← a.toFloat?) == (← b.toFloat?))

theorem signExtend_eq_zero_iff (x : BitVec 32) : x.signExtend 64 = 0#64 ↔ x = 0#32 := by
  rw [← BitVec.toInt_inj, ← BitVec.toInt_inj, BitVec.toInt_signExtend_of_le (by decide)]
  rfl

/-- A value is known not to be zero exactly if it is known to differ from zero. -/
theorem differs?_zero (v : Value) : v.differs? (.ofBits 0) = some true ↔ v.isNonzero = true := by
  have hzero : (Value.ofBits 0).widened? = some 0 := by decide
  have hfloat : (Value.ofBits 0).toFloat? = some 0.0 := rfl
  unfold differs?
  rw [hzero, hfloat]
  cases v with
  | unknown => simp [widened?, toFloat?, isNonzero]
  | float x => simp [widened?, toFloat?, isNonzero]
  | int64 bits => simp [widened?, isNonzero]
  | int32 w =>
    cases hw : w.toBits? with
    | none => simp [widened?, toFloat?, isNonzero, hw]
    | some x => simpa [widened?, isNonzero, hw] using not_congr (signExtend_eq_zero_iff x)

end Value

/-- The position behind an instruction, or where its branch leads. -/
def Instruction.advance? (i : Instruction) (p : Position) : Option Position :=
  match i.action, p.stack with
  | .slot .localVar .load place, stack => do
      let slot ← p.locals.find? (← i.indexAt? place)
      return ⟨i.next, slot.value :: stack, p.locals⟩
  | .slot .localVar .store place, v :: stack => do
      let n ← i.indexAt? place
      guard (p.locals.find? n).isSome
      return ⟨i.next, stack, p.locals.store n v⟩
  | .int32 _, stack => do return ⟨i.next, .ofBits (← i.int32Constant?) :: stack, p.locals⟩
  | .binary op, right :: left :: stack => some ⟨i.next, left.binary op right :: stack, p.locals⟩
  | .branch, stack =>
      if i.isBr then do return ⟨← i.branchTarget?, stack, p.locals⟩
      else if i.isBneUn then
        match stack with
        | right :: left :: stack => do
            let address ← if ← left.differs? right then i.branchTarget? else some i.next
            return ⟨address, stack, p.locals⟩
        | _ => none
      else none
  | _, _ => none

namespace Method

/-- One step of the program, by the instruction at the address. -/
def advance? (m : Method) (p : Position) : Option Position := do
  let i ← m.code[← m.scan? p.address]?
  i.advance? p

/-- The program comes from a position to another. -/
inductive Reaches (m : Method) : Position → Position → Prop
  | refl (p : Position) : Reaches m p p
  | step {p q r : Position} : m.advance? p = some q → Reaches m q r → Reaches m p r

/-- In decoded code the instruction at an address is the one that stands there. -/
theorem IsDecoded.advance?_eq {m : Method} (hm : m.IsDecoded) {k : Nat} {i : Instruction}
    (hi : m.code[k]? = some i) {p : Position} (hp : p.address = i.address) :
    m.advance? p = i.advance? p := by
  have hindex : m.scan? p.address = some k := (m.finds_scan? hm.ascending _ _).mpr ⟨i, hi, hp.symm⟩
  simp only [advance?, hindex, hi, Option.bind_eq_bind, Option.bind_some]

/-- The instruction behind another stands at the address behind it. -/
theorem IsDecoded.address_eq_next {m : Method} (hm : m.IsDecoded) {k : Nat} {i i' : Instruction}
    (hi : m.code[k]? = some i) (hi' : m.code[k + 1]? = some i') : i'.address = i.next := by
  obtain ⟨base, bytes, -, hdecode⟩ := hm
  exact KeyLoop.address_eq_next hdecode hi hi'

end Method

/-! ## The steps of known instructions -/

namespace Instruction

variable {i : Instruction} {address : BitVec 64} {stack : List Value} {locals : Slots}

theorem advance?_load {n : BitVec 16} (h : i.Touches .localVar .load n) {slot : Slot}
    (hslot : locals.find? n = some slot) :
    i.advance? ⟨address, stack, locals⟩ = some ⟨i.next, slot.value :: stack, locals⟩ := by
  obtain ⟨place, haction, hindex⟩ := h
  simp [advance?, haction, hindex, hslot]

theorem advance?_store {n : BitVec 16} (h : i.Touches .localVar .store n)
    (hdeclared : (locals.find? n).isSome = true) (v : Value) :
    i.advance? ⟨address, v :: stack, locals⟩ = some ⟨i.next, stack, locals.store n v⟩ := by
  obtain ⟨place, haction, hindex⟩ := h
  simp [advance?, haction, hindex, hdeclared, guard]

theorem advance?_int32 {c : BitVec 32} (h : i.int32Constant? = some c) :
    i.advance? ⟨address, stack, locals⟩ = some ⟨i.next, .ofBits c :: stack, locals⟩ := by
  obtain ⟨place, haction⟩ := exists_action_of_int32Constant? h
  simp [advance?, haction, h]

theorem advance?_binary {op : BinaryOp} (h : i.action = .binary op) (left right : Value) :
    i.advance? ⟨address, right :: left :: stack, locals⟩ =
      some ⟨i.next, left.binary op right :: stack, locals⟩ := by
  simp [advance?, h]

end Instruction

end KeyLoop
