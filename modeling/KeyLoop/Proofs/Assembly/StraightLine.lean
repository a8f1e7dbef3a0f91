/-
# Straight lines run as they are written

A line of a listing that moves values or computes on them says what it does
without any opcode: its slot, its constant, or the name of its operation.
Read that way, a listing is a program of its own (`StraightCall.run`).

    slot, constant     moves a value between a slot and the stack
    nop, dup, pop      what they say
    an operation       takes its operands, the right one first, and puts
                       the result

Between the listing and the machine stand names, opcodes, operands in
various forms, and actions.  Assembled, decoded and stepped through, every
listing of such lines does what it does when it is read directly: the same
machine at the end, or the same fault at the same line (`assemble_run`).
-/
import KeyLoop.Proofs.Assembly.Listing
import KeyLoop.Proofs.Machine.Simulation

namespace KeyLoop

/-! ## Operations -/

theorem Signedness.mem_all (s : Signedness) : s ∈ all := by
  cases s <;> decide

theorem Overflow.mem_all (o : Overflow) : o ∈ all := by
  cases o with
  | wrap => decide
  | check s => cases s <;> decide

theorem BinaryOp.mem_all (op : BinaryOp) : op ∈ all := by
  cases op with
  | arithmetic op =>
    cases op <;> simp [all, Arithmetic.all, Overflow.mem_all, Signedness.mem_all]
  | shift op =>
    cases op <;> simp [all, Signedness.mem_all]

theorem UnaryOp.mem_all (op : UnaryOp) : op ∈ all := by
  cases op <;> decide

theorem CompareOp.mem_all (op : CompareOp) : op ∈ all := by
  cases op <;> simp [all, Signedness.mem_all]

theorem IntType.mem_all (t : IntType) : t ∈ all := by
  cases t <;> decide

theorem Conversion.mem_all (op : Conversion) : op ∈ all := by
  cases op <;> simp [all, IntType.mem_all, Signedness.mem_all]

/-- An operation on the values on top of the stack. -/
inductive Operation where
  | binary (op : BinaryOp)
  | unary (op : UnaryOp)
  | compare (op : CompareOp)
  | convert (op : Conversion)
deriving DecidableEq, Repr

namespace Operation

def name : Operation → String
  | binary op => op.name
  | unary op => op.name
  | compare op => op.name
  | convert op => op.name

def action : Operation → Action
  | binary op => .binary op
  | unary op => .unary op
  | compare op => .compare op
  | convert op => .convert op

def all : List Operation :=
  BinaryOp.all.map binary ++ UnaryOp.all.map unary ++ CompareOp.all.map compare
    ++ Conversion.all.map convert

open Machine (Run push pop) in
/-- Take the operands, the right one first, and put the result. -/
def perform : Operation → Run Unit
  | binary op => do
      let right ← pop
      let left ← pop
      push (left.binary op right)
  | unary op => do push ((← pop).unary op)
  | compare op => do
      let right ← pop
      let left ← pop
      push (left.compare op right)
  | convert op => do push ((← pop).convert op)

theorem perform_action (op : Operation) (i : Instruction) :
    Machine.perform i op.action = op.perform := by
  cases op <;> rfl

theorem mem_all (op : Operation) : op ∈ all := by
  cases op with
  | binary op => simp [all, op.mem_all]
  | unary op => simp [all, op.mem_all]
  | compare op => simp [all, op.mem_all]
  | convert op => simp [all, op.mem_all]

/-- The table has every operation under its name. -/
theorem forms?_name (op : Operation) : Row.forms? op.name = some (op.action, .none) := by
  have hall : all.all (fun op => Row.all.any fun row => row.action == op.action &&
      row.operandType == .none && row.mnemonic == op.name) = true := by decide +kernel
  obtain ⟨row, hrow, hmatch⟩ := List.any_eq_true.mp (List.all_eq_true.mp hall op op.mem_all)
  simp only [Bool.and_eq_true, beq_iff_eq] at hmatch
  obtain ⟨⟨haction, htype⟩, hname⟩ := hmatch
  rw [Row.forms?, ← hname, Row.ofMnemonic?_mnemonic hrow, Option.map_some, haction, htype]

end Operation

/-! ## Lines -/

/-- A line that moves values or computes on them. -/
inductive StraightCall where
  | loadLocal (n : BitVec 16)
  | storeLocal (n : BitVec 16)
  | loadArgument (n : BitVec 16)
  | localAddress (n : BitVec 16)
  | int32 (constant : BitVec 32)
  | int64 (constant : BitVec 64)
  | nop
  | dup
  | pop
  | operation (op : Operation)
deriving DecidableEq, Repr

namespace StraightCall

/-- The line in a listing. -/
def call : StraightCall → Call
  | loadLocal n => .loadLocal n
  | storeLocal n => .storeLocal n
  | loadArgument n => .loadArgument n
  | localAddress n => .localAddress n
  | int32 constant => .int32 constant
  | int64 constant => .int64 constant
  | nop => .plain "nop"
  | dup => .plain "dup"
  | pop => .plain "pop"
  | operation op => .plain op.name

open Machine (Run access push onStack) in
/-- What the line says. -/
def perform : StraightCall → Run Unit
  | loadLocal n => access .localVar n .load
  | storeLocal n => access .localVar n .store
  | loadArgument n => access .argument n .load
  | localAddress n => access .localVar n .address
  | int32 constant => push (.ofBits constant)
  | int64 constant => push (.int64 constant)
  | nop => pure ()
  | dup => onStack Stack.dup
  | pop => do let _ ← Machine.pop
  | operation op => op.perform

/-- Do what the lines say, one after the other; a failure tells how many
lines succeeded before it. -/
def run : List StraightCall → EStateM (Nat × MachineFault) Machine Unit
  | [] => pure ()
  | c :: rest => fun m =>
      match Machine.counted c.perform m with
      | .ok _ m =>
          match run rest m with
          | .ok _ m => .ok () m
          | .error (k, fault) m => .error (k + 1, fault) m
      | .error fault m => .error (0, fault) m

/-- The names of all computing instructions that listings have a line of
their own for. -/
def computing : List String :=
  ["add", "sub", "mul", "div", "div.un", "rem", "rem.un", "neg", "and", "or", "xor", "not",
    "shl", "shr", "shr.un", "add.ovf", "add.ovf.un", "mul.ovf.un",
    "ceq", "cgt", "cgt.un", "clt", "clt.un",
    "conv.i1", "conv.i2", "conv.i4", "conv.i8", "conv.u1", "conv.u2", "conv.u4", "conv.u8",
    "conv.i", "conv.u", "conv.r4", "conv.r8", "conv.r.un", "conv.ovf.u1", "conv.ovf.i4.un"]

theorem exists_operation_of_computing {name : String} (h : name ∈ computing) :
    ∃ op : Operation, op.name = name := by
  have hall : computing.all (fun name => Operation.all.any fun op => op.name == name) = true := by
    decide +kernel
  obtain ⟨op, -, hname⟩ := List.any_eq_true.mp (List.all_eq_true.mp hall name h)
  exact ⟨op, beq_iff_eq.mp hname⟩

/-! ## What a line yields, and what that does -/

/-- A step of the instruction does what the line says. -/
def Follows (c : StraightCall) (i : Instruction) : Prop :=
  Machine.step i = Machine.counted c.perform

/-- An instruction with an action does what the action asks for. -/
theorem follows_of_action {c : StraightCall} {i : Instruction} {action : Action}
    (hi : i.IsStatement) (haction : i.action = action) (hstraight : action.isStraight = true)
    (h : Machine.perform i action = c.perform) : c.Follows i := by
  subst haction
  rw [Follows, (hi.step_straight hstraight).2, h]

/-- Every line yields an instruction that does what the line says. -/
theorem yields_follows (c : StraightCall) : c.call.Yields c.Follows := by
  cases c with
  | loadLocal n => exact (Call.yields_loadLocal n).imp fun i hi h => hi.step_access h
  | storeLocal n => exact (Call.yields_storeLocal n).imp fun i hi h => hi.step_access h
  | loadArgument n => exact (Call.yields_loadArgument n).imp fun i hi h => hi.step_access h
  | localAddress n => exact (Call.yields_localAddress n).imp fun i hi h => follows_of_action hi h rfl rfl
  | int32 constant => exact (Call.yields_int32 constant).imp fun i hi h => hi.step_constant h
  | int64 constant =>
    refine (Call.yields_int64 constant).imp fun i hi h => follows_of_action hi h.1 rfl ?_
    simp only [Machine.perform, h.2, Machine.require, pure_bind]
    rfl
  | nop =>
    have hform : Row.forms? "nop" = some (.nop, .none) := by decide +kernel
    exact (Call.yields_plain hform rfl).imp fun i hi h => follows_of_action hi h rfl rfl
  | dup =>
    have hform : Row.forms? "dup" = some (.dup, .none) := by decide +kernel
    exact (Call.yields_plain hform rfl).imp fun i hi h => follows_of_action hi h rfl rfl
  | pop =>
    have hform : Row.forms? "pop" = some (.pop, .none) := by decide +kernel
    exact (Call.yields_plain hform rfl).imp fun i hi h => follows_of_action hi h rfl rfl
  | operation op =>
    have hstraight : op.action.isStraight = true := by cases op <;> rfl
    exact (Call.yields_plain op.forms?_name hstraight).imp fun i hi h =>
      follows_of_action hi h hstraight (op.perform_action i)

/-! ## Listings -/

/-- Instructions that do what the lines say run like the lines. -/
theorem run_of_follows {calls : List StraightCall} {is : List Instruction}
    (h : List.Forall₂ Follows calls is) (m : Machine) :
    Machine.run is m = run calls m := by
  induction h generalizing m with
  | nil => rfl
  | @cons c i calls is hfirst _ ih =>
    simp only [Machine.run, run, show Machine.step i = _ from hfirst]
    cases Machine.counted c.perform m with
    | error fault t => rfl
    | ok u t =>
      have hrest := ih t
      cases hrun : run calls t with
      | ok u' t' => simp only [hrest, hrun]
      | error e t' => simp only [hrest, hrun]

/-- **Assembled code runs as it is written.**  Every computing line has an
operation of its name.  Every listing of straight lines is assembled; its
code decodes, at any address; and from any state the instructions, stepped
through one after the other, do what the lines say, up to the same end or
the same fault at the same line. -/
theorem assemble_run :
    (∀ name ∈ computing, ∃ op : Operation, op.name = name) ∧
      ∀ calls : List StraightCall, ∃ p, Call.assemble (calls.map call) = .ok p ∧
        ∀ base, ∃ is, decode base p.code = .ok is ∧ ∀ m, Machine.run is m = run calls m := by
  refine ⟨fun name => exists_operation_of_computing, fun calls => ?_⟩
  have hyields : List.Forall₂ Call.Yields (calls.map call) (calls.map Follows) := by
    rw [List.forall₂_map_left_iff, List.forall₂_map_right_iff]
    exact List.forall₂_same.mpr fun c _ => c.yields_follows
  obtain ⟨p, hp, hdecode⟩ := Call.decode_of_yields hyields
  refine ⟨p, hp, fun base => ?_⟩
  obtain ⟨is, his, -, hfollows⟩ := hdecode base
  rw [List.forall₂_map_left_iff] at hfollows
  exact ⟨is, his, run_of_follows hfollows⟩

end StraightCall

end KeyLoop
