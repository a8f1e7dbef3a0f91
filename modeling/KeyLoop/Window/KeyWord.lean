/-
# Key words — running a located update

A key word follows from the word before it: the update runs once from a
fresh state in which the running sum holds the previous word, and what it
leaves on top of the stack is the next word.

A guarded update contains decrements that are skipped unless their local is
zero:

    ldloc X; ldc.i4 0; bne.un L; ldloc X; ldc.i4 1; sub; stloc X; L:

The machine does not follow branches, so a guard whose local is known to be
different from zero is passed over as a whole.
-/
import KeyLoop.Machine.Emulator
import KeyLoop.Window.Locate

namespace KeyLoop

/-- What computing key words needs to know. -/
structure Generator where
  window : Window
  arguments : List Declaration
  locals : List Declaration
  initLocals : Bool
deriving DecidableEq, Repr

namespace Generator

/-- The generator for a window of a method. -/
def ofWindow (m : Method) (window : Window) : Generator :=
  { window, arguments := m.arguments, locals := m.locals, initLocals := m.initLocals }

/-- How many instructions a guarded decrement has. -/
def guardLength : Nat := 7

/-- The local that a guarded decrement at the front of the code decrements. -/
def guardedLocal? : List Instruction → Option (BitVec 16)
  | test :: zero :: skip :: load :: one :: minus :: save :: _ =>
      if test.loadsLocal && zero.int32Constant? == some 0 && skip.isBneUn
          && load.loadsLocal && one.int32Constant? == some 1
          && minus.opcode == .sub && save.storesLocal then
        save.localIndex?
      else none
  | _ => none

variable {σ : Type} [Emulator σ]

/-- A guarded decrement is at the front of the code, and its local is known
not to be zero. -/
def guardIsDead (s : σ) (code : List Instruction) : Bool :=
  ((guardedLocal? code).bind (Emulator.local? s)).any (·.isNonzero)

/-- Run instructions one after the other, passing over dead guards if asked to. -/
def runCode (guarded : Bool) : List Instruction → EStateM MachineFault σ Unit
  | [] => pure ()
  | i :: rest => fun s =>
      if guarded && guardIsDead s (i :: rest) then runCode guarded (rest.drop (guardLength - 1)) s
      else
        match Emulator.step i s with
        | .ok _ s => runCode guarded rest s
        | .error e s => .error e s
termination_by code => code.length
decreasing_by
  · simp only [List.length_drop, List.length_cons]; omega
  · simp

/-- Run the update once, from a fresh state in which the running sum is `input`. -/
def runWindow (g : Generator) (input : BitVec 32) : EStateM MachineFault σ Value := do
  modify (Emulator.enter g.arguments g.locals g.initLocals)
  Emulator.setLocal g.window.accumulator (.ofBits input)
  runCode (g.window.dialect == .guarded) g.window.code
  Emulator.pop

/-- The key word that follows `input`. -/
def keyWord (g : Generator) (input : BitVec 32) : EStateM KeyWordFault σ (BitVec 32) := fun s =>
  match g.runWindow input s with
  | .ok result s =>
      match result.toBits? with
      | some word => .ok word s
      | none => .error (.notConcrete result) s
  | .error fault s => .error (.machine fault) s

/-- The first `count` key words, each computed from the one before it.  The
keystream ends with the first word that cannot be computed. -/
def keystream (g : Generator) (sum : BitVec 32) :
    (count : Nat) → σ → List (Except KeyWordFault (BitVec 32)) × σ
  | 0, s => ([], s)
  | count + 1, s =>
      match g.keyWord sum s with
      | .ok word s =>
          let (words, s) := keystream g word count s
          (.ok word :: words, s)
      | .error fault s => ([.error fault], s)

end Generator

end KeyLoop
