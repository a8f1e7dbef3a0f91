/-
# `Emulator` — what running a loop needs of a machine

The computation of key words uses few operations of a machine, and any state
that offers them will do.  The machine of `Machine.Basic` is one; `Counted`
puts a count of the steps asked for in front of any other.
-/
import KeyLoop.Machine.Basic

namespace KeyLoop

/-- States on which a loop can be run. -/
class Emulator (σ : Type) where
  /-- The state at the entry of a method with these arguments and locals. -/
  enter : (arguments locals : List Declaration) → (zeroed : Bool) → σ → σ
  setLocal : BitVec 16 → Value → EStateM MachineFault σ Unit
  /-- The value of a local, if it is declared. -/
  local? : σ → BitVec 16 → Option Value
  step : Instruction → EStateM MachineFault σ Unit
  pop : EStateM MachineFault σ Value

namespace Machine

/-- The value of a local, if it is declared. -/
def local? (m : Machine) (index : BitVec 16) : Option Value := (m.locals.find? index).map (·.value)

def setLocal (index : BitVec 16) (v : Value) : Run Unit := onSlots .localVar (Slots.set index v)

instance : Emulator Machine where
  enter := enter
  setLocal := setLocal
  local? := local?
  step := step
  pop := pop

end Machine

/-- A state with a count of the steps that were asked for, failing ones included. -/
structure Counted (σ : Type) where
  inner : σ
  steps : Nat
deriving DecidableEq, Repr

namespace Counted

/-- An operation on the inner state. -/
def onInner {σ α : Type} (op : EStateM MachineFault σ α) : EStateM MachineFault (Counted σ) α :=
  fun c =>
    match op c.inner with
    | .ok a inner => .ok a { c with inner }
    | .error e inner => .error e { c with inner }

instance {σ : Type} [Emulator σ] : Emulator (Counted σ) where
  enter arguments locals zeroed c := { c with inner := Emulator.enter arguments locals zeroed c.inner }
  setLocal index v := onInner (Emulator.setLocal index v)
  local? c index := Emulator.local? c.inner index
  step i := do
    modify fun c => { c with steps := c.steps + 1 }
    onInner (Emulator.step i)
  pop := onInner Emulator.pop

end Counted

end KeyLoop
