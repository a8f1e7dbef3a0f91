/-
# Actions that do not leave the stack

Only slot accesses look at the slots.  Everything else that an instruction
can ask for is an operation on the stack, whatever else the machine holds
(`onStack_perform`).  So what has to be said of all actions is said twice:
of the operations on the stack, and of the three ways to access a slot.
-/
import KeyLoop.Proofs.Machine.Frame

namespace KeyLoop

namespace Machine

variable {α β : Type}

/-- The run is an operation on the stack. -/
def OnStack (run : Run α) : Prop := ∃ op, run = onStack op

theorem onStack_pure (a : α) : OnStack (pure a) := ⟨pure a, rfl⟩

theorem onStack_throw (fault : MachineFault) : OnStack (throw fault : Run α) := ⟨throw fault, rfl⟩

/-- Operations on the stack, one behind the other. -/
theorem onStack_bind {run : Run α} {next : α → Run β} (h : OnStack run)
    (hnext : ∀ a, OnStack (next a)) : OnStack (run >>= next) := by
  obtain ⟨op, rfl⟩ := h
  obtain ⟨f, hf⟩ := Classical.skolem.mp hnext
  obtain rfl : next = fun a => onStack (f a) := funext hf
  refine ⟨op >>= f, funext fun m => ?_⟩
  simp only [onStack, bind, EStateM.bind]
  cases op m.stack <;> rfl

theorem composes_onStack : Composes fun {α} (run : Run α) => OnStack run :=
  ⟨onStack_pure, onStack_throw, onStack_bind⟩

/-- What is no slot access is an operation on the stack. -/
theorem onStack_perform (i : Instruction) {action : Action}
    (h : ∀ kind access place, action ≠ .slot kind access place) : OnStack (perform i action) :=
  composes_onStack.perform i (fun _ => ⟨_, rfl⟩) ⟨_, rfl⟩ (fun _ => ⟨_, rfl⟩) ⟨_, rfl⟩ action
    fun kind access place haction => absurd haction (h kind access place)

end Machine

end KeyLoop
