/-
# Limits are never exceeded

Whatever a machine is told to do, in any order and whether it succeeds or
fails, its stack is no deeper than its limit, and it has begun no more
instructions than it may:

    entering a method      leaves no value on the stack and a count of zero
    a push                 looks at the depth first
    what takes values      makes the stack no deeper
    a step                 looks at the count first, and counts one

The counts of an instruction that no decoding has given can be anything, and
so an instruction without a model may be told to push more values than there
is room for.  It pushes them one at a time: the push that finds no room fails,
and the ones before it stay, up to the limit and not beyond it.  Nothing has to
be known of the counts for this, only of a single push.
-/
import KeyLoop.Proofs.Machine.StoredSlots

namespace KeyLoop

/-! ## The stack -/

namespace Stack

/-- The stack has room for so many values, and no more than that. -/
structure FitsIn (room : Nat) (s : Stack) : Prop where
  limit : s.limit = room
  depth : s.depth ≤ room

variable {room : Nat}

theorem fitsIn_empty (room : Nat) : FitsIn room (empty room) := ⟨rfl, Nat.zero_le room⟩

/-- A push adds a value only below the limit. -/
theorem fitsIn_push (v : Value) : Keeps (FitsIn room) (push v) := by
  intro s hs
  unfold after push
  by_cases hroom : s.depth < s.limit
  · simp only [if_pos hroom]
    refine ⟨hs.limit, ?_⟩
    rw [hs.limit] at hroom
    exact Nat.succ_le_of_lt hroom
  · simp only [if_neg hroom]
    exact hs

theorem fitsIn_pop : Keeps (FitsIn room) pop := by
  intro s hs
  unfold after pop
  cases hvalues : s.values with
  | nil => simpa only [hvalues] using hs
  | cons v rest =>
    have hdepth := hs.depth
    rw [depth, hvalues, List.length_cons] at hdepth
    exact ⟨hs.limit, Nat.le_of_succ_le hdepth⟩

theorem fitsIn_peek : Keeps (FitsIn room) peek := by
  intro s hs
  unfold after peek
  cases s.values <;> exact hs

theorem fitsIn_discard (count : Nat) : Keeps (FitsIn room) (discard count) := by
  intro s hs
  unfold after discard
  by_cases henough : count ≤ s.depth
  · simp only [if_pos henough]
    have hdrop : (s.values.drop count).length ≤ s.values.length := by
      rw [List.length_drop]
      exact Nat.sub_le _ _
    exact ⟨hs.limit, Nat.le_trans hdrop hs.depth⟩
  · simp only [if_neg henough]
    exact hs

theorem fitsIn_dup : Keeps (FitsIn room) dup := keeps_bind fitsIn_peek fitsIn_push

end Stack

namespace Machine

variable {α : Type} {l : Limits} {m : Machine}

/-- The machine works under these limits and has kept to them. -/
structure Within (l : Limits) (m : Machine) : Prop where
  limits : m.limits = l
  stack : m.stack.FitsIn l.maxStack
  count : l.maxInstructions = 0 ∨ m.executed ≤ l.maxInstructions

theorem within_new (l : Limits) : Within l (new l) :=
  ⟨rfl, Stack.fitsIn_empty l.maxStack, .inr (Nat.zero_le _)⟩

/-- Entering a method starts anew, under the same limits. -/
theorem within_enter (h : Within l m) (arguments locals : List Declaration) (zeroed : Bool) :
    Within l (m.enter arguments locals zeroed) := by
  obtain ⟨rfl, -, -⟩ := h
  exact ⟨rfl, Stack.fitsIn_empty _, .inr (Nat.zero_le _)⟩

/-! ## The parts of a step -/

theorem within_onStack {op : EStateM MachineFault Stack α} (h : Keeps (Stack.FitsIn l.maxStack) op) :
    Keeps (Within l) (onStack op) := by
  intro m hm
  have hop := h m.stack hm.stack
  unfold after onStack
  cases hrun : op m.stack with
  | ok a s => exact { hm with stack := after_ok hrun ▸ hop }
  | error e s => exact { hm with stack := after_error hrun ▸ hop }

theorem within_onSlots (kind : SlotKind) (op : EStateM MachineFault Slots α) :
    Keeps (Within l) (onSlots kind op) := by
  intro m hm
  unfold after
  rw [onSlots_eq]
  cases op (m.slots kind) <;> cases kind <;> exact { hm with }

theorem within_push (v : Value) : Keeps (Within l) (push v) := within_onStack (Stack.fitsIn_push v)

theorem within_pop : Keeps (Within l) pop := within_onStack Stack.fitsIn_pop

/-- Whatever an action asks for, and whatever the instruction says of its own counts. -/
theorem within_perform (i : Instruction) (action : Action) : Keeps (Within l) (perform i action) := by
  refine (composes_keeps (Within l)).perform i within_push within_pop
    (fun count => within_onStack (Stack.fitsIn_discard count)) (within_onStack Stack.fitsIn_dup) action
    fun kind access place _ => ?_
  exact (composes_keeps (Within l)).accessSlot i within_push within_pop
    (fun kind _ => within_onSlots kind _) kind access place fun _ _ _ _ => within_onSlots kind _

/-- A step that can begin leaves room for one more, and that is what it counts. -/
theorem within_begun (h : Within l m) (hbegins : ¬ m.Exhausted) : Within l m.begun := by
  obtain ⟨rfl, hstack, -⟩ := h
  refine ⟨rfl, hstack, ?_⟩
  unfold Exhausted at hbegins
  show m.limits.maxInstructions = 0 ∨ m.executed + 1 ≤ m.limits.maxInstructions
  omega

theorem within_step (i : Instruction) : Keeps (Within l) (step i) :=
  keeps_step_of_perform i (fun _ hbegins hn => within_begun hn hbegins) (within_perform i i.action)

/-! ## Whatever a machine is told -/

/-- What a machine may be told to do: to enter a method, perhaps not its first
one, and what may be asked of it then. -/
inductive Command where
  | enter (arguments locals : List Declaration) (zeroed : Bool)
  | call (call : Call)
deriving DecidableEq, Repr

/-- The machine after a command, whether that succeeds or fails. -/
def afterCommand (m : Machine) : Command → Machine
  | .enter arguments locals zeroed => m.enter arguments locals zeroed
  | .call call => m.afterCall call

/-- The machine after commands, one after the other. -/
def afterCommands (m : Machine) (commands : List Command) : Machine := commands.foldl afterCommand m

theorem within_afterCall (h : Within l m) (call : Call) : Within l (m.afterCall call) := by
  cases call with
  | setLocal index v => exact within_onSlots .localVar (Slots.set index v) m h
  | step i => exact within_step i m h
  | pop => exact within_pop m h

theorem within_afterCommand (h : Within l m) (command : Command) : Within l (m.afterCommand command) := by
  cases command with
  | enter arguments locals zeroed => exact within_enter h arguments locals zeroed
  | call call => exact within_afterCall h call

theorem within_afterCommands (h : Within l m) (commands : List Command) :
    Within l (m.afterCommands commands) := by
  induction commands generalizing m with
  | nil => exact h
  | cons command commands ih => exact ih (within_afterCommand h command)

/-- **Limits are never exceeded.**  A machine that is new under some limits, and
has been told anything since, with calls among it that have failed, methods
that have been entered in between, and instructions with whatever counts, has
at most so many values on its stack and has begun at most so many instructions
as the limits allow. -/
theorem limits_hold (l : Limits) (commands : List Command) :
    ((new l).afterCommands commands).stack.depth ≤ l.maxStack ∧
      (l.maxInstructions ≠ 0 → ((new l).afterCommands commands).executed ≤ l.maxInstructions) := by
  have hwithin := within_afterCommands (within_new l) commands
  refine ⟨hwithin.stack.depth, fun hlimited => ?_⟩
  exact hwithin.count.resolve_left hlimited

/-- An instruction that claims to push five values fails with two of them on the stack. -/
example :
    let i : Instruction :=
      { mnemonic := "arglist", category := .misc, flow := .sequential, pops := 0, pushes := 5
        address := 0, offset := 0, size := 2, opcode := .extended 0x00, operand := .none, targets := [] }
    let m := (new ⟨2, 1⟩).afterCommands [.call (.step i), .call (.step i)]
    m.stack.depth = 2 ∧ m.executed = 1 := by
  decide +kernel

end Machine

end KeyLoop
