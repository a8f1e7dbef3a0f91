/-
# Limits are thresholds

The machine looks at its limits in two places: a push compares the depth of
the stack with the one, the beginning of a step compares the count of steps
with the other.  Nothing that the limits say gets into a value or decides what
is done next.  So of a run on a machine one of two is true:

    never     it fails, whatever the limits are
    above     there are a depth and a count, and it comes to the same end
              under all limits that allow these, and fails under all others

This is put together from the parts of a run (`thresholded_step`): of two runs
one after the other the greater depth and the greater count are needed, a push
needs room for one more value, and the step that is begun as number `k` needs
a count of `k`.
-/
import KeyLoop.Proofs.Machine.Effects

namespace KeyLoop

namespace Limits

/-- A stack of this depth and this many instructions are allowed. -/
def Allow (l : Limits) (depth count : Nat) : Prop :=
  depth ≤ l.maxStack ∧ (l.maxInstructions = 0 ∨ count ≤ l.maxInstructions)

instance (l : Limits) (depth count : Nat) : Decidable (l.Allow depth count) :=
  inferInstanceAs (Decidable (_ ∧ _))

theorem allow_zero (l : Limits) : l.Allow 0 0 := ⟨Nat.zero_le _, .inr (Nat.zero_le _)⟩

theorem allow_max {l : Limits} {depth depth' count count' : Nat} :
    l.Allow (max depth depth') (max count count') ↔ l.Allow depth count ∧ l.Allow depth' count' := by
  unfold Allow
  omega

/-- `l'` allows as deep a stack as `l` or a deeper one, and as many instructions
or more; zero stands for any number. -/
structure Raised (l l' : Limits) : Prop where
  maxStack : l.maxStack ≤ l'.maxStack
  maxInstructions : l'.maxInstructions = 0 ∨
    l.maxInstructions ≠ 0 ∧ l.maxInstructions ≤ l'.maxInstructions

/-- Raised limits allow what was allowed before. -/
theorem Allow.raise {l l' : Limits} {depth count : Nat} (h : l.Allow depth count)
    (hraised : l.Raised l') : l'.Allow depth count := by
  obtain ⟨hstack, hinstructions⟩ := hraised
  unfold Allow at h ⊢
  omega

end Limits

namespace Machine

variable {α β : Type} {m m' m'' : Machine}

/-- The machine under other limits. -/
def under (m : Machine) (l : Limits) : Machine :=
  { m with limits := l, stack := { m.stack with limit := l.maxStack } }

@[simp] theorem slots_under (m : Machine) (l : Limits) : (m.under l).slots = m.slots := by
  funext kind
  cases kind <;> rfl

theorem withSlots_under (m : Machine) (l : Limits) (kind : SlotKind) (s : Slots) :
    (m.under l).withSlots kind s = (m.withSlots kind s).under l := by
  cases kind <;> rfl

/-! ## Runs under all limits -/

/-- The run fails. -/
def Faults (run : Run α) (m : Machine) : Prop := ∃ fault m', run m = .error fault m'

/-- The run comes to `a` and `m'` under the limits that allow this depth and
this count, and to a fault under all others. -/
structure Needs (run : Run α) (m : Machine) (depth count : Nat) (a : α) (m' : Machine) : Prop where
  enough : ∀ l : Limits, l.Allow depth count → run (m.under l) = .ok a (m'.under l)
  short : ∀ l : Limits, ¬ l.Allow depth count → Faults run (m.under l)
  /-- The count is reached by the steps that have been begun. -/
  executed : m'.executed = max m.executed count

/-- What the limits can make of a run from a machine. -/
inductive HasThresholds (run : Run α) (m : Machine) : Prop
  | never (h : ∀ l, Faults run (m.under l))
  | above (depth count : Nat) (a : α) (m' : Machine) (h : Needs run m depth count a m')

/-- The limits are thresholds for the run, from whatever machine. -/
def Thresholded (run : Run α) : Prop := ∀ m, HasThresholds run m

section Rules

theorem Faults.bind {run : Run α} (h : Faults run m) (next : α → Run β) :
    Faults (run >>= next) m := by
  obtain ⟨fault, s, hrun⟩ := h
  exact ⟨fault, s, by simp only [Bind.bind, EStateM.bind, hrun]⟩

theorem bind_eq_of_ok {run : Run α} {a : α} (h : run m = .ok a m') (next : α → Run β) :
    (run >>= next) m = next a m' := by
  simp only [Bind.bind, EStateM.bind, h]

/-- A run that looks at no limit and counts no step. -/
theorem Needs.nothing {run : Run α} {a : α} (h : ∀ l, run (m.under l) = .ok a (m'.under l))
    (hexecuted : m'.executed = m.executed) : Needs run m 0 0 a m' where
  enough l _ := h l
  short l hl := absurd l.allow_zero hl
  executed := by rw [hexecuted, Nat.max_zero]

/-- Two runs need the greater depth and the greater count. -/
theorem Needs.bind {run : Run α} {next : α → Run β} {depth depth' count count' : Nat} {a : α} {b : β}
    (h : Needs run m depth count a m') (hnext : Needs (next a) m' depth' count' b m'') :
    Needs (run >>= next) m (max depth depth') (max count count') b m'' where
  enough l hl := by
    obtain ⟨hfirst, hsecond⟩ := Limits.allow_max.mp hl
    rw [bind_eq_of_ok (h.enough l hfirst)]
    exact hnext.enough l hsecond
  short l hl := by
    by_cases hfirst : l.Allow depth count
    · obtain ⟨fault, s, hfault⟩ := hnext.short l fun hsecond => hl (Limits.allow_max.mpr ⟨hfirst, hsecond⟩)
      exact ⟨fault, s, (bind_eq_of_ok (h.enough l hfirst) next).trans hfault⟩
    · exact (h.short l hfirst).bind next
  executed := by
    have hfirst := h.executed
    have hsecond := hnext.executed
    omega

theorem thresholded_pure (a : α) : Thresholded (pure a) :=
  fun m => .above 0 0 a m (.nothing (fun _ => rfl) rfl)

theorem thresholded_throw (fault : MachineFault) : Thresholded (throw fault : Run α) :=
  fun m => .never fun l => ⟨fault, m.under l, rfl⟩

theorem HasThresholds.bind {run : Run α} {next : α → Run β} (h : HasThresholds run m)
    (hnext : ∀ a, Thresholded (next a)) : HasThresholds (run >>= next) m := by
  cases h with
  | never hnever => exact .never fun l => (hnever l).bind next
  | above depth count a m' hrun =>
    cases hnext a m' with
    | never hnever =>
      refine .never fun l => ?_
      by_cases hl : l.Allow depth count
      · obtain ⟨fault, s, hfault⟩ := hnever l
        exact ⟨fault, s, (bind_eq_of_ok (hrun.enough l hl) next).trans hfault⟩
      · exact (hrun.short l hl).bind next
    | above depth' count' b m'' hthen =>
      exact .above _ _ b m'' (hrun.bind hthen)

/-- Runs that come to the same from this machine, whatever the limits are. -/
theorem HasThresholds.congr {run run' : Run α} (h : HasThresholds run m)
    (hrun : ∀ l, run' (m.under l) = run (m.under l)) : HasThresholds run' m := by
  cases h with
  | never hnever =>
    refine .never fun l => ?_
    rw [Faults, hrun]
    exact hnever l
  | above depth count a m' hneeds =>
    refine .above depth count a m' ⟨fun l hl => ?_, fun l hl => ?_, hneeds.executed⟩
    · rw [hrun]
      exact hneeds.enough l hl
    · rw [Faults, hrun]
      exact hneeds.short l hl

theorem thresholded_bind {run : Run α} {next : α → Run β} (h : Thresholded run)
    (hnext : ∀ a, Thresholded (next a)) : Thresholded (run >>= next) := fun m => (h m).bind hnext

end Rules

/-! ## The parts of a step -/

/-- A push needs room for one more value. -/
theorem thresholded_push (v : Value) : Thresholded (push v) := by
  intro m
  refine .above (m.stack.depth + 1) 0 () { m with stack := { m.stack with values := v :: m.stack.values } }
    ⟨fun l hl => ?_, fun l hl => ?_, (Nat.max_zero _).symm⟩
  · have hroom : m.stack.depth < l.maxStack := hl.1
    have hpush : Stack.push v (m.under l).stack = .ok () ⟨v :: m.stack.values, l.maxStack⟩ := if_pos hroom
    simp only [push, onStack, hpush]
    rfl
  · have hfull : ¬ m.stack.depth < l.maxStack := fun hroom => hl ⟨hroom, .inr (Nat.zero_le _)⟩
    have hpush : Stack.push v (m.under l).stack = .error (.stackOverflow l.maxStack) (m.under l).stack :=
      if_neg hfull
    exact ⟨_, _, by simp only [push, onStack, hpush]; rfl⟩

theorem thresholded_pop : Thresholded pop := by
  intro m
  cases hvalues : m.stack.values with
  | nil =>
    refine .never fun l => ⟨.stackUnderflow, m.under l, ?_⟩
    simp only [pop, onStack, Stack.pop, under, hvalues]
  | cons v rest =>
    refine .above 0 0 v { m with stack := { m.stack with values := rest } } (.nothing (fun l => ?_) rfl)
    simp only [pop, onStack, Stack.pop, under, hvalues]

theorem thresholded_discard (count : Nat) : Thresholded (discard count) := by
  intro m
  by_cases hcount : count ≤ m.stack.depth
  · refine .above 0 0 () { m with stack := { m.stack with values := m.stack.values.drop count } }
      (.nothing (fun l => ?_) rfl)
    have hdiscard : Stack.discard count (m.under l).stack =
        .ok () ⟨m.stack.values.drop count, l.maxStack⟩ := if_pos hcount
    simp only [discard, onStack, hdiscard]
    rfl
  · refine .never fun l => ?_
    have hdiscard : Stack.discard count (m.under l).stack = .error .stackUnderflow (m.under l).stack :=
      if_neg hcount
    exact ⟨_, _, by simp only [discard, onStack, hdiscard]; rfl⟩

/-- Repeating the top value is pushing it. -/
theorem thresholded_dup : Thresholded (onStack Stack.dup) := by
  intro m
  cases hvalues : m.stack.values with
  | nil =>
    refine .never fun l => ⟨.stackUnderflow, m.under l, ?_⟩
    simp only [onStack, Stack.dup, Stack.peek, Bind.bind, EStateM.bind, under, hvalues]
  | cons v rest =>
    refine (thresholded_push v m).congr fun l => ?_
    simp only [onStack, push, Stack.dup, Stack.peek, Bind.bind, EStateM.bind, under, hvalues]

/-- The slots have no part in the limits. -/
theorem thresholded_onSlots (kind : SlotKind) (op : EStateM MachineFault Slots α) :
    Thresholded (onSlots kind op) := by
  intro m
  cases hop : op (m.slots kind) with
  | ok a s =>
    refine .above 0 0 a (m.withSlots kind s) (.nothing (fun l => ?_) ?_)
    · rw [onSlots_eq, slots_under, hop, ← withSlots_under]
    · cases kind <;> rfl
  | error fault s =>
    refine .never fun l => ⟨fault, (m.withSlots kind s).under l, ?_⟩
    rw [onSlots_eq, slots_under, hop, ← withSlots_under]

theorem composes_thresholded : Composes fun {α} (run : Run α) => Thresholded run :=
  ⟨thresholded_pure, thresholded_throw, thresholded_bind⟩

theorem thresholded_perform (i : Instruction) (action : Action) : Thresholded (perform i action) := by
  refine composes_thresholded.perform i thresholded_push thresholded_pop thresholded_discard
    thresholded_dup action fun kind access place _ => ?_
  exact composes_thresholded.accessSlot i thresholded_push thresholded_pop
    (fun kind _ => thresholded_onSlots kind _) kind access place
    fun _ _ _ _ => thresholded_onSlots kind _

/-! ## Steps -/

/-- A step can begin where one more instruction is allowed. -/
theorem exhausted_under_iff {l : Limits} :
    (m.under l).Exhausted ↔ ¬ l.Allow 0 (m.executed + 1) := by
  have hunder : (m.under l).Exhausted ↔ l.maxInstructions ≠ 0 ∧ l.maxInstructions ≤ m.executed := .rfl
  rw [hunder, Limits.Allow]
  omega

theorem allow_begun_iff {l : Limits} {depth count : Nat} :
    l.Allow depth (max (m.executed + 1) count) ↔ ¬ (m.under l).Exhausted ∧ l.Allow depth count := by
  rw [exhausted_under_iff, not_not, ← Limits.allow_max, Nat.zero_max]

/-- **The limits are thresholds for a step**: it needs the count of which it is
the next one, and the depth to which it pushes. -/
theorem thresholded_step (i : Instruction) : Thresholded (step i) := by
  intro m
  have hexhausted : ∀ l, (m.under l).Exhausted → Faults (step i) (m.under l) := by
    intro l hl
    rw [Faults, step_eq, if_pos hl]
    exact ⟨_, _, rfl⟩
  by_cases hmodel : Unsupported i
  · refine .never fun l => ?_
    by_cases hl : (m.under l).Exhausted
    · exact hexhausted l hl
    · rw [Faults, step_eq, if_neg hl, if_pos hmodel]
      exact ⟨_, _, rfl⟩
  · -- what a step that can begin comes to
    have hstep : ∀ l, ¬ (m.under l).Exhausted →
        step i (m.under l) = perform i i.action (m.begun.under l) := by
      intro l hl
      rw [step_eq, if_neg hl, if_neg hmodel]
      rfl
    cases thresholded_perform i i.action m.begun with
    | never hnever =>
      refine .never fun l => ?_
      by_cases hl : (m.under l).Exhausted
      · exact hexhausted l hl
      · rw [Faults, hstep l hl]
        exact hnever l
    | above depth count a m' h =>
      refine .above depth (max (m.executed + 1) count) a m' ⟨fun l hl => ?_, fun l hl => ?_, ?_⟩
      · obtain ⟨hbegin, hrest⟩ := allow_begun_iff.mp hl
        rw [hstep l hbegin]
        exact h.enough l hrest
      · by_cases hbegin : (m.under l).Exhausted
        · exact hexhausted l hbegin
        · rw [Faults, hstep l hbegin]
          exact h.short l fun hrest => hl (allow_begun_iff.mpr ⟨hbegin, hrest⟩)
      · have hexecuted : m'.executed = max (m.executed + 1) count := h.executed
        omega

/-! ## How many steps are begun -/

theorem executed_onStack (op : EStateM MachineFault Stack α) (n : Nat) :
    Keeps (fun m : Machine => m.executed = n) (onStack op) := by
  intro m hm
  unfold after onStack
  cases op m.stack <;> exact hm

theorem executed_onSlots (kind : SlotKind) (op : EStateM MachineFault Slots α) (n : Nat) :
    Keeps (fun m : Machine => m.executed = n) (onSlots kind op) := by
  intro m hm
  unfold after
  rw [onSlots_eq]
  cases op (m.slots kind) <;> cases kind <;> exact hm

theorem executed_perform (i : Instruction) (action : Action) (n : Nat) :
    Keeps (fun m : Machine => m.executed = n) (perform i action) :=
  keeps_perform i (fun op _ => executed_onStack op n) (fun kind _ => executed_onSlots kind _ n) action
    fun kind _ _ _ _ _ => executed_onSlots kind _ n

/-- A step that has begun counts as one, whether it succeeds or fails. -/
theorem executed_step (i : Instruction) (m : Machine) :
    (after (step i) m).executed = if m.Exhausted then m.executed else m.executed + 1 := by
  have hstep := step_eq i m
  by_cases hlimit : m.Exhausted
  · rw [if_pos hlimit] at hstep ⊢
    rw [after_error hstep]
  · rw [if_neg hlimit] at hstep ⊢
    by_cases hmodel : Unsupported i
    · rw [if_pos hmodel] at hstep
      rw [after_error hstep]
      rfl
    · rw [if_neg hmodel] at hstep
      have hperform := executed_perform i i.action (m.executed + 1) m.begun rfl
      simpa only [after, hstep] using hperform

theorem executed_of_step_ok {i : Instruction} {u : Unit} (h : step i m = .ok u m') :
    m'.executed = m.executed + 1 := by
  have hexecuted := executed_step i m
  rwa [after_ok h, if_neg (step_ok_iff.mp h).1] at hexecuted

end Machine

end KeyLoop
