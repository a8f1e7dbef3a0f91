/-
# What a step cannot change

A step moves values: those of the stack, those of the slots, and the count
of the steps begun.  The limits and the declarations of the slots stay as
they are, after a success and after a failure alike (`frame_step`).

The rules below say of a run of any kind that it keeps a property of its
state.  A run made of runs that keep the property keeps it, so what a step
keeps is read off its parts (`keeps_step`): the operations on the stack, the
loads, and the stores of the slots it stores.  Keeping is not the only property
that a run has from its parts, so the parts of an action are gone through for
all such properties at once (`Composes.perform`).
-/
import KeyLoop.Machine.Emulator

namespace KeyLoop

/-- The state that a run ends in, whether it succeeds or fails. -/
def after {ε σ α : Type} (run : EStateM ε σ α) (s : σ) : σ :=
  match run s with
  | .ok _ s => s
  | .error _ s => s

theorem after_ok {ε σ α : Type} {run : EStateM ε σ α} {s s' : σ} {a : α}
    (h : run s = .ok a s') : after run s = s' := by
  simp only [after, h]

theorem after_error {ε σ α : Type} {run : EStateM ε σ α} {s s' : σ} {e : ε}
    (h : run s = .error e s') : after run s = s' := by
  simp only [after, h]

/-- A run from a state with the property ends in one with the property. -/
def Keeps {ε σ α : Type} (I : σ → Prop) (run : EStateM ε σ α) : Prop := ∀ s, I s → I (after run s)

section Rules

variable {ε σ α β : Type} {I : σ → Prop}

theorem keeps_pure (a : α) : Keeps I (pure a : EStateM ε σ α) := fun _ h => h

theorem keeps_throw (e : ε) : Keeps I (throw e : EStateM ε σ α) := fun _ h => h

theorem keeps_bind {run : EStateM ε σ α} {next : α → EStateM ε σ β} (h : Keeps I run)
    (hnext : ∀ a, Keeps I (next a)) : Keeps I (run >>= next) := by
  intro s hs
  have hrun := h s hs
  cases hr : run s with
  | ok a s' =>
    rw [after_ok hr] at hrun
    have hthen := hnext a s' hrun
    simpa only [after, bind, EStateM.bind, hr] using hthen
  | error e s' =>
    rw [after_error hr] at hrun
    simpa only [after, bind, EStateM.bind, hr] using hrun

end Rules

namespace Slots

/-- The declarations of the slots, in order. -/
def declarations (s : Slots) : List Declaration := s.slots.map (·.toDeclaration)

/-- Storing to a slot keeps all declarations. -/
@[simp] theorem declarations_store (s : Slots) (index : BitVec 16) (v : Value) :
    (s.store index v).declarations = s.declarations := by
  simp only [declarations, store, List.map_map]
  apply List.map_congr_left
  intro slot _
  simp only [Function.comp_apply]
  split <;> rfl

/-- Two groups of slots of one kind with the same declarations. -/
structure SameFrame (s t : Slots) : Prop where
  kind : s.kind = t.kind
  declarations : s.declarations = t.declarations

theorem SameFrame.refl (s : Slots) : SameFrame s s := ⟨rfl, rfl⟩

theorem SameFrame.symm {s t : Slots} (h : SameFrame s t) : SameFrame t s :=
  ⟨h.kind.symm, h.declarations.symm⟩

theorem SameFrame.trans {s t u : Slots} (h : SameFrame s t) (h' : SameFrame t u) :
    SameFrame s u := ⟨h.kind.trans h'.kind, h.declarations.trans h'.declarations⟩

theorem frame_get (index : BitVec 16) (s : Slots) : SameFrame (after (get index) s) s := by
  unfold after get
  cases s.find? index <;> exact .refl s

theorem frame_set (index : BitVec 16) (v : Value) (s : Slots) :
    SameFrame (after (set index v) s) s := by
  unfold after set
  by_cases h : (s.find? index).isSome
  · simp only [if_pos h]
    exact ⟨rfl, declarations_store s index v⟩
  · simp only [if_neg h]
    exact .refl s

end Slots

namespace Stack

/-- An operation on the stack that leaves the limit alone. -/
def KeepsLimit {α : Type} (op : EStateM MachineFault Stack α) : Prop :=
  ∀ s, (after op s).limit = s.limit

theorem limit_push (v : Value) : KeepsLimit (push v) := by
  intro s
  unfold after push
  by_cases h : s.depth < s.limit <;> simp only [h, if_true, if_false]

theorem limit_pop : KeepsLimit pop := by
  intro s
  unfold after pop
  cases s.values <;> rfl

theorem limit_peek : KeepsLimit peek := by
  intro s
  unfold after peek
  cases s.values <;> rfl

theorem limit_discard (count : Nat) : KeepsLimit (discard count) := by
  intro s
  unfold after discard
  by_cases h : count ≤ s.depth <;> simp only [h, if_true, if_false]

theorem limit_dup : KeepsLimit dup := by
  intro s
  exact keeps_bind (I := fun t => t.limit = s.limit)
    (fun t h => (limit_peek t).trans h) (fun v t h => (limit_push v t).trans h) s rfl

end Stack

namespace Machine

/-! ## The parts of a step -/

/-- A property of runs that a run has if its parts have it. -/
structure Composes (P : ∀ {α : Type}, Run α → Prop) : Prop where
  pure {α : Type} (a : α) : P (pure a)
  throw {α : Type} (fault : MachineFault) : P (throw fault : Run α)
  bind {α β : Type} {run : Run α} {next : α → Run β} (h : P run) (hnext : ∀ a, P (next a)) :
    P (run >>= next)

namespace Composes

variable {P : ∀ {α : Type}, Run α → Prop} (hP : Composes P) (i : Instruction)

include hP

theorem require {α : Type} (wanted : Constant) (a? : Option α) : P (require i wanted a?) := by
  cases a? with
  | none => exact hP.throw _
  | some a => exact hP.pure a

theorem pushUnknown (hpush : ∀ v, P (push v)) (count : Nat) : P (pushUnknown count) := by
  induction count with
  | zero => exact hP.pure ()
  | succ count ih => exact hP.bind (hpush .unknown) fun _ => ih

/-- An access has the property if its parts have it; of the stores only the one
that the instruction makes counts. -/
theorem accessSlot (hpush : ∀ v, P (push v)) (hpop : P pop)
    (hget : ∀ kind index, P (onSlots kind (Slots.get index))) (kind : SlotKind) (access : SlotAccess)
    (place : Place (BitVec 16)) (hset : ∀ index v, access = .store → i.indexAt? place = some index →
      P (onSlots kind (Slots.set index v))) :
    P (accessSlot i kind access place) := by
  cases access with
  | load =>
    exact hP.bind (hP.require i .slotIndex _) fun index => hP.bind (hget kind index) hpush
  | store =>
    cases hindex : i.indexAt? place with
    | none =>
      simp only [Machine.accessSlot, hindex]
      exact hP.throw (.operandMissing i.mnemonic .slotIndex)
    | some index =>
      simp only [Machine.accessSlot, hindex]
      have hthen : P (do onSlots kind (Slots.set index (← pop))) :=
        hP.bind hpop fun v => hset index v rfl hindex
      exact hthen
  | address => exact hpush .unknown

/-- An action has the property if its parts have it. -/
theorem perform (hpush : ∀ v, P (push v)) (hpop : P pop) (hdiscard : ∀ count, P (discard count))
    (hdup : P (onStack Stack.dup)) (action : Action)
    (hslot : ∀ kind access place, action = .slot kind access place →
      P (Machine.accessSlot i kind access place)) :
    P (perform i action) := by
  cases action with
  | nop => exact hP.pure ()
  | dup => exact hdup
  | pop => exact hP.bind hpop fun _ => hP.pure ()
  | slot kind access place => exact hslot kind access place rfl
  | int32 place => exact hP.bind (hP.require i .int32 _) fun bits => hpush (.ofBits bits)
  | int64 => exact hP.bind (hP.require i .int64 _) fun bits => hpush (.int64 bits)
  | float => exact hP.bind (hP.require i .float _) fun number => hpush (.float number)
  | branch => exact hdiscard i.pops
  | loadNarrow bits => exact hP.bind (hdiscard i.pops) fun _ => hpush _
  | binary op =>
    exact hP.bind hpop fun right => hP.bind hpop fun left => hpush (left.binary op right)
  | unary op => exact hP.bind hpop fun v => hpush (v.unary op)
  | compare op =>
    exact hP.bind hpop fun right => hP.bind hpop fun left => hpush (left.compare op right)
  | convert op => exact hP.bind hpop fun v => hpush (v.convert op)
  | unmodelled => exact hP.bind (hdiscard i.pops) fun _ => hP.pushUnknown hpush i.pushes

end Composes

section Parts

variable {I : Machine → Prop}

theorem composes_keeps (I : Machine → Prop) : Composes fun {α} (run : Run α) => Keeps I run :=
  ⟨keeps_pure, keeps_throw, keeps_bind⟩

/-- A step keeps what its beginning and its action keep; it begins only where
the limit leaves room for it. -/
theorem keeps_step_of_perform (i : Instruction) (hbegun : ∀ n, ¬ n.Exhausted → I n → I n.begun)
    (hperform : Keeps I (perform i i.action)) : Keeps I (step i) := by
  intro n hn
  have hstep := step_eq i n
  by_cases hlimit : n.Exhausted
  · rw [if_pos hlimit] at hstep
    rw [after_error hstep]
    exact hn
  · rw [if_neg hlimit] at hstep
    by_cases hmodel : Unsupported i
    · rw [if_pos hmodel] at hstep
      rw [after_error hstep]
      exact hbegun n hlimit hn
    · rw [if_neg hmodel] at hstep
      simpa only [after, hstep] using hperform n.begun (hbegun n hlimit hn)

variable (i : Instruction) (hbegun : ∀ n, I n → I n.begun)
  (hstack : ∀ {α : Type} (op : EStateM MachineFault Stack α), Stack.KeepsLimit op →
    Keeps I (onStack op))
  (hget : ∀ kind index, Keeps I (onSlots kind (Slots.get index)))

include hstack hget

/-- An action keeps what its parts keep. -/
theorem keeps_perform (action : Action)
    (hset : ∀ kind place index v, action = .slot kind .store place →
      i.indexAt? place = some index → Keeps I (onSlots kind (Slots.set index v))) :
    Keeps I (perform i action) := by
  have hpush : ∀ v, Keeps I (push v) := fun v => hstack _ (Stack.limit_push v)
  have hpop : Keeps I pop := hstack _ Stack.limit_pop
  refine (composes_keeps I).perform i hpush hpop (fun count => hstack _ (Stack.limit_discard count))
    (hstack _ Stack.limit_dup) action fun kind access place haction => ?_
  refine (composes_keeps I).accessSlot i hpush hpop hget kind access place
    fun index v haccess hindex => ?_
  exact hset kind place index v (by rw [haction, haccess]) hindex

include hbegun

/-- A step keeps what its parts keep, whether it succeeds or fails. -/
theorem keeps_step
    (hset : ∀ kind place index v, i.action = .slot kind .store place →
      i.indexAt? place = some index → Keeps I (onSlots kind (Slots.set index v))) :
    Keeps I (step i) :=
  keeps_step_of_perform i (fun n _ => hbegun n) (keeps_perform i hstack hget i.action hset)

end Parts

/-! ## Limits and declarations -/

/-- Two machines with the same limits and the same declared slots. -/
structure SameFrame (m n : Machine) : Prop where
  limits : m.limits = n.limits
  room : m.stack.limit = n.stack.limit
  arguments : Slots.SameFrame m.arguments n.arguments
  locals : Slots.SameFrame m.locals n.locals

theorem SameFrame.refl (m : Machine) : SameFrame m m := ⟨rfl, rfl, .refl _, .refl _⟩

/-- A run after which limits and declarations are those of `m`, if they were before. -/
abbrev KeepsFrame {α : Type} (m : Machine) (run : Run α) : Prop := Keeps (SameFrame · m) run

variable {m : Machine} {α : Type}

theorem frame_onStack {op : EStateM MachineFault Stack α} (h : Stack.KeepsLimit op) :
    KeepsFrame m (onStack op) := by
  intro n hn
  have hop := h n.stack
  unfold after onStack
  cases hr : op n.stack with
  | ok a s =>
    rw [after_ok hr] at hop
    exact { hn with room := hop.trans hn.room }
  | error e s =>
    rw [after_error hr] at hop
    exact { hn with room := hop.trans hn.room }

theorem frame_onSlots {op : EStateM MachineFault Slots α}
    (h : ∀ s, Slots.SameFrame (after op s) s) (kind : SlotKind) :
    KeepsFrame m (onSlots kind op) := by
  intro n hn
  unfold after onSlots
  cases kind with
  | argument =>
    have hop := h n.arguments
    cases hr : op n.arguments with
    | ok a s =>
      rw [after_ok hr] at hop
      exact { hn with arguments := hop.trans hn.arguments }
    | error e s =>
      rw [after_error hr] at hop
      exact { hn with arguments := hop.trans hn.arguments }
  | localVar =>
    have hop := h n.locals
    cases hr : op n.locals with
    | ok a s =>
      rw [after_ok hr] at hop
      exact { hn with locals := hop.trans hn.locals }
    | error e s =>
      rw [after_error hr] at hop
      exact { hn with locals := hop.trans hn.locals }

theorem frame_pop : KeepsFrame m pop := frame_onStack Stack.limit_pop

theorem frame_setLocal (index : BitVec 16) (v : Value) : KeepsFrame m (setLocal index v) :=
  frame_onSlots (Slots.frame_set index v) .localVar

/-- No step changes the limits or a declaration, whether it succeeds or fails. -/
theorem frame_step (i : Instruction) : KeepsFrame m (step i) :=
  keeps_step i (fun _ hn => { hn with }) (fun _ h => frame_onStack h)
    (fun kind _ => frame_onSlots (Slots.frame_get _) kind)
    fun kind _ _ v _ _ => frame_onSlots (Slots.frame_set _ v) kind

end Machine

end KeyLoop
