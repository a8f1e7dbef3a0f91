/-
# Two machines side by side

Two machines are related when they agree on everything but the values, and
hold related values in the same places (`Machine.Related`).  A step of both
leads to related machines, and it fails on one exactly when it fails on the
other, with the same fault (`step_related`).  What it takes is that the
operations respect the relation between values:

    constants                 are related to themselves      (`Congruence`)
    one operand, comparison   keep operands related
    stores                    keep values related, in slots of the flavors
                              that are declared
    two operands              are asked about at the step in question, for
                              the operands that are on the two stacks there

The rules of the first section say it of runs of any kind: related runs, one
after the other, are related.
-/
import KeyLoop.Machine.Emulator
import Mathlib.Data.List.Forall2

namespace KeyLoop

/-! ## Related runs -/

section Rules

variable {ε σ α β : Type} {R : σ → σ → Prop} {P : α → α → Prop} {Q : β → β → Prop}

/-- Two results of one shape, with related answers or the same fault, in related states. -/
def Matches (R : σ → σ → Prop) (Q : β → β → Prop) :
    EStateM.Result ε σ β → EStateM.Result ε σ β → Prop
  | .ok a s, .ok b t => Q a b ∧ R s t
  | .error e s, .error f t => e = f ∧ R s t
  | _, _ => False

theorem Matches.cases {r r' : EStateM.Result ε σ β} (h : Matches R Q r r') :
    (∃ a b s t, r = .ok a s ∧ r' = .ok b t ∧ Q a b ∧ R s t) ∨
      ∃ e s t, r = .error e s ∧ r' = .error e t ∧ R s t := by
  cases r with
  | ok a s =>
    cases r' with
    | ok b t => exact .inl ⟨a, b, s, t, rfl, rfl, h⟩
    | error f t => exact h.elim
  | error e s =>
    cases r' with
    | ok b t => exact h.elim
    | error f t =>
      obtain ⟨rfl, hst⟩ := h
      exact .inr ⟨e, s, t, rfl, rfl, hst⟩

/-- From related states the two runs come to matching results. -/
def Simulates (R : σ → σ → Prop) (Q : β → β → Prop) (run run' : EStateM ε σ β) : Prop :=
  ∀ s t, R s t → Matches R Q (run s) (run' t)

/-- Runs that answer nothing of interest. -/
abbrev SimulatesAny (R : σ → σ → Prop) (run run' : EStateM ε σ β) : Prop :=
  Simulates R (fun _ _ => True) run run'

theorem simulates_pure {a b : β} (h : Q a b) :
    Simulates R Q (pure a : EStateM ε σ β) (pure b) := fun _ _ hst => ⟨h, hst⟩

theorem simulates_throw (e : ε) : Simulates R Q (throw e : EStateM ε σ β) (throw e) :=
  fun _ _ hst => ⟨rfl, hst⟩

theorem simulates_bind {run run' : EStateM ε σ α} {next next' : α → EStateM ε σ β}
    (h : Simulates R P run run') (hnext : ∀ a b, P a b → Simulates R Q (next a) (next' b)) :
    Simulates R Q (run >>= next) (run' >>= next') := by
  intro s t hst
  simp only [bind, EStateM.bind]
  rcases (h s t hst).cases with ⟨a, b, s', t', hr, hr', hab, hst'⟩ | ⟨e, s', t', hr, hr', hst'⟩
  · rw [hr, hr']
    exact hnext a b hab s' t' hst'
  · rw [hr, hr']
    exact ⟨rfl, hst'⟩

end Rules

/-! ## The stack -/

namespace Stack

/-- Stacks of one depth and one limit, with related values. -/
structure Related (R : Value → Value → Prop) (s t : Stack) : Prop where
  limit : s.limit = t.limit
  values : List.Forall₂ R s.values t.values

variable {R : Value → Value → Prop}

/-- The tops of related stacks are related, if there are any. -/
theorem Related.top? {s t : Stack} (h : Related R s t) :
    (s.top? = none ∧ t.top? = none) ∨ ∃ v w, s.top? = some v ∧ t.top? = some w ∧ R v w := by
  obtain ⟨-, hvalues⟩ := h
  obtain ⟨values, limit⟩ := s
  obtain ⟨values', limit'⟩ := t
  cases hvalues with
  | nil => exact .inl ⟨rfl, rfl⟩
  | cons hv _ => exact .inr ⟨_, _, rfl, rfl, hv⟩

theorem push_related {v w : Value} (h : R v w) : SimulatesAny (Related R) (push v) (push w) := by
  intro s t hst
  have hdepth : s.depth = t.depth := hst.values.length_eq
  unfold push
  rw [hdepth, hst.limit]
  split
  · exact ⟨trivial, rfl, .cons h hst.values⟩
  · exact ⟨rfl, hst⟩

theorem pop_related : Simulates (Related R) R pop pop := by
  intro s t hst
  obtain ⟨hlimit, hvalues⟩ := hst
  obtain ⟨values, limit⟩ := s
  obtain ⟨values', limit'⟩ := t
  cases hvalues with
  | nil => exact ⟨rfl, hlimit, .nil⟩
  | cons hv hrest => exact ⟨hv, hlimit, hrest⟩

theorem peek_related : Simulates (Related R) R peek peek := by
  intro s t hst
  obtain ⟨hlimit, hvalues⟩ := hst
  obtain ⟨values, limit⟩ := s
  obtain ⟨values', limit'⟩ := t
  cases hvalues with
  | nil => exact ⟨rfl, hlimit, .nil⟩
  | cons hv hrest => exact ⟨hv, hlimit, .cons hv hrest⟩

theorem dup_related : SimulatesAny (Related R) dup dup :=
  simulates_bind peek_related fun _ _ h => push_related h

theorem discard_related (count : Nat) : SimulatesAny (Related R) (discard count) (discard count) := by
  intro s t hst
  have hdepth : s.depth = t.depth := hst.values.length_eq
  unfold discard
  rw [hdepth]
  split
  · exact ⟨trivial, hst.limit, List.forall₂_drop count hst.values⟩
  · exact ⟨rfl, hst⟩

end Stack

/-! ## The slots -/

/-- Slots of one declaration, of a flavor among `F`, with related values. -/
structure Slot.Related (F : Flavor → Prop) (R : Value → Value → Prop) (s t : Slot) : Prop where
  declaration : s.toDeclaration = t.toDeclaration
  flavor : F s.flavor
  value : R s.value t.value

namespace Slots

/-- Slots of one kind with the same declarations and related values. -/
structure Related (F : Flavor → Prop) (R : Value → Value → Prop) (s t : Slots) : Prop where
  kind : s.kind = t.kind
  slots : List.Forall₂ (Slot.Related F R) s.slots t.slots

variable {F : Flavor → Prop} {R : Value → Value → Prop} {s t : Slots}

/-- An index is declared in both or in neither. -/
theorem Related.find? (h : Related F R s t) (index : BitVec 16) :
    (s.find? index = none ∧ t.find? index = none) ∨
      ∃ a b, s.find? index = some a ∧ t.find? index = some b ∧ Slot.Related F R a b := by
  obtain ⟨k, as⟩ := s
  obtain ⟨k', bs⟩ := t
  obtain ⟨-, hslots⟩ := h
  dsimp only [Slots.find?] at hslots ⊢
  induction hslots with
  | nil => exact .inl ⟨rfl, rfl⟩
  | @cons a b as bs hab _ ih =>
    have hindex : b.index = a.index := congrArg Declaration.index hab.declaration.symm
    simp only [List.find?_cons, hindex]
    cases a.index == index with
    | true => exact .inr ⟨a, b, rfl, rfl, hab⟩
    | false => exact ih

theorem Related.undeclared (h : Related F R s t) (index : BitVec 16) :
    s.undeclared index = t.undeclared index := by
  unfold Slots.undeclared count
  rw [h.kind, h.slots.length_eq]

theorem get_related (index : BitVec 16) : Simulates (Related F R) R (get index) (get index) := by
  intro s t hst
  unfold get
  rcases hst.find? index with ⟨hs, ht⟩ | ⟨a, b, hs, ht, hab⟩
  · simp only [hs, ht]
    exact ⟨hst.undeclared index, hst⟩
  · simp only [hs, ht]
    exact ⟨hab.value, hst⟩

/-- Storing related values in a declared slot of both. -/
theorem Related.store (hcoerce : ∀ f, F f → ∀ v w, R v w → R (v.coerce f) (w.coerce f))
    (h : Related F R s t) (index : BitVec 16) {v w : Value} (hvw : R v w) :
    Related F R (s.store index v) (t.store index w) := by
  refine ⟨h.kind, ?_⟩
  unfold Slots.store
  rw [List.forall₂_map_left_iff, List.forall₂_map_right_iff]
  refine h.slots.imp fun a b hab => ?_
  have hindex : b.index = a.index := congrArg Declaration.index hab.declaration.symm
  have hflavor : b.flavor = a.flavor := congrArg Declaration.flavor hab.declaration.symm
  rw [hindex]
  split
  · refine ⟨hab.declaration, hab.flavor, ?_⟩
    rw [hflavor]
    exact hcoerce _ hab.flavor v w hvw
  · exact hab

theorem set_related (hcoerce : ∀ f, F f → ∀ v w, R v w → R (v.coerce f) (w.coerce f))
    (index : BitVec 16) {v w : Value} (hvw : R v w) :
    SimulatesAny (Related F R) (set index v) (set index w) := by
  intro s t hst
  unfold set
  rcases hst.find? index with ⟨hs, ht⟩ | ⟨a, b, hs, ht, hab⟩
  · simp only [hs, ht]
    exact ⟨hst.undeclared index, hst⟩
  · simp only [hs, ht]
    exact ⟨trivial, hst.store hcoerce index hvw⟩

end Slots

/-! ## The machine -/

/-- A relation between values that constants, operations on one operand,
comparisons and stores respect, as far as the actions among `A` and the
flavors among `F` are concerned. -/
structure Congruence (A : Action → Prop) (F : Flavor → Prop) (R : Value → Value → Prop) : Prop where
  unknown : R .unknown .unknown
  int32 : ∀ w, R (.int32 w) (.int32 w)
  int64 : A .int64 → ∀ b, R (.int64 b) (.int64 b)
  float : A .float → ∀ x, R (.float x) (.float x)
  unary : ∀ op {v w}, R v w → R (v.unary op) (w.unary op)
  convert : ∀ op, A (.convert op) → ∀ {v w}, R v w → R (v.convert op) (w.convert op)
  compare : ∀ op {a b c d}, R a b → R c d → R (a.compare op c) (b.compare op d)
  coerce : ∀ f, F f → ∀ v w, R v w → R (v.coerce f) (w.coerce f)

namespace Machine

/-- Machines that agree on everything but the values, and hold related values. -/
structure Related (F : Flavor → Prop) (R : Value → Value → Prop) (m n : Machine) : Prop where
  limits : m.limits = n.limits
  executed : m.executed = n.executed
  stack : Stack.Related R m.stack n.stack
  arguments : Slots.Related F R m.arguments n.arguments
  locals : Slots.Related F R m.locals n.locals

/-- The results of an operation on two operands are related, for the operands
on top of the two stacks. -/
def BinaryRelated (R : Value → Value → Prop) (action : Action) (m n : Machine) : Prop :=
  ∀ op a b c d rest rest', action = .binary op → m.stack.values = c :: a :: rest →
    n.stack.values = d :: b :: rest' → R a b → R c d → R (a.binary op c) (b.binary op d)

variable {A : Action → Prop} {F : Flavor → Prop} {R : Value → Value → Prop} {α : Type}
  {Q : α → α → Prop}

theorem onStack_related {op op' : EStateM MachineFault Stack α}
    (h : Simulates (Stack.Related R) Q op op') :
    Simulates (Related F R) Q (onStack op) (onStack op') := by
  intro m n hmn
  unfold onStack
  rcases (h m.stack n.stack hmn.stack).cases with
    ⟨a, b, s, t, hr, hr', hab, hst⟩ | ⟨e, s, t, hr, hr', hst⟩
  · rw [hr, hr']
    exact ⟨hab, { hmn with stack := hst }⟩
  · rw [hr, hr']
    exact ⟨rfl, { hmn with stack := hst }⟩

theorem onSlots_related (kind : SlotKind) {op op' : EStateM MachineFault Slots α}
    (h : Simulates (Slots.Related F R) Q op op') :
    Simulates (Related F R) Q (onSlots kind op) (onSlots kind op') := by
  intro m n hmn
  unfold onSlots
  cases kind with
  | argument =>
    rcases (h m.arguments n.arguments hmn.arguments).cases with
      ⟨a, b, s, t, hr, hr', hab, hst⟩ | ⟨e, s, t, hr, hr', hst⟩
    · simp only [hr, hr']
      exact ⟨hab, { hmn with arguments := hst }⟩
    · simp only [hr, hr']
      exact ⟨rfl, { hmn with arguments := hst }⟩
  | localVar =>
    rcases (h m.locals n.locals hmn.locals).cases with
      ⟨a, b, s, t, hr, hr', hab, hst⟩ | ⟨e, s, t, hr, hr', hst⟩
    · simp only [hr, hr']
      exact ⟨hab, { hmn with locals := hst }⟩
    · simp only [hr, hr']
      exact ⟨rfl, { hmn with locals := hst }⟩

theorem push_related {v w : Value} (h : R v w) : SimulatesAny (Related F R) (push v) (push w) :=
  onStack_related (Stack.push_related h)

theorem pop_related : Simulates (Related F R) R pop pop := onStack_related Stack.pop_related

theorem discard_related (count : Nat) :
    SimulatesAny (Related F R) (discard count) (discard count) :=
  onStack_related (Stack.discard_related count)

theorem pushUnknown_related (h : R .unknown .unknown) (count : Nat) :
    SimulatesAny (Related F R) (pushUnknown count) (pushUnknown count) := by
  induction count with
  | zero => exact simulates_pure trivial
  | succ count ih => exact simulates_bind (push_related h) fun _ _ _ => ih

theorem require_related (i : Instruction) (wanted : Constant) (a? : Option α) :
    Simulates (Related F R) (· = ·) (require i wanted a?) (require i wanted a?) := by
  cases a? with
  | none => exact simulates_throw _
  | some a => exact simulates_pure rfl

theorem setLocal_related (h : Congruence A F R) (index : BitVec 16) {v w : Value} (hvw : R v w) :
    SimulatesAny (Related F R) (setLocal index v) (setLocal index w) :=
  onSlots_related .localVar (Slots.set_related h.coerce index hvw)

theorem accessSlot_related (h : Congruence A F R) (i : Instruction) (kind : SlotKind)
    (access : SlotAccess) (place : Place (BitVec 16)) :
    SimulatesAny (Related F R) (accessSlot i kind access place)
      (accessSlot i kind access place) := by
  cases access with
  | load =>
    refine simulates_bind (require_related i .slotIndex _) ?_
    rintro index _ rfl
    exact simulates_bind (onSlots_related kind (Slots.get_related index)) fun _ _ => push_related
  | store =>
    refine simulates_bind (require_related i .slotIndex _) ?_
    rintro index _ rfl
    exact simulates_bind pop_related fun _ _ hvw =>
      onSlots_related kind (Slots.set_related h.coerce index hvw)
  | address => exact push_related h.unknown

/-- Two operands are popped from both stacks, and related results are pushed. -/
theorem binary_related (op : BinaryOp) (i : Instruction) {m n : Machine}
    (hmn : Related F R m n) (hop : BinaryRelated R (.binary op) m n) :
    Matches (Related F R) (fun _ _ => True) (perform i (.binary op) m)
      (perform i (.binary op) n) := by
  have hlimit := hmn.stack.limit
  have hvalues := hmn.stack.values
  obtain ⟨limits, ⟨values, limit⟩, arguments, locals, executed⟩ := m
  obtain ⟨limits', ⟨values', limit'⟩, arguments', locals', executed'⟩ := n
  cases hvalues with
  | nil => exact ⟨rfl, hmn⟩
  | cons hright hrest =>
    cases hrest with
    | nil => exact ⟨rfl, { hmn with stack := ⟨hlimit, .nil⟩ }⟩
    | cons hleft hrest =>
      exact push_related (hop op _ _ _ _ _ _ rfl rfl rfl hleft hright) _ _
        { hmn with stack := ⟨hlimit, hrest⟩ }

/-- What one action does to related machines. -/
theorem perform_related (h : Congruence A F R) (i : Instruction) (action : Action)
    (haction : A action) {m n : Machine} (hmn : Related F R m n)
    (hop : BinaryRelated R action m n) :
    Matches (Related F R) (fun _ _ => True) (perform i action m) (perform i action n) := by
  cases action with
  | nop => exact ⟨trivial, hmn⟩
  | dup => exact onStack_related Stack.dup_related m n hmn
  | pop => exact simulates_bind pop_related (fun _ _ _ => simulates_pure trivial) m n hmn
  | slot kind access place => exact accessSlot_related h i kind access place m n hmn
  | int32 place =>
    refine simulates_bind (require_related i .int32 _) ?_ m n hmn
    rintro bits _ rfl
    exact push_related (h.int32 _)
  | int64 =>
    refine simulates_bind (require_related i .int64 _) ?_ m n hmn
    rintro bits _ rfl
    exact push_related (h.int64 haction bits)
  | float =>
    refine simulates_bind (require_related i .float _) ?_ m n hmn
    rintro number _ rfl
    exact push_related (h.float haction number)
  | branch => exact discard_related i.pops m n hmn
  | loadNarrow bits =>
    exact simulates_bind (discard_related i.pops) (fun _ _ _ => push_related (h.int32 _)) m n hmn
  | binary op => exact binary_related op i hmn hop
  | unary op =>
    exact simulates_bind pop_related (fun _ _ hv => push_related (h.unary op hv)) m n hmn
  | compare op =>
    exact simulates_bind pop_related
      (fun _ _ hright => simulates_bind pop_related fun _ _ hleft =>
        push_related (h.compare op hleft hright)) m n hmn
  | convert op =>
    exact simulates_bind pop_related (fun _ _ hv => push_related (h.convert op haction hv)) m n hmn
  | unmodelled =>
    exact simulates_bind (discard_related i.pops)
      (fun _ _ _ => pushUnknown_related h.unknown i.pushes) m n hmn

/-- **One step of both machines**: the same fault, or related machines. -/
theorem step_related (h : Congruence A F R) (i : Instruction) (haction : A i.action)
    {m n : Machine} (hmn : Related F R m n) (hop : BinaryRelated R i.action m n) :
    Matches (Related F R) (fun _ _ => True) (step i m) (step i n) := by
  have hbegun : Related F R m.begun n.begun :=
    { hmn with executed := congrArg (· + 1) hmn.executed }
  have hexhausted : m.Exhausted ↔ n.Exhausted := by
    simp only [Exhausted, hmn.limits, hmn.executed]
  rw [step_eq, step_eq]
  by_cases hlimit : m.Exhausted
  · rw [if_pos hlimit, if_pos (hexhausted.mp hlimit), hmn.limits, hmn.executed]
    exact ⟨rfl, hmn⟩
  · rw [if_neg hlimit, if_neg (mt hexhausted.mpr hlimit)]
    by_cases hmodel : Unsupported i
    · rw [if_pos hmodel, if_pos hmodel]
      exact ⟨rfl, hbegun⟩
    · rw [if_neg hmodel, if_neg hmodel]
      exact perform_related h i i.action haction hbegun hop

/-! ## Runs -/

/-- Execute instructions one after the other; a failure tells how many
instructions succeeded before it. -/
def run : List Instruction → EStateM (Nat × MachineFault) Machine Unit
  | [] => pure ()
  | i :: rest => fun m =>
      match step i m with
      | .ok _ m =>
          match run rest m with
          | .ok _ m => .ok () m
          | .error (k, fault) m => .error (k + 1, fault) m
      | .error fault m => .error (0, fault) m

/-- At every step that both runs come to, operations on two operands have related results. -/
def BinaryRelatedAlong (R : Value → Value → Prop) : List Instruction → Machine → Machine → Prop
  | [], _, _ => True
  | i :: rest, m, n =>
      BinaryRelated R i.action m n ∧
        ∀ m' n', step i m = .ok () m' → step i n = .ok () n' → BinaryRelatedAlong R rest m' n'

/-- **A run of both machines**: a failure of both at the same instruction with
the same fault, or related machines at the end. -/
theorem run_related (h : Congruence A F R) (code : List Instruction) {m n : Machine}
    (hcode : ∀ i ∈ code, A i.action) (hmn : Related F R m n) (hop : BinaryRelatedAlong R code m n) :
    Matches (Related F R) (fun _ _ => True) (run code m) (run code n) := by
  induction code generalizing m n with
  | nil => exact ⟨trivial, hmn⟩
  | cons i rest ih =>
    have hstep := step_related h i (hcode i List.mem_cons_self) hmn hop.1
    rcases hstep.cases with ⟨_, _, m', n', hm, hn, -, hmn'⟩ | ⟨fault, m', n', hm, hn, hmn'⟩
    · have hrest := ih (fun j hj => hcode j (List.mem_cons_of_mem i hj)) hmn' (hop.2 m' n' hm hn)
      rcases hrest.cases with ⟨_, _, m₂, n₂, hm₂, hn₂, -, hend⟩ | ⟨⟨k, fault⟩, m₂, n₂, hm₂, hn₂, hend⟩
      · simp only [run, hm, hn, hm₂, hn₂]
        exact ⟨trivial, hend⟩
      · simp only [run, hm, hn, hm₂, hn₂]
        exact ⟨rfl, hend⟩
    · simp only [run, hm, hn]
      exact ⟨rfl, hmn'⟩

end Machine

end KeyLoop
