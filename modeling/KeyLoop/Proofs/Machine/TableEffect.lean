/-
# The effect of a step is the one in the table

A step of a decoded instruction changes the top of the stack as the
instruction table says, counts itself, and stores at most the one slot that a
store names.  Nothing else becomes different, and the stack overflows only
for values that do not fit (`step_outcome`).

    Replaces pops pushes run      a success has put `pushes` values in place
                                  of the `pops` on top, a failure has taken
                                  some away, and nothing else has changed

The actions other than stores are put together from runs that only take
values and one run at the end that puts some.  This is why a failure never
leaves a value behind: what fails has not put anything yet.  There are two
exceptions.  An instruction without a model may put several values, one at a
time; in the table none puts more than one (`Row.pushes_of_unmodelled`).  And
a store takes its value before it looks for the slot, so it can fail with the
value gone.
-/
import KeyLoop.Proofs.Machine.Meaning
import KeyLoop.Proofs.Machine.Slots

namespace KeyLoop

/-- The fault says that the limit on instructions is used up. -/
def MachineFault.isInstructionLimit : MachineFault → Bool
  | .instructionLimit _ _ => true
  | _ => false

/-- The fault says that there is no room on the stack. -/
def MachineFault.isStackOverflow : MachineFault → Bool
  | .stackOverflow _ => true
  | _ => false

namespace Machine

/-- The machine with these values on its stack. -/
def withValues (m : Machine) (values : List Value) : Machine :=
  { m with stack := { m.stack with values } }

/-! ## Runs that replace values on top of the stack -/

/-- A failure of a run that takes `pops` values and puts `pushes`: some values
are gone, and nothing else has changed. -/
structure Fails (pops pushes : Nat) (m : Machine) (fault : MachineFault) (m' : Machine) : Prop where
  limit : fault.isInstructionLimit = false
  /-- Only values that do not fit make the stack overflow. -/
  overflow : fault.isStackOverflow = true →
    0 < pushes ∧ m.stack.limit < m.stack.depth - pops + pushes
  values : ∃ rest, rest <:+ m.stack.values ∧ m' = m.withValues rest

/-- The run takes `pops` values from the stack and puts `pushes` there; a run
that fails takes some away.  Nothing else changes. -/
def Replaces {α : Type} (pops pushes : Nat) (run : Run α) : Prop :=
  ∀ m, match run m with
    | .ok _ m' => ∃ taken put rest, m.stack.values = taken ++ rest ∧ taken.length = pops ∧
        put.length = pushes ∧ m' = m.withValues (put ++ rest)
    | .error fault m' => Fails pops pushes m fault m'

section Rules

variable {α β : Type} {pops pushes more : Nat} {m : Machine} {fault : MachineFault}

/-- A failure for another reason than a limit. -/
theorem Fails.of_suffix (hlimit : fault.isInstructionLimit = false)
    (hroom : fault.isStackOverflow = false) {rest : List Value} (h : rest <:+ m.stack.values) :
    Fails pops pushes m fault (m.withValues rest) :=
  ⟨hlimit, fun hover => absurd (hroom.symm.trans hover) Bool.false_ne_true, rest, h, rfl⟩

/-- Such a failure with nothing gone. -/
theorem Fails.self (hlimit : fault.isInstructionLimit = false)
    (hroom : fault.isStackOverflow = false) : Fails pops pushes m fault m :=
  .of_suffix hlimit hroom (List.suffix_refl m.stack.values)

theorem replaces_pure (a : α) : Replaces 0 0 (pure a : Run α) :=
  fun m => ⟨[], [], m.stack.values, rfl, rfl, rfl, rfl⟩

theorem replaces_throw (hlimit : fault.isInstructionLimit = false)
    (hroom : fault.isStackOverflow = false) : Replaces pops pushes (throw fault : Run α) :=
  fun _ => .self hlimit hroom

/-- A run that only takes values, and another one behind it. -/
theorem replaces_take {run : Run α} {next : α → Run β} (h : Replaces pops 0 run)
    (hnext : ∀ a, Replaces more pushes (next a)) : Replaces (pops + more) pushes (run >>= next) := by
  intro m
  have hm := h m
  simp only [bind, EStateM.bind]
  cases hrun : run m with
  | error fault t =>
    rw [hrun] at hm
    exact ⟨hm.limit, fun hover => absurd (hm.overflow hover).1 (Nat.lt_irrefl 0), hm.values⟩
  | ok a t =>
    rw [hrun] at hm
    obtain ⟨taken, put, rest, hvalues, hpops, hput, rfl⟩ := hm
    obtain rfl := List.eq_nil_of_length_eq_zero hput
    have hdepth : m.stack.depth = pops + (m.withValues rest).stack.depth := by
      rw [Stack.depth, hvalues, List.length_append, hpops]
      rfl
    have ht := hnext a (m.withValues rest)
    dsimp only [List.nil_append]
    cases hthen : next a (m.withValues rest) with
    | error fault t' =>
      rw [hthen] at ht
      obtain ⟨hlimit, hoverflow, rest', hsuffix, rfl⟩ := ht
      refine ⟨hlimit, fun hover => ?_, rest', hsuffix.trans ?_, rfl⟩
      · obtain ⟨hpos, hlt⟩ := hoverflow hover
        have hroom : (m.withValues rest).stack.limit = m.stack.limit := rfl
        exact ⟨hpos, by omega⟩
      · exact hvalues ▸ List.suffix_append taken rest
    | ok b t' =>
      rw [hthen] at ht
      obtain ⟨taken', put', rest', hvalues', hpops', hput', rfl⟩ := ht
      obtain rfl : rest = taken' ++ rest' := hvalues'
      refine ⟨taken ++ taken', put', rest', ?_, ?_, hput', rfl⟩
      · rw [hvalues, List.append_assoc]
      · rw [List.length_append, hpops, hpops']

end Rules

/-! ## The parts of a step -/

theorem push_replaces (v : Value) : Replaces 0 1 (push v) := by
  intro m
  unfold push onStack Stack.push
  by_cases hroom : m.stack.depth < m.stack.limit
  · simp only [if_pos hroom]
    exact ⟨[], [v], m.stack.values, rfl, rfl, rfl, rfl⟩
  · simp only [if_neg hroom]
    exact ⟨rfl, fun _ => ⟨Nat.one_pos, by omega⟩, m.stack.values, List.suffix_refl _, rfl⟩

theorem pop_replaces : Replaces 1 0 pop := by
  intro m
  unfold pop onStack Stack.pop
  cases hvalues : m.stack.values with
  | nil => exact .self rfl rfl
  | cons v rest => exact ⟨[v], [], rest, rfl, rfl, rfl, rfl⟩

theorem discard_replaces (count : Nat) : Replaces count 0 (discard count) := by
  intro m
  unfold discard onStack Stack.discard
  by_cases henough : count ≤ m.stack.depth
  · simp only [if_pos henough]
    refine ⟨m.stack.values.take count, [], m.stack.values.drop count, ?_, ?_, rfl, rfl⟩
    · exact (List.take_append_drop count m.stack.values).symm
    · exact List.length_take_of_le henough
  · simp only [if_neg henough]
    exact .self rfl rfl

theorem dup_replaces : Replaces 1 2 (onStack Stack.dup) := by
  intro m
  cases hvalues : m.stack.values with
  | nil =>
    have hdup : onStack Stack.dup m = .error .stackUnderflow m := by
      simp only [onStack, Stack.dup, Stack.peek, bind, EStateM.bind, hvalues]
    rw [hdup]
    exact .self rfl rfl
  | cons v rest =>
    have hdup : onStack Stack.dup m = push v m := by
      simp only [onStack, Stack.dup, Stack.peek, push, bind, EStateM.bind, hvalues]
    rw [hdup]
    unfold push onStack Stack.push
    by_cases hroom : m.stack.depth < m.stack.limit
    · simp only [if_pos hroom, hvalues]
      exact ⟨[v], [v, v], rest, rfl, rfl, rfl, rfl⟩
    · have hdepth : m.stack.depth = rest.length + 1 := congrArg List.length hvalues
      simp only [if_neg hroom]
      exact ⟨rfl, fun _ => ⟨Nat.two_pos, by omega⟩, m.stack.values, List.suffix_refl _, rfl⟩

/-- One value that is put cannot be left behind. -/
theorem pushUnknown_replaces {count : Nat} (h : count ≤ 1) : Replaces 0 count (pushUnknown count) := by
  match count, h with
  | 0, _ => exact replaces_pure ()
  | 1, _ =>
    have hone : pushUnknown 1 = push .unknown := bind_pure_unit
    rw [hone]
    exact push_replaces .unknown

theorem require_replaces {α : Type} (i : Instruction) (wanted : Constant) (a? : Option α) :
    Replaces 0 0 (require i wanted a?) := by
  cases a? with
  | none => exact replaces_throw rfl rfl
  | some a => exact replaces_pure a

theorem get_replaces (kind : SlotKind) (index : BitVec 16) :
    Replaces 0 0 (onSlots kind (Slots.get index)) := by
  intro m
  rw [onSlots_eq]
  unfold Slots.get
  cases (m.slots kind).find? index with
  | none =>
    dsimp only
    rw [withSlots_slots]
    exact .self rfl rfl
  | some slot =>
    dsimp only
    rw [withSlots_slots]
    exact ⟨[], [], m.stack.values, rfl, rfl, rfl, rfl⟩

end Machine

/-! ## What the table says -/

/-- How many values an action takes and how many it puts, where the
instruction itself has the last word only on what is not modelled. -/
def Action.shift (t : Traits) : Action → Nat × Nat
  | .nop => (0, 0)
  | .dup => (1, 2)
  | .pop | .slot _ .store _ => (1, 0)
  | .slot _ .load _ | .slot _ .address _ | .int32 _ | .int64 | .float => (0, 1)
  | .branch => (t.pops, 0)
  | .loadNarrow _ => (t.pops, 1)
  | .binary _ | .compare _ => (2, 1)
  | .unary _ | .convert _ => (1, 1)
  | .unmodelled => (t.pops, t.pushes)

/-- The table counts the values that actions take and put. -/
theorem Row.shift_action {row : Row} (h : row ∈ all) :
    row.action.shift row.toTraits = (row.pops, row.pushes) := by
  have hall : all.all (fun row => row.action.shift row.toTraits == (row.pops, row.pushes)) = true := by
    decide +kernel
  exact beq_iff_eq.mp (List.all_eq_true.mp hall row h)

namespace Machine

/-! ## Steps -/

/-- What is no store takes and puts as many values as `Action.shift` says. -/
theorem perform_replaces (i : Instruction) {action : Action}
    (hstore : ∀ kind place, action ≠ .slot kind .store place)
    (hpushes : action = .unmodelled → i.pushes ≤ 1) :
    Replaces (action.shift i.toTraits).1 (action.shift i.toTraits).2 (perform i action) := by
  have hrequire : ∀ {α : Type} (wanted : Constant) (a? : Option α) (v : α → Value),
      Replaces 0 1 (do push (v (← require i wanted a?))) := fun wanted a? v =>
    replaces_take (require_replaces i wanted a?) fun a => push_replaces (v a)
  cases action with
  | nop => exact replaces_pure ()
  | dup => exact dup_replaces
  | pop => exact replaces_take pop_replaces fun _ => replaces_pure ()
  | slot kind access place =>
    cases access with
    | load =>
      exact replaces_take (require_replaces i .slotIndex _) fun index =>
        replaces_take (get_replaces kind index) push_replaces
    | store => exact absurd rfl (hstore kind place)
    | address => exact push_replaces .unknown
  | int32 place => exact hrequire .int32 _ .ofBits
  | int64 => exact hrequire .int64 _ .int64
  | float => exact hrequire .float _ .float
  | branch => exact discard_replaces i.pops
  | loadNarrow bits => exact replaces_take (discard_replaces i.pops) fun _ => push_replaces _
  | binary op =>
    exact replaces_take pop_replaces fun _ => replaces_take pop_replaces fun _ => push_replaces _
  | unary op => exact replaces_take pop_replaces fun _ => push_replaces _
  | compare op =>
    exact replaces_take pop_replaces fun _ => replaces_take pop_replaces fun _ => push_replaces _
  | convert op => exact replaces_take pop_replaces fun _ => push_replaces _
  | unmodelled =>
    exact replaces_take (discard_replaces i.pops) fun _ => pushUnknown_replaces (hpushes rfl)

/-- A store takes the value on top, and puts it in its slot unless that is
not declared. -/
theorem perform_store (i : Instruction) (kind : SlotKind) (place : Place (BitVec 16)) (m : Machine) :
    match perform i (.slot kind .store place) m with
    | .ok _ m' => ∃ n v rest, i.indexAt? place = some n ∧ m.stack.values = v :: rest ∧
        m' = (m.withValues rest).storeSlot kind n v
    | .error fault m' => Fails 1 0 m fault m' := by
  cases hindex : i.indexAt? place with
  | none =>
    simp only [perform, accessSlot, hindex]
    exact .self rfl rfl
  | some n =>
    have hperform : perform i (.slot kind .store place) = access kind n .store := by
      simp only [perform, accessSlot, access, hindex, require, pure_bind]
    rw [hperform]
    cases hvalues : m.stack.values with
    | nil =>
      simp only [access, bind, EStateM.bind, pop, onStack, Stack.pop, hvalues]
      exact .self rfl rfl
    | cons v rest =>
      have hpop : pop m = .ok v (m.withValues rest) := by
        simp only [pop, onStack, Stack.pop, hvalues, withValues]
      simp only [access, bind, EStateM.bind, hpop]
      rw [set_eq]
      by_cases hdeclared : (((m.withValues rest).slots kind).find? n).isSome = true
      · rw [if_pos hdeclared]
        exact ⟨n, v, rest, rfl, rfl, rfl⟩
      · rw [if_neg hdeclared]
        exact .of_suffix rfl rfl (hvalues ▸ List.suffix_cons v rest)

/-- What a step that succeeds leaves of the machine. -/
structure HasEffect (i : Instruction) (m m' : Machine) : Prop where
  /-- There were the values to take. -/
  enough : i.pops ≤ m.stack.depth
  /-- The depth changes as the table says. -/
  depth : (m'.stack.depth : Int) = m.stack.depth + i.net
  /-- What lies below the values taken stays. -/
  below : m'.stack.values.drop i.pushes = m.stack.values.drop i.pops
  executed : m'.executed = m.executed + 1
  /-- No slot changes but the one that a store names. -/
  slots : ∀ kind n, ¬ i.IsAccess kind .store n → (m'.slots kind).find? n = (m.slots kind).find? n
  frame : SameFrame m' m

/-- What a step that fails leaves of the machine: it counts, and some of the
values on top may be gone. -/
structure Abandoned (i : Instruction) (m : Machine) (fault : MachineFault) (m' : Machine) : Prop where
  values : m'.stack.values <:+ m.stack.values
  /-- Only values that do not fit make the stack overflow. -/
  overflow : fault.isStackOverflow = true → m.stack.limit < m.stack.depth - i.pops + i.pushes
  executed : m'.executed = m.executed + 1
  slots : m'.slots = m.slots
  frame : SameFrame m' m

/-- What a step may come to.  On the instruction limit it has not begun. -/
def Outcome (i : Instruction) (m : Machine) : EStateM.Result MachineFault Machine Unit → Prop
  | .ok _ m' => HasEffect i m m'
  | .error (.instructionLimit _ _) m' => m' = m
  | .error fault m' => Abandoned i m fault m'

variable {i : Instruction} {m : Machine} {taken put rest : List Value}

/-- The depth, without numbers below zero. -/
theorem HasEffect.depth_eq {m' : Machine} (h : HasEffect i m m') :
    m'.stack.depth = m.stack.depth - i.pops + i.pushes := by
  have henough := h.enough
  have hdepth := h.depth
  rw [Traits.net] at hdepth
  omega

/-- Values on top that have been replaced by as many as the table says. -/
theorem HasEffect.of_replaced (hvalues : m.stack.values = taken ++ rest)
    (htaken : taken.length = i.pops) (hput : put.length = i.pushes) :
    HasEffect i m (m.begun.withValues (put ++ rest)) := by
  have hdepth : m.stack.depth = i.pops + rest.length := by
    rw [Stack.depth, hvalues, List.length_append, htaken]
  have hdepth' : (m.begun.withValues (put ++ rest)).stack.depth = i.pushes + rest.length := by
    rw [← hput]
    exact List.length_append
  refine ⟨by omega, ?_, ?_, rfl, fun kind n _ => ?_, rfl, rfl, .refl _, .refl _⟩
  · rw [hdepth, hdepth', Traits.net]
    omega
  · rw [hvalues, ← htaken, ← hput, List.drop_left]
    exact List.drop_left
  · cases kind <;> rfl

/-- A value on top that has been stored in the slot that the instruction names. -/
theorem HasEffect.of_stored {kind : SlotKind} {n : BitVec 16} {v : Value}
    (haccess : i.IsAccess kind .store n) (hcounts : i.pops = 1 ∧ i.pushes = 0)
    (hvalues : m.stack.values = v :: rest) :
    HasEffect i m ((m.begun.withValues rest).storeSlot kind n v) := by
  have htaken : m.stack.values = [v] ++ rest := hvalues
  have hreplaced : HasEffect i m (m.begun.withValues ([] ++ rest)) :=
    of_replaced htaken hcounts.1.symm hcounts.2.symm
  refine ⟨hreplaced.enough, ?_, ?_, ?_, fun k x hx => ?_, ?_, ?_, ?_, ?_⟩
  · rw [storeSlot, stack_withSlots]
    exact hreplaced.depth
  · rw [storeSlot, stack_withSlots]
    exact hreplaced.below
  · cases kind <;> rfl
  · have hother : ¬ (k = kind ∧ x = n) := by
      rintro ⟨rfl, rfl⟩
      exact hx haccess
    rw [find?_storeSlot_of_ne _ hother]
    exact hreplaced.slots k x hx
  · rw [storeSlot, limits_withSlots]
    rfl
  · rw [storeSlot, stack_withSlots]
    rfl
  · exact frame_storeSlot (m.begun.withValues rest) kind n v .argument
  · exact frame_storeSlot (m.begun.withValues rest) kind n v .localVar

theorem Outcome.of_fails {fault : MachineFault} {m' : Machine}
    (h : Fails i.pops i.pushes m.begun fault m') : Outcome i m (.error fault m') := by
  obtain ⟨hlimit, hoverflow, rest, hsuffix, rfl⟩ := h
  have habandoned : Abandoned i m fault (m.begun.withValues rest) :=
    ⟨hsuffix, fun hover => (hoverflow hover).2, rfl, funext fun kind => by cases kind <;> rfl, rfl, rfl,
      .refl _, .refl _⟩
  cases fault with
  | instructionLimit executed limit => cases hlimit
  | _ => exact habandoned

/-- A run that replaces values, begun as a step. -/
theorem outcome_of_replaces {run : Run Unit} (h : Replaces i.pops i.pushes run) :
    Outcome i m (run m.begun) := by
  have hm := h m.begun
  cases hrun : run m.begun with
  | ok u t =>
    rw [hrun] at hm
    obtain ⟨taken, put, rest, hvalues, htaken, hput, rfl⟩ := hm
    exact .of_replaced hvalues htaken hput
  | error fault t =>
    rw [hrun] at hm
    exact .of_fails hm

/-- A store, begun as a step. -/
theorem outcome_of_store (hi : i.IsStatement) {kind : SlotKind} {place : Place (BitVec 16)}
    (haction : i.action = .slot kind .store place) (hcounts : i.pops = 1 ∧ i.pushes = 0) :
    Outcome i m (perform i (.slot kind .store place) m.begun) := by
  have hm := perform_store i kind place m.begun
  cases hrun : perform i (.slot kind .store place) m.begun with
  | ok u t =>
    rw [hrun] at hm
    obtain ⟨n, v, rest, hindex, hvalues, rfl⟩ := hm
    exact .of_stored (hi.touches_iff.mp ⟨place, haction, hindex⟩) hcounts hvalues
  | error fault t =>
    rw [hrun, ← hcounts.1, ← hcounts.2] at hm
    exact .of_fails hm

/-- What a step comes to, read off the row of its instruction. -/
theorem step_outcome (hi : i.IsStatement) (m : Machine) : Outcome i m (step i m) := by
  obtain ⟨row, hrow, -, haction, htraits⟩ := hi.exists_row
  have hshift : i.action.shift i.toTraits = (i.pops, i.pushes) := by
    rw [haction, htraits]
    exact Row.shift_action hrow
  rw [step_eq]
  by_cases hlimit : m.Exhausted
  · rw [if_pos hlimit]
    exact rfl
  · rw [if_neg hlimit]
    by_cases hmodel : Unsupported i
    · rw [if_pos hmodel]
      exact .of_fails (.self rfl rfl)
    · rw [if_neg hmodel]
      by_cases hstore : ∃ kind place, i.action = .slot kind .store place
      · obtain ⟨kind, place, hstore⟩ := hstore
        rw [hstore] at hshift ⊢
        exact outcome_of_store hi hstore (Prod.mk.inj hshift.symm)
      · have hplain : ∀ kind place, i.action ≠ .slot kind .store place :=
          fun kind place h => hstore ⟨kind, place, h⟩
        have hpushes : i.action = .unmodelled → i.pushes ≤ 1 := by
          intro h
          rw [congrArg Traits.pushes htraits]
          exact Row.pushes_of_unmodelled hrow (haction ▸ h)
        have hreplaces := perform_replaces i hplain hpushes
        rw [hshift] at hreplaces
        exact outcome_of_replaces hreplaces

/-- **A step has the effect in the table, and no other.**  On the instruction
limit it leaves the machine alone; where it fails otherwise, it counts and may
have taken values away. -/
theorem step_effect (hi : i.IsDecoded) (m : Machine) : Outcome i m (step i m) :=
  step_outcome (Instruction.isDecoded_iff.mp hi) m

/-- A store to a slot of one byte, with a value below that stays. -/
theorem step_effect_store_byte :
    let i : Instruction :=
      { mnemonic := "stloc.s", category := .loadStore, flow := .sequential, pops := 1, pushes := 0
        address := 0, offset := 0, size := 2, opcode := .single 0x13
        operand := .immediate ⟨.uint8, 5#8⟩, targets := [] }
    let m : Machine :=
      { limits := ⟨8, 2⟩, stack := ⟨[.ofBits 0x1FF#32, .ofBits 7#32], 8⟩, arguments := .empty .argument
        locals := ⟨.localVar, [⟨⟨5, .u1⟩, .unknown⟩]⟩, executed := 1 }
    let m' : Machine :=
      { m with stack := ⟨[.ofBits 7#32], 8⟩, locals := ⟨.localVar, [⟨⟨5, .u1⟩, .ofBits 0xFF#32⟩]⟩
               executed := 2 }
    i.IsDecoded ∧ step i m = .ok () m' ∧ HasEffect i m m' := by
  intro i m m'
  have hdecoded : i.IsDecoded := ⟨0, 0, [0x13#8, 0x05#8], [], rfl⟩
  have hstep : step i m = .ok () m' := rfl
  have heffect := step_effect hdecoded m
  rw [hstep] at heffect
  exact ⟨hdecoded, hstep, heffect⟩

end Machine

end KeyLoop
