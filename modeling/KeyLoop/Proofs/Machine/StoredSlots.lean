/-
# What the slots of a machine hold

Nothing but a store writes to a slot, and a store cuts its value down first.
So whatever is asked of a machine that has entered a method, in any order and
whether it succeeds or fails, the slots hold values of the shape that belongs
to their flavors; and a slot that has been stored to holds what another store
of the same value would leave (`slots_hold`).

The stores are a local that is set from outside, and a step of an instruction
that stores an argument or a local.  They are all `Slots.set`, so a property
that `Slots.store` gives to every slot it writes, and that the slots have at
first, is kept by every call (`allSlots_afterCalls`).
-/
import KeyLoop.Proofs.Machine.Effects
import KeyLoop.Proofs.Value.Narrowing

namespace KeyLoop

namespace Machine

/-! ## What is asked of a machine -/

/-- What may be asked of a machine that has entered a method. -/
inductive Call where
  | setLocal (index : BitVec 16) (v : Value)
  | step (i : Instruction)
  | pop
deriving DecidableEq, Repr

/-- The machine after a call, whether the call succeeds or fails. -/
def afterCall (m : Machine) : Call → Machine
  | .setLocal index v => after (Machine.setLocal index v) m
  | .step i => after (Machine.step i) m
  | .pop => after Machine.pop m

/-- The machine after calls, one after the other. -/
def afterCalls (m : Machine) : List Call → Machine
  | [] => m
  | call :: calls => afterCalls (m.afterCall call) calls

theorem afterCalls_append (m : Machine) (calls later : List Call) :
    m.afterCalls (calls ++ later) = (m.afterCalls calls).afterCalls later := by
  induction calls generalizing m with
  | nil => rfl
  | cons call calls ih => exact ih (m.afterCall call)

/-- The call succeeds and stores slot `n` of a kind. -/
def Call.Stores (call : Call) (m : Machine) (kind : SlotKind) (n : BitVec 16) : Prop :=
  match call with
  | .setLocal index v => kind = .localVar ∧ n = index ∧ ∃ m', Machine.setLocal index v m = .ok () m'
  | .step i => i.Touches kind .store n ∧ ∃ m', Machine.step i m = .ok () m'
  | .pop => False

/-- One of the calls has stored slot `n` of a kind. -/
def HasStored (m : Machine) (calls : List Call) (kind : SlotKind) (n : BitVec 16) : Prop :=
  ∃ before call later, calls = before ++ call :: later ∧ call.Stores (m.afterCalls before) kind n

/-! ## Properties of all slots -/

/-- Every slot has a property, which may depend on its kind. -/
def AllSlots (P : SlotKind → Slot → Prop) (m : Machine) : Prop :=
  ∀ kind, ∀ slot ∈ (m.slots kind).slots, P kind slot

/-- A store gives the property to the slots it writes. -/
def LeftByStores (P : SlotKind → Slot → Prop) : Prop :=
  ∀ kind (slot : Slot) (v : Value), P kind { slot with value := v.coerce slot.flavor }

/-- A slot behind a store is one that was written, or one that was there and
has another index. -/
theorem Slots.mem_store {s : Slots} {index : BitVec 16} {v : Value} {slot : Slot}
    (h : slot ∈ (s.store index v).slots) :
    (∃ old : Slot, slot = { old with value := v.coerce old.flavor }) ∨
      slot ∈ s.slots ∧ slot.index ≠ index := by
  obtain ⟨old, hold, hslot⟩ := List.mem_map.mp h
  by_cases hindex : old.index = index
  · rw [if_pos hindex] at hslot
    exact .inl ⟨old, hslot.symm⟩
  · rw [if_neg hindex] at hslot
    exact .inr ⟨hslot ▸ hold, hslot ▸ hindex⟩

variable {P : SlotKind → Slot → Prop} {m : Machine}

theorem AllSlots.storeSlot (hP : LeftByStores P) (h : AllSlots P m) (kind : SlotKind)
    (index : BitVec 16) (v : Value) : AllSlots P (m.storeSlot kind index v) := by
  intro k slot hslot
  by_cases hk : k = kind
  · subst hk
    rw [Machine.storeSlot, slots_withSlots] at hslot
    rcases Slots.mem_store hslot with ⟨old, rfl⟩ | ⟨hold, -⟩
    · exact hP k old v
    · exact h k slot hold
  · rw [Machine.storeSlot, slots_withSlots_of_ne m hk] at hslot
    exact h k slot hslot

theorem AllSlots.of_slots {m' : Machine} (h : AllSlots P m) (hslots : m'.slots = m.slots) :
    AllSlots P m' := by
  intro kind slot hslot
  rw [hslots] at hslot
  exact h kind slot hslot

theorem allSlots_onStack {α : Type} (op : EStateM MachineFault Stack α) :
    Keeps (AllSlots P) (onStack op) := by
  intro s hs
  refine hs.of_slots (funext fun kind => ?_)
  unfold after onStack
  cases op s.stack <;> cases kind <;> rfl

theorem allSlots_get (kind : SlotKind) (index : BitVec 16) :
    Keeps (AllSlots P) (onSlots kind (Slots.get index)) := by
  intro s hs
  unfold after
  rw [onSlots_eq]
  unfold Slots.get
  cases (s.slots kind).find? index <;> simpa using hs

theorem allSlots_set (hP : LeftByStores P) (kind : SlotKind) (index : BitVec 16) (v : Value) :
    Keeps (AllSlots P) (onSlots kind (Slots.set index v)) := by
  intro s hs
  unfold after
  rw [set_eq]
  by_cases hdeclared : ((s.slots kind).find? index).isSome = true
  · rw [if_pos hdeclared]
    exact hs.storeSlot hP kind index v
  · rw [if_neg hdeclared]
    exact hs

/-- A call keeps what stores leave. -/
theorem allSlots_afterCall (hP : LeftByStores P) (h : AllSlots P m) (call : Call) :
    AllSlots P (m.afterCall call) := by
  cases call with
  | setLocal index v => exact allSlots_set hP .localVar index v m h
  | step i =>
    refine keeps_step i (fun s hs => hs.of_slots (funext fun kind => ?_))
      (fun op _ => allSlots_onStack op) allSlots_get
      (fun kind _ index v _ _ => allSlots_set hP kind index v) m h
    cases kind <;> rfl
  | pop => exact allSlots_onStack Stack.pop m h

/-- Any number of calls keeps what stores leave. -/
theorem allSlots_afterCalls (hP : LeftByStores P) (h : AllSlots P m) (calls : List Call) :
    AllSlots P (m.afterCalls calls) := by
  induction calls generalizing m with
  | nil => exact h
  | cons call calls ih => exact ih (allSlots_afterCall hP h call)

/-! ## Slots that have been stored to -/

/-- A call that stores a slot leaves it as a store does. -/
theorem exists_store_of_stores {call : Call} {kind : SlotKind} {n : BitVec 16}
    (h : call.Stores m kind n) :
    ∃ v, (m.afterCall call).slots kind = (m.slots kind).store n v := by
  cases call with
  | setLocal index v =>
    obtain ⟨rfl, rfl, m', hset⟩ := h
    obtain ⟨-, hm'⟩ := set_eq_ok_iff.mp hset
    refine ⟨v, ?_⟩
    rw [afterCall, after_ok hset, hm', storeSlot, slots_withSlots]
  | step i =>
    obtain ⟨hstore, m', hstep⟩ := h
    obtain ⟨v, rest, -, hheld⟩ := (Holds.self m).step_store hstore hstep
    refine ⟨v, ?_⟩
    rw [afterCall, after_ok hstep, hheld.slots, Function.update_self]
  | pop => cases h

/-- Slot `n` of a kind holds what a store has left there. -/
def Settled (kind : SlotKind) (n : BitVec 16) (k : SlotKind) (slot : Slot) : Prop :=
  k = kind → slot.index = n → slot.flavor.Settles slot.value

theorem settled_leftByStores (kind : SlotKind) (n : BitVec 16) : LeftByStores (Settled kind n) :=
  fun _ slot v _ _ => Value.settles_coerce slot.flavor v

theorem settled_of_hasStored {calls : List Call} {kind : SlotKind} {n : BitVec 16}
    (h : m.HasStored calls kind n) : AllSlots (Settled kind n) (m.afterCalls calls) := by
  obtain ⟨before, call, later, rfl, hstores⟩ := h
  rw [afterCalls_append]
  refine allSlots_afterCalls (settled_leftByStores kind n) ?_ later
  intro k slot hslot hk hindex
  subst hk
  obtain ⟨v, hv⟩ := exists_store_of_stores hstores
  rw [hv] at hslot
  rcases Slots.mem_store hslot with ⟨old, rfl⟩ | ⟨-, hne⟩
  · exact Value.settles_coerce old.flavor v
  · exact absurd hindex hne

/-! ## Slots of every machine that is reached -/

theorem admitted_leftByStores : LeftByStores fun _ slot => slot.flavor.Admits slot.value :=
  fun _ slot v => Value.admits_coerce slot.flavor v

theorem admits_enter (m : Machine) (arguments locals : List Declaration) (zeroed : Bool) :
    AllSlots (fun _ slot => slot.flavor.Admits slot.value) (m.enter arguments locals zeroed) := by
  have hfresh : ∀ (zeroed : Bool) (d : Declaration),
      (Slots.fresh zeroed d).flavor.Admits (Slots.fresh zeroed d).value := by
    intro zeroed d
    cases zeroed with
    | false => exact Value.admits_unknown d.flavor
    | true => exact Value.admits_zero d.flavor
  intro kind slot hslot
  cases kind with
  | argument =>
    obtain ⟨d, -, rfl⟩ := List.mem_map.mp hslot
    exact hfresh false d
  | localVar =>
    obtain ⟨d, -, rfl⟩ := List.mem_map.mp hslot
    exact hfresh zeroed d

/-- **Slots hold properly narrowed values.**  Take a machine that enters a
method with any declarations, and any calls made on it then.  Every slot
holds a value of the shape that belongs to its flavor; and once it has been
stored to, something is known of it if it is narrow, and, unless it is of
single precision, a store of its value leaves it as it is. -/
theorem slots_hold (m : Machine) (arguments locals : List Declaration) (zeroed : Bool)
    (calls : List Call) (kind : SlotKind) (slot : Slot)
    (hslot : slot ∈ (((m.enter arguments locals zeroed).afterCalls calls).slots kind).slots) :
    slot.flavor.Admits slot.value ∧
      ((m.enter arguments locals zeroed).HasStored calls kind slot.index →
        (slot.flavor.isNarrow = true → slot.value ≠ .unknown) ∧
          (slot.flavor ≠ .r4 → slot.value.coerce slot.flavor = slot.value)) := by
  refine ⟨?_, fun hstored => ?_⟩
  · exact allSlots_afterCalls admitted_leftByStores (admits_enter m arguments locals zeroed) calls kind
      slot hslot
  · have hsettles := settled_of_hasStored hstored kind slot hslot rfl rfl
    exact ⟨hsettles.known, hsettles.fixed⟩

/-- A word with its bit 7 unknown, moved to a signed slot of one byte, before a
call that fails. -/
theorem slots_hold_unknown_sign :
    let load : Instruction :=
      { mnemonic := "ldloc.1", category := .loadStore, flow := .sequential, pops := 0, pushes := 1
        address := 0, offset := 0, size := 1, opcode := .single 0x07, operand := .none, targets := [] }
    let save : Instruction :=
      { mnemonic := "stloc.0", category := .loadStore, flow := .sequential, pops := 1, pushes := 0
        address := 1, offset := 1, size := 1, opcode := .single 0x0A, operand := .none, targets := [] }
    let m := (Machine.new .standard).enter [] [⟨0, .i1⟩, ⟨1, .i4⟩] false
    let calls := [.setLocal 1 (.int32 (.of 0x00001205#32 0x0000FF7F#32)), .step load, .step save, .pop]
    let slot : Slot := ⟨⟨0, .i1⟩, .int32 (.of 0x05#32 0x7F#32)⟩
    slot ∈ ((m.afterCalls calls).slots .localVar).slots ∧ m.HasStored calls .localVar slot.index ∧
      slot.flavor.Admits slot.value ∧ slot.value ≠ .unknown ∧
      slot.value.coerce slot.flavor = slot.value := by
  intro load save m calls slot
  have hslot : slot ∈ ((m.afterCalls calls).slots .localVar).slots := by decide +kernel
  have hstored : m.HasStored calls .localVar slot.index :=
    ⟨[.setLocal 1 (.int32 (.of 0x00001205#32 0x0000FF7F#32)), .step load], .step save, [.pop], rfl,
      ⟨.implied 0, rfl, rfl⟩, _, rfl⟩
  obtain ⟨hadmits, hsettles⟩ :=
    slots_hold (Machine.new .standard) [] [⟨0, .i1⟩, ⟨1, .i4⟩] false calls .localVar slot hslot
  exact ⟨hslot, hstored, hadmits, (hsettles hstored).1 rfl, (hsettles hstored).2 nofun⟩

end Machine

end KeyLoop
