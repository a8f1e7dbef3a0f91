/-
# Slots, one at a time

The machine keeps its slots by kind and index.  What becomes of one slot is
said without a look at the others:

    a store       leaves its value there, cut down to the flavor, and
                  leaves the other slots alone     (`find?_storeSlot_of_ne`)
    a step        keeps the slots that it does not store  (`sameSlot_step`)
    a run         likewise                                (`find?_run`)
-/
import KeyLoop.Proofs.Instruction.Accesses
import KeyLoop.Proofs.Machine.Frame
import KeyLoop.Proofs.Machine.Simulation

namespace KeyLoop

/-! ## Slots after a store -/

namespace Slots

theorem find?_declare (kind : SlotKind) (ds : List Declaration) (zeroed : Bool) (n : BitVec 16) :
    (declare kind ds zeroed).find? n = (ds.find? (·.index == n)).map (fresh zeroed) := by
  unfold find? declare
  rw [List.find?_map]
  rfl

theorem find?_store (s : Slots) (index n : BitVec 16) (v : Value) :
    (s.store index v).find? n = (s.find? n).map fun slot =>
      if slot.index = index then { slot with value := v.coerce slot.flavor } else slot := by
  unfold find? store
  rw [List.find?_map]
  refine congrArg (Option.map _) (congrArg (fun p => List.find? p s.slots) (funext fun slot => ?_))
  simp only [Function.comp_apply]
  split <;> rfl

theorem index_of_find? {s : Slots} {n : BitVec 16} {slot : Slot} (h : s.find? n = some slot) :
    slot.index = n := by
  simpa using List.find?_some h

/-- A store leaves the other slots alone. -/
theorem find?_store_of_ne (s : Slots) {index n : BitVec 16} (h : n ≠ index) (v : Value) :
    (s.store index v).find? n = s.find? n := by
  rw [find?_store]
  cases hfind : s.find? n with
  | none => rfl
  | some slot =>
    rw [Option.map_some, if_neg]
    rwa [index_of_find? hfind]

/-- Of two stores to one slot the last counts. -/
theorem store_store (s : Slots) (n : BitVec 16) (v v' : Value) :
    (s.store n v).store n v' = s.store n v' := by
  unfold store
  rw [List.map_map]
  congr 1
  refine List.map_congr_left fun slot _ => ?_
  by_cases h : slot.index = n
  · simp [h]
  · simp [h]

/-- Slots of one frame have the same declaration at an index. -/
theorem SameFrame.declaration {s t : Slots} (h : SameFrame s t) (n : BitVec 16) :
    (s.find? n).map (·.toDeclaration) = (t.find? n).map (·.toDeclaration) := by
  have hdeclared : ∀ u : Slots, (u.find? n).map (·.toDeclaration) =
      u.declarations.find? (·.index == n) := by
    intro u
    rw [Slots.declarations, List.find?_map]
    rfl
  rw [hdeclared, hdeclared, h.declarations]

/-- What a store leaves in its slot depends on the declaration only. -/
theorem SameFrame.find?_store {s t : Slots} (h : SameFrame s t) (n : BitVec 16) (v : Value) :
    (s.store n v).find? n = (t.store n v).find? n := by
  have hdeclaration := h.declaration n
  rw [Slots.find?_store, Slots.find?_store]
  cases hs : s.find? n with
  | none =>
    cases ht : t.find? n with
    | none => rfl
    | some b =>
      rw [hs, ht] at hdeclaration
      cases hdeclaration
  | some a =>
    cases ht : t.find? n with
    | none =>
      rw [hs, ht] at hdeclaration
      cases hdeclaration
    | some b =>
      rw [hs, ht] at hdeclaration
      have hsame : a.toDeclaration = b.toDeclaration := Option.some.inj hdeclaration
      rw [Option.map_some, Option.map_some, if_pos (index_of_find? hs), if_pos (index_of_find? ht),
        hsame]

end Slots

namespace Machine

/-! ## The slots of a machine -/

/-- The slots of one kind. -/
def slots (m : Machine) : SlotKind → Slots
  | .argument => m.arguments
  | .localVar => m.locals

/-- The machine with other slots of one kind. -/
def withSlots (m : Machine) : SlotKind → Slots → Machine
  | .argument, arguments => { m with arguments }
  | .localVar, locals => { m with locals }

@[simp] theorem slots_withSlots (m : Machine) (kind : SlotKind) (s : Slots) :
    (m.withSlots kind s).slots kind = s := by
  cases kind <;> rfl

@[simp] theorem slots_withSlots_of_ne (m : Machine) {kind kind' : SlotKind} (h : kind' ≠ kind)
    (s : Slots) : (m.withSlots kind s).slots kind' = m.slots kind' := by
  cases kind <;> cases kind' <;> first | rfl | exact absurd rfl h

@[simp] theorem stack_withSlots (m : Machine) (kind : SlotKind) (s : Slots) :
    (m.withSlots kind s).stack = m.stack := by
  cases kind <;> rfl

@[simp] theorem limits_withSlots (m : Machine) (kind : SlotKind) (s : Slots) :
    (m.withSlots kind s).limits = m.limits := by
  cases kind <;> rfl

@[simp] theorem withSlots_slots (m : Machine) (kind : SlotKind) :
    m.withSlots kind (m.slots kind) = m := by
  cases kind <;> rfl

theorem onSlots_eq {α : Type} (kind : SlotKind) (op : EStateM MachineFault Slots α) (m : Machine) :
    onSlots kind op m =
      match op (m.slots kind) with
      | .ok a s => .ok a (m.withSlots kind s)
      | .error e s => .error e (m.withSlots kind s) := by
  cases kind <;> rfl

/-- The machine after a store to one of its slots. -/
def storeSlot (m : Machine) (kind : SlotKind) (index : BitVec 16) (v : Value) : Machine :=
  m.withSlots kind ((m.slots kind).store index v)

theorem set_eq (kind : SlotKind) (index : BitVec 16) (v : Value) (m : Machine) :
    onSlots kind (Slots.set index v) m =
      if ((m.slots kind).find? index).isSome then .ok () (m.storeSlot kind index v)
      else .error ((m.slots kind).undeclared index) m := by
  rw [onSlots_eq]
  unfold Slots.set
  by_cases hsome : ((m.slots kind).find? index).isSome = true
  · simp only [hsome, if_true]
    rfl
  · rw [if_neg hsome, if_neg hsome]
    dsimp only
    rw [withSlots_slots]

/-- A store to a slot that is declared succeeds. -/
theorem set_eq_ok_iff {kind : SlotKind} {index : BitVec 16} {v : Value} {m m' : Machine} {u : Unit} :
    onSlots kind (Slots.set index v) m = .ok u m' ↔
      ((m.slots kind).find? index).isSome = true ∧ m' = m.storeSlot kind index v := by
  rw [set_eq]
  by_cases hsome : ((m.slots kind).find? index).isSome = true
  · rw [if_pos hsome, and_iff_right hsome]
    constructor
    · rintro ⟨⟩
      rfl
    · rintro rfl
      rfl
  · rw [if_neg hsome]
    constructor
    · nofun
    · rintro ⟨hsome', -⟩
      exact absurd hsome' hsome

theorem frame_storeSlot (m : Machine) (kind : SlotKind) (index : BitVec 16) (v : Value)
    (k : SlotKind) : Slots.SameFrame ((m.storeSlot kind index v).slots k) (m.slots k) := by
  unfold storeSlot
  by_cases hk : k = kind
  · subst hk
    rw [slots_withSlots]
    exact ⟨rfl, Slots.declarations_store _ index v⟩
  · rw [slots_withSlots_of_ne m hk]
    exact .refl _

theorem find?_storeSlot_of_ne (m : Machine) {kind k : SlotKind} {index x : BitVec 16}
    (h : ¬ (k = kind ∧ x = index)) (v : Value) :
    ((m.storeSlot kind index v).slots k).find? x = (m.slots k).find? x := by
  unfold storeSlot
  by_cases hk : k = kind
  · subst hk
    rw [slots_withSlots]
    exact Slots.find?_store_of_ne _ (fun hx => h ⟨rfl, hx⟩) v
  · rw [slots_withSlots_of_ne m hk]

/-- Machines of one frame hold a stored value in the same way. -/
theorem find?_storeSlot {m n : Machine} {kind : SlotKind}
    (h : Slots.SameFrame (m.slots kind) (n.slots kind)) (index : BitVec 16) (v : Value) :
    ((m.storeSlot kind index v).slots kind).find? index =
      ((n.storeSlot kind index v).slots kind).find? index := by
  unfold storeSlot
  rw [slots_withSlots, slots_withSlots]
  exact h.find?_store index v

/-! ## Runs in parts -/

theorem run_cons_ok_iff {i : Instruction} {code : List Instruction} {m m' : Machine} :
    run (i :: code) m = .ok () m' ↔ ∃ t, step i m = .ok () t ∧ run code t = .ok () m' := by
  constructor
  · intro h
    rw [run] at h
    cases hstep : step i m with
    | error fault t =>
      simp only [hstep] at h
      cases h
    | ok u t =>
      simp only [hstep] at h
      cases hrest : run code t with
      | error fault t' =>
        rw [hrest] at h
        cases h
      | ok u' t' =>
        rw [hrest] at h
        cases h
        exact ⟨t, rfl, hrest⟩
  · rintro ⟨t, hstep, hrest⟩
    simp only [run, hstep, hrest]

/-- Two pieces of code, one behind the other. -/
theorem run_append_ok_iff {code code' : List Instruction} {m m' : Machine} :
    run (code ++ code') m = .ok () m' ↔ ∃ t, run code m = .ok () t ∧ run code' t = .ok () m' := by
  induction code generalizing m with
  | nil =>
    constructor
    · intro h
      exact ⟨m, rfl, h⟩
    · rintro ⟨t, ⟨⟩, h⟩
      exact h
  | cons i code ih =>
    simp only [List.cons_append, run_cons_ok_iff, ih]
    constructor
    · rintro ⟨t, hi, s, hcode, hcode'⟩
      exact ⟨s, ⟨t, hi, hcode⟩, hcode'⟩
    · rintro ⟨s, ⟨t, hi, hcode⟩, hcode'⟩
      exact ⟨t, hi, s, hcode, hcode'⟩

/-! ## What is not stored stays -/

/-- The slot `n` of a kind is as it is in `m`. -/
def SameSlot (m : Machine) (kind : SlotKind) (n : BitVec 16) (s : Machine) : Prop :=
  (s.slots kind).find? n = (m.slots kind).find? n

theorem sameSlot_onStack {α : Type} {m : Machine} {kind : SlotKind} {n : BitVec 16}
    (op : EStateM MachineFault Stack α) : Keeps (SameSlot m kind n) (onStack op) := by
  intro s hs
  unfold after onStack
  cases op s.stack <;> cases kind <;> exact hs

theorem sameSlot_get {m : Machine} {kind : SlotKind} {n : BitVec 16} (k : SlotKind)
    (index : BitVec 16) : Keeps (SameSlot m kind n) (onSlots k (Slots.get index)) := by
  intro s hs
  unfold after
  rw [onSlots_eq]
  unfold Slots.get
  cases (s.slots k).find? index <;> simpa using hs

theorem sameSlot_set {m : Machine} {kind : SlotKind} {n : BitVec 16} {k : SlotKind}
    {index : BitVec 16} (h : ¬ (kind = k ∧ n = index)) (v : Value) :
    Keeps (SameSlot m kind n) (onSlots k (Slots.set index v)) := by
  intro s hs
  unfold after
  rw [set_eq]
  by_cases hsome : ((s.slots k).find? index).isSome = true
  · rw [if_pos hsome]
    exact (find?_storeSlot_of_ne s h v).trans hs
  · rw [if_neg hsome]
    exact hs

/-- A step keeps the slots that it does not store. -/
theorem sameSlot_step {m : Machine} {i : Instruction} {kind : SlotKind} {n : BitVec 16}
    (h : ¬ i.Touches kind .store n) : Keeps (SameSlot m kind n) (step i) := by
  refine keeps_step i (fun s hs => ?_) (fun op _ => sameSlot_onStack op) sameSlot_get
    fun k place index v haction hindex => sameSlot_set ?_ v
  · cases kind <;> exact hs
  · rintro ⟨rfl, rfl⟩
    exact h ⟨place, haction, hindex⟩

/-- A run keeps what its steps keep. -/
theorem keeps_run {I : Machine → Prop} {code : List Instruction}
    (h : ∀ i ∈ code, Keeps I (step i)) {m m' : Machine} (hm : I m) (hrun : run code m = .ok () m') :
    I m' := by
  induction code generalizing m with
  | nil =>
    cases hrun
    exact hm
  | cons i code ih =>
    obtain ⟨hfirst, hlater⟩ := List.forall_mem_cons.mp h
    obtain ⟨t, hi, hcode⟩ := run_cons_ok_iff.mp hrun
    have hstep := hfirst m hm
    rw [after_ok hi] at hstep
    exact ih hlater hstep hcode

/-- A run keeps the slots that it does not store. -/
theorem find?_run {code : List Instruction} {kind : SlotKind} {n : BitVec 16}
    (h : ∀ i ∈ code, ¬ i.Touches kind .store n) {m m' : Machine} (hrun : run code m = .ok () m') :
    (m'.slots kind).find? n = (m.slots kind).find? n :=
  keeps_run (I := SameSlot m kind n) (fun i hi => sameSlot_step (h i hi)) rfl hrun

/-- A run keeps the limits and the declarations. -/
theorem frame_run {code : List Instruction} {m m' : Machine} (hrun : run code m = .ok () m') :
    SameFrame m' m :=
  keeps_run (fun i _ => frame_step i) (.refl m) hrun

theorem SameFrame.slots {m n : Machine} (h : SameFrame m n) (kind : SlotKind) :
    Slots.SameFrame (m.slots kind) (n.slots kind) := by
  cases kind with
  | argument => exact h.arguments
  | localVar => exact h.locals

/-! ## What is stored -/

/-- The machine without its top value, which it has stored in a slot. -/
def storedTop (m : Machine) (kind : SlotKind) (n : BitVec 16) (v : Value) (rest : List Value) :
    Machine :=
  { m.begun with stack := { m.stack with values := rest } }.storeSlot kind n v

/-- A step that stores the value on top of the stack. -/
theorem step_store {i : Instruction} {kind : SlotKind} {n : BitVec 16}
    (hstore : i.Touches kind .store n) (hmodel : ¬ Unsupported i) {m : Machine}
    (hfree : m.limits.maxInstructions = 0) {v : Value} {rest : List Value}
    (hvalues : m.stack.values = v :: rest) (hdeclared : ((m.slots kind).find? n).isSome = true) :
    step i m = .ok () (m.storedTop kind n v rest) := by
  obtain ⟨place, haction, hindex⟩ := hstore
  have hlimit : ¬ m.Exhausted := fun h => h.1 hfree
  have hpop : pop m.begun = .ok v { m.begun with stack := { m.stack with values := rest } } := by
    simp only [pop, onStack, Stack.pop, begun, hvalues]
  have hset : onSlots kind (Slots.set n v)
      { m.begun with stack := { m.stack with values := rest } } = .ok () (m.storedTop kind n v rest) := by
    refine set_eq_ok_iff.mpr ⟨?_, rfl⟩
    cases kind <;> exact hdeclared
  rw [step_eq, if_neg hlimit, if_neg hmodel, haction]
  simp only [perform, accessSlot, hindex, require, bind, EStateM.bind, pure, EStateM.pure, hpop]
  exact hset

theorem slots_storedTop (m : Machine) (kind : SlotKind) (n : BitVec 16) (v : Value)
    (rest : List Value) :
    (m.storedTop kind n v rest).slots = (m.storeSlot kind n v).slots := by
  funext k
  cases kind <;> cases k <;> rfl

end Machine

end KeyLoop
