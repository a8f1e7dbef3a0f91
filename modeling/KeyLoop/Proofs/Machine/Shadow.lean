/-
# A machine that follows another one

A machine that goes on with what an earlier run has left is not a fresh one:
there are values below its own on the stack, and some slots hold what the
earlier run stored.  It still does what a fresh machine does, as long as it
has room on the stack and loads no slot that differs.

    Shadows D rest room m n      `n` has the values of `m` on top of `rest`,
                                 room for so many more, and the same values
                                 as `m` in the slots of `D`

A step that succeeds from `m` succeeds from `n` if the slots it loads are in
`D`.  It takes at most one place of the room, and the slots it stores are
in `D` from then on (`step_follows`, `run_follows`).
-/
import KeyLoop.Proofs.Machine.Slots

namespace KeyLoop

/-! ## One run that follows another -/

/-- Where the run succeeds from a state, it succeeds with the same answer
from every related state, and the states are related afterwards. -/
def Follows {ε σ α : Type} (R S : σ → σ → Prop) (run : EStateM ε σ α) : Prop :=
  ∀ s t, R s t → ∀ a s', run s = .ok a s' → ∃ t', run t = .ok a t' ∧ S s' t'

section Rules

variable {ε σ α β : Type} {R S T : σ → σ → Prop}

theorem follows_pure (a : α) : Follows R R (pure a : EStateM ε σ α) := by
  rintro s t hst _ _ ⟨⟩
  exact ⟨t, rfl, hst⟩

theorem follows_throw (e : ε) : Follows R S (throw e : EStateM ε σ α) := by
  rintro s t - a s' ⟨⟩

theorem follows_bind {run : EStateM ε σ α} {next : α → EStateM ε σ β} (h : Follows R S run)
    (hnext : ∀ a, Follows S T (next a)) : Follows R T (run >>= next) := by
  intro s t hst b s' hrun
  obtain ⟨a, u, hu, hthen⟩ := bind_ok hrun
  obtain ⟨v, hv, huv⟩ := h s t hst a u hu
  obtain ⟨t', ht', hst'⟩ := hnext a u v huv b s' hthen
  refine ⟨t', ?_, hst'⟩
  simp only [bind, EStateM.bind, hv]
  exact ht'

theorem Follows.weaken {run : EStateM ε σ α} (h : Follows R S run) (hST : ∀ s t, S s t → T s t) :
    Follows R T run := by
  intro s t hst a s' hrun
  obtain ⟨t', ht', hst'⟩ := h s t hst a s' hrun
  exact ⟨t', ht', hST s' t' hst'⟩

end Rules

/-! ## The stack -/

namespace Stack

/-- The second stack has the values of the first on top of `rest`, and room for
so many more. -/
structure Above (rest : List Value) (room : Nat) (s t : Stack) : Prop where
  values : t.values = s.values ++ rest
  room : t.depth + room ≤ t.limit

variable {rest : List Value} {room : Nat}

theorem push_follows (v : Value) : Follows (Above rest (room + 1)) (Above rest room) (push v) := by
  rintro s t ⟨hvalues, hroom⟩ a s' hs
  unfold push at hs
  split at hs
  · cases hs
    refine ⟨{ t with values := v :: t.values }, if_pos (by omega), ?_, ?_⟩
    · rw [hvalues, List.cons_append]
    · simp only [depth, List.length_cons] at hroom ⊢
      omega
  · cases hs

theorem pop_follows : Follows (Above rest room) (Above rest (room + 1)) pop := by
  rintro ⟨values, limit⟩ ⟨values', limit'⟩ ⟨hvalues, hroom⟩ a s' hs
  cases values with
  | nil => cases hs
  | cons v values =>
    cases hs
    dsimp only at hvalues
    subst hvalues
    refine ⟨⟨values ++ rest, limit'⟩, rfl, rfl, ?_⟩
    simp only [depth, List.length_append, List.length_cons] at hroom ⊢
    omega

theorem peek_follows : Follows (Above rest room) (Above rest room) peek := by
  rintro ⟨values, limit⟩ ⟨values', limit'⟩ ⟨hvalues, hroom⟩ a s' hs
  cases values with
  | nil => cases hs
  | cons v values =>
    cases hs
    dsimp only at hvalues
    subst hvalues
    exact ⟨_, rfl, rfl, hroom⟩

theorem dup_follows : Follows (Above rest (room + 1)) (Above rest room) dup :=
  follows_bind peek_follows push_follows

theorem discard_follows (count : Nat) :
    Follows (Above rest room) (Above rest room) (discard count) := by
  rintro s t ⟨hvalues, hroom⟩ a s' hs
  unfold discard at hs
  split at hs
  · rename_i hcount
    cases hs
    have hcount' : count ≤ t.depth := by
      simp only [depth, hvalues, List.length_append] at hcount ⊢
      omega
    refine ⟨{ t with values := t.values.drop count }, if_pos hcount', ?_, ?_⟩
    · rw [hvalues, List.drop_append_of_le_length hcount]
    · simp only [depth, List.length_drop] at hroom ⊢
      omega
  · cases hs

end Stack

namespace Machine

/-! ## Shadows -/

/-- The second machine has the values of the first on top of `rest`, room on
the stack for so many more, and the same values in the slots of `D`. -/
structure Shadows (D : SlotKind → BitVec 16 → Prop) (rest : List Value) (room : Nat)
    (m n : Machine) : Prop where
  unlimited : n.limits.maxInstructions = 0
  stack : Stack.Above rest room m.stack n.stack
  frame : ∀ kind, Slots.SameFrame (m.slots kind) (n.slots kind)
  agree : ∀ kind index, D kind index → (m.slots kind).find? index = (n.slots kind).find? index

variable {D D' : SlotKind → BitVec 16 → Prop} {rest : List Value} {room room' : Nat} {α : Type}

theorem Shadows.weaken {m n : Machine} (h : Shadows D rest room m n) (hroom : room' ≤ room)
    (hD : ∀ kind index, D' kind index → D kind index) : Shadows D' rest room' m n where
  unlimited := h.unlimited
  stack := ⟨h.stack.values, by have hle := h.stack.room; omega⟩
  frame := h.frame
  agree kind index hin := h.agree kind index (hD kind index hin)

theorem onStack_follows {op : EStateM MachineFault Stack α}
    (h : Follows (Stack.Above rest room) (Stack.Above rest room') op) :
    Follows (Shadows D rest room) (Shadows D rest room') (onStack op) := by
  intro m n hmn a m' hm
  unfold onStack at hm ⊢
  cases hop : op m.stack with
  | error e s =>
    rw [hop] at hm
    cases hm
  | ok b s =>
    rw [hop] at hm
    cases hm
    obtain ⟨t, ht, hst⟩ := h m.stack n.stack hmn.stack _ _ hop
    rw [ht]
    exact ⟨_, rfl, { hmn with stack := hst }⟩

theorem push_follows (v : Value) :
    Follows (Shadows D rest (room + 1)) (Shadows D rest room) (push v) :=
  onStack_follows (Stack.push_follows v)

theorem pop_follows : Follows (Shadows D rest room) (Shadows D rest (room + 1)) pop :=
  onStack_follows Stack.pop_follows

theorem discard_follows (count : Nat) :
    Follows (Shadows D rest room) (Shadows D rest room) (discard count) :=
  onStack_follows (Stack.discard_follows count)

theorem require_follows (i : Instruction) (wanted : Constant) (a? : Option α) :
    Follows (Shadows D rest room) (Shadows D rest room) (require i wanted a?) := by
  cases a? with
  | none => exact follows_throw _
  | some a => exact follows_pure a

/-- Loading a slot of `D`. -/
theorem get_follows {kind : SlotKind} {index : BitVec 16} (h : D kind index) :
    Follows (Shadows D rest room) (Shadows D rest room) (onSlots kind (Slots.get index)) := by
  intro m n hmn v m' hm
  rw [onSlots_eq] at hm ⊢
  unfold Slots.get at hm ⊢
  rw [← hmn.agree kind index h]
  cases hfind : (m.slots kind).find? index with
  | none =>
    rw [hfind] at hm
    cases hm
  | some slot =>
    rw [hfind] at hm
    cases hm
    refine ⟨_, rfl, ?_⟩
    rwa [withSlots_slots, withSlots_slots]

/-- Storing a value makes the slot one in which the machines agree. -/
theorem set_follows (kind : SlotKind) (index : BitVec 16) (v : Value) :
    Follows (Shadows D rest room) (Shadows (fun k x => D k x ∨ k = kind ∧ x = index) rest room)
      (onSlots kind (Slots.set index v)) := by
  intro m n hmn u m' hm
  obtain ⟨hsome, rfl⟩ := set_eq_ok_iff.mp hm
  have hdeclared := congrArg Option.isSome ((hmn.frame kind).declaration index)
  rw [Option.isSome_map, Option.isSome_map, hsome] at hdeclared
  refine ⟨_, set_eq_ok_iff.mpr ⟨hdeclared.symm, rfl⟩, ?_⟩
  refine ⟨?_, ?_, fun k => ?_, fun k x hin => ?_⟩
  · rw [storeSlot, limits_withSlots]
    exact hmn.unlimited
  · rw [storeSlot, storeSlot, stack_withSlots, stack_withSlots]
    exact hmn.stack
  · exact ((frame_storeSlot m kind index v k).trans (hmn.frame k)).trans
      (frame_storeSlot n kind index v k).symm
  · by_cases hslot : k = kind ∧ x = index
    · obtain ⟨rfl, rfl⟩ := hslot
      exact find?_storeSlot (hmn.frame k) x v
    · rw [find?_storeSlot_of_ne m hslot, find?_storeSlot_of_ne n hslot]
      exact hmn.agree k x (hin.resolve_right hslot)

/-! ## Steps -/

/-- The slots in which the machines agree after an instruction: those it stores as well. -/
def Stored (D : SlotKind → BitVec 16 → Prop) (i : Instruction) : SlotKind → BitVec 16 → Prop :=
  fun kind n => D kind n ∨ i.Touches kind .store n

theorem Shadows.stored {m n : Machine} {i : Instruction} (h : Shadows D rest room m n)
    (hnone : ∀ kind x, ¬ i.Touches kind .store x) : Shadows (Stored D i) rest room m n :=
  h.weaken (Nat.le_refl room) fun kind x hin => hin.resolve_right (hnone kind x)

/-- Loading a slot that agrees. -/
theorem load_follows (i : Instruction) {kind : SlotKind} {place : Place (BitVec 16)}
    (haction : i.action = .slot kind .load place) (hloads : ∀ k n, i.Touches k .load n → D k n) :
    Follows (Shadows D rest (room + 1)) (Shadows D rest room) (accessSlot i kind .load place) := by
  cases hindex : i.indexAt? place with
  | none =>
    simp only [accessSlot, hindex]
    exact follows_throw _
  | some index =>
    have hin : D kind index := hloads kind index ⟨place, haction, hindex⟩
    have hload : Follows (Shadows D rest (room + 1)) (Shadows D rest room)
        (do push (← onSlots kind (Slots.get index))) :=
      follows_bind (get_follows hin) push_follows
    simp only [accessSlot, hindex]
    exact hload

/-- A store needs no room. -/
theorem store_follows (i : Instruction) {kind : SlotKind} {place : Place (BitVec 16)}
    (haction : i.action = .slot kind .store place) :
    Follows (Shadows D rest room) (Shadows (Stored D i) rest room)
      (accessSlot i kind .store place) := by
  cases hindex : i.indexAt? place with
  | none =>
    simp only [accessSlot, hindex]
    exact follows_throw _
  | some index =>
    have hstore : Follows (Shadows D rest room)
        (Shadows (fun k x => D k x ∨ k = kind ∧ x = index) rest (room + 1))
        (do onSlots kind (Slots.set index (← pop))) :=
      follows_bind pop_follows fun v => set_follows kind index v
    simp only [accessSlot, hindex]
    refine Follows.weaken hstore fun m n h => h.weaken (Nat.le_succ room) ?_
    rintro k x (hin | ⟨place', haction', hindex'⟩)
    · exact .inl hin
    · rw [haction] at haction'
      cases haction'
      rw [hindex] at hindex'
      cases hindex'
      exact .inr ⟨rfl, rfl⟩

theorem pushUnknown_follows {count : Nat} (h : count ≤ 1) :
    Follows (Shadows D rest (room + 1)) (Shadows D rest room) (pushUnknown count) := by
  match count, h with
  | 0, _ => exact (follows_pure ()).weaken fun m n h => h.weaken (Nat.le_succ room) fun _ _ => id
  | 1, _ => exact follows_bind (push_follows .unknown) fun _ => follows_pure ()

/-- What is no slot access takes one place of the room at most. -/
theorem plain_follows (i : Instruction) {action : Action}
    (hplain : ∀ kind access place, action ≠ .slot kind access place)
    (hpushes : action = .unmodelled → i.pushes ≤ 1) :
    Follows (Shadows D rest (room + 1)) (Shadows D rest room) (perform i action) := by
  have hspare : ∀ {run : Run Unit} {r : Nat},
      Follows (Shadows D rest (room + 1)) (Shadows D rest (room + r)) run →
      Follows (Shadows D rest (room + 1)) (Shadows D rest room) run :=
    fun h => h.weaken fun m n hmn => hmn.weaken (Nat.le_add_right room _) fun _ _ => id
  cases action with
  | slot kind access place => exact absurd rfl (hplain kind access place)
  | nop => exact hspare (follows_pure ())
  | dup => exact onStack_follows Stack.dup_follows
  | pop => exact hspare (r := 2) (follows_bind pop_follows fun _ => follows_pure ())
  | int32 place => exact follows_bind (require_follows i .int32 _) fun bits => push_follows _
  | int64 => exact follows_bind (require_follows i .int64 _) fun bits => push_follows _
  | float => exact follows_bind (require_follows i .float _) fun number => push_follows _
  | branch => exact hspare (discard_follows i.pops)
  | loadNarrow bits => exact follows_bind (discard_follows i.pops) fun _ => push_follows _
  | binary op =>
    exact hspare (follows_bind pop_follows fun right => follows_bind pop_follows fun left =>
      push_follows (left.binary op right))
  | unary op => exact hspare (follows_bind pop_follows fun v => push_follows (v.unary op))
  | compare op =>
    exact hspare (follows_bind pop_follows fun right => follows_bind pop_follows fun left =>
      push_follows (left.compare op right))
  | convert op => exact hspare (follows_bind pop_follows fun v => push_follows (v.convert op))
  | unmodelled =>
    exact follows_bind (discard_follows i.pops) fun _ => pushUnknown_follows (hpushes rfl)

/-- What an instruction is asked to do takes one place of the room at most. -/
theorem perform_follows (i : Instruction) (hloads : ∀ kind n, i.Touches kind .load n → D kind n)
    (hpushes : i.action = .unmodelled → i.pushes ≤ 1) :
    Follows (Shadows D rest (room + 1)) (Shadows (Stored D i) rest room) (perform i i.action) := by
  have hnone : (∀ kind place, i.action ≠ .slot kind .store place) →
      ∀ kind x, ¬ i.Touches kind .store x := by
    rintro haction kind x ⟨place, hstore, -⟩
    exact haction kind place hstore
  by_cases hslot : ∃ kind access place, i.action = .slot kind access place
  · obtain ⟨kind, access, place, haction⟩ := hslot
    rw [haction] at hnone ⊢
    cases access with
    | store =>
      exact fun m n h => store_follows i haction m n (h.weaken (Nat.le_succ room) fun _ _ => id)
    | load => exact (load_follows i haction hloads).weaken fun m n h => h.stored (hnone nofun)
    | address => exact (push_follows .unknown).weaken fun m n h => h.stored (hnone nofun)
  · have hplain : ∀ kind access place, i.action ≠ .slot kind access place :=
      fun kind access place haction => hslot ⟨kind, access, place, haction⟩
    exact (plain_follows i hplain hpushes).weaken fun m n h =>
      h.stored (hnone fun kind place => hplain kind .store place)

/-- What a step that succeeds does, begun on both machines. -/
theorem begun_follows {i : Instruction}
    (h : Follows (Shadows D rest room) (Shadows D' rest room') (perform i i.action)) :
    Follows (Shadows D rest room) (Shadows D' rest room') (step i) := by
  intro m n hmn u m' hm
  have hfree : ¬ n.Exhausted := fun hlimit => hlimit.1 hmn.unlimited
  rw [step_eq] at hm ⊢
  rw [if_neg hfree]
  split at hm
  · cases hm
  · split at hm
    · cases hm
    · rename_i hmodel
      rw [if_neg hmodel]
      exact h m.begun n.begun { hmn with } u m' hm

/-- **A step that is followed.**  The slots it loads agree; it takes one place
of the room at most, and the slots it stores agree as well. -/
theorem step_follows (i : Instruction) (hloads : ∀ kind n, i.Touches kind .load n → D kind n)
    (hpushes : i.action = .unmodelled → i.pushes ≤ 1) :
    Follows (Shadows D rest (room + 1)) (Shadows (Stored D i) rest room) (step i) :=
  begun_follows (perform_follows i hloads hpushes)

/-! ## Runs -/

/-- All slots that the code loads are in `D`, or stored by the code before. -/
def LoadsWithin : (D : SlotKind → BitVec 16 → Prop) → List Instruction → Prop
  | _, [] => True
  | D, i :: rest => (∀ kind n, i.Touches kind .load n → D kind n) ∧ LoadsWithin (Stored D i) rest

/-- **A run that is followed**, with a place of the room for every instruction. -/
theorem run_follows (code : List Instruction) (hloads : LoadsWithin D code)
    (hpushes : ∀ i ∈ code, i.action = .unmodelled → i.pushes ≤ 1) :
    Follows (Shadows D rest (room + code.length)) (Shadows (code.foldl Stored D) rest room)
      (run code) := by
  induction code generalizing D with
  | nil => exact follows_pure ()
  | cons i code ih =>
    obtain ⟨hfirst, hlater⟩ := hloads
    obtain ⟨hpush, hpushes⟩ := List.forall_mem_cons.mp hpushes
    intro m n hmn u m' hm
    obtain ⟨t, hi, hcode⟩ := run_cons_ok_iff.mp hm
    obtain ⟨s, hs, hts⟩ := step_follows i hfirst hpush m n hmn _ _ hi
    obtain ⟨s', hs', hts'⟩ := ih hlater hpushes t s hts _ _ hcode
    exact ⟨s', run_cons_ok_iff.mpr ⟨s, hs, hs'⟩, hts'⟩

/-! ## The store behind a run -/

/-- A machine that has its top value in a slot, beside one that has the same
value there and nothing else to do with it. -/
theorem shadows_storedTop {e t : Machine} {kind : SlotKind} {n : BitVec 16} {v : Value}
    (hfree : t.limits.maxInstructions = 0)
    (hvalues : t.stack.values = v :: (e.stack.values ++ rest))
    (hroom : t.stack.depth + room ≤ t.stack.limit)
    (hframe : ∀ k, Slots.SameFrame (e.slots k) (t.slots k))
    (hagree : ∀ k x, D k x → ¬ (k = kind ∧ x = n) → (e.slots k).find? x = (t.slots k).find? x) :
    Shadows D rest room (e.storeSlot kind n v)
      (t.storedTop kind n v (e.stack.values ++ rest)) where
  unlimited := by
    rw [storedTop, storeSlot, limits_withSlots]
    exact hfree
  stack := by
    rw [storedTop, storeSlot, storeSlot, stack_withSlots, stack_withSlots]
    refine ⟨rfl, ?_⟩
    simp only [Stack.depth, hvalues, List.length_cons] at hroom ⊢
    omega
  frame k := by
    rw [slots_storedTop]
    exact ((frame_storeSlot e kind n v k).trans (hframe k)).trans (frame_storeSlot t kind n v k).symm
  agree k x hin := by
    rw [slots_storedTop]
    by_cases hslot : k = kind ∧ x = n
    · obtain ⟨rfl, rfl⟩ := hslot
      exact find?_storeSlot (hframe k) x v
    · rw [find?_storeSlot_of_ne e hslot, find?_storeSlot_of_ne t hslot]
      exact hagree k x hin hslot

end Machine

end KeyLoop
