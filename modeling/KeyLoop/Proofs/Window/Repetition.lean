/-
# Words one by one, and the loop that makes them

Every key word is computed by a fresh run of the update, in which the
running sum holds the word before.  The loop that the update was taken from
does not start afresh: its locals and arguments keep what they hold, values
may stay behind on the stack, and it stores each word into the running sum.

    a fresh run        enter; sum := w k;  update;  pop w (k + 1)
    the loop           ...;  update;  store w (k + 1) to the sum;  update;  ...

Both come to the same words if the update stores no slot behind its back:
what it stores at all, it stores before it loads it (`StoredFirst`).  Then
the loop shadows each of the fresh runs (`pass_follows`).  What a pass may
leave behind on the stack is bounded by its length, so `n` passes need no
more than `n` times as much room.
-/
import KeyLoop.Proofs.Machine.Shadow
import KeyLoop.Proofs.Window.SinglePhase
import KeyLoop.Proofs.Window.TwoPhase
import KeyLoop.Proofs.Window.UnknownLocals

namespace KeyLoop

/-! ## Code that stores before it loads -/

/-- Every slot that the code stores, it stores before it loads it. -/
def StoredFirst (code : List Instruction) : Prop :=
  ∀ (kind : SlotKind) (n : BitVec 16) (j k : Nat) (x y : Instruction),
    code[j]? = some x → x.IsAccess kind .load n → code[k]? = some y → y.IsAccess kind .store n →
      ∃ l < j, ∃ z, code[l]? = some z ∧ z.IsAccess kind .store n

/-- Some instruction of the code stores the slot. -/
def storesSlot (code : List Instruction) (kind : SlotKind) (n : BitVec 16) : Bool :=
  code.any fun i => i.accesses kind .store && i.slotIndex? kind == some n

/-- Every load of the code that some store of the code is about has such a
store before it. -/
def storesBeforeLoads (code : List Instruction) : Bool :=
  [SlotKind.argument, .localVar].all fun kind => (List.range code.length).all fun j =>
    (code[j]?.filter (·.accesses kind .load)).all fun i => (i.slotIndex? kind).all fun n =>
      !storesSlot code kind n || storesSlot (code.take j) kind n

/-- In decoded code the encodings say what the queries find. -/
theorem storedFirst_of_storesBeforeLoads {code : List Instruction}
    (hcode : ∀ i ∈ code, i.IsStatement) (h : storesBeforeLoads code = true) : StoredFirst code := by
  intro kind n j k x y hx hload hy hstore
  obtain ⟨hloads, hindex⟩ := hload.queries
  obtain ⟨hstores, hstored⟩ := hstore.queries
  have hj : j ∈ List.range code.length :=
    List.mem_range.mpr (List.getElem?_eq_some_iff.mp hx).1
  have hkind : kind ∈ [SlotKind.argument, .localVar] := by cases kind <;> decide
  have hcheck := List.all_eq_true.mp (List.all_eq_true.mp h kind hkind) j hj
  have hlater : storesSlot code kind n = true := by
    refine List.any_eq_true.mpr ⟨y, List.mem_of_getElem? hy, ?_⟩
    rw [hstores, hstored]
    exact beq_self_eq_true (some n)
  simp only [hx, Option.filter_some, hloads, if_true, Option.all_some, hindex, hlater, Bool.not_true,
    Bool.false_or] at hcheck
  obtain ⟨z, hz, hstores'⟩ := List.any_eq_true.mp hcheck
  obtain ⟨l, hl⟩ := List.mem_iff_getElem?.mp hz
  have hlt : l < j := by
    have hlength := (List.getElem?_eq_some_iff.mp hl).1
    rw [List.length_take] at hlength
    omega
  rw [List.getElem?_take_of_lt hlt] at hl
  obtain ⟨s, address, offset, rfl⟩ := hcode z (List.mem_of_getElem? hl)
  rw [Bool.and_eq_true, beq_iff_eq] at hstores'
  exact ⟨l, hlt, _, hl, (s.isAccess_iff address offset).mpr hstores'⟩

/-- The slots that no instruction of the code stores. -/
def Unstored (code : List Instruction) : SlotKind → BitVec 16 → Prop :=
  fun kind n => ∀ i ∈ code, ¬ i.Touches kind .store n

namespace Machine

theorem mem_foldl_stored {D : SlotKind → BitVec 16 → Prop} {code : List Instruction}
    {kind : SlotKind} {n : BitVec 16} :
    code.foldl Stored D kind n ↔ D kind n ∨ ∃ i ∈ code, i.Touches kind .store n := by
  induction code generalizing D with
  | nil => simp
  | cons i code ih =>
    rw [List.foldl_cons, ih, Stored, or_assoc]
    simp only [List.mem_cons, exists_eq_or_imp]

/-- Code that stores before it loads, loads what it never stores and what it
has stored before. -/
theorem loadsWithin_unstored {code : List Instruction}
    (hcode : ∀ i ∈ code, i.IsStatement) (h : StoredFirst code) :
    LoadsWithin (Unstored code) code := by
  have htouches : ∀ {k : Nat} {x : Instruction} {kind access n}, code[k]? = some x →
      (x.Touches kind access n ↔ x.IsAccess kind access n) := by
    intro k x kind access n hx
    obtain ⟨s, address, offset, rfl⟩ := hcode x (List.mem_of_getElem? hx)
    exact s.touches_iff address offset
  have hloads : ∀ done todo, code = done ++ todo →
      LoadsWithin (done.foldl Stored (Unstored code)) todo := by
    intro done todo
    induction todo generalizing done with
    | nil => exact fun _ => trivial
    | cons x todo ih =>
      intro hsplit
      have hx : code[done.length]? = some x := by
        rw [hsplit, List.getElem?_append_right (Nat.le_refl _), Nat.sub_self]
        rfl
      refine ⟨fun kind n hload => ?_, ?_⟩
      · rw [mem_foldl_stored]
        by_cases hnever : Unstored code kind n
        · exact .inl hnever
        · simp only [Unstored, not_forall, not_not] at hnever
          obtain ⟨y, hy, hstore⟩ := hnever
          obtain ⟨k, hk⟩ := List.mem_iff_getElem?.mp hy
          obtain ⟨l, hl, z, hz, hbefore⟩ := h kind n done.length k x y hx ((htouches hx).mp hload) hk
            ((htouches hk).mp hstore)
          refine .inr ⟨z, ?_, (htouches hz).mpr hbefore⟩
          rw [hsplit, List.getElem?_append_left hl] at hz
          exact List.mem_of_getElem? hz
      · have hnext := ih (done ++ [x]) (by rw [hsplit, List.append_assoc]; rfl)
        rwa [List.foldl_append] at hnext
  exact hloads [] code rfl

/-- Run the code so many times in a row. -/
def passes (code : List Instruction) : (count : Nat) → EStateM (Nat × MachineFault) Machine Unit
  | 0 => pure ()
  | count + 1 => do
      run code
      passes code count

end Machine

namespace Value

/-- Only a 32-bit integer with all bits known has bits. -/
theorem toBits?_eq_some_iff {v : Value} {bits : BitVec 32} :
    v.toBits? = some bits ↔ v = .ofBits bits := by
  cases v with
  | int32 w =>
    rw [toBits?, PartialWord.toBits?_eq_some_iff, ofBits, int32.injEq]
  | _ => exact ⟨nofun, nofun⟩

end Value

namespace Generator

variable {g : Generator} {limits : Limits} {d : Declaration}

/-! ## Fresh runs -/

/-- The machine that a word is computed on: at the entry, with a word in the running sum. -/
def seeded (g : Generator) (limits : Limits) (word : BitVec 32) : Machine :=
  ((Machine.new limits).enter g.arguments g.locals g.initLocals).storeSlot .localVar
    g.window.accumulator (.ofBits word)

theorem setLocal_seeded (hd : g.locals.find? (·.index == g.window.accumulator) = some d)
    (word : BitVec 32) :
    Machine.setLocal g.window.accumulator (.ofBits word)
      ((Machine.new limits).enter g.arguments g.locals g.initLocals) =
        .ok () (g.seeded limits word) := by
  refine Machine.set_eq_ok_iff.mpr ⟨?_, rfl⟩
  show ((Slots.declare .localVar g.locals g.initLocals).find? g.window.accumulator).isSome = true
  rw [Slots.find?_declare, hd]
  rfl

/-- The running sum holds the word, if it is declared for 32-bit integers. -/
theorem local?_seeded (hd : g.locals.find? (·.index == g.window.accumulator) = some d)
    (hflavor : d.flavor = .i4 ∨ d.flavor = .u4) (word : BitVec 32) :
    (g.seeded limits word).local? g.window.accumulator = some (.ofBits word) := by
  have hindex : d.index = g.window.accumulator := by simpa using List.find?_some hd
  have hcoerce : (Value.ofBits word).coerce d.flavor = .ofBits word := by
    rcases hflavor with h | h <;> rw [h] <;> rfl
  have hfind : (g.seeded limits word).locals.find? g.window.accumulator =
      ((Slots.declare .localVar g.locals g.initLocals).store g.window.accumulator
        (.ofBits word)).find? g.window.accumulator := rfl
  rw [Machine.local?, hfind, Slots.find?_store, Slots.find?_declare, hd]
  simp only [Option.map_some, Slots.fresh, hindex, if_true, hcoerce]

/-- A word that is found is on top of the stack of a fresh run. -/
theorem run_of_keyWord (hdialect : g.window.dialect = .standard)
    (hd : g.locals.find? (·.index == g.window.accumulator) = some d) {sum word : BitVec 32}
    {s s' : Machine} (hlimits : s.limits = limits) (h : g.keyWord sum s = .ok word s') :
    ∃ m rest, Machine.run g.window.code (g.seeded limits sum) = .ok () m ∧
      m.stack.values = .ofBits word :: rest := by
  subst hlimits
  have henter : Machine.setLocal g.window.accumulator (.ofBits sum)
      (s.enter g.arguments g.locals g.initLocals) = .ok () (g.seeded s.limits sum) :=
    setLocal_seeded hd sum
  simp only [keyWord, runWindow_eq g hdialect, henter] at h
  cases hrun : Machine.run g.window.code (g.seeded s.limits sum) with
  | error fault m =>
    rw [hrun] at h
    cases h
  | ok u m =>
    rw [hrun] at h
    obtain ⟨limits, ⟨values, limit⟩, arguments, locals, executed⟩ := m
    cases values with
    | nil => cases h
    | cons v rest =>
      refine ⟨_, rest, rfl, ?_⟩
      simp only [Machine.pop, Machine.onStack, Stack.pop] at h
      cases hbits : v.toBits? with
      | none =>
        rw [hbits] at h
        cases h
      | some bits =>
        rw [hbits] at h
        cases h
        rw [Value.toBits?_eq_some_iff.mp hbits]

/-! ## One pass -/

/-- What it takes of an update, and of the instruction behind it, to be repeated. -/
structure Repeatable (g : Generator) (d : Declaration) (save : Instruction) : Prop where
  dialect : g.window.dialect = .standard
  declared : g.locals.find? (·.index == g.window.accumulator) = some d
  flavor : d.flavor = .i4 ∨ d.flavor = .u4
  loads : Machine.LoadsWithin (Unstored g.window.code) g.window.code
  kept : Unstored g.window.code .localVar g.window.accumulator
  pushes : ∀ i ∈ g.window.code, i.action = .unmodelled → i.pushes ≤ 1
  saves : save.Touches .localVar .store g.window.accumulator
  supported : ¬ Machine.Unsupported save

variable {save : Instruction}

/-- **A pass of the loop shadows a fresh run.**  A loop that agrees with the
fresh machine of one word on all slots but those the update stores, agrees
after the update and the store behind it with the fresh machine of the next. -/
theorem pass_follows (hg : g.Repeatable d save) {sum word : BitVec 32} {s s' : Machine}
    (hlimits : s.limits = limits) (h : g.keyWord sum s = .ok word s') {rest : List Value}
    {room : Nat} {n : Machine}
    (hn : Machine.Shadows (Unstored g.window.code) rest (room + g.window.code.length)
      (g.seeded limits sum) n) :
    ∃ rest' n', Machine.run (g.window.code ++ [save]) n = .ok () n' ∧
      Machine.Shadows (Unstored g.window.code) rest' room (g.seeded limits word) n' := by
  obtain ⟨m, tail, hrun, htop⟩ := run_of_keyWord hg.dialect hg.declared hlimits h
  obtain ⟨t, ht, hmt⟩ := Machine.run_follows g.window.code hg.loads hg.pushes _ _ hn _ _ hrun
  have hvalues : t.stack.values = .ofBits word :: (tail ++ rest) := by
    rw [hmt.stack.values, htop]
    rfl
  -- the declarations are those of the entry, all along
  let entry := (Machine.new limits).enter g.arguments g.locals g.initLocals
  have hframe : ∀ kind, Slots.SameFrame (entry.slots kind) (t.slots kind) := fun kind =>
    ((Machine.frame_storeSlot entry _ _ _ kind).symm.trans
      ((Machine.frame_run hrun).slots kind).symm).trans (hmt.frame kind)
  have hdeclared : ((t.slots .localVar).find? g.window.accumulator).isSome = true := by
    have hsame := congrArg Option.isSome ((hframe .localVar).declaration g.window.accumulator)
    rw [Option.isSome_map, Option.isSome_map] at hsame
    rw [← hsame]
    show ((Slots.declare .localVar g.locals g.initLocals).find? g.window.accumulator).isSome = true
    rw [Slots.find?_declare, hg.declared]
    rfl
  have hsave := Machine.step_store hg.saves hg.supported hmt.unlimited hvalues hdeclared
  refine ⟨tail ++ rest, _, Machine.run_append_ok_iff.mpr ⟨t, ht, Machine.run_cons_ok_iff.mpr
    ⟨_, hsave, rfl⟩⟩, ?_⟩
  refine Machine.shadows_storedTop hmt.unlimited hvalues hmt.stack.room hframe fun kind x hin hother => ?_
  -- a slot that the update does not store is as it was at the entry
  rw [← hmt.agree kind x (Machine.mem_foldl_stored.mpr (.inl hin)), Machine.find?_run hin hrun, seeded,
    Machine.find?_storeSlot_of_ne entry hother]

/-! ## The loop -/

/-- The loop goes through the words of the keystream, one in every pass. -/
theorem passes_follow (hg : g.Repeatable d save) {sum : BitVec 32} {words : List (BitVec 32)}
    {s : Machine} (hlimits : s.limits = limits)
    (hwords : (g.keystream sum words.length s).1 = words.map .ok) {rest : List Value} {n : Machine}
    (hn : Machine.Shadows (Unstored g.window.code) rest (words.length * g.window.code.length)
      (g.seeded limits sum) n) (k : Nat) (hk : k < words.length) :
    ∃ n', Machine.passes (g.window.code ++ [save]) (k + 1) n = .ok () n' ∧
      n'.local? g.window.accumulator = some (.ofBits words[k]) := by
  induction words generalizing sum s rest n k with
  | nil => cases hk
  | cons word words ih =>
    have hkeep := limits_keyWord g sum s
    rw [List.length_cons, keystream] at hwords
    cases hword : g.keyWord sum s with
    | error fault s' =>
      rw [hword] at hwords
      cases hwords
    | ok word' s' =>
      rw [hword] at hwords
      rw [after_ok hword] at hkeep
      obtain ⟨⟨⟩, hlater⟩ := List.cons.inj hwords
      have hroom : (word :: words).length * g.window.code.length =
          words.length * g.window.code.length + g.window.code.length := Nat.succ_mul _ _
      rw [hroom] at hn
      obtain ⟨rest', n', hrun, hn'⟩ := pass_follows hg hlimits hword hn
      cases k with
      | zero =>
        refine ⟨n', ?_, ?_⟩
        · simp only [Machine.passes, bind, EStateM.bind, hrun]
          rfl
        · rw [List.getElem_cons_zero, ← local?_seeded hg.declared hg.flavor word]
          exact congrArg (Option.map (·.value)) (hn'.agree .localVar _ hg.kept).symm
      | succ k =>
        obtain ⟨n'', hpasses, hlast⟩ := ih (hkeep.trans hlimits) hlater hn' k (Nat.lt_of_succ_lt_succ hk)
        refine ⟨n'', ?_, hlast⟩
        rw [Machine.passes]
        simp only [bind, EStateM.bind, hrun]
        exact hpasses

/-- The loop begins as the fresh run of the first word does. -/
theorem shadows_seeded (hfree : limits.maxInstructions = 0) {room : Nat}
    (hroom : room ≤ limits.maxStack) (word : BitVec 32) :
    Machine.Shadows (Unstored g.window.code) [] room (g.seeded limits word) (g.seeded limits word) where
  unlimited := hfree
  stack := ⟨rfl, by
    show 0 + room ≤ limits.maxStack
    omega⟩
  frame _ := .refl _
  agree _ _ _ := rfl

end Generator

/-! ## Located updates -/

/-- The encodings of slot accesses are known to the machine. -/
theorem Instruction.IsAccess.hasKnownLead {i : Instruction} {kind : SlotKind} {access : SlotAccess}
    {n : BitVec 16} (h : i.IsAccess kind access n) : i.opcode.hasKnownLead = true := by
  cases h with
  | own _ _ hopcode => rw [hopcode]; rfl
  | short hopcode _ => rw [hopcode]; rfl
  | long hopcode _ => rw [hopcode]; rfl

namespace Method

variable {m : Method}

/-- A located two-phase window is that of the two-phase loop. -/
theorem exists_twoPhaseLoop (hm : m.Legible) {strategies : Strategies} {w : Window}
    (hw : m.locate strategies = .ok w) (htwo : w.strategy = .twoPhase) :
    ∃ first last sum, m.TwoPhaseLoop first last sum ∧
      w = m.window .twoPhase .standard first last sum := by
  rw [locate_eq_ok_iff, locate?, Option.or_eq_some_iff] at hw
  rcases hw with hw | ⟨-, hw⟩
  · split at hw
    · exact (twoPhase?_eq_some_iff hm).mp hw
    · cases hw
  · split at hw
    · obtain ⟨first, last, sum, -, rfl⟩ := (singlePhase?_eq_some_iff hm).mp hw
      cases htwo
    · cases hw

/-- The update of a located two-phase window can be repeated, if it stores
before it loads. -/
theorem repeatable_of_locate (hm : m.Legible) {strategies : Strategies} {w : Window}
    (hw : m.locate strategies = .ok w) (htwo : w.strategy = .twoPhase) {d : Declaration}
    (hd : m.local? w.accumulator = some d) (hflavor : d.flavor = .i4 ∨ d.flavor = .u4)
    (hfirst : StoredFirst w.code) :
    ∃ save, (Generator.ofWindow m w).Repeatable d save ∧
      m.slice w.first (w.last + 1) = w.code ++ [save] := by
  obtain ⟨first, last, sum, ⟨i, -, -, hends⟩, rfl⟩ := exists_twoPhaseLoop hm hw htwo
  obtain ⟨hordered, hline, save, hsave, hstores⟩ := hends
  have hcode : ∀ x ∈ m.slice first last, x.IsStatement := fun x hx => hm.isStatement_of_mem_slice hx
  refine ⟨save, ?_, slice_succ (Nat.le_succ_of_le hordered) hsave⟩
  refine {
    dialect := rfl
    declared := hd
    flavor := hflavor
    loads := Machine.loadsWithin_unstored hcode hfirst
    kept := ?_
    pushes := ?_
    saves := ?_
    supported := ?_ }
  · intro x hx htouches
    obtain ⟨s, address, offset, rfl⟩ := hcode x hx
    obtain ⟨k, hlow, hhigh, hk⟩ := exists_of_mem_slice hx
    exact ((hline k hlow hhigh).of_eq hk).2 ⟨hstores.1, (s.touches_iff address offset).mp htouches⟩
  · intro x hx haction
    obtain ⟨s, address, offset, rfl⟩ := hcode x hx
    rw [s.action_instruction] at haction
    exact Row.pushes_of_unmodelled s.defined haction
  · obtain ⟨s, address, offset, rfl⟩ := hm.isStatement save (List.mem_of_getElem? hsave)
    exact (s.touches_iff address offset).mpr hstores.2
  · rintro (hflow | hlead)
    · have hsequential := hm.isSequential_of_stores (List.mem_of_getElem? hsave) hstores
      rw [Instruction.isSequential, beq_iff_eq] at hsequential
      rw [hsequential] at hflow
      cases hflow
    · rw [hstores.2.hasKnownLead] at hlead
      cases hlead

end Method

namespace Generator

/-- **The loop makes the words that are computed one by one.**  Take a located
two-phase window with a 32-bit running sum, whose update stores before it
loads.  If the first words of the keystream exist, then one machine, entered
once with zero in the running sum, goes through the update and the store
behind it as many times in a row without a fault, and after each pass the
running sum holds the word. -/
theorem passes_keystream (m : Method) (hm : m.IsDecoded) (strategies : Strategies) (w : Window)
    (hw : m.locate strategies = .ok w) (htwo : w.strategy = .twoPhase) (d : Declaration)
    (hd : m.local? w.accumulator = some d) (hflavor : d.flavor = .i4 ∨ d.flavor = .u4)
    (hfirst : StoredFirst w.code) (limits : Limits) (hfree : limits.maxInstructions = 0)
    (words : List (BitVec 32)) (hroom : (words.length + 1) * w.code.length ≤ limits.maxStack)
    (hwords : ((ofWindow m w).keystream 0 words.length (Machine.new limits)).1 = words.map .ok) :
    ∃ start, Machine.setLocal w.accumulator (.ofBits 0)
        ((Machine.new limits).enter m.arguments m.locals m.initLocals) = .ok () start ∧
      ∀ k (hk : k < words.length), ∃ s,
        Machine.passes (m.slice w.first (w.last + 1)) (k + 1) start = .ok () s ∧
          s.local? w.accumulator = some (.ofBits words[k]) := by
  obtain ⟨save, hg, hslice⟩ := Method.repeatable_of_locate hm.legible hw htwo hd hflavor hfirst
  refine ⟨_, setLocal_seeded hg.declared 0, fun k hk => ?_⟩
  have henough : words.length * w.code.length ≤ limits.maxStack := by
    rw [Nat.succ_mul] at hroom
    omega
  rw [hslice]
  exact passes_follow hg rfl hwords (shadows_seeded hfree henough 0) k hk

/-- A byte fold, and an update that keeps the sum in a second local and leaves
it on the stack as well. -/
def foldAndRemember : List Byte :=
  [0xE0, 0x91, 0x60, 0x0B, 0x06, 0x07, 0x58, 0x0A, 0x06, 0x0B, 0x07, 0x25, 0x17, 0x58, 0x0A]

theorem passes_keystream_foldAndRemember :
    ∃ code w, decode 0 foldAndRemember = .ok code ∧
      let m := Method.ofInstructions ⟨0⟩ "" code [] [⟨0, .i4⟩, ⟨1, .i4⟩] true
      m.IsDecoded ∧ m.locate .both = .ok w ∧ w.strategy = .twoPhase ∧
        m.local? w.accumulator = some ⟨0, .i4⟩ ∧ StoredFirst w.code ∧ (3 + 1) * w.code.length ≤ 24 ∧
        ((ofWindow m w).keystream 0 3 (Machine.new ⟨24, 0⟩)).1 = [1, 2, 3].map .ok ∧
        ∃ start, Machine.setLocal w.accumulator (.ofBits 0)
            ((Machine.new ⟨24, 0⟩).enter m.arguments m.locals m.initLocals) = .ok () start ∧
          ∀ k (hk : k < ([1, 2, 3] : List (BitVec 32)).length), ∃ s,
            Machine.passes (m.slice w.first (w.last + 1)) (k + 1) start = .ok () s ∧
              s.local? w.accumulator = some (.ofBits ([1, 2, 3] : List (BitVec 32))[k]) := by
  have hrun : decodesTo foldAndRemember (fun code =>
      let m := Method.ofInstructions ⟨0⟩ "" code [] [⟨0, .i4⟩, ⟨1, .i4⟩] true
      (m.locate? .both).any fun w =>
        w.strategy == .twoPhase && m.local? w.accumulator == some ⟨0, .i4⟩ &&
          storesBeforeLoads w.code && decide ((3 + 1) * w.code.length ≤ 24) &&
          decide (((ofWindow m w).keystream 0 3 (Machine.new ⟨24, 0⟩)).1 = [1, 2, 3].map .ok)) =
      true := by decide +kernel
  obtain ⟨code, hdecode, hcheck⟩ := exists_of_decodesTo _ _ hrun
  have hm : (Method.ofInstructions ⟨0⟩ "" code [] [⟨0, .i4⟩, ⟨1, .i4⟩] true).IsDecoded :=
    ⟨0, foldAndRemember, by decide, hdecode⟩
  obtain ⟨w, hfound, hwindow⟩ := (Option.any_eq_true _ _).mp hcheck
  have hw := Method.locate_eq_ok_iff.mpr hfound
  simp only [Bool.and_eq_true, beq_iff_eq, decide_eq_true_eq] at hwindow
  obtain ⟨⟨⟨⟨htwo, hd⟩, hstores⟩, hroom⟩, hwords⟩ := hwindow
  have hfirst : StoredFirst w.code := by
    refine storedFirst_of_storesBeforeLoads (fun i hi => ?_) hstores
    obtain ⟨first, last, sum, -, rfl⟩ := Method.exists_twoPhaseLoop hm.legible hw htwo
    exact hm.legible.isStatement_of_mem_slice hi
  exact ⟨code, w, hdecode, hm, hw, htwo, hd, hfirst, hroom, hwords,
    passes_keystream _ hm .both w hw htwo ⟨0, .i4⟩ hd (.inl rfl) hfirst ⟨24, 0⟩ rfl [1, 2, 3] hroom
      hwords⟩

end Generator

end KeyLoop
