/-
# Key words and unknown locals

A method that does not initialize its locals runs with all locals but the
running sum unknown.  Whether the word it comes to is the word of a run that
starts every local at the zero of its flavor is a question about two runs,
step by step:

    before a step     each value of the first run covers the value of the
                      second in the same place
    after it          again so, unless an operation on two operands read an
                      unknown value as a 32-bit word and the second run has
                      a 64-bit integer or a float there (`Misreads`)

An unknown value next to a word counts as a word by design, so that masking
and shifting decide bits.  `answer_differs` is a method where that reading
is wrong, and the two words differ; where no step misreads, they are the
same (`keyWord_zeroed`).
-/
import KeyLoop.Proofs.Machine.Simulation
import KeyLoop.Proofs.Value.Covers
import KeyLoop.Proofs.Window.Chain

namespace KeyLoop

namespace Value

/-- All evaluation on one operand respects covering. -/
theorem covers_congruence : Congruence (fun _ => True) (fun _ => True) Covers where
  unknown := .refl _
  int32 _ := .refl _
  int64 _ _ := .refl _
  float _ _ := .refl _
  unary op _ _ h := h.unary op
  convert op _ _ _ h := h.convert op
  compare op _ _ _ _ h h' := h.compare op h'
  coerce f _ _ _ h := h.coerce f

end Value

namespace Machine

/-- The machines agree on all but their values, and those of the first cover
those of the second. -/
abbrev Covers (m' m : Machine) : Prop := Related (fun _ => True) Value.Covers m' m

/-- The action takes two operands from each machine, and misreads those of the first. -/
def MisreadsNow (action : Action) (m' m : Machine) : Prop :=
  match action, m'.stack.values, m.stack.values with
  | .binary op, b' :: a' :: _, b :: a :: _ => Value.Misread op a' a b' b
  | _, _, _ => False

instance (action : Action) (m' m : Machine) : Decidable (MisreadsNow action m' m) := by
  unfold MisreadsNow
  split <;> infer_instance

/-- At some step that both machines come to, the first misreads its operands. -/
def Misreads : List Instruction → Machine → Machine → Prop
  | [], _, _ => False
  | i :: rest, m', m =>
      MisreadsNow i.action m' m ∨
        match step i m', step i m with
        | .ok _ n', .ok _ n => Misreads rest n' n
        | _, _ => False

instance decidableMisreads : (code : List Instruction) → (m' m : Machine) →
    Decidable (Misreads code m' m)
  | [], _, _ => .isFalse id
  | i :: rest, m', m =>
      have : Decidable (match step i m', step i m with
          | .ok _ n', .ok _ n => Misreads rest n' n
          | _, _ => False) :=
        match step i m', step i m with
        | .ok _ n', .ok _ n => decidableMisreads rest n' n
        | .ok _ _, .error _ _ => .isFalse id
        | .error _ _, _ => .isFalse id
      inferInstanceAs (Decidable (_ ∨ _))

theorem binaryRelated_covers {action : Action} {m' m : Machine} (h : ¬ MisreadsNow action m' m) :
    BinaryRelated Value.Covers action m' m := by
  rintro op a' a b' b rest' rest rfl hm' hm hleft hright
  refine hleft.binary op hright ?_
  simpa only [MisreadsNow, hm', hm] using h

theorem binaryRelatedAlong_covers (code : List Instruction) {m' m : Machine}
    (h : ¬ Misreads code m' m) : BinaryRelatedAlong Value.Covers code m' m := by
  induction code generalizing m' m with
  | nil => trivial
  | cons i rest ih =>
    refine ⟨binaryRelated_covers fun hnow => h (.inl hnow), ?_⟩
    intro n' n hn' hn
    refine ih fun hlater => h (.inr ?_)
    simpa only [hn', hn] using hlater

end Machine

namespace Slots

/-- Unknown slots cover initialized ones of the same declarations. -/
theorem declare_covers (kind : SlotKind) (ds : List Declaration) (zeroed : Bool) :
    Related (fun _ => True) Value.Covers (declare kind ds false) (declare kind ds zeroed) := by
  refine ⟨rfl, ?_⟩
  unfold declare
  rw [List.forall₂_map_left_iff, List.forall₂_map_right_iff, List.forall₂_same]
  intro d _
  exact ⟨rfl, trivial, trivial⟩

end Slots

namespace Machine

/-- A machine that enters a method with unknown locals covers one that
enters it with initialized locals. -/
theorem enter_covers (arguments locals : List Declaration) (m : Machine) :
    Covers (m.enter arguments locals false) (m.enter arguments locals true) :=
  ⟨rfl, rfl, ⟨rfl, .nil⟩, Slots.declare_covers .argument arguments false,
    Slots.declare_covers .localVar locals true⟩

end Machine

namespace Generator

/-- Without guards to pass over, running code is running its instructions in order. -/
theorem runCode_eq_run (code : List Instruction) (m : Machine) :
    runCode false code m =
      match Machine.run code m with
      | .ok _ m => .ok () m
      | .error (_, fault) m => .error fault m := by
  induction code generalizing m with
  | nil =>
    rw [runCode]
    rfl
  | cons i rest ih =>
    rw [runCode]
    simp only [Bool.false_and, Bool.false_eq_true, if_false, Emulator.step, Machine.run]
    cases Machine.step i m with
    | error fault n => rfl
    | ok _ n =>
      simp only [ih]
      cases Machine.run rest n with
      | error fault n => rfl
      | ok _ n => rfl

/-- The update without guards: from a fresh machine, the instructions in
order, and then what is on top of the stack. -/
theorem runWindow_eq (g : Generator) (hdialect : g.window.dialect = .standard)
    (input : BitVec 32) (m : Machine) :
    g.runWindow input m =
      match Machine.setLocal g.window.accumulator (.ofBits input)
          (m.enter g.arguments g.locals g.initLocals) with
      | .error fault m => .error fault m
      | .ok _ m =>
          match Machine.run g.window.code m with
          | .error (_, fault) m => .error fault m
          | .ok _ m => Machine.pop m := by
  have hguarded : (g.window.dialect == .guarded) = false := by rw [hdialect]; rfl
  have henter : (modify (Machine.enter g.arguments g.locals g.initLocals) : Machine.Run Unit) m =
      .ok () (m.enter g.arguments g.locals g.initLocals) := rfl
  simp only [runWindow, hguarded, bind, EStateM.bind, Emulator.enter, henter, Emulator.setLocal,
    Emulator.pop, runCode_eq_run]
  cases Machine.setLocal g.window.accumulator (.ofBits input)
      (m.enter g.arguments g.locals g.initLocals) with
  | error fault n => rfl
  | ok _ n =>
    dsimp only
    cases Machine.run g.window.code n with
    | error fault n => rfl
    | ok _ n => rfl

/-- The runs of the update on unknown and on initialized locals come to a
step where the first of them misreads its operands. -/
def Misreads (g : Generator) (input : BitVec 32) (m : Machine) : Prop :=
  match Machine.setLocal g.window.accumulator (.ofBits input) (m.enter g.arguments g.locals false),
    Machine.setLocal g.window.accumulator (.ofBits input) (m.enter g.arguments g.locals true) with
  | .ok _ s', .ok _ s => Machine.Misreads g.window.code s' s
  | _, _ => False

instance (g : Generator) (input : BitVec 32) (m : Machine) : Decidable (g.Misreads input m) := by
  unfold Misreads
  split <;> infer_instance

/-- Unless a step misreads, the two runs of the update fail with the same
fault, or what the first comes to covers what the second comes to. -/
theorem runWindow_covers (g : Generator) (hdialect : g.window.dialect = .standard)
    (input : BitVec 32) (m : Machine) (hread : ¬ g.Misreads input m) :
    Matches Machine.Covers Value.Covers
      ({ g with initLocals := false }.runWindow input m)
      ({ g with initLocals := true }.runWindow input m) := by
  rw [runWindow_eq { g with initLocals := false } hdialect,
    runWindow_eq { g with initLocals := true } hdialect]
  have hstart := Machine.setLocal_related Value.covers_congruence g.window.accumulator
    (Value.Covers.refl (.ofBits input)) _ _ (Machine.enter_covers g.arguments g.locals m)
  rcases hstart.cases with ⟨⟨⟩, ⟨⟩, s', s, hs', hs, -, hcovers⟩ | ⟨fault, s', s, hs', hs, hcovers⟩
  · have hrun := Machine.run_related Value.covers_congruence g.window.code (fun _ _ => trivial)
      hcovers (Machine.binaryRelatedAlong_covers g.window.code
        fun hmisreads => hread (by simpa only [Misreads, hs', hs] using hmisreads))
    rcases hrun.cases with ⟨_, _, n', n, hn', hn, -, hend⟩ | ⟨⟨k, fault⟩, n', n, hn', hn, hend⟩
    · simp only [hs', hs, hn', hn]
      exact Machine.pop_related n' n hend
    · simp only [hs', hs, hn', hn]
      exact ⟨rfl, hend⟩
  · simp only [hs', hs]
    exact ⟨rfl, hcovers⟩

/-- **A key word found on unknown locals is found on initialized locals**, in
every method, for every window without guards, from every machine and for
every input, unless a step of the two runs misreads an unknown operand. -/
theorem keyWord_zeroed (method : Method) (window : Window) (hdialect : window.dialect = .standard)
    (input : BitVec 32) (m : Machine) (hread : ¬ (ofWindow method window).Misreads input m)
    (word : BitVec 32)
    (h : ∃ after, (ofWindow { method with initLocals := false } window).keyWord input m =
      .ok word after) :
    ∃ after, (ofWindow { method with initLocals := true } window).keyWord input m =
      .ok word after := by
  obtain ⟨after, h⟩ := h
  have hruns := runWindow_covers (ofWindow method window) hdialect input m hread
  change Matches Machine.Covers Value.Covers
    ((ofWindow { method with initLocals := false } window).runWindow input m)
    ((ofWindow { method with initLocals := true } window).runWindow input m) at hruns
  rcases hruns.cases with ⟨v', v, s', s, hs', hs, hcovers, -⟩ | ⟨fault, s', s, hs', -, -⟩
  · simp only [keyWord, hs'] at h
    cases hbits : v'.toBits? with
    | none =>
      rw [hbits] at h
      cases h
    | some bits =>
      rw [hbits] at h
      cases h
      exact ⟨s, by simp only [keyWord, hs, hcovers.toBits?_eq hbits]⟩
  · simp only [keyWord, hs'] at h
    cases h

/-- An unknown local masked to zero: no step misreads, and the word found
without looking at the local is found on the initialized local. -/
theorem keyWord_zeroed_masked_local :
    ∃ code, decode 0 [0x06, 0x07, 0x16, 0x5F, 0x58] = .ok code ∧
      let method := Method.ofInstructions ⟨0⟩ "" code [] [⟨0, .i4⟩, ⟨1, .i4⟩] false
      let window := method.window .twoPhase .standard 0 4 0
      let m := Machine.new .standard
      ¬ (ofWindow method window).Misreads 7 m ∧
        ∃ after, (ofWindow { method with initLocals := true } window).keyWord 7 m =
          .ok 7 after := by
  have hrun : (match decode 0 [0x06, 0x07, 0x16, 0x5F, 0x58] with
      | .ok code =>
          let method := Method.ofInstructions ⟨0⟩ "" code [] [⟨0, .i4⟩, ⟨1, .i4⟩] false
          let g := ofWindow method (method.window .twoPhase .standard 0 4 0)
          decide (¬ g.Misreads 7 (.new .standard)) &&
            match g.keyWord 7 (Machine.new .standard) with
            | .ok word _ => word == 7
            | .error _ _ => false
      | .error _ => false) = true := by decide +kernel
  cases hdecode : decode 0 [0x06, 0x07, 0x16, 0x5F, 0x58] with
  | error fault =>
    rw [hdecode] at hrun
    cases hrun
  | ok code =>
    simp only [hdecode, Bool.and_eq_true, decide_eq_true_eq] at hrun
    obtain ⟨hread, hword⟩ := hrun
    refine ⟨code, rfl, hread, keyWord_zeroed _ _ rfl 7 _ hread 7 ?_⟩
    split at hword
    · rename_i word after hword'
      rw [beq_iff_eq] at hword
      subst hword
      exact ⟨after, hword'⟩
    · cases hword

/-- The complement of a 64-bit local, shifted down twice: an unknown local is
shifted as a word, which leaves zero, and the initialized one as 64 bits. -/
theorem answer_differs :
    ∃ code, decode 0 [0x07, 0x66, 0x1F, 0x1F, 0x64, 0x17, 0x64, 0x6D] = .ok code ∧
      let method := Method.ofInstructions ⟨0⟩ "" code [] [⟨0, .i4⟩, ⟨1, .i8⟩] false
      let window := method.window .twoPhase .standard 0 6 0
      (ofWindow { method with initLocals := false } window).answer .standard 0 = .ok 0 ∧
        (ofWindow { method with initLocals := true } window).answer .standard 0 =
          .ok 0xFFFFFFFF := by
  have hrun : (match decode 0 [0x07, 0x66, 0x1F, 0x1F, 0x64, 0x17, 0x64, 0x6D] with
      | .ok code =>
          let method := Method.ofInstructions ⟨0⟩ "" code [] [⟨0, .i4⟩, ⟨1, .i8⟩] false
          let window := method.window .twoPhase .standard 0 6 0
          let word (zeroed : Bool) (expected : BitVec 32) : Bool :=
            match (ofWindow { method with initLocals := zeroed } window).answer .standard 0 with
            | .ok word => word == expected
            | .error _ => false
          word false 0 && word true 0xFFFFFFFF
      | .error _ => false) = true := by decide +kernel
  have hok : ∀ {r : Except KeyWordFault (BitVec 32)} {expected : BitVec 32},
      (match r with
        | .ok word => word == expected
        | .error _ => false) = true → r = .ok expected := by
    rintro (fault | word) expected h
    · cases h
    · rw [beq_iff_eq.mp h]
  cases hdecode : decode 0 [0x07, 0x66, 0x1F, 0x1F, 0x64, 0x17, 0x64, 0x6D] with
  | error fault =>
    rw [hdecode] at hrun
    cases hrun
  | ok code =>
    simp only [hdecode, Bool.and_eq_true] at hrun
    exact ⟨code, rfl, hok hrun.1, hok hrun.2⟩

end Generator

end KeyLoop
