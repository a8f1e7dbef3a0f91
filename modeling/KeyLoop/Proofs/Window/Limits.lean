/-
# Key words under all limits

The update runs from a fresh machine, and of the machine before it only the
limits are left.  They are thresholds for every part of the run
(`thresholded_runCode`), so they are thresholds for the key word: it cannot be
computed at all, or there are a word, a depth and a count, and

    limits that allow depth and count      the word
    all other limits                       a fault

The count is the number of steps that the run begins, one for each instruction
of the window but those of guards that are passed over.  Which guards these
are depends on the values that the run has come to, and these are the same
under all limits that it comes through under.
-/
import KeyLoop.Proofs.Machine.Thresholds
import KeyLoop.Proofs.Window.Guard

namespace KeyLoop

namespace Generator

variable {guarded : Bool} {i : Instruction} {rest : List Instruction} {m m' : Machine}

/-! ## One pass over code -/

theorem runCode_of_dead (h : (guarded && guardIsDead m (i :: rest)) = true) :
    runCode guarded (i :: rest) m = runCode guarded (rest.drop (guardLength - 1)) m := by
  rw [runCode]
  exact if_pos h

theorem runCode_of_live (h : ¬ (guarded && guardIsDead m (i :: rest)) = true) :
    runCode guarded (i :: rest) m = (Machine.step i >>= fun _ => runCode guarded rest) m := by
  rw [runCode]
  refine (if_neg h).trans ?_
  simp only [Bind.bind, EStateM.bind, Emulator.step]
  cases Machine.step i m <;> rfl

/-- Where seven instructions are passed over, there are seven. -/
theorem length_of_dead (h : (guarded && guardIsDead m (i :: rest)) = true) :
    (i :: rest).length = guardLength + (rest.drop (guardLength - 1)).length := by
  rw [Bool.and_eq_true, guardIsDead, Option.any_eq_true] at h
  obtain ⟨-, v, hv, -⟩ := h
  obtain ⟨n, hn, -⟩ := Option.bind_eq_some_iff.mp hv
  obtain ⟨g, behind, hcode, -⟩ := Guard.exists_of_guardedLocal? hn
  have hlength : (i :: rest).length = guardLength + behind.length := by
    rw [hcode, List.length_append]
    rfl
  rw [List.length_cons] at hlength ⊢
  rw [List.length_drop]
  unfold guardLength at hlength ⊢
  omega

/-- **The limits are thresholds for code**, with guards or without. -/
theorem thresholded_runCode (guarded : Bool) (code : List Instruction) :
    Machine.Thresholded (runCode guarded code) := by
  induction code using runCode.induct with
  | case1 =>
    rw [runCode]
    exact Machine.thresholded_pure ()
  | case2 i rest ihSkip ihRest =>
    intro m
    -- a guard is judged by values, and the limits are none
    have hguard : ∀ l, guardIsDead (m.under l) (i :: rest) = guardIsDead m (i :: rest) := fun _ => rfl
    by_cases hdead : (guarded && guardIsDead m (i :: rest)) = true
    · refine (ihSkip m).congr fun l => runCode_of_dead ?_
      rwa [hguard]
    · refine ((Machine.thresholded_step i m).bind fun _ => ihRest).congr fun l => runCode_of_live ?_
      rwa [hguard]

/-- How many guards a run passes over. -/
def guardsIn (guarded : Bool) : List Instruction → Machine → Nat
  | [], _ => 0
  | i :: rest, m =>
      if guarded && guardIsDead m (i :: rest) then
        guardsIn guarded (rest.drop (guardLength - 1)) m + 1
      else
        match Machine.step i m with
        | .ok _ m => guardsIn guarded rest m
        | .error _ _ => 0
termination_by code => code.length
decreasing_by
  · simp only [List.length_drop, List.length_cons]; omega
  · simp

/-- A run passes once over the code: steps and guards take no more than there
is, and all of it if the run comes through. -/
theorem executed_runCode (guarded : Bool) (code : List Instruction) (m : Machine) :
    (after (runCode guarded code) m).executed + guardLength * guardsIn guarded code m ≤
        m.executed + code.length ∧
      ∀ u m', runCode guarded code m = .ok u m' →
        m'.executed + guardLength * guardsIn guarded code m = m.executed + code.length := by
  induction code using runCode.induct generalizing m with
  | case1 =>
    rw [runCode, guardsIn]
    refine ⟨Nat.le_refl _, ?_⟩
    rintro u m' ⟨⟩
    rfl
  | case2 i rest ihSkip ihRest =>
    rw [guardsIn]
    by_cases hdead : (guarded && guardIsDead m (i :: rest)) = true
    · obtain ⟨hbound, hexact⟩ := ihSkip m
      have hlength := length_of_dead hdead
      rw [if_pos hdead, after, runCode_of_dead hdead, Nat.mul_add, Nat.mul_one]
      refine ⟨?_, fun u m' hrun => ?_⟩
      · rw [after] at hbound
        omega
      · have hcount := hexact u m' hrun
        omega
    · rw [if_neg hdead, after, runCode_of_live hdead, List.length_cons]
      cases hstep : Machine.step i m with
      | error fault s =>
        have hbegun := Machine.executed_step i m
        rw [after_error hstep] at hbegun
        simp only [Bind.bind, EStateM.bind, hstep]
        refine ⟨?_, fun u m' hrun => ?_⟩
        · split at hbegun <;> omega
        · cases hrun
      | ok u s =>
        have hbegun := Machine.executed_of_step_ok hstep
        obtain ⟨hbound, hexact⟩ := ihRest s
        rw [Machine.bind_eq_of_ok hstep]
        refine ⟨?_, fun u m' hrun => ?_⟩
        · rw [after] at hbound
          dsimp only
          omega
        · have hcount := hexact u m' hrun
          dsimp only
          omega

/-! ## The update -/

/-- The update on a machine that has entered the method. -/
def update (g : Generator) (input : BitVec 32) : Machine.Run Value := do
  Machine.setLocal g.window.accumulator (.ofBits input)
  runCode (g.window.dialect == .guarded) g.window.code
  Machine.pop

/-- A machine that has entered the method. -/
def entered (g : Generator) (limits : Limits) : Machine :=
  (Machine.new limits).enter g.arguments g.locals g.initLocals

/-- How many guards the run for an input passes over. -/
def guardsPassed (g : Generator) (input : BitVec 32) (m : Machine) : Nat :=
  match Machine.setLocal g.window.accumulator (.ofBits input) (g.entered m.limits) with
  | .ok _ s => guardsIn (g.window.dialect == .guarded) g.window.code s
  | .error _ _ => 0

variable {g : Generator} {input : BitVec 32}

theorem runWindow_eq_update (g : Generator) (input : BitVec 32) (m : Machine) :
    g.runWindow input m = g.update input (g.entered m.limits) := rfl

theorem entered_eq_under (g : Generator) (l l' : Limits) : g.entered l' = (g.entered l).under l' := rfl

theorem thresholded_update (g : Generator) (input : BitVec 32) : Machine.Thresholded (g.update input) :=
  Machine.thresholded_bind (Machine.thresholded_onSlots .localVar _) fun _ =>
    Machine.thresholded_bind (thresholded_runCode _ _) fun _ => Machine.thresholded_pop

/-- The steps of a run for an input and the guards it passes over are the
instructions of the window, or some of them if the run fails. -/
theorem executed_update (g : Generator) (input : BitVec 32) (m : Machine) :
    (after (g.update input) (g.entered m.limits)).executed + guardLength * g.guardsPassed input m ≤
        g.window.code.length ∧
      ∀ v s, g.update input (g.entered m.limits) = .ok v s →
        s.executed + guardLength * g.guardsPassed input m = g.window.code.length := by
  have hset := Machine.executed_onSlots .localVar (Slots.set g.window.accumulator (.ofBits input)) 0
    (g.entered m.limits) rfl
  change (after (Machine.setLocal g.window.accumulator (.ofBits input)) (g.entered m.limits)).executed = 0
    at hset
  unfold guardsPassed update
  cases hstart : Machine.setLocal g.window.accumulator (.ofBits input) (g.entered m.limits) with
  | error fault s =>
    rw [after_error hstart] at hset
    simp only [after, Bind.bind, EStateM.bind, hstart, hset]
    refine ⟨Nat.zero_le _, fun v s' hend => ?_⟩
    cases hend
  | ok u s =>
    rw [after_ok hstart] at hset
    obtain ⟨hbound, hexact⟩ := executed_runCode (g.window.dialect == .guarded) g.window.code s
    rw [hset, Nat.zero_add] at hbound hexact
    rw [after, Machine.bind_eq_of_ok hstart]
    cases hrun : runCode (g.window.dialect == .guarded) g.window.code s with
    | error fault t =>
      rw [after_error hrun] at hbound
      simp only [Bind.bind, EStateM.bind, hrun]
      refine ⟨hbound, fun v s' hend => ?_⟩
      cases hend
    | ok u t =>
      have hpop := Machine.executed_onStack Stack.pop t.executed t rfl
      change (after Machine.pop t).executed = t.executed at hpop
      have hcount := hexact u t hrun
      rw [← hpop] at hcount
      rw [Machine.bind_eq_of_ok hrun]
      refine ⟨Nat.le_of_eq hcount, fun v s' hend => ?_⟩
      rwa [after_ok hend] at hcount

/-! ## Key words -/

theorem after_keyWord (g : Generator) (input : BitVec 32) (m : Machine) :
    after (g.keyWord input) m = after (g.update input) (g.entered m.limits) := by
  rw [after, keyWord, runWindow_eq_update, after]
  cases g.update input (g.entered m.limits) with
  | error fault s => rfl
  | ok result s =>
    dsimp only
    cases result.toBits? <;> rfl

/-- A fault of the update is one of the key word. -/
theorem fault_of_update {m : Machine} (h : Machine.Faults (g.update input) (g.entered m.limits)) :
    ∃ fault, outcome (g.keyWord input m) = .error fault := by
  obtain ⟨fault, s, hupdate⟩ := h
  exact ⟨.machine fault, by simp only [keyWord, runWindow_eq_update, hupdate, outcome]⟩

/-- Every machine with limits that allow this depth and this count computes the
word, and every other machine fails. -/
structure WordAbove (g : Generator) (input word : BitVec 32) (depth count : Nat) : Prop where
  word : ∀ m : Machine, m.limits.Allow depth count → outcome (g.keyWord input m) = .ok word
  fault : ∀ m : Machine, ¬ m.limits.Allow depth count →
    ∃ fault, outcome (g.keyWord input m) = .error fault
  /-- The count is that of the steps. -/
  steps : ∀ m : Machine, m.limits.Allow depth count → (after (g.keyWord input) m).executed = count
  /-- There is a step for each instruction outside the guards that are passed over. -/
  length : ∀ m : Machine, m.limits.Allow depth count →
    count + guardLength * g.guardsPassed input m = g.window.code.length

/-- No machine computes the word, or it has its thresholds. -/
theorem never_or_wordAbove (g : Generator) (input : BitVec 32) :
    (∀ m : Machine, ∃ fault, outcome (g.keyWord input m) = .error fault) ∨
      ∃ word depth count, g.WordAbove input word depth count := by
  cases thresholded_update g input (g.entered .standard) with
  | never hnever =>
    refine .inl fun m => fault_of_update ?_
    rw [g.entered_eq_under .standard]
    exact hnever m.limits
  | above depth count result s hneeds =>
    have hshort : ∀ m : Machine, ¬ m.limits.Allow depth count →
        ∃ fault, outcome (g.keyWord input m) = .error fault := by
      intro m hm
      refine fault_of_update ?_
      rw [g.entered_eq_under .standard]
      exact hneeds.short m.limits hm
    have henough : ∀ m : Machine, m.limits.Allow depth count →
        g.update input (g.entered m.limits) = .ok result (s.under m.limits) := by
      intro m hm
      rw [g.entered_eq_under .standard]
      exact hneeds.enough m.limits hm
    have hsteps : s.executed = count := hneeds.executed.trans (Nat.zero_max count)
    cases hword : result.toBits? with
    | none =>
      refine .inl fun m => ?_
      by_cases hm : m.limits.Allow depth count
      · refine ⟨.notConcrete result, ?_⟩
        simp only [keyWord, runWindow_eq_update, henough m hm, hword, outcome]
      · exact hshort m hm
    | some word =>
      refine .inr ⟨word, depth, count, fun m hm => ?_, hshort, fun m hm => ?_, fun m hm => ?_⟩
      · simp only [keyWord, runWindow_eq_update, henough m hm, hword, outcome]
      · rw [after_keyWord, after_ok (henough m hm)]
        exact hsteps
      · have hcount := (executed_update g input m).2 result _ (henough m hm)
        rwa [← hsteps]

/-- Raising the limits of a machine that computes the word changes nothing. -/
theorem WordAbove.raise {word word' : BitVec 32} {depth count : Nat}
    (h : g.WordAbove input word depth count) {m n : Machine} (hraised : m.limits.Raised n.limits)
    (hm : outcome (g.keyWord input m) = .ok word') : outcome (g.keyWord input n) = .ok word' := by
  by_cases hallow : m.limits.Allow depth count
  · rw [h.word m hallow] at hm
    cases hm
    exact h.word n (hallow.raise hraised)
  · obtain ⟨fault, hfault⟩ := h.fault m hallow
    rw [hfault] at hm
    cases hm

/-- **Limits are thresholds for a key word.**  Either no machine computes it,
whatever its limits; or there are a word, a depth and a count, and every
machine with limits that allow these computes the word, in so many steps, one
for each instruction of the window outside the guards that are passed over,
while every other machine fails.  So raising limits changes no word, and
whatever the limits are, a run begins no more steps than its one pass over the
window leaves beside the guards. -/
theorem keyWord_limits (g : Generator) (input : BitVec 32) :
    ((∀ m : Machine, ∃ fault, outcome (g.keyWord input m) = .error fault) ∨
      ∃ word depth count, g.WordAbove input word depth count) ∧
    (∀ (m n : Machine) (word : BitVec 32), m.limits.Raised n.limits →
      outcome (g.keyWord input m) = .ok word → outcome (g.keyWord input n) = .ok word) ∧
    ∀ m : Machine, (after (g.keyWord input) m).executed + guardLength * g.guardsPassed input m ≤
      g.window.code.length := by
  refine ⟨never_or_wordAbove g input, fun m n word hraised hword => ?_, fun m => ?_⟩
  · rcases never_or_wordAbove g input with hnever | ⟨_, depth, count, h⟩
    · obtain ⟨fault, hfault⟩ := hnever m
      rw [hfault] at hword
      cases hword
    · exact h.raise hraised hword
  · rw [after_keyWord]
    exact (executed_update g input m).1

/-- With a guard that is passed over: for the input five the key word needs a
depth of two and ten of the seventeen instructions. -/
theorem keyWord_limits_leadsFurther :
    ∃ code, decode 0 leadsFurther = .ok code ∧
      let m := Method.ofInstructions ⟨0⟩ "" code [] [⟨0, .i4⟩, ⟨1, .i4⟩] true
      let g := ofWindow m (m.window .singlePhase .guarded 1 17 0)
      m.locate .both = .ok g.window ∧ g.window.code.length = 17 ∧ g.WordAbove 5 13 2 10 := by
  obtain ⟨code, hdecode, hcheck⟩ := exists_of_decodesTo leadsFurther (fun code =>
    let m := Method.ofInstructions ⟨0⟩ "" code [] [⟨0, .i4⟩, ⟨1, .i4⟩] true
    let g := ofWindow m (m.window .singlePhase .guarded 1 17 0)
    m.locate? .both == some g.window && g.window.code.length == 17 &&
      (g.answer ⟨2, 10⟩ 5).toOption == some 13 && (g.answer ⟨1, 0⟩ 5).toOption == none &&
      (after (g.keyWord 5) (Machine.new ⟨2, 10⟩)).executed == 10) (by decide +kernel)
  simp only [Bool.and_eq_true, beq_iff_eq] at hcheck
  obtain ⟨⟨⟨⟨hlocate, hlength⟩, hword⟩, hshallow⟩, hexecuted⟩ := hcheck
  refine ⟨code, hdecode, Method.locate_eq_ok_iff.mpr hlocate, hlength, ?_⟩
  rcases (keyWord_limits _ 5).1 with hnever | ⟨word, depth, count, h⟩
  · obtain ⟨fault, hfault⟩ := hnever (Machine.new ⟨2, 10⟩)
    rw [answer, hfault] at hword
    cases hword
  · have hfits : (Limits.mk 2 10).Allow depth count := by
      by_contra hfits
      obtain ⟨fault, hfault⟩ := h.fault (Machine.new ⟨2, 10⟩) hfits
      rw [answer, hfault] at hword
      cases hword
    have hcount : 10 = count := hexecuted.symm.trans (h.steps (Machine.new ⟨2, 10⟩) hfits)
    subst hcount
    have hdeep : ¬ (Limits.mk 1 0).Allow depth 10 := by
      intro hshort
      rw [answer, h.word (Machine.new ⟨1, 0⟩) hshort] at hshallow
      cases hshallow
    have hdepth : depth = 2 := by
      unfold Limits.Allow at hfits hdeep
      dsimp only at hfits hdeep
      omega
    subst hdepth
    rw [answer, h.word (Machine.new ⟨2, 10⟩) hfits] at hword
    cases hword
    exact h

end Generator

end KeyLoop
