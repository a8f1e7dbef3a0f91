/-
# Key words see shapes

Take two methods of one shape, under a renaming `r` of the locals.  Their
loops are found in the same place or in neither (`locate?_rel`); what is left
is to run the two updates.

    entering          the declared locals start alike, under their names
    the running sum   is set under its name
    each step         agrees, as its two instructions are of one shape
    a dead guard      is recognised in both updates, for one local under its
                      two names, which hold the same value

So both runs leave the same value on top of the stack, or both fail
(`answer_renamed`).  `locate_sameShape` puts the two halves together: neither
the encodings of the instructions nor the names of the locals make a
difference to locating or to the key words.
-/
import KeyLoop.Proofs.Machine.Renaming
import KeyLoop.Proofs.Method.Declarations
import KeyLoop.Proofs.Window.Chain
import KeyLoop.Proofs.Window.Shape
import KeyLoop.Proofs.Window.TwoPhase

namespace KeyLoop

variable {r : BitVec 16 → BitVec 16} {code code' : List Instruction}

namespace Instruction.Alike

variable {i j : Instruction}

theorem loadsLocal (h : i.Alike r j) : j.loadsLocal = i.loadsLocal := h.answers.accesses _ _

theorem storesLocal (h : i.Alike r j) : j.storesLocal = i.storesLocal := h.answers.accesses _ _

theorem localIndex? (h : i.Alike r j) : j.localIndex? = i.localIndex?.map r := h.answers.slotIndex? _

end Instruction.Alike

namespace Machine.Renamed

variable {m n : Machine}

/-- A local holds the same under its new name. -/
theorem local? (h : Renamed r m n) (x : BitVec 16) : n.local? (r x) = m.local? x := by
  have hvalue := congrArg (Option.map Prod.snd) (h.slots .localVar x)
  rw [Option.map_map, Option.map_map] at hvalue
  exact hvalue

/-- Entering methods of one shape. -/
theorem enter {g g' : Method} (h : g.SameShape r g') (hlimits : n.limits = m.limits) :
    Renamed r (m.enter g.arguments g.locals g.initLocals)
      (n.enter g'.arguments g'.locals g'.initLocals) where
  limits := hlimits
  stack := congrArg (fun limits : Limits => Stack.empty limits.maxStack) hlimits
  executed := rfl
  slots := by
    intro kind x
    cases kind with
    | argument =>
      rw [h.arguments]
      rfl
    | localVar =>
      have hfresh : Slot.contents ∘ Slots.fresh g.initLocals =
          (fun f => (f, if g.initLocals then f.zero else .unknown)) ∘ Declaration.flavor := rfl
      show (Slots.find? (.declare _ _ _) _).map _ = (Slots.find? (.declare _ _ _) _).map _
      rw [Slots.find?_declare, Slots.find?_declare, Option.map_map, Option.map_map, h.initLocals,
        hfresh, ← Option.map_map, ← Option.map_map]
      exact congrArg (Option.map _) (h.locals x)

end Machine.Renamed

namespace Generator

/-! ## Guards -/

/-- A guard is recognised for one local, under its two names. -/
theorem guardedLocal?_alike (hcode : List.Forall₂ (Instruction.Alike r) code code') :
    guardedLocal? code' = (guardedLocal? code).map r := by
  rcases hcode with _ | ⟨htest, _ | ⟨hzero, _ | ⟨hskip, _ | ⟨hload, _ | ⟨hone, _ | ⟨hminus, _ |
    ⟨hsave, hrest⟩⟩⟩⟩⟩⟩⟩
  -- code that is too short for the pattern
  any_goals rfl
  have hsub := Bool.eq_iff_iff.mpr <| beq_iff_eq.trans <|
    (hminus.answers.opcode .sub rfl).trans beq_iff_eq.symm
  simp only [guardedLocal?, htest.loadsLocal, hzero.answers.int32Constant?, hskip.answers.isBneUn,
    hload.loadsLocal, hone.answers.int32Constant?, hsub, hsave.storesLocal, hsave.localIndex?]
  split <;> rfl

variable {m n : Machine}

theorem guardIsDead_renamed (h : Machine.Renamed r m n)
    (hcode : List.Forall₂ (Instruction.Alike r) code code') :
    guardIsDead n code' = guardIsDead m code := by
  have hlocal : (Emulator.local? n : BitVec 16 → Option Value) ∘ r = Emulator.local? m :=
    funext h.local?
  rw [guardIsDead, guardIsDead, guardedLocal?_alike hcode, Option.bind_map, hlocal]

/-! ## Runs of the update -/

/-- Code of one shape runs alike, and passes over the same guards. -/
theorem runCode_renamed (hr : Function.Injective r) (guarded : Bool)
    (hcode : List.Forall₂ (Instruction.Alike r) code code') :
    Agrees (Machine.Renamed r) (runCode guarded code) (runCode guarded code') := by
  induction code using runCode.induct generalizing code' with
  | case1 =>
    cases hcode
    rw [runCode]
    exact agrees_pure ()
  | case2 i rest ihSkip ihRest =>
    obtain _ | ⟨hij, hrest⟩ := hcode
    intro m n h
    have hdead := guardIsDead_renamed h (.cons hij hrest)
    rw [runCode, runCode]
    dsimp only
    rw [hdead]
    split
    · exact ihSkip (List.forall₂_drop _ hrest) m n h
    · rcases (Machine.step_renamed hr hij.left hij.right hij.shape m n h).cases with
        ⟨u, s, t, hs, ht, hst⟩ | ⟨e, f, s, t, hs, ht⟩
      · simp only [Emulator.step, hs, ht]
        exact ihRest hrest s t hst
      · simp only [Emulator.step, hs, ht]
        exact trivial

variable {m m' : Method} {w w' : Window}

/-- A run of the update, from entering the method to the value it leaves. -/
theorem runWindow_renamed (h : m.SameShape r m') (hw : w.Renamed r w') (limits : Limits)
    (input : BitVec 32) :
    Agree (Machine.Renamed r) ((ofWindow m w).runWindow input (Machine.new limits))
      ((ofWindow m' w').runWindow input (Machine.new limits)) := by
  have hruns : Agrees (Machine.Renamed r)
      (do Machine.setLocal w.accumulator (.ofBits input)
          runCode (w.dialect == .guarded) w.code
          Machine.pop)
      (do Machine.setLocal w'.accumulator (.ofBits input)
          runCode (w'.dialect == .guarded) w'.code
          Machine.pop) := by
    rw [hw.accumulator, hw.dialect]
    exact agrees_bind (Machine.set_renamed h.injective .localVar _ _) fun _ =>
      agrees_bind (runCode_renamed h.injective _ hw.code) fun _ => Machine.onStack_renamed _
  exact hruns _ _ (.enter h rfl)

/-- Windows that are renamed give the same answers. -/
theorem answer_renamed (h : m.SameShape r m') (hw : w.Renamed r w') (limits : Limits)
    (input : BitVec 32) :
    ((ofWindow m' w').answer limits input).toOption = ((ofWindow m w).answer limits input).toOption := by
  unfold answer keyWord
  rcases (runWindow_renamed h hw limits input).cases with ⟨v, s, t, hs, ht, -⟩ | ⟨e, f, s, t, hs, ht⟩
  · simp only [hs, ht]
    cases v.toBits? <;> rfl
  · simp only [hs, ht]
    rfl

end Generator

/-! ## Both halves -/

namespace Method

/-- **Locating and the key words see shapes, not encodings or names.**  In
methods of one shape with decoded code, whichever strategies are tried, either
both have a loop or neither has.  The two windows have one strategy, one
dialect, one start and one end; the running sum and the touched locals are
renamed; and under all limits and for all inputs the two generators give the
same word, or both fail. -/
theorem locate_sameShape {m m' : Method} {base base' : BitVec 64} {bytes bytes' : List Byte}
    (hm : decode base bytes = .ok m.code) (hm' : decode base' bytes' = .ok m'.code)
    (h : m.SameShape r m') (s : Strategies) :
    (∃ w w', m.locate s = .ok w ∧ m'.locate s = .ok w' ∧
      (w'.strategy = w.strategy ∧ w'.dialect = w.dialect ∧ w'.first = w.first ∧ w'.last = w.last) ∧
      w'.accumulator = r w.accumulator ∧ w'.touched = w.touched.map r ∧
      ∀ limits input, ((Generator.ofWindow m' w').answer limits input).toOption =
        ((Generator.ofWindow m w).answer limits input).toOption) ∨
    (m.locate s = .error .loopNotFound ∧ m'.locate s = .error .loopNotFound) := by
  have hsearch := h.locate?_rel (h.alike hm hm') s
  unfold locate
  revert hsearch
  generalize m.locate? s = a
  generalize m'.locate? s = b
  rintro (hw | _)
  · exact .inl ⟨_, _, rfl, rfl, ⟨hw.strategy, hw.dialect, hw.first, hw.last⟩, hw.accumulator,
      hw.touched, Generator.answer_renamed h hw⟩
  · exact .inr ⟨rfl, rfl⟩

/-- The code of `foldAndBranch` in long forms, for locals 256 and 257. -/
def foldAndLongBranch : List Byte :=
  [0xE0, 0x91, 0x60, 0xFE, 0x0E, 0x01, 0x01, 0xFE, 0x0C, 0x00, 0x01, 0xFE, 0x0C, 0x01, 0x01, 0x58,
    0xFE, 0x0E, 0x00, 0x01, 0x38, 0x01, 0x00, 0x00, 0x00, 0x00, 0xFE, 0x0C, 0x00, 0x01, 0x1F, 0x01,
    0x58, 0xFE, 0x0E, 0x00, 0x01]

theorem locate_sameShape_foldAndBranch :
    ∃ code code', decode 0 foldAndBranch = .ok code ∧ decode 0 foldAndLongBranch = .ok code' ∧
      let m := ofInstructions ⟨0⟩ "" code [] [⟨0, .i4⟩, ⟨1, .i4⟩] true
      let m' := ofInstructions ⟨0⟩ "" code' [] [⟨256, .i4⟩, ⟨257, .i4⟩] true
      m.SameShape (· + 256) m' ∧ ∃ w w', m.locate .both = .ok w ∧ m'.locate .both = .ok w' ∧
        w.first = 10 ∧ w'.first = 10 ∧ w.accumulator = 0 ∧ w'.accumulator = 256 ∧
        w.touched = [0] ∧ w'.touched = [256] ∧
        ∀ limits input, ((Generator.ofWindow m' w').answer limits input).toOption =
          ((Generator.ofWindow m w).answer limits input).toOption := by
  obtain ⟨code, hdecode, hcheck⟩ := exists_of_decodesTo foldAndBranch (fun code =>
    decodesTo foldAndLongBranch fun code' =>
      codeLooksLike (· + 256) (ofInstructions ⟨0⟩ "" code [] [⟨0, .i4⟩, ⟨1, .i4⟩] true)
          (ofInstructions ⟨0⟩ "" code' [] [⟨256, .i4⟩, ⟨257, .i4⟩] true) &&
        ((ofInstructions ⟨0⟩ "" code [] [⟨0, .i4⟩, ⟨1, .i4⟩] true).locate? .both).any fun w =>
          w.first == 10 && w.accumulator == 0 && w.touched == [0]) (by decide +kernel)
  obtain ⟨code', hdecode', htest⟩ := exists_of_decodesTo _ _ hcheck
  rw [Bool.and_eq_true, Option.any_eq_true] at htest
  obtain ⟨hshape, w, hw, hwindow⟩ := htest
  simp only [Bool.and_eq_true, beq_iff_eq] at hwindow
  obtain ⟨⟨hfirst, hsum⟩, htouched⟩ := hwindow
  obtain ⟨hcode, htargets⟩ := (codeLooksLike_iff hdecode hdecode').mp hshape
  have hr : Function.Injective fun n : BitVec 16 => n + 256 := fun _ _ => (BitVec.add_left_inj 256).mp
  have hlocals := local?_ofInstructions hr ⟨0⟩ "" code [] [⟨0, .i4⟩, ⟨1, .i4⟩] true
  have h : SameShape (· + 256) (ofInstructions ⟨0⟩ "" code [] [⟨0, .i4⟩, ⟨1, .i4⟩] true)
      (ofInstructions ⟨0⟩ "" code' [] [⟨256, .i4⟩, ⟨257, .i4⟩] true) :=
    ⟨hr, rfl, hlocals, rfl, hcode, htargets⟩
  refine ⟨code, code', hdecode, hdecode', h, ?_⟩
  have hlocate := locate_eq_ok_iff.mpr hw
  rcases locate_sameShape hdecode hdecode' h .both with
    ⟨v, v', hv, hv', ⟨-, -, hfirst', -⟩, hsum', htouched', hanswers⟩ | ⟨hnone, -⟩
  · obtain rfl : w = v := Except.ok.inj (hlocate.symm.trans hv)
    exact ⟨w, v', hv, hv', hfirst, hfirst'.trans hfirst, hsum, by rw [hsum', hsum]; rfl, htouched,
      by rw [htouched', htouched]; rfl, hanswers⟩
  · rw [hlocate] at hnone
    cases hnone

end Method

end KeyLoop
