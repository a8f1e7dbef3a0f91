/-
# Runs on partial knowledge

`m.Refines n`: the machines agree on limits, steps begun, stack depth and
declared slots, the slots hold words, and every value of `m` refines the
value of `n` in the same place.  What `n` knows, `m` knows.

Code that stays within words keeps this so (`run_refines`): both runs fail
at the same instruction with the same fault, or both succeed in machines
that are again so related.  A word that the run on less knowledge ends with
in full is therefore the word that every run on more knowledge ends with.

Code stays within words when it has no 64-bit or float constants and no
conversions to such types.  Everything else is let in: slots in any form,
arithmetic, shifts, comparisons, branches, loads that show only high zeros,
and all that the machine does not model.
-/
import KeyLoop.Proofs.Machine.Simulation
import KeyLoop.Proofs.Value.Words
import KeyLoop.Instruction.Decode

namespace KeyLoop

/-- The action leaves words where it finds words. -/
def Action.keepsWords : Action → Bool
  | .int64 | .float => false
  | .convert op => op.isNarrow
  | _ => true

namespace Value

/-- Evaluation that stays within words respects refinement. -/
theorem refines_congruence :
    Congruence (·.keepsWords = true) (·.holdsWords = true) Refines where
  unknown := refines_iff.mpr ⟨.refl _, rfl, rfl⟩
  int32 w := refines_iff.mpr ⟨.refl _, rfl, rfl⟩
  int64 h := by cases h
  float h := by cases h
  unary op v w h := by
    obtain ⟨hcovers, hv, hw⟩ := refines_iff.mp h
    exact refines_iff.mpr ⟨hcovers.unary op, hv.unary op, hw.unary op⟩
  convert op hop v w h := by
    obtain ⟨hcovers, -, -⟩ := refines_iff.mp h
    exact refines_iff.mpr ⟨hcovers.convert op, .convert hop v, .convert hop w⟩
  compare op a b c d h h' := by
    obtain ⟨hleft, -, -⟩ := refines_iff.mp h
    obtain ⟨hright, -, -⟩ := refines_iff.mp h'
    exact refines_iff.mpr ⟨hleft.compare op hright, .compare op a c, .compare op b d⟩
  coerce f hf v w h := by
    obtain ⟨hcovers, hv, hw⟩ := refines_iff.mp h
    exact refines_iff.mpr ⟨hcovers.coerce f, hv.coerce hf, hw.coerce hf⟩

/-- No operation mistakes a word for a value that is none. -/
theorem Refines.binary {a b c d : Value} (op : BinaryOp) (h : Refines a b) (h' : Refines c d) :
    Refines (a.binary op c) (b.binary op d) := by
  obtain ⟨hleft, ha, hb⟩ := refines_iff.mp h
  obtain ⟨hright, hc, hd⟩ := refines_iff.mp h'
  have hread : ¬ Misread op b a d c := by
    have hnone : ∀ {v v' : Value}, v.IsWord → ¬ HidesWide v' v := by
      rintro v v' hv ⟨-, hnone⟩
      rw [IsWord, hnone] at hv
      cases hv
    cases op with
    | arithmetic op =>
      rintro (⟨hhides, -⟩ | ⟨hhides, -⟩)
      · exact hnone ha hhides
      · exact hnone hc hhides
    | shift op => exact hnone ha
  exact refines_iff.mpr ⟨hleft.binary op hright hread, ha.binary op hc, hb.binary op hd⟩

end Value

namespace Machine

/-- The machines agree on all but their values, and those of the first refine
those of the second. -/
abbrev Refines (m n : Machine) : Prop := Related (·.holdsWords = true) Value.Refines m n

theorem binaryRelatedAlong_refines :
    ∀ (code : List Instruction) (m n : Machine), BinaryRelatedAlong Value.Refines code m n
  | [], _, _ => trivial
  | _ :: rest, _, _ =>
      ⟨fun op _ _ _ _ _ _ _ _ _ hleft hright => hleft.binary op hright,
        fun m' n' _ _ => binaryRelatedAlong_refines rest m' n'⟩

/-- The fully known word on top of the stack. -/
def topBits? (m : Machine) : Option (BitVec 32) := m.stack.top?.bind Value.toBits?

/-- A word that less knowledge determines is the word that more knowledge finds. -/
theorem Refines.topBits?_eq {m n : Machine} (h : m.Refines n) {bits : BitVec 32}
    (hbits : n.topBits? = some bits) : m.topBits? = some bits := by
  unfold topBits? at hbits ⊢
  rcases h.stack.top? with ⟨-, hn⟩ | ⟨v, w, hm, hn, hvw⟩
  · rw [hn] at hbits
    cases hbits
  · rw [hn] at hbits
    rw [hm]
    exact (Value.refines_iff.mp hvw).1.toBits?_eq hbits

/-- **Runs of code within words on more and on less knowledge.**  They fail at
the same instruction, with the same fault, or both succeed; what the run on
less knowledge leaves known, and in particular a whole word on top of the
stack, the run on more knowledge leaves as well. -/
theorem run_refines (code : List Instruction) (hcode : ∀ i ∈ code, i.action.keepsWords = true)
    (m n : Machine) (hmn : m.Refines n) :
    (∃ m' n', run code m = .ok () m' ∧ run code n = .ok () n' ∧ m'.Refines n' ∧
      ∀ bits, n'.topBits? = some bits → m'.topBits? = some bits) ∨
    ∃ k fault m' n', run code m = .error (k, fault) m' ∧ run code n = .error (k, fault) n' := by
  have hrun := run_related Value.refines_congruence code hcode hmn
    (binaryRelatedAlong_refines code m n)
  rcases hrun.cases with ⟨_, _, m', n', hm, hn, -, hend⟩ | ⟨⟨k, fault⟩, m', n', hm, hn, -⟩
  · exact .inl ⟨m', n', hm, hn, hend, fun _ => Refines.topBits?_eq hend⟩
  · exact .inr ⟨k, fault, m', n', hm, hn⟩

/-- A machine whose only local is a number of 32 bits. -/
def withLocal (w : PartialWord) : Machine :=
  { new .standard with locals := ⟨.localVar, [⟨⟨0, .i4⟩, .int32 w⟩]⟩ }

/-- Masking a local of which the low four bits are known: the mask is decided
on that knowledge, so the run on the whole local finds the same word. -/
theorem run_refines_low_bits :
    ∃ code, decode 0 [0x06, 0x1F, 0x0F, 0x5F] = .ok code ∧
      (∀ i ∈ code, i.action.keepsWords = true) ∧
      (withLocal (.concrete 0x12345678)).Refines (withLocal (.of 8 15)) ∧
      ∃ m', run code (withLocal (.concrete 0x12345678)) = .ok () m' ∧ m'.topBits? = some 8 := by
  -- the run on the four known bits, told by what it leaves on top
  have hless : (match decode 0 [0x06, 0x1F, 0x0F, 0x5F] with
      | .ok code =>
          code.all (·.action.keepsWords) &&
            match run code (withLocal (.of 8 15)) with
            | .ok _ n' => n'.topBits? == some 8
            | .error _ _ => false
      | .error _ => false) = true := by decide +kernel
  cases hdecode : decode 0 [0x06, 0x1F, 0x0F, 0x5F] with
  | error fault =>
    rw [hdecode] at hless
    cases hless
  | ok code =>
    simp only [hdecode, Bool.and_eq_true, List.all_eq_true] at hless
    obtain ⟨hcode, hless⟩ := hless
    have hmn : (withLocal (.concrete 0x12345678)).Refines (withLocal (.of 8 15)) :=
      ⟨rfl, rfl, ⟨rfl, .nil⟩, ⟨rfl, .nil⟩,
        ⟨rfl, .cons ⟨rfl, rfl, _, _, rfl, rfl, by decide⟩ .nil⟩⟩
    refine ⟨code, rfl, hcode, hmn, ?_⟩
    rcases run_refines code hcode _ _ hmn with ⟨m', n', hm, hn, -, htop⟩ | ⟨k, fault, m', n', -, hn⟩
    · rw [hn] at hless
      exact ⟨m', hm, htop 8 (by simpa using hless)⟩
    · rw [hn] at hless
      cases hless

end Machine

end KeyLoop
