/-
# Words and unknown values

The operations of 32-bit code do not leave the 32-bit integers and the
unknown value.  On these values covering is refinement: `v.Refines v'` says
that every bit known in `v'` is known in `v`, where an unknown value counts
as a word without known bits.

Left out are the 64-bit integers and the floats, so the conversions to them
and the slots that hold them; `Conversion.isNarrow` and `Flavor.holdsWords`
say which are left in.
-/
import KeyLoop.Proofs.Value.Covers

namespace KeyLoop

/-- The target lives in a 32-bit word. -/
def Conversion.isNarrow : Conversion → Bool
  | .integer t => t.width ≤ 32
  | .checked t _ => t.width ≤ 32
  | _ => false

/-- The slot holds a 32-bit integer, or something that is not modelled at all. -/
def Flavor.holdsWords (f : Flavor) : Bool := f.isInt32 || !f.isPrimitive

namespace Value

/-- A 32-bit integer, or unknown. -/
def IsWord (v : Value) : Prop := v.word?.isSome = true

namespace IsWord

variable {a b v : Value}

theorem cases (h : v.IsWord) : (∃ w, v = int32 w) ∨ v = unknown := by
  cases v with
  | int32 w => exact .inl ⟨w, rfl⟩
  | unknown => exact .inr rfl
  | int64 b => cases h
  | float x => cases h

theorem unary (op : UnaryOp) (h : v.IsWord) : (v.unary op).IsWord := by
  rcases h.cases with ⟨w, rfl⟩ | rfl <;> cases op <;> rfl

theorem compare (op : CompareOp) (a b : Value) : (a.compare op b).IsWord := by
  unfold Value.compare
  cases a.compare? op b with
  | none => rfl
  | some r => rfl

theorem wordToInteger {t : IntType} (ht : t.width ≤ 32) (w : PartialWord) :
    (Conversion.wordToInteger t w).IsWord := by
  cases t <;> first | rfl | exact absurd ht (by decide)

theorem onChecked {t : IntType} (ht : t.width ≤ 32) (s : Signedness) (v : Value) :
    (Conversion.onChecked t s v).IsWord := by
  have hwidth : t.width ≠ 64 := by omega
  unfold Conversion.onChecked
  cases Conversion.source? s v with
  | none => rfl
  | some n =>
    simp only [Conversion.embed, if_neg hwidth]
    split <;> rfl

theorem convert {c : Conversion} (hc : c.isNarrow = true) (v : Value) : (v.convert c).IsWord := by
  cases c with
  | integer t =>
    have ht : t.width ≤ 32 := by simpa [Conversion.isNarrow] using hc
    cases v with
    | int32 w => exact wordToInteger ht w
    | int64 b =>
      show (if t.width = 64 then _ else _ : Value).IsWord
      rw [if_neg (by omega)]
      exact wordToInteger ht _
    | float x => cases t <;> first | rfl | exact absurd ht (by decide)
    | unknown => exact wordToInteger ht _
  | checked t s =>
    have ht : t.width ≤ 32 := by simpa [Conversion.isNarrow] using hc
    cases v with
    | int32 w => exact onChecked ht s (.int32 w)
    | int64 b => exact onChecked ht s (.int64 b)
    | float x => exact onChecked ht s (.float x)
    | unknown => rfl
  | float32 => cases hc
  | float64 => cases hc
  | floatUnsigned => cases hc

theorem coerce {f : Flavor} (hf : f.holdsWords = true) (h : v.IsWord) : (v.coerce f).IsWord := by
  rcases h.cases with ⟨w, rfl⟩ | rfl <;> cases f <;> first | rfl | cases hf

theorem onWords (op : Arithmetic) (w x : PartialWord) : (op.onWords w x).IsWord := by
  unfold Arithmetic.onWords
  split
  case h_7 =>
    -- an operation on whole words, on two known ones or on others
    split
    · rename_i p q _ _
      cases op.apply p q <;> rfl
    · rfl
  all_goals rfl

theorem binary (op : BinaryOp) (ha : a.IsWord) (hb : b.IsWord) : (a.binary op b).IsWord := by
  cases op with
  | arithmetic op =>
    rcases ha.cases with ⟨w, rfl⟩ | rfl <;> rcases hb.cases with ⟨x, rfl⟩ | rfl
    · exact onWords op w x
    · exact onWords op w .unknown
    · exact onWords op .unknown x
    · rfl
  | shift op =>
    show (op.onValues a b).IsWord
    rcases ha.cases with ⟨w, rfl⟩ | rfl <;> unfold Shift.onValues <;>
      cases Shift.amount? b <;> rfl

end IsWord

/-- Every bit known in `v'` is known in `v` with the same value, `v` and `v'` being words. -/
def Refines (v v' : Value) : Prop :=
  ∃ w w', v.word? = some w ∧ v'.word? = some w' ∧ w.Refines w'

theorem refines_iff {v v' : Value} : v.Refines v' ↔ v'.Covers v ∧ v.IsWord ∧ v'.IsWord := by
  constructor
  · rintro ⟨w, w', hw, hw', hr⟩
    refine ⟨?_, by rw [IsWord, hw]; rfl, by rw [IsWord, hw']; rfl⟩
    cases v' with
    | int32 x =>
      cases hw'
      exact ⟨w, hw, hr⟩
    | unknown => trivial
    | int64 b => cases hw'
    | float x => cases hw'
  · rintro ⟨hcovers, hv, hv'⟩
    obtain ⟨w, hw⟩ := Option.isSome_iff_exists.mp hv
    cases v' with
    | int32 w' =>
      obtain ⟨x, hx, hr⟩ := hcovers
      exact ⟨x, w', hx, rfl, hr⟩
    | unknown => exact ⟨w, .unknown, hw, rfl, .unknown w⟩
    | int64 b => cases hv'
    | float x => cases hv'

end Value

end KeyLoop
