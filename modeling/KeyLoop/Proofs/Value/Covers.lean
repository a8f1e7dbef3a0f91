/-
# Values that say less

`v'.Covers v`: whatever `v'` says of a value, `v` says as well.

    unknown     covers every value
    int32 w'    covers a word `w` that refines `w'`; the unknown value
                counts as the word without known bits
    int64 b     covers itself alone
    float x     covers itself alone

Conversions, negation, complement and comparisons respect the order outright
(`convert`, `unary`, `compare`).  An operation on two operands has one
exception.  It reads an unknown operand as a 32-bit word when the other
operand is one, and a shift reads its left operand so whatever the amount
is.  Where the covered value is a 64-bit integer or a float, that reading is
wrong: `Misread` says that this happens, and `binary` holds without it.
-/
import KeyLoop.Proofs.PartialWord.Refinement
import KeyLoop.Flavor
import KeyLoop.Value.Arithmetic
import KeyLoop.Value.Comparison

namespace KeyLoop

open PartialWord (Refines)

/-! ## Words that differ -/

namespace PartialWord

theorem exists_getLsbD_of_ne_zero {x : BitVec 32} (h : x ≠ 0) : ∃ i, x.getLsbD i = true := by
  apply Classical.byContradiction
  intro hnone
  refine h (BitVec.eq_of_getLsbD_eq fun i _ => ?_)
  cases hi : x.getLsbD i with
  | true => exact absurd ⟨i, hi⟩ hnone
  | false => exact BitVec.getLsbD_zero.symm

/-- Two words disagree when some position is a known zero in one and a known one in the other. -/
theorem disagrees_iff {a b : PartialWord} :
    a.disagrees b = true ↔ ∃ i v, a.bit? i = some v ∧ b.bit? i = some (!v) := by
  simp only [disagrees, bne_iff_ne, bit?_eq_some_iff]
  constructor
  · intro h
    obtain ⟨i, hi⟩ := exists_getLsbD_of_ne_zero h
    simp only [BitVec.getLsbD_and, BitVec.getLsbD_xor, Bool.and_eq_true] at hi
    obtain ⟨hxor, ha, hb⟩ := hi
    refine ⟨i, a.value.getLsbD i, ⟨ha, rfl⟩, hb, ?_⟩
    cases hv : a.value.getLsbD i <;> simpa [hv] using hxor
  · rintro ⟨i, v, ⟨ha, hva⟩, hb, hvb⟩ hzero
    have hbit := congrArg (·.getLsbD i) hzero
    simp [ha, hb, hva, hvb] at hbit

theorem Refines.disagrees {a a' b b' : PartialWord} (ha : a.Refines a') (hb : b.Refines b')
    (h : a'.disagrees b' = true) : a.disagrees b = true := by
  rw [disagrees_iff] at h ⊢
  obtain ⟨i, v, hva, hvb⟩ := h
  exact ⟨i, v, ha i v hva, hb i _ hvb⟩

/-- Fully known words that disagree are different numbers. -/
theorem ne_of_disagrees {a b : PartialWord} {x y : BitVec 32} (h : a.disagrees b = true)
    (hx : a.toBits? = some x) (hy : b.toBits? = some y) : x ≠ y := by
  rintro rfl
  obtain ⟨i, v, hva, hvb⟩ := disagrees_iff.mp h
  rw [toBits?_eq_some_iff] at hx hy
  rw [hx] at hva
  rw [hy, hva] at hvb
  cases v <;> cases hvb

end PartialWord

/-- A comparison of partial words is decided by whole words, or by two bits that differ. -/
theorem CompareOp.onWords?_eq_some_iff {op : CompareOp} {a b : PartialWord} {r : Bool} :
    op.onWords? a b = some r ↔
      (∃ x y, a.toBits? = some x ∧ b.toBits? = some y ∧ op.onBits x y = r) ∨
        op = .eq ∧ a.disagrees b = true ∧ r = false := by
  unfold onWords?
  split
  · rename_i x y hx hy
    constructor
    · intro h
      exact .inl ⟨x, y, hx, hy, Option.some.inj h⟩
    · rintro (⟨p, q, hp, hq, rfl⟩ | ⟨rfl, hdis, rfl⟩)
      · rw [hx] at hp
        rw [hy] at hq
        cases hp
        cases hq
        rfl
      · have hne := PartialWord.ne_of_disagrees hdis hx hy
        simpa [onBits] using hne
  · rename_i hpartial
    constructor
    · intro h
      split at h
      · rename_i hdis
        exact .inr ⟨hdis.1, hdis.2, (Option.some.inj h).symm⟩
      · cases h
    · rintro (⟨x, y, hx, hy, -⟩ | ⟨rfl, hdis, rfl⟩)
      · exact absurd hy (hpartial x y hx)
      · exact if_pos ⟨rfl, hdis⟩

/-- The unknown word agrees with every word, so no comparison with it is decided. -/
theorem CompareOp.onWords?_unknown_left (op : CompareOp) (b : PartialWord) :
    op.onWords? .unknown b = none := by
  cases hr : op.onWords? .unknown b with
  | none => rfl
  | some r =>
    rcases onWords?_eq_some_iff.mp hr with ⟨x, y, hx, -, -⟩ | ⟨-, hdis, -⟩
    · cases hx
    · obtain ⟨i, v, hv, -⟩ := PartialWord.disagrees_iff.mp hdis
      rw [PartialWord.bit?_unknown] at hv
      cases hv

theorem CompareOp.onWords?_unknown_right (op : CompareOp) (a : PartialWord) :
    op.onWords? a .unknown = none := by
  cases hr : op.onWords? a .unknown with
  | none => rfl
  | some r =>
    rcases onWords?_eq_some_iff.mp hr with ⟨x, y, -, hy, -⟩ | ⟨-, hdis, -⟩
    · cases hy
    · obtain ⟨i, v, -, hv⟩ := PartialWord.disagrees_iff.mp hdis
      rw [PartialWord.bit?_unknown] at hv
      cases hv

theorem CompareOp.onWide?_eq_some_iff {op : CompareOp} {a b : Value} {r : Bool} :
    op.onWide? a b = some r ↔
      ∃ x y, a.widened? = some x ∧ b.widened? = some y ∧ op.onBits x y = r := by
  unfold onWide?
  split
  · rename_i x y hx hy
    simp [hx, hy]
  · rename_i hpartial
    constructor
    · rintro ⟨⟩
    · rintro ⟨x, y, hx, hy, -⟩
      exact absurd hy (hpartial x y hx)

namespace Value

/-- The word a value is, if it is one; nothing is known of an unknown word. -/
def word? : Value → Option PartialWord
  | int32 w => some w
  | unknown => some .unknown
  | int64 _ => none
  | float _ => none

/-- What the first value says is true of the second. -/
def Covers : Value → Value → Prop
  | unknown, _ => True
  | int32 w', v => ∃ w, v.word? = some w ∧ w.Refines w'
  | int64 b, v => v = int64 b
  | float x, v => v = float x

/-- An unknown operand stands for a value that is no word. -/
def HidesWide (v' v : Value) : Prop := v' = unknown ∧ v.word? = none

instance (v' v : Value) : Decidable (HidesWide v' v) := inferInstanceAs (Decidable (_ ∧ _))

/-- An operation on `a'` and `b'` reads an unknown operand as a word, and the
value covered there, of `a` and `b`, is none. -/
def Misread (op : BinaryOp) (a' a b' b : Value) : Prop :=
  match op with
  | .arithmetic _ => HidesWide a' a ∧ b'.kind = .int32 ∨ HidesWide b' b ∧ a'.kind = .int32
  | .shift _ => HidesWide a' a

instance (op : BinaryOp) (a' a b' b : Value) : Decidable (Misread op a' a b' b) :=
  match op with
  | .arithmetic _ => inferInstanceAs (Decidable (_ ∨ _))
  | .shift _ => inferInstanceAs (Decidable (HidesWide a' a))

/-! ## Comparisons with nothing known of an operand -/

theorem compare?_unknown_left (op : CompareOp) (b : Value) : unknown.compare? op b = none := rfl

theorem compare?_unknown_right (op : CompareOp) (a : Value) : a.compare? op unknown = none := by
  cases a with
  | int32 w =>
    cases hr : op.onWide? (int32 w) unknown with
    | none => exact hr
    | some r =>
      obtain ⟨x, y, -, hy, -⟩ := CompareOp.onWide?_eq_some_iff.mp hr
      cases hy
  | int64 b => rfl
  | float x => rfl
  | unknown => rfl

theorem compare?_anyInt32_left (op : CompareOp) (b : Value) : anyInt32.compare? op b = none := by
  cases b with
  | int32 w => exact op.onWords?_unknown_left w
  | int64 b => rfl
  | float x => rfl
  | unknown => rfl

theorem compare?_anyInt32_right (op : CompareOp) (a : Value) : a.compare? op anyInt32 = none := by
  cases a with
  | int32 w => exact op.onWords?_unknown_right w
  | int64 b => rfl
  | float x => rfl
  | unknown => rfl

namespace Covers

variable {a a' b b' v v' : Value} {w w' : PartialWord}

theorem of_refines (h : w.Refines w') : Covers (int32 w') (int32 w) := ⟨w, rfl, h⟩

/-- A 32-bit integer of which no bit is known covers the unknown value. -/
theorem int32_unknown (h : w' = .unknown) : Covers (int32 w') unknown :=
  ⟨.unknown, rfl, h ▸ .refl _⟩

theorem refl (v : Value) : Covers v v := by
  cases v with
  | int32 w => exact of_refines (.refl w)
  | int64 b => rfl
  | float x => rfl
  | unknown => trivial

/-- A 32-bit integer of which no bit is known covers every word. -/
theorem anyInt32 (h : v.word?.isSome = true) : Covers anyInt32 v := by
  obtain ⟨w, hw⟩ := Option.isSome_iff_exists.mp h
  exact ⟨w, hw, .unknown w⟩

/-- The ways in which one value covers another. -/
theorem cases (h : v'.Covers v) :
    v' = .unknown ∨ v' = v ∨ (∃ w w', v' = .int32 w' ∧ v = .int32 w ∧ w.Refines w') ∨
      v' = .anyInt32 ∧ v = .unknown := by
  cases v' with
  | unknown => exact .inl rfl
  | int64 b => exact .inr (.inl (Eq.symm h))
  | float x => exact .inr (.inl (Eq.symm h))
  | int32 w' =>
    obtain ⟨w, hw, hr⟩ := h
    cases v with
    | int32 x =>
      cases hw
      exact .inr (.inr (.inl ⟨w, w', rfl, rfl, hr⟩))
    | unknown =>
      cases hw
      exact .inr (.inr (.inr ⟨congrArg Value.int32 hr.eq_unknown, rfl⟩))
    | int64 b => cases hw
    | float x => cases hw

/-- A fully known word covers itself alone. -/
theorem toBits?_eq (h : v'.Covers v) {bits : BitVec 32} (hbits : v'.toBits? = some bits) :
    v.toBits? = some bits := by
  rcases h.cases with rfl | rfl | ⟨w, w', rfl, rfl, hr⟩ | ⟨rfl, rfl⟩
  · cases hbits
  · exact hbits
  · exact hr.toBits?_eq hbits
  · cases hbits

/-- A fully known integer of either width covers itself alone. -/
theorem widened?_eq (h : v'.Covers v) {bits : BitVec 64} (hbits : v'.widened? = some bits) :
    v.widened? = some bits := by
  rcases h.cases with rfl | rfl | ⟨w, w', rfl, rfl, hr⟩ | ⟨rfl, rfl⟩
  · cases hbits
  · exact hbits
  · obtain ⟨x, hx, hwide⟩ := Option.map_eq_some_iff.mp hbits
    exact Option.map_eq_some_iff.mpr ⟨x, hr.toBits?_eq hx, hwide⟩
  · cases hbits

/-! ## Negation and complement -/

theorem unary (op : UnaryOp) (h : v'.Covers v) : (v'.unary op).Covers (v.unary op) := by
  rcases h.cases with rfl | rfl | ⟨w, w', rfl, rfl, hr⟩ | ⟨rfl, rfl⟩
  · cases op <;> trivial
  · exact refl _
  · cases op with
    | neg => exact of_refines hr.neg
    | not => exact of_refines hr.not
  · cases op with
    | neg => exact int32_unknown (by decide)
    | not => exact int32_unknown (by decide)

/-! ## Conversion -/

/-- A function of a fully known word, unknown without one. -/
theorem whole (f : BitVec 32 → Value) (h : w.Refines w') :
    Covers (w'.toBits?.elim .unknown f) (w.toBits?.elim .unknown f) := by
  cases hw : w'.toBits? with
  | none => trivial
  | some bits =>
    rw [h.toBits?_eq hw]
    exact refl _

theorem wordToInteger (t : IntType) (h : w.Refines w') :
    Covers (Conversion.wordToInteger t w') (Conversion.wordToInteger t w) := by
  cases t with
  | i1 => exact of_refines (h.signExtend (by decide))
  | i2 => exact of_refines (h.signExtend (by decide))
  | u1 => exact of_refines (h.zeroExtend 8)
  | u2 => exact of_refines (h.zeroExtend 16)
  | i4 => exact of_refines h
  | u4 => exact of_refines h
  | i8 => exact whole _ h
  | i => exact whole _ h
  | u8 => exact whole _ h
  | u => exact whole _ h

theorem source?_eq (s : Signedness) (h : v'.Covers v) {n : Int}
    (hn : Conversion.source? s v' = some n) : Conversion.source? s v = some n := by
  rcases h.cases with rfl | rfl | ⟨w, w', rfl, rfl, hr⟩ | ⟨rfl, rfl⟩
  · cases hn
  · exact hn
  · obtain ⟨x, hx, hsource⟩ := Option.map_eq_some_iff.mp hn
    exact Option.map_eq_some_iff.mpr ⟨x, hr.toBits?_eq hx, hsource⟩
  · cases hn

/-- A checked conversion is decided by the number that its source is. -/
theorem onChecked (t : IntType) (s : Signedness) (h : v'.Covers v) :
    Covers (Conversion.onChecked t s v') (Conversion.onChecked t s v) := by
  cases hn : Conversion.source? s v' with
  | none =>
    simp only [Conversion.onChecked, hn]
    trivial
  | some n =>
    simp only [Conversion.onChecked, hn, h.source?_eq s hn]
    exact refl _

/-- A conversion to an integer shows no bit of an unknown value, whatever its kind. -/
theorem convert_unknown (t : IntType) (v : Value) :
    Covers (Conversion.wordToInteger t .unknown) (v.convert (.integer t)) := by
  cases v with
  | int32 w => exact wordToInteger t (.unknown w)
  | unknown => exact refl _
  | int64 b => cases t <;> first | trivial | exact wordToInteger _ (.unknown _)
  | float x => cases t <;> first | trivial | exact wordToInteger _ (.unknown _)

theorem convert (c : Conversion) (h : v'.Covers v) : (v'.convert c).Covers (v.convert c) := by
  rcases h.cases with rfl | rfl | ⟨w, w', rfl, rfl, hr⟩ | ⟨rfl, rfl⟩
  · cases c with
    | integer t => exact convert_unknown t v
    | float32 => trivial
    | float64 => trivial
    | floatUnsigned => trivial
    | checked t s => trivial
  · exact refl _
  · cases c with
    | integer t => exact wordToInteger t hr
    | float32 => exact whole _ hr
    | float64 => exact whole _ hr
    | floatUnsigned => exact whole _ hr
    | checked t s => exact onChecked t s h
  · cases c with
    | integer t => exact refl _
    | float32 => trivial
    | float64 => trivial
    | floatUnsigned => trivial
    | checked t s => trivial

/-! ## Storing in a slot -/

/-- A slot of 32 bits cuts 64-bit integers down and keeps everything else. -/
theorem coerce_word {f : Flavor} (hf : f = .i4 ∨ f = .u4) (h : v'.Covers v) :
    (v'.coerce f).Covers (v.coerce f) := by
  rcases h.cases with rfl | rfl | ⟨w, w', rfl, rfl, hr⟩ | ⟨rfl, rfl⟩
  · rcases hf with rfl | rfl <;> trivial
  · exact refl _
  · rcases hf with rfl | rfl <;> exact of_refines hr
  · rcases hf with rfl | rfl <;> exact int32_unknown rfl

/-- A slot of 64 bits widens the words that are fully known. -/
theorem coerce_wide {f : Flavor} (hf : f.isInt64 = true) (h : v'.Covers v) :
    (v'.coerce f).Covers (v.coerce f) := by
  rcases h.cases with rfl | rfl | ⟨w, w', rfl, rfl, hr⟩ | ⟨rfl, rfl⟩
  · cases f <;> cases hf <;> trivial
  · exact refl _
  · cases f <;> cases hf <;> exact whole _ hr
  · cases f <;> cases hf <;> trivial

theorem coerce (f : Flavor) (h : v'.Covers v) : (v'.coerce f).Covers (v.coerce f) := by
  cases f with
  | boolean => exact h.convert _
  | u1 => exact h.convert _
  | i1 => exact h.convert _
  | char => exact h.convert _
  | u2 => exact h.convert _
  | i2 => exact h.convert _
  | i4 => exact h.coerce_word (.inl rfl)
  | u4 => exact h.coerce_word (.inr rfl)
  | i8 => exact h.coerce_wide rfl
  | i => exact h.coerce_wide rfl
  | u8 => exact h.coerce_wide rfl
  | u => exact h.coerce_wide rfl
  | r4 =>
    rcases h.cases with rfl | rfl | ⟨w, w', rfl, rfl, hr⟩ | ⟨rfl, rfl⟩
    · trivial
    · exact refl _
    · exact of_refines hr
    · exact int32_unknown rfl
  | r8 => exact h
  | object => exact h
  | valueType => exact h

/-! ## Comparison -/

theorem onWords?_eq (op : CompareOp) {x x' : PartialWord} (hw : w.Refines w') (hx : x.Refines x')
    {r : Bool} (h : op.onWords? w' x' = some r) : op.onWords? w x = some r := by
  rw [CompareOp.onWords?_eq_some_iff] at h ⊢
  rcases h with ⟨p, q, hp, hq, hr⟩ | ⟨hop, hdis, hr⟩
  · exact .inl ⟨p, q, hw.toBits?_eq hp, hx.toBits?_eq hq, hr⟩
  · exact .inr ⟨hop, hw.disagrees hx hdis, hr⟩

theorem onWide?_eq (op : CompareOp) (ha : a'.Covers a) (hb : b'.Covers b) {r : Bool}
    (h : op.onWide? a' b' = some r) : op.onWide? a b = some r := by
  rw [CompareOp.onWide?_eq_some_iff] at h ⊢
  obtain ⟨x, y, hx, hy, hr⟩ := h
  exact ⟨x, y, ha.widened?_eq hx, hb.widened?_eq hy, hr⟩

/-- A decided comparison stays as it is when more is known of its operands. -/
theorem compare?_eq (op : CompareOp) (ha : a'.Covers a) (hb : b'.Covers b) {r : Bool}
    (h : a'.compare? op b' = some r) : a.compare? op b = some r := by
  rcases ha.cases with rfl | rfl | ⟨w, w', rfl, rfl, hw⟩ | ⟨rfl, rfl⟩
  · rw [compare?_unknown_left] at h
    cases h
  · rcases hb.cases with rfl | rfl | ⟨x, x', rfl, rfl, hx⟩ | ⟨rfl, rfl⟩
    · rw [compare?_unknown_right] at h
      cases h
    · exact h
    · cases a' with
      | int32 w => exact onWords?_eq op (.refl w) hx h
      | int64 b => exact onWide?_eq op ha hb h
      | float y => exact onWide?_eq op ha hb h
      | unknown => exact onWide?_eq op ha hb h
    · rw [compare?_anyInt32_right] at h
      cases h
  · rcases hb.cases with rfl | rfl | ⟨x, x', rfl, rfl, hx⟩ | ⟨rfl, rfl⟩
    · rw [compare?_unknown_right] at h
      cases h
    · cases b' with
      | int32 x => exact onWords?_eq op hw (.refl x) h
      | int64 b => exact onWide?_eq op ha hb h
      | float y => exact onWide?_eq op ha hb h
      | unknown => exact onWide?_eq op ha hb h
    · exact onWords?_eq op hw hx h
    · rw [compare?_anyInt32_right] at h
      cases h
  · rw [compare?_anyInt32_left] at h
    cases h

/-- A test that more knowledge decides is either decided already or was left open. -/
theorem compare (op : CompareOp) (ha : a'.Covers a) (hb : b'.Covers b) :
    (a'.compare op b').Covers (a.compare op b) := by
  cases hr : a'.compare? op b' with
  | some r =>
    simp only [Value.compare, hr, ha.compare?_eq op hb hr]
    exact refl _
  | none =>
    simp only [Value.compare, hr, Option.elim_none]
    cases a.compare? op b with
    | none => exact refl _
    | some r => cases r <;> exact of_refines (by decide)

/-! ## Operations on two operands -/

/-- An operation on whole words, with a word that is not known for words that are not. -/
theorem wholePair (f : BitVec 32 → BitVec 32 → Option (BitVec 32)) {x x' : PartialWord}
    (hw : w.Refines w') (hx : x.Refines x') :
    Covers
      (match w'.toBits?, x'.toBits? with
        | some p, some q => (f p q).elim .unknown ofBits
        | _, _ => .anyInt32)
      (match w.toBits?, x.toBits? with
        | some p, some q => (f p q).elim .unknown ofBits
        | _, _ => .anyInt32) := by
  split
  · rename_i p q hp hq
    simp only [hw.toBits?_eq hp, hx.toBits?_eq hq]
    exact refl _
  · apply anyInt32
    split
    · rename_i p q _ _
      cases f p q <;> rfl
    · rfl

theorem onWords (op : Arithmetic) {x x' : PartialWord} (hw : w.Refines w') (hx : x.Refines x') :
    (op.onWords w' x').Covers (op.onWords w x) := by
  cases op with
  | add o =>
    cases o with
    | wrap => exact of_refines (hw.add hx)
    | check s => cases s <;> exact wholePair _ hw hx
  | sub o =>
    cases o with
    | wrap => exact of_refines (hw.sub hx)
    | check s => cases s <;> exact wholePair _ hw hx
  | mul o =>
    cases o with
    | wrap => exact of_refines (hw.mul hx)
    | check s => cases s <;> exact wholePair _ hw hx
  | div s => exact wholePair _ hw hx
  | rem s => exact wholePair _ hw hx
  | and => exact of_refines (hw.and hx)
  | or => exact of_refines (hw.or hx)
  | xor => exact of_refines (hw.xor hx)

theorem onWide (op : Arithmetic) (ha : a'.Covers a) (hb : b'.Covers b) :
    (op.onWide a' b').Covers (op.onWide a b) := by
  unfold Arithmetic.onWide
  split
  · rename_i x y hx hy
    rw [ha.widened?_eq hx, hb.widened?_eq hy]
    exact refl _
  · trivial

theorem onWords_unknown (op : Arithmetic) : op.onWords .unknown .unknown = .anyInt32 := by
  rcases op with (_ | _ | _) | (_ | _ | _) | (_ | _ | _) | (_ | _) | (_ | _) | _ | _ | _ <;> decide

/-- Operands that are words, or unknown, are operated on as words. -/
theorem onValues_words (op : Arithmetic) {x x' : PartialWord} (ha : a.word? = some w)
    (hb : b.word? = some x) (hw : w.Refines w') (hx : x.Refines x') :
    (op.onWords w' x').Covers (op.onValues a b) := by
  have hcovers := onWords op hw hx
  cases a with
  | int32 _ =>
    cases ha
    cases b with
    | int32 _ =>
      cases hb
      exact hcovers
    | unknown =>
      cases hb
      exact hcovers
    | int64 _ => cases hb
    | float _ => cases hb
  | unknown =>
    cases ha
    cases b with
    | int32 _ =>
      cases hb
      exact hcovers
    | unknown =>
      -- two unknown operands are the one pair of words without an integer for a result
      cases hb
      rw [hw.eq_unknown, hx.eq_unknown, onWords_unknown]
      exact anyInt32 rfl
    | int64 _ => cases hb
    | float _ => cases hb
  | int64 _ => cases ha
  | float _ => cases ha

theorem arithmetic (op : Arithmetic) (ha : a'.Covers a) (hb : b'.Covers b)
    (h : ¬ Misread (.arithmetic op) a' a b' b) :
    (op.onValues a' b').Covers (op.onValues a b) := by
  have hwide := onWide op ha hb
  cases a' with
  | int32 w' =>
    obtain ⟨w, hwa, hw⟩ := ha
    cases b' with
    | int32 x' =>
      obtain ⟨x, hxb, hx⟩ := hb
      exact onValues_words op hwa hxb hw hx
    | unknown =>
      cases hxb : b.word? with
      | some x => exact onValues_words op hwa hxb hw (.unknown x)
      | none => exact absurd (.inr ⟨⟨rfl, hxb⟩, rfl⟩) h
    | int64 y =>
      obtain rfl : b = .int64 y := hb
      cases a <;> exact hwide
    | float y =>
      obtain rfl : b = .float y := hb
      cases a with
      | int32 _ => exact hwide
      | unknown => exact hwide
      | int64 _ => cases hwa
      | float _ => cases hwa
  | unknown =>
    cases b' with
    | int32 x' =>
      obtain ⟨x, hxb, hx⟩ := hb
      cases hwa : a.word? with
      | some w => exact onValues_words op hwa hxb (.unknown w) hx
      | none => exact absurd (.inl ⟨⟨rfl, hwa⟩, rfl⟩) h
    | int64 y => trivial
    | float y => trivial
    | unknown => trivial
  | int64 x =>
    obtain rfl : a = .int64 x := ha
    cases b' with
    | int32 x' => cases b <;> exact hwide
    | int64 y =>
      obtain rfl : b = .int64 y := hb
      exact refl _
    | float y =>
      obtain rfl : b = .float y := hb
      exact refl _
    | unknown => trivial
  | float x =>
    obtain rfl : a = .float x := ha
    cases b' with
    | int32 x' => trivial
    | int64 y => trivial
    | float y =>
      obtain rfl : b = .float y := hb
      exact refl _
    | unknown => trivial

/-! ## Shifts -/

theorem amount?_eq (h : v'.Covers v) {n : BitVec 32} (hn : Shift.amount? v' = some n) :
    Shift.amount? v = some n := by
  rcases h.cases with rfl | rfl | ⟨w, w', rfl, rfl, hr⟩ | ⟨rfl, rfl⟩
  · cases hn
  · exact hn
  · exact hr.toBits?_eq hn
  · cases hn

theorem onWord (op : Shift) (n : BitVec 32) (h : w.Refines w') :
    (op.onWord w n).Refines (op.onWord w' n) := by
  rcases op with _ | _ | _
  · exact h.shl n
  · exact h.shr n
  · exact h.shrUnsigned n

/-- A left operand that is a word, or unknown, is shifted as a word. -/
theorem shift_word (op : Shift) (ha : a.word? = some w) (hw : w.Refines w') (hb : b'.Covers b) :
    Covers (op.onValues (.int32 w') b') (op.onValues a b) := by
  have hshift : op.onValues a b = op.onValues (.int32 w) b := by
    cases a with
    | int32 _ =>
      cases ha
      rfl
    | unknown =>
      cases ha
      rfl
    | int64 _ => cases ha
    | float _ => cases ha
  rw [hshift]
  simp only [Shift.onValues]
  cases hn : Shift.amount? b' with
  | some n =>
    rw [hb.amount?_eq hn]
    exact of_refines (onWord op n hw)
  | none => exact anyInt32 (by cases Shift.amount? b <;> rfl)

theorem shift (op : Shift) (ha : a'.Covers a) (hb : b'.Covers b)
    (h : ¬ Misread (.shift op) a' a b' b) :
    (op.onValues a' b').Covers (op.onValues a b) := by
  cases a' with
  | int32 w' =>
    obtain ⟨w, hwa, hw⟩ := ha
    exact shift_word op hwa hw hb
  | unknown =>
    cases hwa : a.word? with
    | some w => exact shift_word op hwa (.unknown w) hb
    | none => exact absurd ⟨rfl, hwa⟩ h
  | int64 x =>
    obtain rfl : a = .int64 x := ha
    simp only [Shift.onValues]
    cases hn : Shift.amount? b' with
    | some n =>
      rw [hb.amount?_eq hn]
      exact refl _
    | none => trivial
  | float x =>
    obtain rfl : a = .float x := ha
    exact refl _

theorem binary (op : BinaryOp) (ha : a'.Covers a) (hb : b'.Covers b)
    (h : ¬ Misread op a' a b' b) : (a'.binary op b').Covers (a.binary op b) := by
  cases op with
  | arithmetic op => exact arithmetic op ha hb h
  | shift op => exact shift op ha hb h

end Covers

end Value

end KeyLoop
