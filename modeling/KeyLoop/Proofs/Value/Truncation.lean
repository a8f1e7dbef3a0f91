/-
# Truncation, early and late

A slot of at most 32 bits cuts down what is stored there.  For the operations
modulo a power of two it makes no difference whether that is done once, to
the result, or to the operands as well.  Three facts make this up, for a slot
that is `n` bits wide:

    narrowing keeps the low `n` bits, known and unknown   (`sameBelow_narrow`)
    and asks for no others                                (`narrow_congr`)
    so does each of the operations                        (`onWords_sameBelow`)

An integer of 64 bits comes into it through its low half (`lowWord?`): all
that a narrow slot sees of it, and all that the operations ask for to settle
the low half of their result (`lowWord?_binary`).
-/
import KeyLoop.Proofs.PartialWord.Refinement
import KeyLoop.Flavor
import KeyLoop.Value.Arithmetic

namespace KeyLoop

/-! ## Words with the same low bits -/

namespace PartialWord

/-- The same is known of the bits below `n`. -/
def SameBelow (n : Nat) (a b : PartialWord) : Prop := ∀ i < n, a.bit? i = b.bit? i

namespace SameBelow

variable {n : Nat} {a a' b b' : PartialWord}

theorem symm (h : SameBelow n a b) : SameBelow n b a := fun i hi => (h i hi).symm

theorem upTo (h : SameBelow n a a') {i : Nat} (hi : i < n) : a.RefinesUpTo a' i :=
  fun j hj _ hv => (h j (Nat.lt_of_le_of_lt hj hi)).trans hv

/-- A bit of a sum, difference or product asks for the bits up to it. -/
theorem of_carryMask {op : BitVec 32 → BitVec 32 → BitVec 32} (hop : SettledByLowBits op)
    (ha : SameBelow n a a') (hb : SameBelow n b b') :
    SameBelow n (of (op a.value b.value) (carryMask a b))
      (of (op a'.value b'.value) (carryMask a' b')) := by
  intro i hi
  apply Option.ext
  intro v
  constructor
  · exact RefinesUpTo.of_carryMask hop (ha.symm.upTo hi) (hb.symm.upTo hi)
  · exact RefinesUpTo.of_carryMask hop (ha.upTo hi) (hb.upTo hi)

theorem and (ha : SameBelow n a a') (hb : SameBelow n b b') :
    SameBelow n (a.and b) (a'.and b') := by
  intro i hi
  rw [bit?_and, bit?_and, ha i hi, hb i hi]

theorem or (ha : SameBelow n a a') (hb : SameBelow n b b') : SameBelow n (a.or b) (a'.or b') := by
  intro i hi
  rw [bit?_or, bit?_or, ha i hi, hb i hi]

theorem xor (ha : SameBelow n a a') (hb : SameBelow n b b') :
    SameBelow n (a.xor b) (a'.xor b') := by
  intro i hi
  rw [bit?_xor, bit?_xor, ha i hi, hb i hi]

end SameBelow

/-- What a slot of `n` bits keeps of a word. -/
def narrow (n : Nat) (signed : Bool) (w : PartialWord) : PartialWord :=
  if signed then w.signExtend n else w.zeroExtend n

variable {n : Nat} {a b : PartialWord}

theorem sameBelow_narrow (hpos : 0 < n) (hn : n ≤ 32) (signed : Bool) (a : PartialWord) :
    SameBelow n (a.narrow n signed) a := by
  intro i hi
  cases signed with
  | false => exact (bit?_zeroExtend a n (by omega)).trans (if_pos hi)
  | true =>
    refine (bit?_signExtend a hpos (by omega)).trans ?_
    rw [Nat.min_eq_left (by omega)]

theorem narrow_congr (hpos : 0 < n) (signed : Bool) (h : SameBelow n a b) :
    a.narrow n signed = b.narrow n signed := by
  refine ext_bit? fun i hi => ?_
  cases signed with
  | false =>
    show (a.zeroExtend n).bit? i = (b.zeroExtend n).bit? i
    rw [bit?_zeroExtend a n hi, bit?_zeroExtend b n hi]
    by_cases hin : i < n
    · rw [if_pos hin, if_pos hin, h i hin]
    · rw [if_neg hin, if_neg hin]
  | true =>
    show (a.signExtend n).bit? i = (b.signExtend n).bit? i
    rw [bit?_signExtend a hpos hi, bit?_signExtend b hpos hi, h _ (by omega)]

end PartialWord

/-! ## The operations modulo a power of two -/

/-- The operations that work modulo a power of two, or bit by bit. -/
inductive Arithmetic.IsModular : Arithmetic → Prop
  | add : IsModular (.add .wrap)
  | sub : IsModular (.sub .wrap)
  | mul : IsModular (.mul .wrap)
  | and : IsModular .and
  | or : IsModular .or
  | xor : IsModular .xor

namespace Arithmetic.IsModular

open PartialWord (SameBelow)

variable {op : Arithmetic} {n : Nat} {a a' b b' : PartialWord}

/-- The low bits of the result are settled by the low bits of the operands. -/
theorem onWords_sameBelow (hop : op.IsModular) (ha : SameBelow n a a') (hb : SameBelow n b b') :
    ∃ w w', op.onWords a b = .int32 w ∧ op.onWords a' b' = .int32 w' ∧ SameBelow n w w' := by
  cases hop with
  | add => exact ⟨_, _, rfl, rfl, .of_carryMask PartialWord.settled_add ha hb⟩
  | sub => exact ⟨_, _, rfl, rfl, .of_carryMask PartialWord.settled_sub ha hb⟩
  | mul => exact ⟨_, _, rfl, rfl, .of_carryMask PartialWord.settled_mul ha hb⟩
  | and => exact ⟨_, _, rfl, rfl, ha.and hb⟩
  | or => exact ⟨_, _, rfl, rfl, ha.or hb⟩
  | xor => exact ⟨_, _, rfl, rfl, ha.xor hb⟩

/-- The low half of a result on 64 bits is the result on the low halves. -/
theorem apply_setWidth (hop : op.IsModular) (x y : BitVec 64) :
    ∃ z, op.apply x y = some z ∧
      op.onWords (.concrete (x.setWidth 32)) (.concrete (y.setWidth 32)) = .ofBits (z.setWidth 32) := by
  have hwidth : 32 ≤ 64 := by decide
  cases hop with
  | add =>
    refine ⟨_, rfl, congrArg Value.int32 ((PartialWord.concrete_add _ _).trans ?_)⟩
    rw [BitVec.setWidth_add _ _ hwidth]
  | sub =>
    refine ⟨_, rfl, congrArg Value.int32 ((PartialWord.concrete_sub _ _).trans ?_)⟩
    rw [PartialWord.setWidth_sub _ _ hwidth]
  | mul =>
    refine ⟨_, rfl, congrArg Value.int32 ((PartialWord.concrete_mul _ _).trans ?_)⟩
    rw [BitVec.setWidth_mul _ _ hwidth]
  | and =>
    refine ⟨_, rfl, congrArg Value.int32 ((PartialWord.concrete_and _ _).trans ?_)⟩
    rw [BitVec.setWidth_and]
  | or =>
    refine ⟨_, rfl, congrArg Value.int32 ((PartialWord.concrete_or _ _).trans ?_)⟩
    rw [BitVec.setWidth_or]
  | xor =>
    refine ⟨_, rfl, congrArg Value.int32 ((PartialWord.concrete_xor _ _).trans ?_)⟩
    rw [BitVec.setWidth_xor]

end Arithmetic.IsModular

/-! ## Values -/

/-- Two 32-bit integers of which anything may be known, or two integers of
either width that are fully known. -/
inductive Value.IntegerPair : Value → Value → Prop
  | words (a b : PartialWord) : IntegerPair (.int32 a) (.int32 b)
  | whole {a b : Value} : a.widened?.isSome = true → b.widened?.isSome = true → IntegerPair a b

namespace Value

variable {a b v : Value} {f : Flavor} {n : Nat} {op : Arithmetic} {w : PartialWord}

/-- What a narrow slot sees of an integer: the word, or the low half. -/
def lowWord? : Value → Option PartialWord
  | int32 w => some w
  | int64 bits => some (.concrete (bits.setWidth 32))
  | _ => none

theorem intBits?_of_isInt32 (hf : f.isInt32 = true) :
    ∃ n, f.intBits? = some n ∧ 0 < n ∧ n ≤ 32 := by
  cases f <;> first | exact ⟨_, rfl, by decide, by decide⟩ | cases hf

theorem coerce_int32_eq_narrow (hf : f.isInt32 = true) (hn : f.intBits? = some n) (w : PartialWord) :
    (int32 w).coerce f = int32 (w.narrow n f.isSigned) := by
  cases f <;> cases hf <;> cases hn <;> rfl

theorem coerce_int64 (hf : f.isInt32 = true) (bits : BitVec 64) :
    (int64 bits).coerce f = (ofBits (bits.setWidth 32)).coerce f := by
  cases f <;> first | rfl | cases hf

/-- A narrow slot cuts the low word of an integer down to its width. -/
theorem coerce_eq_narrow (hf : f.isInt32 = true) (hn : f.intBits? = some n)
    (hv : v.lowWord? = some w) : v.coerce f = int32 (w.narrow n f.isSigned) := by
  cases v with
  | int32 _ =>
    cases hv
    exact coerce_int32_eq_narrow hf hn w
  | int64 bits =>
    cases hv
    rw [coerce_int64 hf bits]
    exact coerce_int32_eq_narrow hf hn _
  | float _ => cases hv
  | unknown => cases hv

theorem setWidth_signExtend (bits : BitVec 32) : (bits.signExtend 64).setWidth 32 = bits := by
  ext i hi
  rw [BitVec.getElem_setWidth, BitVec.getLsbD_signExtend, if_pos hi,
    decide_eq_true (Nat.lt_of_lt_of_le hi (by decide)), Bool.true_and, BitVec.getLsbD_eq_getElem hi]

/-- Widening leaves the low word as it is. -/
theorem lowWord?_of_widened? {x : BitVec 64} (hv : v.widened? = some x) :
    v.lowWord? = some (.concrete (x.setWidth 32)) := by
  cases v with
  | int32 w =>
    obtain ⟨bits, hw, rfl⟩ := Option.map_eq_some_iff.mp hv
    rw [setWidth_signExtend, ← PartialWord.toBits?_eq_some_iff.mp hw]
    rfl
  | int64 bits =>
    cases hv
    rfl
  | float _ => cases hv
  | unknown => cases hv

/-- Fully known integers that are not both words are computed on at 64 bits. -/
theorem binary_of_widened? (op : Arithmetic) {x y : BitVec 64} (hx : a.widened? = some x)
    (hy : b.widened? = some y) :
    (∃ w w', a = int32 w ∧ b = int32 w') ∨
      a.binary (.arithmetic op) b = (op.apply x y).elim unknown int64 := by
  have hwide : op.onWide a b = (op.apply x y).elim unknown int64 := by
    unfold Arithmetic.onWide
    rw [hx, hy]
  cases a with
  | int32 w =>
    cases b with
    | int32 w' => exact .inl ⟨w, w', rfl, rfl⟩
    | int64 _ => exact .inr hwide
    | float _ => cases hy
    | unknown => cases hy
  | int64 _ => exact .inr hwide
  | float _ => cases hx
  | unknown => cases hx

/-- The low word of a result is that of the operation on the low words. -/
theorem lowWord?_binary (hop : op.IsModular) (h : IntegerPair a b) :
    ∃ w w', a.lowWord? = some w ∧ b.lowWord? = some w' ∧
      (a.binary (.arithmetic op) b).lowWord? = (op.onWords w w').lowWord? := by
  cases h with
  | words w w' => exact ⟨w, w', rfl, rfl, rfl⟩
  | whole ha hb =>
    obtain ⟨x, hx⟩ := Option.isSome_iff_exists.mp ha
    obtain ⟨y, hy⟩ := Option.isSome_iff_exists.mp hb
    obtain ⟨w, w', rfl, rfl⟩ | hbinary := binary_of_widened? op hx hy
    · exact ⟨w, w', rfl, rfl, rfl⟩
    · obtain ⟨z, hz, hwords⟩ := hop.apply_setWidth x y
      refine ⟨_, _, lowWord?_of_widened? hx, lowWord?_of_widened? hy, ?_⟩
      rw [hwords, hbinary, hz]
      rfl

/-- A slot of at most 32 bits holds the same after an operation modulo a power
of two, whether the operands are cut down to it first or not.  What is known
of a bit takes part in that: the two are equal as partial words. -/
theorem coerce_binary_coerce (hop : op.IsModular) (hf : f.isInt32 = true) (h : IntegerPair a b) :
    (a.binary (.arithmetic op) b).coerce f =
      ((a.coerce f).binary (.arithmetic op) (b.coerce f)).coerce f := by
  obtain ⟨n, hn, hpos, hle⟩ := intBits?_of_isInt32 hf
  obtain ⟨w, w', hw, hw', hresult⟩ := lowWord?_binary hop h
  have hlow (x : PartialWord) : PartialWord.SameBelow n (x.narrow n f.isSigned) x :=
    PartialWord.sameBelow_narrow hpos hle f.isSigned x
  obtain ⟨late, early, hlate, hearly, hsame⟩ := hop.onWords_sameBelow (hlow w).symm (hlow w').symm
  calc (a.binary (.arithmetic op) b).coerce f
      = int32 (late.narrow n f.isSigned) := by
        rw [hlate] at hresult
        exact coerce_eq_narrow hf hn hresult
    _ = int32 (early.narrow n f.isSigned) := by
        rw [PartialWord.narrow_congr hpos f.isSigned hsame]
    _ = (op.onWords (w.narrow n f.isSigned) (w'.narrow n f.isSigned)).coerce f := by
        rw [hearly]
        exact (coerce_int32_eq_narrow hf hn early).symm
    _ = ((a.coerce f).binary (.arithmetic op) (b.coerce f)).coerce f := by
        rw [coerce_eq_narrow hf hn hw, coerce_eq_narrow hf hn hw']
        rfl

/-- A sum whose sign bit is not known in a byte, and a product of a word with a
64-bit integer. -/
theorem coerce_binary_coerce_sign_and_width :
    let a := int32 (.of 0x00000001#32 0x0000007F#32)
    let b := ofBits 0xFFFFFF03#32
    let c := int64 0x0000000100008001#64
    let sum := a.binary (.arithmetic (.add .wrap)) b
    let product := b.binary (.arithmetic (.mul .wrap)) c
    Flavor.isInt32 .i1 = true ∧ sum.coerce .i1 = int32 (.of 0x00000004#32 0x0000007F#32) ∧
      sum.coerce .i1 =
        ((a.coerce .i1).binary (.arithmetic (.add .wrap)) (b.coerce .i1)).coerce .i1 ∧
      Flavor.isInt32 .i2 = true ∧ product.coerce .i2 = ofBits 0x00007F03#32 ∧
      product.coerce .i2 =
        ((b.coerce .i2).binary (.arithmetic (.mul .wrap)) (c.coerce .i2)).coerce .i2 :=
  ⟨rfl, by decide, coerce_binary_coerce .add rfl (.words _ _),
    rfl, by decide, coerce_binary_coerce .mul rfl (.whole rfl rfl)⟩

end Value

end KeyLoop
