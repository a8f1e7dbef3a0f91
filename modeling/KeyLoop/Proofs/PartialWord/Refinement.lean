/-
# Refinement of partial words

`w.Refines w'`: every bit known in `w'` is known in `w`, with the same value.
The unknown word is refined by every word, a concrete word only by itself.

Each operation is monotone in this order, so an operation that is given more
bits can only show more bits of its result, and never a different bit:

    and, or, xor, not      by the table of the operation on one position
    add, sub, mul, neg     the low bits of the result are those of the operation
                           on the low bits of the operands
    shifts, extensions     each position shows one position of the operand

The comparisons are answered only for concrete words; `toBits?_eq` says that
refinement leaves an answer alone once it is there.

A completion is a concrete word that refines (`mem_iff_refines`), so what the
operations do to completions comes out of monotonicity.  The last section
does it for the step down by one: the completions of a word step down with
it, and a completion that stays where it is remains one only if the lowest
bit is not known.
-/
import KeyLoop.Proofs.PartialWord.Bits

namespace KeyLoop

namespace PartialWord

/-! ## One position -/

section

variable {x x' y y' : Option Bool}

theorem andBit_mono (hx : ∀ v, x' = some v → x = some v) (hy : ∀ v, y' = some v → y = some v) :
    ∀ v, andBit x' y' = some v → andBit x y = some v := by
  intro v h
  -- a known zero decides the result whatever the other side turns out to be
  rcases x' with _ | p <;> rcases y' with _ | q
  · cases h
  · obtain rfl := hy q rfl
    cases q with
    | false =>
      cases h
      rcases x with _ | _ | _ <;> rfl
    | true => cases h
  · obtain rfl := hx p rfl
    cases p with
    | false =>
      cases h
      rcases y with _ | _ | _ <;> rfl
    | true => cases h
  · obtain rfl := hx p rfl
    obtain rfl := hy q rfl
    exact h

theorem orBit_mono (hx : ∀ v, x' = some v → x = some v) (hy : ∀ v, y' = some v → y = some v) :
    ∀ v, orBit x' y' = some v → orBit x y = some v := by
  intro v h
  -- a known one decides the result whatever the other side turns out to be
  rcases x' with _ | p <;> rcases y' with _ | q
  · cases h
  · obtain rfl := hy q rfl
    cases q with
    | false => cases h
    | true =>
      cases h
      rcases x with _ | _ | _ <;> rfl
  · obtain rfl := hx p rfl
    cases p with
    | false => cases h
    | true =>
      cases h
      rcases y with _ | _ | _ <;> rfl
  · obtain rfl := hx p rfl
    obtain rfl := hy q rfl
    exact h

theorem xorBit_mono (hx : ∀ v, x' = some v → x = some v) (hy : ∀ v, y' = some v → y = some v) :
    ∀ v, xorBit x' y' = some v → xorBit x y = some v := by
  intro v h
  rcases x' with _ | p <;> rcases y' with _ | q
  · cases h
  · cases h
  · cases h
  · obtain rfl := hx p rfl
    obtain rfl := hy q rfl
    exact h

end

/-! ## Words -/

/-- Every bit known in `w'` is known in `w`, with the same value. -/
def Refines (w w' : PartialWord) : Prop := ∀ i v, w'.bit? i = some v → w.bit? i = some v

/-- The same of the positions up to one. -/
def RefinesUpTo (w w' : PartialWord) (i : Nat) : Prop :=
  ∀ j ≤ i, ∀ v, w'.bit? j = some v → w.bit? j = some v

/-! ## Low bits -/

/-- A difference cut down to its low bits. -/
theorem setWidth_sub {m n : Nat} (x y : BitVec m) (h : n ≤ m) :
    (x - y).setWidth n = x.setWidth n - y.setWidth n := by
  rw [BitVec.sub_eq_add_neg, BitVec.setWidth_add _ _ h, BitVec.setWidth_neg_of_le h,
    ← BitVec.sub_eq_add_neg]

/-- The low bits of the result depend on the low bits of the operands alone. -/
def SettledByLowBits (op : BitVec 32 → BitVec 32 → BitVec 32) : Prop :=
  ∀ {n : Nat} {x x' y y' : BitVec 32}, n ≤ 32 → x.setWidth n = x'.setWidth n →
    y.setWidth n = y'.setWidth n → (op x y).setWidth n = (op x' y').setWidth n

theorem settled_add : SettledByLowBits (· + ·) := by
  intro n x x' y y' hn hx hy
  rw [BitVec.setWidth_add _ _ hn, BitVec.setWidth_add _ _ hn, hx, hy]

theorem settled_sub : SettledByLowBits (· - ·) := by
  intro n x x' y y' hn hx hy
  rw [setWidth_sub _ _ hn, setWidth_sub _ _ hn, hx, hy]

theorem settled_mul : SettledByLowBits (· * ·) := by
  intro n x x' y y' hn hx hy
  rw [BitVec.setWidth_mul _ _ hn, BitVec.setWidth_mul _ _ hn, hx, hy]

namespace RefinesUpTo

variable {a a' b b' w w' : PartialWord} {i : Nat}

theorem knownUpTo (h : w.RefinesUpTo w' i) (hi : w'.KnownUpTo i) : w.KnownUpTo i := by
  intro j hj
  obtain ⟨v, hv⟩ := Option.isSome_iff_exists.mp (hi j hj)
  rw [h j hj v hv]
  rfl

/-- Up to a position that no unknown bit reaches, the two values have the same bits. -/
theorem value_low (h : w.RefinesUpTo w' i) (hi : w'.KnownUpTo i) :
    w.value.setWidth (i + 1) = w'.value.setWidth (i + 1) := by
  apply BitVec.eq_of_getLsbD_eq
  intro j hj
  have hj := Nat.lt_succ_iff.mp hj
  obtain ⟨v, hv⟩ := Option.isSome_iff_exists.mp (hi j hj)
  rw [BitVec.getLsbD_setWidth, BitVec.getLsbD_setWidth, getLsbD_value, getLsbD_value, hv,
    h j hj v hv]

/-- A bit of the result that is known is known with more knowledge of the bits up to it. -/
theorem of_carryMask {op : BitVec 32 → BitVec 32 → BitVec 32} (hop : SettledByLowBits op)
    (ha : a.RefinesUpTo a' i) (hb : b.RefinesUpTo b' i) {v : Bool}
    (h : (of (op a'.value b'.value) (carryMask a' b')).bit? i = some v) :
    (of (op a.value b.value) (carryMask a b)).bit? i = some v := by
  rw [bit?_of_carryMask] at h ⊢
  obtain ⟨hka, hkb, hv⟩ := h
  have hlow := hop hka.lt (ha.value_low hka) (hb.value_low hkb)
  have hbit := congrArg (·.getLsbD i) hlow
  simp only [BitVec.getLsbD_setWidth, Nat.lt_succ_self, decide_true, Bool.true_and] at hbit
  exact ⟨ha.knownUpTo hka, hb.knownUpTo hkb, hbit.trans hv⟩

end RefinesUpTo

namespace Refines

variable {a a' b b' w w' : PartialWord}

theorem refl (w : PartialWord) : w.Refines w := fun _ _ h => h

theorem upTo (h : w.Refines w') (i : Nat) : w.RefinesUpTo w' i := fun j _ => h j

theorem trans {v : PartialWord} (h : v.Refines w) (h' : w.Refines w') : v.Refines w' :=
  fun i x hx => h i x (h' i x hx)

theorem unknown (w : PartialWord) : w.Refines unknown := by
  intro i v h
  rw [bit?_unknown] at h
  cases h

/-- Only the positions of a word count. -/
theorem of_lt (h : ∀ i, i < 32 → ∀ v, w'.bit? i = some v → w.bit? i = some v) :
    w.Refines w' := by
  intro i v hv
  refine h i ?_ v hv
  rcases Nat.lt_or_ge i 32 with hi | hi
  · exact hi
  · rw [bit?_of_ge w' hi] at hv
    cases hv

theorem iff_lt : w.Refines w' ↔ ∀ i, i < 32 → w'.bit? i = none ∨ w.bit? i = w'.bit? i := by
  constructor
  · intro h i _
    cases hi : w'.bit? i with
    | none => exact .inl rfl
    | some v => exact .inr (h i v hi)
  · intro h
    refine of_lt fun i hi v hv => ?_
    rcases h i hi with hnone | heq
    · rw [hnone] at hv
      cases hv
    · exact heq.trans hv

instance : Decidable (w.Refines w') := decidable_of_iff _ iff_lt.symm

/-- The unknown word has no bit to pass on. -/
theorem eq_unknown (h : PartialWord.unknown.Refines w) : w = PartialWord.unknown := by
  refine PartialWord.eq_unknown fun i => ?_
  cases hi : w.bit? i with
  | none => rfl
  | some v =>
    have hnone := h i v hi
    rw [bit?_unknown] at hnone
    cases hnone

/-- A concrete word has nothing left to fill in. -/
theorem eq_concrete {bits : BitVec 32} (h : w.Refines (concrete bits)) : w = concrete bits := by
  apply ext_bit?
  intro i hi
  rw [bit?_concrete bits hi]
  exact h i _ (bit?_concrete bits hi)

/-- A word fully known with less knowledge is the same word with more. -/
theorem toBits?_eq (h : w.Refines w') {bits : BitVec 32} (hbits : w'.toBits? = some bits) :
    w.toBits? = some bits := by
  rw [toBits?_eq_some_iff] at hbits ⊢
  subst hbits
  exact h.eq_concrete

/-! ## Bitwise operations -/

theorem and (ha : a.Refines a') (hb : b.Refines b') : (a.and b).Refines (a'.and b') := by
  intro i
  rw [bit?_and, bit?_and]
  exact andBit_mono (ha i) (hb i)

theorem or (ha : a.Refines a') (hb : b.Refines b') : (a.or b).Refines (a'.or b') := by
  intro i
  rw [bit?_or, bit?_or]
  exact orBit_mono (ha i) (hb i)

theorem xor (ha : a.Refines a') (hb : b.Refines b') : (a.xor b).Refines (a'.xor b') := by
  intro i
  rw [bit?_xor, bit?_xor]
  exact xorBit_mono (ha i) (hb i)

theorem not (ha : a.Refines a') : a.not.Refines a'.not := by
  intro i v h
  rw [bit?_not] at h ⊢
  obtain ⟨x, hx, hv⟩ := Option.map_eq_some_iff.mp h
  rw [ha i x hx, ← hv]
  rfl

/-! ## Arithmetic -/

/-- A result whose low bits depend on the low bits of the operands alone is monotone. -/
theorem of_carryMask {op : BitVec 32 → BitVec 32 → BitVec 32} (hop : SettledByLowBits op)
    (ha : a.Refines a') (hb : b.Refines b') :
    (of (op a.value b.value) (carryMask a b)).Refines
      (of (op a'.value b'.value) (carryMask a' b')) :=
  fun i _ h => RefinesUpTo.of_carryMask hop (ha.upTo i) (hb.upTo i) h

theorem add (ha : a.Refines a') (hb : b.Refines b') : (a.add b).Refines (a'.add b') :=
  of_carryMask settled_add ha hb

theorem sub (ha : a.Refines a') (hb : b.Refines b') : (a.sub b).Refines (a'.sub b') :=
  of_carryMask settled_sub ha hb

theorem mul (ha : a.Refines a') (hb : b.Refines b') : (a.mul b).Refines (a'.mul b') :=
  of_carryMask settled_mul ha hb

theorem neg (ha : a.Refines a') : a.neg.Refines a'.neg :=
  ha.not.add (refl (concrete 1))

/-! ## Shifts and extensions -/

theorem shl (ha : a.Refines a') (amount : BitVec 32) :
    (a.shl amount).Refines (a'.shl amount) := by
  refine of_lt fun i hi v h => ?_
  rw [bit?_shl _ _ hi] at h ⊢
  by_cases hin : i < shiftAmount amount
  · rw [if_pos hin] at h ⊢
    exact h
  · rw [if_neg hin] at h ⊢
    exact ha _ v h

theorem shrUnsigned (ha : a.Refines a') (amount : BitVec 32) :
    (a.shrUnsigned amount).Refines (a'.shrUnsigned amount) := by
  refine of_lt fun i hi v h => ?_
  rw [bit?_shrUnsigned _ _ hi] at h ⊢
  by_cases hin : i + shiftAmount amount < 32
  · rw [if_pos hin] at h ⊢
    exact ha _ v h
  · rw [if_neg hin] at h ⊢
    exact h

theorem shr (ha : a.Refines a') (amount : BitVec 32) :
    (a.shr amount).Refines (a'.shr amount) := by
  refine of_lt fun i hi v h => ?_
  rw [bit?_shr _ _ hi] at h ⊢
  exact ha _ v h

theorem signExtend (ha : a.Refines a') {bits : Nat} (hbits : 0 < bits) :
    (a.signExtend bits).Refines (a'.signExtend bits) := by
  refine of_lt fun i hi v h => ?_
  rw [bit?_signExtend _ hbits hi] at h ⊢
  exact ha _ v h

theorem zeroExtend (ha : a.Refines a') (bits : Nat) :
    (a.zeroExtend bits).Refines (a'.zeroExtend bits) := by
  refine of_lt fun i hi v h => ?_
  rw [bit?_zeroExtend _ _ hi] at h ⊢
  by_cases hin : i < bits
  · rw [if_pos hin] at h ⊢
    exact ha _ v h
  · rw [if_neg hin] at h ⊢
    exact h

end Refines

/-! ## Completions -/

variable {w : PartialWord} {x : BitVec 32}

theorem mem_iff_refines : x ∈ w ↔ (concrete x).Refines w := by
  have hmem : x ∈ w ↔ x &&& w.known = w.value := Iff.rfl
  rw [hmem]
  constructor
  · intro h
    refine Refines.of_lt fun i hi v hv => ?_
    obtain ⟨hknown, hvalue⟩ := bit?_eq_some_iff.mp hv
    rw [bit?_concrete x hi, ← hvalue, ← h, BitVec.getLsbD_and, hknown, Bool.and_true]
  · intro h
    apply BitVec.eq_of_getLsbD_eq
    intro i hi
    rw [BitVec.getLsbD_and, ← isSome_bit?, getLsbD_value]
    cases hv : w.bit? i with
    | none => simp
    | some v =>
      have hx := h i v hv
      rw [bit?_concrete x hi] at hx
      simpa using hx

theorem mem_unknown (x : BitVec 32) : x ∈ unknown := mem_iff_refines.mpr (.unknown _)

/-- The only completion of a concrete word is the word itself. -/
theorem mem_concrete_iff {y : BitVec 32} : x ∈ concrete y ↔ x = y := by
  rw [mem_iff_refines]
  constructor
  · intro h
    have hbits := h.toBits?_eq (toBits?_concrete y)
    rw [toBits?_concrete] at hbits
    exact Option.some.inj hbits
  · rintro rfl
    exact .refl _

theorem knownUpTo_concrete (x : BitVec 32) {i : Nat} (hi : i < 32) : (concrete x).KnownUpTo i := by
  intro j hj
  rw [bit?_concrete x (Nat.lt_of_le_of_lt hj hi)]
  rfl

/-- A word with all the bits of a number is that number. -/
theorem eq_concrete {z : BitVec 32} (h : ∀ i, i < 32 → w.bit? i = some (z.getLsbD i)) :
    w = concrete z :=
  ext_bit? fun i hi => (h i hi).trans (bit?_concrete z hi).symm

/-- Whole words have a whole result. -/
theorem of_carryMask_concrete (op : BitVec 32 → BitVec 32 → BitVec 32) (x y : BitVec 32) :
    of (op (concrete x).value (concrete y).value) (carryMask (concrete x) (concrete y)) =
      concrete (op x y) := by
  have hvalue : ∀ z, (concrete z).value = z := fun z => BitVec.and_allOnes
  refine eq_concrete fun i hi => ?_
  exact bit?_of_carryMask.mpr
    ⟨knownUpTo_concrete x hi, knownUpTo_concrete y hi, by rw [hvalue, hvalue]⟩

theorem concrete_add (x y : BitVec 32) : concrete x + concrete y = concrete (x + y) :=
  of_carryMask_concrete (· + ·) x y

theorem concrete_sub (x y : BitVec 32) : concrete x - concrete y = concrete (x - y) :=
  of_carryMask_concrete (· - ·) x y

theorem concrete_mul (x y : BitVec 32) : concrete x * concrete y = concrete (x * y) :=
  of_carryMask_concrete (· * ·) x y

theorem concrete_and (x y : BitVec 32) : concrete x &&& concrete y = concrete (x &&& y) := by
  refine eq_concrete fun i hi => (bit?_and _ _ i).trans ?_
  rw [bit?_concrete _ hi, bit?_concrete _ hi, BitVec.getLsbD_and]
  cases x.getLsbD i <;> cases y.getLsbD i <;> rfl

theorem concrete_or (x y : BitVec 32) : concrete x ||| concrete y = concrete (x ||| y) := by
  refine eq_concrete fun i hi => (bit?_or _ _ i).trans ?_
  rw [bit?_concrete _ hi, bit?_concrete _ hi, BitVec.getLsbD_or]
  cases x.getLsbD i <;> cases y.getLsbD i <;> rfl

theorem concrete_xor (x y : BitVec 32) : concrete x ^^^ concrete y = concrete (x ^^^ y) := by
  refine eq_concrete fun i hi => (bit?_xor _ _ i).trans ?_
  rw [bit?_concrete _ hi, bit?_concrete _ hi, BitVec.getLsbD_xor]
  rfl

theorem concrete_not (x : BitVec 32) : ~~~concrete x = concrete (~~~x) := by
  refine eq_concrete fun i hi => (bit?_not _ i).trans ?_
  rw [bit?_concrete _ hi, BitVec.getLsbD_not, decide_eq_true hi, Bool.true_and]
  rfl

theorem concrete_neg (x : BitVec 32) : -concrete x = concrete (-x) := by
  rw [BitVec.neg_eq_not_add, ← concrete_add, ← concrete_not]
  rfl

section Arithmetic

variable {a b : PartialWord} {y : BitVec 32}

/-! Results on completions are completions of the result. -/

theorem mem_add (hx : x ∈ a) (hy : y ∈ b) : x + y ∈ a + b := by
  have hsum := (mem_iff_refines.mp hx).add (mem_iff_refines.mp hy)
  rw [mem_iff_refines, ← concrete_add]
  exact hsum

theorem mem_sub (hx : x ∈ a) (hy : y ∈ b) : x - y ∈ a - b := by
  have hdifference := (mem_iff_refines.mp hx).sub (mem_iff_refines.mp hy)
  rw [mem_iff_refines, ← concrete_sub]
  exact hdifference

theorem mem_mul (hx : x ∈ a) (hy : y ∈ b) : x * y ∈ a * b := by
  have hproduct := (mem_iff_refines.mp hx).mul (mem_iff_refines.mp hy)
  rw [mem_iff_refines, ← concrete_mul]
  exact hproduct

theorem mem_neg (hx : x ∈ a) : -x ∈ -a := by
  have hnegated := (mem_iff_refines.mp hx).neg
  rw [mem_iff_refines, ← concrete_neg]
  exact hnegated

/-- Completions step down with their word. -/
theorem mem_sub_one (h : x ∈ w) : x - 1 ∈ w - concrete 1 := mem_sub h (mem_concrete_iff.mpr rfl)

end Arithmetic

/-- A step down by one turns the lowest bit over. -/
theorem getLsbD_sub_one (x : BitVec 32) : (x - 1).getLsbD 0 = !x.getLsbD 0 := by
  have hone : (~~~(1 : BitVec 32) + 1#32).getLsbD 0 = true := by decide
  rw [BitVec.getLsbD_sub, BitVec.carry_zero, hone, Bool.xor_false, Bool.xor_true]
  exact Nat.zero_lt_succ 31

/-- A completion that does not step down with its word remains a completion
only if the lowest bit is not known. -/
theorem mem_sub_one_iff (h : x ∈ w) : x ∈ w - concrete 1 ↔ w.bit? 0 = none := by
  constructor
  · intro hstay
    cases hlow : w.bit? 0 with
    | none => rfl
    | some v =>
      have hknown : w.KnownUpTo 0 := by
        intro j hj
        rw [Nat.le_zero.mp hj, hlow]
        rfl
      have hturned : (w - concrete 1).bit? 0 = some (!w.value.getLsbD 0) :=
        bit?_of_carryMask.mpr ⟨hknown, knownUpTo_concrete 1 (by decide), getLsbD_sub_one w.value⟩
      have hx := mem_iff_refines.mp h 0 v hlow
      have hx' := mem_iff_refines.mp hstay 0 _ hturned
      rw [(bit?_eq_some_iff.mp hlow).2, hx] at hx'
      cases v <;> cases hx'
  · intro hlow
    have hnothing : w - concrete 1 = unknown := by
      refine eq_unknown fun i => ?_
      cases hi : (w - concrete 1).bit? i with
      | none => rfl
      | some v =>
        obtain ⟨hknown, -, -⟩ := bit?_of_carryMask.mp hi
        have hzero := hknown 0 (Nat.zero_le i)
        rw [hlow] at hzero
        cases hzero
    rw [hnothing]
    exact mem_unknown x

end PartialWord

end KeyLoop
