/-
# Partial words, bit by bit

Every position of a partial word is a known zero, a known one, or unknown:
`bit? w i`.  A partial word is nothing but its 32 bits (`ext_bit?`), and each
operation is told by the bits of its result:

    and, or, xor, not      the operation on known bits, position by position;
                           a known zero decides a conjunction, a known one a
                           disjunction
    add, sub, mul, neg     known up to the first position unknown in an operand
    shifts, extensions     each position shows one position of the operand, or
                           a fixed zero
-/
import KeyLoop.PartialWord

namespace KeyLoop

namespace PartialWord

/-- The bit at a position, when it is known. -/
def bit? (w : PartialWord) (i : Nat) : Option Bool :=
  if w.known.getLsbD i then some (w.value.getLsbD i) else none

theorem bit?_of (bits known : BitVec 32) (i : Nat) :
    (of bits known).bit? i = if known.getLsbD i then some (bits.getLsbD i) else none := by
  by_cases h : known.getLsbD i <;> simp [bit?, of, h]

theorem bit?_eq_some_iff {w : PartialWord} {i : Nat} {b : Bool} :
    w.bit? i = some b ↔ w.known.getLsbD i = true ∧ w.value.getLsbD i = b := by
  by_cases h : w.known.getLsbD i <;> simp [bit?, h]

theorem isSome_bit? (w : PartialWord) (i : Nat) : (w.bit? i).isSome = w.known.getLsbD i := by
  by_cases h : w.known.getLsbD i <;> simp [bit?, h]

/-- An unknown position reads as zero. -/
theorem getLsbD_value (w : PartialWord) (i : Nat) : w.value.getLsbD i = (w.bit? i).getD false := by
  by_cases h : w.known.getLsbD i = true
  · simp only [bit?, if_pos h, Option.getD_some]
  · have hzero := congrArg (·.getLsbD i) w.value_known
    simp only [BitVec.getLsbD_and, BitVec.getLsbD_not, BitVec.getLsbD_zero, h, Bool.not_false,
      Bool.and_true] at hzero
    simp only [bit?, if_neg h, Option.getD_none]
    rcases Nat.lt_or_ge i 32 with hi | hi
    · simpa only [hi, decide_true, Bool.and_true] using hzero
    · exact BitVec.getLsbD_of_ge _ _ hi

/-- No position from 32 on is known. -/
theorem bit?_of_ge (w : PartialWord) {i : Nat} (h : 32 ≤ i) : w.bit? i = none := by
  simp [bit?, h]

/-- A partial word is determined by its bits. -/
theorem ext_bit? {v w : PartialWord} (h : ∀ i, i < 32 → v.bit? i = w.bit? i) : v = w := by
  have hknown : v.known = w.known := by
    apply BitVec.eq_of_getLsbD_eq
    intro i hi
    rw [← isSome_bit?, ← isSome_bit?, h i hi]
  have hvalue : v.value = w.value := by
    apply BitVec.eq_of_getLsbD_eq
    intro i hi
    rw [getLsbD_value, getLsbD_value, h i hi]
  cases v
  cases w
  simp_all

/-! ## Masks -/

theorem getLsbD_lowMask (n i : Nat) : (lowMask n).getLsbD i = decide (i < n ∧ i < 32) := by
  rcases Nat.lt_or_ge i 32 with hi | hi
  · rcases Nat.lt_or_ge i n with hn | hn
    · simp only [lowMask, BitVec.getLsbD_not, BitVec.getLsbD_shiftLeft, hi, hn, decide_true,
        Bool.not_true, Bool.and_false, Bool.false_and, Bool.not_false, Bool.and_true, and_self]
    · simp only [lowMask, BitVec.getLsbD_not, BitVec.getLsbD_shiftLeft, BitVec.getLsbD_allOnes,
        hi, Nat.not_lt.mpr hn, show i - n < 32 by omega, decide_true, decide_false, Bool.not_false,
        Bool.and_true, Bool.not_true, Bool.and_false, false_and]
  · simp only [BitVec.getLsbD_of_ge _ _ hi, Nat.not_lt.mpr hi, and_false, decide_false]

/-- How far a test holds without a gap, from zero on. -/
theorem lt_length_takeWhile_range_iff {p : Nat → Bool} {n i : Nat} :
    i < ((List.range n).takeWhile p).length ↔ i < n ∧ ∀ j ≤ i, p j = true := by
  have hlength : ((List.range n).takeWhile p).length = (List.range n).findIdx fun j => !p j := by
    rw [List.takeWhile_eq_take_findIdx_not, List.length_take]
    exact Nat.min_eq_left List.findIdx_le_length
  rw [hlength, List.lt_findIdx_iff]
  simp

/-- The front ones of a pattern are the positions up to which every bit is set. -/
theorem lt_trailingOnes_iff {x : BitVec 32} {i : Nat} :
    i < trailingOnes x ↔ i < 32 ∧ ∀ j ≤ i, x.getLsbD j = true := lt_length_takeWhile_range_iff

/-- No carry from an unknown position reaches a position below all of them. -/
theorem getLsbD_carryMask (a b : PartialWord) (i : Nat) :
    (carryMask a b).getLsbD i = true ↔
      i < 32 ∧ ∀ j ≤ i, a.known.getLsbD j = true ∧ b.known.getLsbD j = true := by
  rw [carryMask, getLsbD_lowMask, decide_eq_true_iff, lt_trailingOnes_iff]
  simp only [BitVec.getLsbD_and, Bool.and_eq_true]
  exact ⟨fun h => h.1, fun h => ⟨h, h.1⟩⟩

/-! ## Whole words -/

theorem bit?_concrete (bits : BitVec 32) {i : Nat} (hi : i < 32) :
    (concrete bits).bit? i = some (bits.getLsbD i) := by
  rw [concrete, bit?_of, BitVec.getLsbD_allOnes, if_pos (by simpa using hi)]

theorem bit?_unknown (i : Nat) : unknown.bit? i = none := by
  simp [unknown, bit?_of]

/-- A word with no known bit is the unknown word. -/
theorem eq_unknown {w : PartialWord} (h : ∀ i, w.bit? i = none) : w = unknown :=
  ext_bit? fun i _ => (h i).trans (bit?_unknown i).symm

theorem isConcrete_iff {w : PartialWord} :
    w.isConcrete = true ↔ ∀ i, i < 32 → (w.bit? i).isSome = true := by
  simp only [isConcrete, beq_iff_eq, isSome_bit?]
  constructor
  · intro h i hi
    rw [h, BitVec.getLsbD_allOnes]
    simpa using hi
  · intro h
    apply BitVec.eq_of_getLsbD_eq
    intro i hi
    rw [h i hi, BitVec.getLsbD_allOnes]
    simpa using hi

theorem toBits?_concrete (bits : BitVec 32) : (concrete bits).toBits? = some bits := by
  have hvalue : (concrete bits).value = bits := BitVec.and_allOnes
  have hconcrete : (concrete bits).isConcrete = true := beq_self_eq_true _
  rw [toBits?, if_pos hconcrete, hvalue]

/-- The words with all bits known are the concrete ones. -/
theorem toBits?_eq_some_iff {w : PartialWord} {bits : BitVec 32} :
    w.toBits? = some bits ↔ w = concrete bits := by
  constructor
  · intro h
    have hw : w.isConcrete = true := by
      cases hw : w.isConcrete with
      | true => rfl
      | false => simp [toBits?, hw] at h
    have hvalue : w.value = bits := by simpa [toBits?, hw] using h
    apply ext_bit?
    intro i hi
    rw [bit?_concrete bits hi, bit?_eq_some_iff, ← isSome_bit?, hvalue]
    exact ⟨isConcrete_iff.mp hw i hi, rfl⟩
  · rintro rfl
    exact toBits?_concrete bits

/-! ## Bitwise operations -/

/-- Conjunction of two bits that need not be known. -/
def andBit : Option Bool → Option Bool → Option Bool
  | some false, _ => some false
  | _, some false => some false
  | some true, b => b
  | none, _ => none

/-- Disjunction of two bits that need not be known. -/
def orBit : Option Bool → Option Bool → Option Bool
  | some true, _ => some true
  | _, some true => some true
  | some false, b => b
  | none, _ => none

/-- Exclusive disjunction of two bits that need not be known. -/
def xorBit : Option Bool → Option Bool → Option Bool
  | some a, some b => some (a ^^ b)
  | _, _ => none

theorem bit?_and (a b : PartialWord) (i : Nat) :
    (a.and b).bit? i = andBit (a.bit? i) (b.bit? i) := by
  rcases Nat.lt_or_ge i 32 with hi | hi
  · simp only [and, bit?_of, zeros, BitVec.getLsbD_and, BitVec.getLsbD_or, BitVec.getLsbD_not,
      getLsbD_value, ← isSome_bit?, hi, decide_true, Bool.true_and]
    rcases a.bit? i with _ | _ | _ <;> rcases b.bit? i with _ | _ | _ <;> rfl
  · rw [bit?_of_ge _ hi, bit?_of_ge _ hi, bit?_of_ge _ hi]
    rfl

theorem bit?_or (a b : PartialWord) (i : Nat) :
    (a.or b).bit? i = orBit (a.bit? i) (b.bit? i) := by
  simp only [or, bit?_of, BitVec.getLsbD_and, BitVec.getLsbD_or, getLsbD_value, ← isSome_bit?]
  rcases a.bit? i with _ | _ | _ <;> rcases b.bit? i with _ | _ | _ <;> rfl

theorem bit?_xor (a b : PartialWord) (i : Nat) :
    (a.xor b).bit? i = xorBit (a.bit? i) (b.bit? i) := by
  simp only [xor, bit?_of, BitVec.getLsbD_and, BitVec.getLsbD_xor, getLsbD_value, ← isSome_bit?]
  rcases a.bit? i with _ | _ | _ <;> rcases b.bit? i with _ | _ | _ <;> rfl

theorem bit?_not (a : PartialWord) (i : Nat) : a.not.bit? i = (a.bit? i).map (!·) := by
  rcases Nat.lt_or_ge i 32 with hi | hi
  · simp only [not, bit?_of, BitVec.getLsbD_not, getLsbD_value, ← isSome_bit?, hi, decide_true,
      Bool.true_and]
    rcases a.bit? i with _ | _ | _ <;> rfl
  · rw [bit?_of_ge _ hi, bit?_of_ge _ hi]
    rfl

/-! ## Arithmetic -/

/-- Every bit up to a position is known. -/
def KnownUpTo (w : PartialWord) (i : Nat) : Prop := ∀ j ≤ i, (w.bit? j).isSome = true

theorem KnownUpTo.lt {w : PartialWord} {i : Nat} (h : w.KnownUpTo i) : i < 32 := by
  rcases Nat.lt_or_ge i 32 with hi | hi
  · exact hi
  · have hlast := h i (Nat.le_refl i)
    simp [bit?_of_ge w hi] at hlast

/-- A pattern cut down to the positions that no unknown bit can reach, as sums,
differences and products are. -/
theorem bit?_of_carryMask {a b : PartialWord} {bits : BitVec 32} {i : Nat} {v : Bool} :
    (of bits (carryMask a b)).bit? i = some v ↔
      a.KnownUpTo i ∧ b.KnownUpTo i ∧ bits.getLsbD i = v := by
  have hmask : (carryMask a b).getLsbD i = true ↔ a.KnownUpTo i ∧ b.KnownUpTo i := by
    rw [getLsbD_carryMask]
    simp only [KnownUpTo, isSome_bit?]
    constructor
    · rintro ⟨-, h⟩
      exact ⟨fun j hj => (h j hj).1, fun j hj => (h j hj).2⟩
    · rintro ⟨ha, hb⟩
      have hi : a.KnownUpTo i := fun j hj => (isSome_bit? a j).trans (ha j hj)
      exact ⟨hi.lt, fun j hj => ⟨ha j hj, hb j hj⟩⟩
  rw [bit?_of]
  by_cases h : (carryMask a b).getLsbD i = true
  · obtain ⟨ha, hb⟩ := hmask.mp h
    simp [h, ha, hb]
  · have hnot := mt hmask.mpr h
    simp only [if_neg h, reduceCtorEq, false_iff]
    exact fun ⟨ha, hb, _⟩ => hnot ⟨ha, hb⟩

/-! ## Shifts and extensions -/

/-- A left shift shows the bits further down, and zeros below them. -/
theorem bit?_shl (a : PartialWord) (amount : BitVec 32) {i : Nat} (hi : i < 32) :
    (a.shl amount).bit? i =
      if i < shiftAmount amount then some false else a.bit? (i - shiftAmount amount) := by
  simp only [shl, bit?_of, BitVec.getLsbD_or, BitVec.getLsbD_shiftLeft, getLsbD_lowMask, hi,
    decide_true, Bool.true_and, and_true]
  by_cases h : i < shiftAmount amount <;> simp [h, bit?]

/-- A right shift without sign shows the bits further up, and zeros above them. -/
theorem bit?_shrUnsigned (a : PartialWord) (amount : BitVec 32) {i : Nat} (hi : i < 32) :
    (a.shrUnsigned amount).bit? i =
      if i + shiftAmount amount < 32 then a.bit? (i + shiftAmount amount) else some false := by
  simp only [shrUnsigned, bit?_of, BitVec.getLsbD_or, BitVec.getLsbD_ushiftRight,
    BitVec.getLsbD_not, BitVec.getLsbD_allOnes, hi, decide_true, Bool.true_and,
    Nat.add_comm (shiftAmount amount) i]
  by_cases h : i + shiftAmount amount < 32
  · simp only [h, decide_true, Bool.not_true, Bool.or_false, if_true, bit?]
  · simp only [h, decide_false, Bool.not_false, Bool.or_true, if_true, if_false,
      BitVec.getLsbD_of_ge _ _ (Nat.le_of_not_lt h)]

/-- A right shift with sign shows the bits further up, and the sign above them. -/
theorem bit?_shr (a : PartialWord) (amount : BitVec 32) {i : Nat} (hi : i < 32) :
    (a.shr amount).bit? i = a.bit? (min (i + shiftAmount amount) 31) := by
  simp only [shr, bit?_of, BitVec.getLsbD_sshiftRight, Nat.not_le.mpr hi, decide_false,
    Bool.not_false, Bool.true_and, BitVec.msb_eq_getLsbD_last,
    Nat.add_comm (shiftAmount amount) i]
  by_cases h : i + shiftAmount amount < 32
  · simp only [h, if_true, Nat.min_eq_left (Nat.le_of_lt_succ h), bit?]
  · simp only [h, if_false, Nat.min_eq_right (show 31 ≤ i + shiftAmount amount by omega), bit?]

/-- Extension with sign shows the low bits, and the topmost of them above. -/
theorem bit?_signExtend (a : PartialWord) {bits i : Nat} (hbits : 0 < bits) (hi : i < 32) :
    (a.signExtend bits).bit? i = a.bit? (min i (bits - 1)) := by
  unfold signExtend
  by_cases hwide : 32 ≤ bits
  · rw [if_pos hwide, Nat.min_eq_left (by omega)]
  · rw [if_neg hwide]
    have hlow : ∀ j, (lowMask bits).getLsbD j = decide (j < bits ∧ j < 32) :=
      getLsbD_lowMask bits
    have hzero : (0 : BitVec 32).getLsbD i = false := BitVec.getLsbD_zero
    by_cases hin : i < bits
    · rw [Nat.min_eq_left (by omega)]
      split
      · split <;> rw [bit?_of] <;>
          simp only [BitVec.getLsbD_or, BitVec.getLsbD_and, BitVec.getLsbD_not, hzero, hlow, hi,
            hin, and_self, decide_true, Bool.and_true, Bool.not_true, Bool.and_false,
            Bool.or_false, bit?]
      · rw [bit?_of]
        simp only [BitVec.getLsbD_and, hlow, hi, hin, and_self, decide_true, Bool.and_true, bit?]
    · rw [Nat.min_eq_right (by omega)]
      split
      · rename_i hknown
        split <;> rename_i hvalue <;> rw [bit?_of] <;>
          simp only [BitVec.getLsbD_or, BitVec.getLsbD_and, BitVec.getLsbD_not, hzero, hlow, hi,
            hin, false_and, decide_true, decide_false, Bool.not_false, Bool.and_true,
            Bool.and_false, Bool.or_true, Bool.or_false, if_true, bit?, hknown, hvalue]
      · rename_i hknown
        rw [bit?_of]
        simp only [BitVec.getLsbD_and, hlow, hin, false_and, decide_false, Bool.and_false,
          Bool.false_eq_true, if_false, bit?, hknown]

/-- Extension without sign shows the low bits, and zeros above. -/
theorem bit?_zeroExtend (a : PartialWord) (bits : Nat) {i : Nat} (hi : i < 32) :
    (a.zeroExtend bits).bit? i = if i < bits then a.bit? i else some false := by
  unfold zeroExtend
  by_cases hwide : 32 ≤ bits
  · rw [if_pos hwide, if_pos (by omega)]
  · rw [if_neg hwide]
    have hlow : ∀ j, (lowMask bits).getLsbD j = decide (j < bits ∧ j < 32) :=
      getLsbD_lowMask bits
    rw [bit?_of]
    by_cases hin : i < bits <;>
      simp only [BitVec.getLsbD_or, BitVec.getLsbD_and, BitVec.getLsbD_not, hlow, hi, hin,
        and_self, false_and, decide_true, decide_false, Bool.and_true, Bool.and_false,
        Bool.not_true, Bool.not_false, Bool.or_true, Bool.or_false, if_true, if_false, bit?]

end PartialWord

end KeyLoop
