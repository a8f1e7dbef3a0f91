/-
# Laws of partial words

The same number can be computed by different code.  For the laws below it
makes no difference to what is known of it, either: both sides are one partial
word, value and mask.

    and, or, not       commutative, associative, distributive both ways, De Morgan
    xor                by conjunction, disjunction and complement
    add, sub, mul      commutative, associative, distributive, subtraction as the
                       sum with the negation
    extensions         by a mask, or by two shifts

The laws of the bitwise operations and of the extensions are read off one
position at a time.  The carry of a sum takes more than one position, but
nothing has to be computed there: a word is determined by the positions it
knows and by one completion (`eq_of_mem`).  The law of the machine operation
gives the completion, and the positions known are on both sides those below
the first one that is unknown in some operand.
-/
import KeyLoop.Proofs.PartialWord.Exactness

namespace KeyLoop

namespace PartialWord

variable {a b c v w : PartialWord} {x : BitVec 32} {i n : Nat}

/-! ## The bitwise operations, bit by bit -/

theorem bit?_land : (a &&& b).bit? i = andBit (a.bit? i) (b.bit? i) := bit?_and a b i

theorem bit?_lor : (a ||| b).bit? i = orBit (a.bit? i) (b.bit? i) := bit?_or a b i

theorem bit?_lxor : (a ^^^ b).bit? i = xorBit (a.bit? i) (b.bit? i) := bit?_xor a b i

theorem bit?_complement : (~~~a).bit? i = (a.bit? i).map (!·) := bit?_not a i

theorem land_comm (a b : PartialWord) : a &&& b = b &&& a := by
  refine ext_bit? fun i _ => ?_
  rw [bit?_land, bit?_land]
  rcases a.bit? i with _ | _ | _ <;> rcases b.bit? i with _ | _ | _ <;> rfl

theorem lor_comm (a b : PartialWord) : a ||| b = b ||| a := by
  refine ext_bit? fun i _ => ?_
  rw [bit?_lor, bit?_lor]
  rcases a.bit? i with _ | _ | _ <;> rcases b.bit? i with _ | _ | _ <;> rfl

theorem land_assoc (a b c : PartialWord) : (a &&& b) &&& c = a &&& (b &&& c) := by
  refine ext_bit? fun i _ => ?_
  simp only [bit?_land]
  rcases a.bit? i with _ | _ | _ <;> rcases b.bit? i with _ | _ | _ <;>
    rcases c.bit? i with _ | _ | _ <;> rfl

theorem lor_assoc (a b c : PartialWord) : (a ||| b) ||| c = a ||| (b ||| c) := by
  refine ext_bit? fun i _ => ?_
  simp only [bit?_lor]
  rcases a.bit? i with _ | _ | _ <;> rcases b.bit? i with _ | _ | _ <;>
    rcases c.bit? i with _ | _ | _ <;> rfl

theorem land_lor (a b c : PartialWord) : a &&& (b ||| c) = (a &&& b) ||| (a &&& c) := by
  refine ext_bit? fun i _ => ?_
  simp only [bit?_land, bit?_lor]
  rcases a.bit? i with _ | _ | _ <;> rcases b.bit? i with _ | _ | _ <;>
    rcases c.bit? i with _ | _ | _ <;> rfl

theorem lor_land (a b c : PartialWord) : a ||| (b &&& c) = (a ||| b) &&& (a ||| c) := by
  refine ext_bit? fun i _ => ?_
  simp only [bit?_land, bit?_lor]
  rcases a.bit? i with _ | _ | _ <;> rcases b.bit? i with _ | _ | _ <;>
    rcases c.bit? i with _ | _ | _ <;> rfl

theorem not_land (a b : PartialWord) : ~~~(a &&& b) = ~~~a ||| ~~~b := by
  refine ext_bit? fun i _ => ?_
  simp only [bit?_complement, bit?_land, bit?_lor]
  rcases a.bit? i with _ | _ | _ <;> rcases b.bit? i with _ | _ | _ <;> rfl

theorem not_lor (a b : PartialWord) : ~~~(a ||| b) = ~~~a &&& ~~~b := by
  refine ext_bit? fun i _ => ?_
  simp only [bit?_complement, bit?_land, bit?_lor]
  rcases a.bit? i with _ | _ | _ <;> rcases b.bit? i with _ | _ | _ <;> rfl

theorem lxor_eq_lor (a b : PartialWord) : a ^^^ b = (a &&& ~~~b) ||| (~~~a &&& b) := by
  refine ext_bit? fun i _ => ?_
  simp only [bit?_lxor, bit?_complement, bit?_land, bit?_lor]
  rcases a.bit? i with _ | _ | _ <;> rcases b.bit? i with _ | _ | _ <;> rfl

/-! ## Arithmetic: a completion and the known positions -/

/-- Words that know the same positions and have a completion in common are the same. -/
theorem eq_of_mem (hknown : ∀ i, (v.bit? i).isSome = true ↔ (w.bit? i).isSome = true)
    (hv : x ∈ v) (hw : x ∈ w) : v = w := by
  refine ext_bit? fun i _ => ?_
  have hsame := hknown i
  cases hvi : v.bit? i with
  | none =>
    cases hwi : w.bit? i with
    | none => rfl
    | some s => simp [hvi, hwi] at hsame
  | some s =>
    cases hwi : w.bit? i with
    | none => simp [hvi, hwi] at hsame
    | some t => rw [← mem_iff_getLsbD.mp hv i s hvi, ← mem_iff_getLsbD.mp hw i t hwi]

theorem isSome_add : ((a + b).bit? i).isSome = true ↔ a.KnownUpTo i ∧ b.KnownUpTo i :=
  isSome_of_carryMask _

theorem isSome_sub : ((a - b).bit? i).isSome = true ↔ a.KnownUpTo i ∧ b.KnownUpTo i :=
  isSome_of_carryMask _

theorem isSome_mul : ((a * b).bit? i).isSome = true ↔ a.KnownUpTo i ∧ b.KnownUpTo i :=
  isSome_of_carryMask _

/-- What is known below the first unknown bit of two operands is known without a gap. -/
theorem knownUpTo_of_isSome
    (h : ∀ j, (w.bit? j).isSome = true ↔ a.KnownUpTo j ∧ b.KnownUpTo j) :
    w.KnownUpTo i ↔ a.KnownUpTo i ∧ b.KnownUpTo i := by
  constructor
  · intro hw
    exact (h i).mp (hw i (Nat.le_refl i))
  · rintro ⟨ha, hb⟩ j hj
    exact (h j).mpr ⟨fun k hk => ha k (Nat.le_trans hk hj), fun k hk => hb k (Nat.le_trans hk hj)⟩

theorem knownUpTo_add : (a + b).KnownUpTo i ↔ a.KnownUpTo i ∧ b.KnownUpTo i :=
  knownUpTo_of_isSome fun _ => isSome_add

theorem knownUpTo_mul : (a * b).KnownUpTo i ↔ a.KnownUpTo i ∧ b.KnownUpTo i :=
  knownUpTo_of_isSome fun _ => isSome_mul

theorem knownUpTo_neg : (-a).KnownUpTo i ↔ a.KnownUpTo i := by
  rw [knownUpTo_of_isSome (b := a) fun _ => isSome_neg.trans (and_self_iff).symm, and_self_iff]

theorem add_comm (a b : PartialWord) : a + b = b + a := by
  refine eq_of_mem (fun i => ?_) (mem_add a.value_mem b.value_mem) ?_
  · rw [isSome_add, isSome_add, and_comm]
  · rw [BitVec.add_comm]
    exact mem_add b.value_mem a.value_mem

theorem mul_comm (a b : PartialWord) : a * b = b * a := by
  refine eq_of_mem (fun i => ?_) (mem_mul a.value_mem b.value_mem) ?_
  · rw [isSome_mul, isSome_mul, and_comm]
  · rw [BitVec.mul_comm]
    exact mem_mul b.value_mem a.value_mem

theorem add_assoc (a b c : PartialWord) : a + b + c = a + (b + c) := by
  refine eq_of_mem (fun i => ?_)
    (mem_add (mem_add a.value_mem b.value_mem) c.value_mem) ?_
  · rw [isSome_add, isSome_add, knownUpTo_add, knownUpTo_add, and_assoc]
  · rw [BitVec.add_assoc]
    exact mem_add a.value_mem (mem_add b.value_mem c.value_mem)

theorem mul_assoc (a b c : PartialWord) : a * b * c = a * (b * c) := by
  refine eq_of_mem (fun i => ?_)
    (mem_mul (mem_mul a.value_mem b.value_mem) c.value_mem) ?_
  · rw [isSome_mul, isSome_mul, knownUpTo_mul, knownUpTo_mul, and_assoc]
  · rw [BitVec.mul_assoc]
    exact mem_mul a.value_mem (mem_mul b.value_mem c.value_mem)

/-- The factor that occurs twice on the right costs no more than once. -/
theorem mul_add (a b c : PartialWord) : a * (b + c) = a * b + a * c := by
  refine eq_of_mem (fun i => ?_)
    (mem_mul a.value_mem (mem_add b.value_mem c.value_mem)) ?_
  · rw [isSome_mul, isSome_add, knownUpTo_add, knownUpTo_mul, knownUpTo_mul, and_and_left]
  · rw [BitVec.mul_add]
    exact mem_add (mem_mul a.value_mem b.value_mem) (mem_mul a.value_mem c.value_mem)

theorem sub_eq_add_neg (a b : PartialWord) : a - b = a + -b := by
  refine eq_of_mem (fun i => ?_) (mem_sub a.value_mem b.value_mem) ?_
  · rw [isSome_sub, isSome_add, knownUpTo_neg]
  · rw [BitVec.sub_eq_add_neg]
    exact mem_add a.value_mem (mem_neg b.value_mem)

/-! ## Extensions by masks and by shifts -/

theorem twoPow_sub_one (n : Nat) : BitVec.twoPow 32 n - 1 = lowMask n := by
  have hpower : BitVec.twoPow 32 n = 1#32 <<< n := BitVec.twoPow_eq 32 n
  have hone : BitVec.allOnes 32 = -1#32 := BitVec.neg_one_eq_allOnes.symm
  rw [lowMask, hone, BitVec.shiftLeft_neg, ← hpower]
  exact (BitVec.not_neg _).symm

theorem shiftAmount_ofNat {k : Nat} (h : k < 32) : shiftAmount (BitVec.ofNat 32 k) = k := by
  rw [shiftAmount, BitVec.toNat_ofNat]
  omega

theorem zeroExtend_eq_land (a : PartialWord) (n : Nat) :
    a.zeroExtend n = a &&& concrete (.twoPow 32 n - 1) := by
  refine ext_bit? fun i hi => ?_
  rw [bit?_zeroExtend a n hi, bit?_land, bit?_concrete _ hi, twoPow_sub_one, getLsbD_lowMask]
  by_cases hin : i < n
  · rw [if_pos hin, decide_eq_true ⟨hin, hi⟩]
    rcases a.bit? i with _ | _ | _ <;> rfl
  · rw [if_neg hin, decide_eq_false fun h => hin h.1]
    rcases a.bit? i with _ | _ | _ <;> rfl

section Shifts

variable (a : PartialWord) (hpos : 1 ≤ n) (hn : n ≤ 31)
include hpos hn

/-- Shifted up so that the low bits come to the top, and back down. -/
theorem zeroExtend_eq_shrUnsigned :
    a.zeroExtend n =
      (a.shl (BitVec.ofNat 32 (32 - n))).shrUnsigned (BitVec.ofNat 32 (32 - n)) := by
  have hamount := shiftAmount_ofNat (k := 32 - n) (by omega)
  refine ext_bit? fun i hi => ?_
  rw [bit?_zeroExtend a n hi, bit?_shrUnsigned _ _ hi, hamount]
  by_cases hin : i < n
  · have htop : i + (32 - n) < 32 := by omega
    rw [if_pos hin, if_pos htop, bit?_shl _ _ htop, hamount, if_neg (by omega), Nat.add_sub_cancel]
  · rw [if_neg hin, if_neg (by omega)]

theorem signExtend_eq_shr :
    a.signExtend n = (a.shl (BitVec.ofNat 32 (32 - n))).shr (BitVec.ofNat 32 (32 - n)) := by
  have hamount := shiftAmount_ofNat (k := 32 - n) (by omega)
  refine ext_bit? fun i hi => ?_
  have htop : min (i + (32 - n)) 31 < 32 := by omega
  have hdown : min (i + (32 - n)) 31 - (32 - n) = min i (n - 1) := by omega
  rw [bit?_signExtend a hpos hi, bit?_shr _ _ hi, hamount, bit?_shl _ _ htop, hamount,
    if_neg (by omega), hdown]

end Shifts

/-! ## All laws -/

/-- **Equivalent code keeps the same knowledge.**  The laws of the bitwise
operations and of arithmetic hold of partial words, value and mask, and an
extension is what its mask or its two shifts make of a word. -/
theorem equal_knowledge (a b c : PartialWord) (hpos : 1 ≤ n) (hn : n ≤ 31) :
    (a &&& b = b &&& a ∧ a ||| b = b ||| a ∧
      (a &&& b) &&& c = a &&& (b &&& c) ∧ (a ||| b) ||| c = a ||| (b ||| c) ∧
      a &&& (b ||| c) = (a &&& b) ||| (a &&& c) ∧ a ||| (b &&& c) = (a ||| b) &&& (a ||| c) ∧
      ~~~(a &&& b) = ~~~a ||| ~~~b ∧ ~~~(a ||| b) = ~~~a &&& ~~~b ∧
      a ^^^ b = (a &&& ~~~b) ||| (~~~a &&& b)) ∧
    (a + b = b + a ∧ a + b + c = a + (b + c) ∧ a * b = b * a ∧ a * b * c = a * (b * c) ∧
      a * (b + c) = a * b + a * c ∧ a - b = a + -b) ∧
    a.zeroExtend n = a &&& concrete (.twoPow 32 n - 1) ∧
    a.zeroExtend n =
      (a.shl (BitVec.ofNat 32 (32 - n))).shrUnsigned (BitVec.ofNat 32 (32 - n)) ∧
    a.signExtend n = (a.shl (BitVec.ofNat 32 (32 - n))).shr (BitVec.ofNat 32 (32 - n)) := by
  refine ⟨?_, ?_, ?_, ?_, ?_⟩
  · exact ⟨land_comm a b, lor_comm a b, land_assoc a b c, lor_assoc a b c, land_lor a b c,
      lor_land a b c, not_land a b, not_lor a b, lxor_eq_lor a b⟩
  · exact ⟨add_comm a b, add_assoc a b c, mul_comm a b, mul_assoc a b c, mul_add a b c,
      sub_eq_add_neg a b⟩
  · exact zeroExtend_eq_land a n
  · exact zeroExtend_eq_shrUnsigned a hpos hn
  · exact signExtend_eq_shr a hpos hn

/-- A word with an unknown sign bit in its low byte. -/
theorem equal_knowledge_unknown_sign :
    let a := of 0x0000002A#32 0x0000007F#32
    let b := of 0x00000005#32 0xFFFFFF0F#32
    let c := of 0x00000300#32 0x00000FFF#32
    1 ≤ 8 ∧ 8 ≤ 31 ∧ a * (b + c) = a * b + a * c ∧
      a.signExtend 8 = (a.shl (BitVec.ofNat 32 (32 - 8))).shr (BitVec.ofNat 32 (32 - 8)) ∧
      a.signExtend 8 = a ∧ a.zeroExtend 8 = of 0x0000002A#32 0xFFFFFF7F#32 := by
  intro a b c
  obtain ⟨-, ⟨-, -, -, -, hdistributes, -⟩, -, -, hshifts⟩ :=
    equal_knowledge (n := 8) a b c (by decide) (by decide)
  exact ⟨by decide, by decide, hdistributes, hshifts, by decide, by decide⟩

end PartialWord

end KeyLoop
