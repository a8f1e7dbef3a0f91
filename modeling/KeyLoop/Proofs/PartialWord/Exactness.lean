/-
# What the operations keep

An operation on partial words can keep no more than what the results on all
completions have in common.  Where the positions of the result do not depend
on each other it keeps just that; where they do, through a carry, it keeps the
low end.

    and, or, xor, not,      a bit is known exactly if all results have it
    shifts, extensions                                        (`IsExact`)
    add, sub, mul, neg      no result has another bit, and known are the bits
                            below the first one that is unknown in an operand
                                                              (`IsLowEnd`)

An exact bit is a matter of one position of each operand.  A completion can
have any bit there that is not known to be another (`exists_mem_getLsbD`), so
what holds of that bit in all completions holds of all the bits that the
position allows, and a table of at most nine cases decides.
-/
import KeyLoop.Proofs.PartialWord.Refinement

namespace KeyLoop

namespace PartialWord

/-! ## Results on all completions -/

/-- The results of an operation on the completions of a word. -/
def results₁ (f : BitVec 32 → BitVec 32) (a : PartialWord) (z : BitVec 32) : Prop :=
  ∃ x ∈ a, z = f x

/-- The results of an operation on the completions of two words. -/
def results₂ (f : BitVec 32 → BitVec 32 → BitVec 32) (a b : PartialWord) (z : BitVec 32) : Prop :=
  ∃ x ∈ a, ∃ y ∈ b, z = f x y

/-- A bit of the word is known exactly if all results have it. -/
def IsExact (w : PartialWord) (results : BitVec 32 → Prop) : Prop :=
  ∀ i < 32, ∀ v, w.bit? i = some v ↔ ∀ z, results z → z.getLsbD i = v

/-- How many bits, from the lowest up, are known in every one of the words. -/
def knownRun (ws : List PartialWord) : Nat :=
  ((List.range 32).takeWhile fun i => ws.all fun w => w.known.getLsbD i).length

/-- All results have the known bits of the word, and these are the low bits
that are known in every operand. -/
structure IsLowEnd (w : PartialWord) (operands : List PartialWord) (results : BitVec 32 → Prop) :
    Prop where
  mem : ∀ z, results z → z ∈ w
  known : ∀ i, (w.bit? i).isSome = true ↔ i < knownRun operands

variable {a b w : PartialWord} {x y : BitVec 32} {i j : Nat} {v : Bool}

/-! ## The bits of completions -/

/-- A word has its known bits at its 32 positions. -/
theorem lt_of_bit? (h : w.bit? i = some v) : i < 32 := by
  rcases Nat.lt_or_ge i 32 with hi | hi
  · exact hi
  · rw [bit?_of_ge w hi] at h
    cases h

/-- The completions of a word are the numbers that have its known bits. -/
theorem mem_iff_getLsbD : x ∈ w ↔ ∀ i v, w.bit? i = some v → x.getLsbD i = v := by
  rw [mem_iff_refines]
  constructor
  · intro h i v hv
    have hx := h i v hv
    rw [bit?_concrete x (lt_of_bit? hv)] at hx
    exact Option.some.inj hx
  · intro h i v hv
    rw [bit?_concrete x (lt_of_bit? hv), h i v hv]

/-- With every unknown bit zero, the known bits are a completion. -/
theorem value_mem (w : PartialWord) : w.value ∈ w := by
  rw [mem_iff_getLsbD]
  intro i v hv
  rw [getLsbD_value, hv, Option.getD_some]

/-- A bit can be where this much is known. -/
def Allows (known : Option Bool) (v : Bool) : Prop := known = none ∨ known = some v

instance (known : Option Bool) (v : Bool) : Decidable (Allows known v) :=
  inferInstanceAs (Decidable (_ ∨ _))

theorem allows_of_mem (h : x ∈ w) (i : Nat) : Allows (w.bit? i) (x.getLsbD i) := by
  cases hw : w.bit? i with
  | none => exact .inl rfl
  | some v => exact .inr (congrArg some (mem_iff_getLsbD.mp h i v hw).symm)

/-- A completion can have any bit that is not known to be another. -/
theorem exists_mem_getLsbD (hi : i < 32) (h : Allows (w.bit? i) v) : ∃ x ∈ w, x.getLsbD i = v := by
  rcases h with hnone | hsome
  · have hzero : w.value.getLsbD i = false := by rw [getLsbD_value, hnone, Option.getD_none]
    have hone : w.value ||| .twoPow 32 i ∈ w := by
      rw [mem_iff_getLsbD]
      intro j u hu
      have hj : i ≠ j := by
        rintro rfl
        rw [hnone] at hu
        cases hu
      simp [mem_iff_getLsbD.mp w.value_mem j u hu, hj]
    cases v with
    | false => exact ⟨w.value, w.value_mem, hzero⟩
    | true => exact ⟨_, hone, by simp [hi]⟩
  · exact ⟨w.value, w.value_mem, mem_iff_getLsbD.mp w.value_mem i v hsome⟩

/-! ## Exact bits -/

/-- A bit of the result that comes from one position of the operand. -/
theorem exactBit_of_table {f : BitVec 32 → BitVec 32} (table : Option Bool → Option Bool)
    (op : Bool → Bool) (htable : ∀ p v, table p = some v ↔ ∀ s, Allows p s → op s = v) (hj : j < 32)
    (hbit : w.bit? i = table (a.bit? j)) (hf : ∀ x, (f x).getLsbD i = op (x.getLsbD j)) (v : Bool) :
    w.bit? i = some v ↔ ∀ z, results₁ f a z → z.getLsbD i = v := by
  rw [hbit, htable]
  constructor
  · rintro h z ⟨x, hx, rfl⟩
    rw [hf]
    exact h _ (allows_of_mem hx j)
  · intro h s hs
    obtain ⟨x, hx, rfl⟩ := exists_mem_getLsbD hj hs
    rw [← hf]
    exact h _ ⟨x, hx, rfl⟩

/-- Results whose bits come from the bits of two operands at the same position. -/
theorem isExact_results₂ {f : BitVec 32 → BitVec 32 → BitVec 32} {op : Bool → Bool → Bool}
    {table : Option Bool → Option Bool → Option Bool}
    (htable : ∀ p q v, table p q = some v ↔ ∀ s, Allows p s → ∀ t, Allows q t → op s t = v)
    (hbit : ∀ i, w.bit? i = table (a.bit? i) (b.bit? i))
    (hf : ∀ x y i, (f x y).getLsbD i = op (x.getLsbD i) (y.getLsbD i)) :
    w.IsExact (results₂ f a b) := by
  intro i hi v
  rw [hbit, htable]
  constructor
  · rintro h z ⟨x, hx, y, hy, rfl⟩
    rw [hf]
    exact h _ (allows_of_mem hx i) _ (allows_of_mem hy i)
  · intro h s hs t ht
    obtain ⟨x, hx, rfl⟩ := exists_mem_getLsbD hi hs
    obtain ⟨y, hy, rfl⟩ := exists_mem_getLsbD hi ht
    rw [← hf]
    exact h _ ⟨x, hx, y, hy, rfl⟩

/-- A bit that is taken over from the operand. -/
theorem exactBit_of_taken {f : BitVec 32 → BitVec 32} (hj : j < 32) (hbit : w.bit? i = a.bit? j)
    (hf : ∀ x, (f x).getLsbD i = x.getLsbD j) (v : Bool) :
    w.bit? i = some v ↔ ∀ z, results₁ f a z → z.getLsbD i = v := by
  refine exactBit_of_table id id ?_ hj hbit hf v
  rintro (_ | _ | _) (_ | _) <;> decide

/-- A bit that all results have, whatever the operand. -/
theorem exactBit_of_fixed {f : BitVec 32 → BitVec 32} {c : Bool} (hbit : w.bit? i = some c)
    (hf : ∀ x, (f x).getLsbD i = c) (v : Bool) :
    w.bit? i = some v ↔ ∀ z, results₁ f a z → z.getLsbD i = v := by
  refine exactBit_of_table (j := 0) (fun _ => some c) (fun _ => c) ?_
    (by decide) hbit hf v
  cases c <;> rintro (_ | _ | _) (_ | _) <;> decide

/-! ## The bitwise operations -/

theorem isExact_and (a b : PartialWord) : (a &&& b).IsExact (results₂ (· &&& ·) a b) := by
  refine isExact_results₂ ?_ (bit?_and a b) fun x y i => BitVec.getLsbD_and
  rintro (_ | _ | _) (_ | _ | _) (_ | _) <;> decide

theorem isExact_or (a b : PartialWord) : (a ||| b).IsExact (results₂ (· ||| ·) a b) := by
  refine isExact_results₂ ?_ (bit?_or a b) fun x y i => BitVec.getLsbD_or
  rintro (_ | _ | _) (_ | _ | _) (_ | _) <;> decide

theorem isExact_xor (a b : PartialWord) : (a ^^^ b).IsExact (results₂ (· ^^^ ·) a b) := by
  refine isExact_results₂ ?_ (bit?_xor a b) fun x y i => BitVec.getLsbD_xor
  rintro (_ | _ | _) (_ | _ | _) (_ | _) <;> decide

theorem isExact_not (a : PartialWord) : (~~~a).IsExact (results₁ (~~~·) a) := by
  intro i hi
  refine exactBit_of_table _ (!·) ?_ hi (bit?_not a i) fun x => ?_
  · rintro (_ | _ | _) (_ | _) <;> decide
  · rw [BitVec.getLsbD_not, decide_eq_true hi, Bool.true_and]

/-! ## Shifts and extensions -/

theorem isExact_shl (a : PartialWord) (amount : BitVec 32) :
    (a.shl amount).IsExact (results₁ (· <<< (amount.toNat % 32)) a) := by
  intro i hi
  have hbit := bit?_shl a amount hi
  have hf : ∀ x : BitVec 32, (x <<< (amount.toNat % 32)).getLsbD i =
      if i < shiftAmount amount then false else x.getLsbD (i - shiftAmount amount) := by
    intro x
    rw [← shiftAmount, BitVec.getLsbD_shiftLeft, decide_eq_true hi, Bool.true_and]
    by_cases hin : i < shiftAmount amount <;> simp [hin]
  by_cases hin : i < shiftAmount amount
  · rw [if_pos hin] at hbit
    exact exactBit_of_fixed hbit fun x => (hf x).trans (if_pos hin)
  · rw [if_neg hin] at hbit
    exact exactBit_of_taken (by omega) hbit fun x => (hf x).trans (if_neg hin)

theorem isExact_shrUnsigned (a : PartialWord) (amount : BitVec 32) :
    (a.shrUnsigned amount).IsExact (results₁ (· >>> (amount.toNat % 32)) a) := by
  intro i hi
  have hbit := bit?_shrUnsigned a amount hi
  have hf : ∀ x : BitVec 32,
      (x >>> (amount.toNat % 32)).getLsbD i = x.getLsbD (i + shiftAmount amount) := by
    intro x
    rw [BitVec.getLsbD_ushiftRight, ← shiftAmount, Nat.add_comm]
  by_cases hin : i + shiftAmount amount < 32
  · rw [if_pos hin] at hbit
    exact exactBit_of_taken hin hbit hf
  · rw [if_neg hin] at hbit
    refine exactBit_of_fixed hbit fun x => (hf x).trans ?_
    exact BitVec.getLsbD_of_ge _ _ (Nat.le_of_not_lt hin)

theorem isExact_shr (a : PartialWord) (amount : BitVec 32) :
    (a.shr amount).IsExact (results₁ (·.sshiftRight (amount.toNat % 32)) a) := by
  intro i hi
  refine exactBit_of_taken (by omega) (bit?_shr a amount hi) fun x => ?_
  rw [BitVec.getLsbD_sshiftRight, ← shiftAmount, BitVec.msb_eq_getLsbD_last,
    decide_eq_false (Nat.not_le.mpr hi), Bool.not_false, Bool.true_and, Nat.add_comm]
  split
  · rw [Nat.min_eq_left (by omega)]
  · rw [Nat.min_eq_right (by omega)]

theorem isExact_signExtend (a : PartialWord) (bits : Nat) :
    (a.signExtend (bits + 1)).IsExact
      (results₁ (fun x => (x.setWidth (bits + 1)).signExtend 32) a) := by
  intro i hi
  have hbit := bit?_signExtend a (Nat.succ_pos bits) hi
  refine exactBit_of_taken (by omega) hbit fun x => ?_
  rw [BitVec.getLsbD_signExtend, decide_eq_true hi, Bool.true_and]
  split
  · rename_i hin
    rw [Nat.min_eq_left (by omega), BitVec.getLsbD_setWidth, decide_eq_true hin, Bool.true_and]
  · rw [Nat.min_eq_right (by omega), BitVec.msb_eq_getLsbD_last, BitVec.getLsbD_setWidth]
    simp

theorem isExact_zeroExtend (a : PartialWord) (bits : Nat) :
    (a.zeroExtend bits).IsExact (results₁ (fun x => (x.setWidth bits).setWidth 32) a) := by
  intro i hi
  have hbit := bit?_zeroExtend a bits hi
  have hf : ∀ x : BitVec 32, ((x.setWidth bits).setWidth 32).getLsbD i =
      if i < bits then x.getLsbD i else false := by
    intro x
    rw [BitVec.getLsbD_setWidth, BitVec.getLsbD_setWidth, decide_eq_true hi, Bool.true_and]
    by_cases hin : i < bits <;> simp [hin]
  by_cases hin : i < bits
  · rw [if_pos hin] at hbit
    exact exactBit_of_taken hi hbit fun x => (hf x).trans (if_pos hin)
  · rw [if_neg hin] at hbit
    exact exactBit_of_fixed hbit fun x => (hf x).trans (if_neg hin)

/-! ## Arithmetic -/

theorem lt_knownRun_iff {ws : List PartialWord} :
    i < knownRun ws ↔ i < 32 ∧ ∀ u ∈ ws, u.KnownUpTo i := by
  rw [knownRun, lt_length_takeWhile_range_iff]
  simp only [List.all_eq_true, KnownUpTo, isSome_bit?]
  exact and_congr_right fun _ => ⟨fun h u hu j hj => h j hj u hu, fun h j hj u hu => h u hu j hj⟩

/-- The known bits of a result that is cut down to what no carry from an
unknown bit can reach. -/
theorem isSome_of_carryMask (bits : BitVec 32) :
    ((of bits (carryMask a b)).bit? i).isSome = true ↔ a.KnownUpTo i ∧ b.KnownUpTo i := by
  rw [Option.isSome_iff_exists]
  simp only [bit?_of_carryMask]
  exact ⟨fun ⟨_, ha, hb, _⟩ => ⟨ha, hb⟩, fun ⟨ha, hb⟩ => ⟨_, ha, hb, rfl⟩⟩

theorem isLowEnd_of_carryMask (bits : BitVec 32) (results : BitVec 32 → Prop)
    (hmem : ∀ z, results z → z ∈ of bits (carryMask a b)) :
    (of bits (carryMask a b)).IsLowEnd [a, b] results where
  mem := hmem
  known i := by
    rw [isSome_of_carryMask, lt_knownRun_iff]
    simp only [List.mem_cons, List.not_mem_nil, or_false, forall_eq_or_imp, forall_eq]
    exact ⟨fun h => ⟨h.1.lt, h⟩, And.right⟩

theorem isLowEnd_add (a b : PartialWord) : (a + b).IsLowEnd [a, b] (results₂ (· + ·) a b) := by
  refine isLowEnd_of_carryMask _ _ ?_
  rintro z ⟨x, hx, y, hy, rfl⟩
  exact mem_add hx hy

theorem isLowEnd_sub (a b : PartialWord) : (a - b).IsLowEnd [a, b] (results₂ (· - ·) a b) := by
  refine isLowEnd_of_carryMask _ _ ?_
  rintro z ⟨x, hx, y, hy, rfl⟩
  exact mem_sub hx hy

theorem isLowEnd_mul (a b : PartialWord) : (a * b).IsLowEnd [a, b] (results₂ (· * ·) a b) := by
  refine isLowEnd_of_carryMask _ _ ?_
  rintro z ⟨x, hx, y, hy, rfl⟩
  exact mem_mul hx hy

theorem knownUpTo_not : (~~~a).KnownUpTo i ↔ a.KnownUpTo i := by
  have hbit : ∀ j, ((~~~a).bit? j).isSome = (a.bit? j).isSome := by
    intro j
    exact (congrArg Option.isSome (bit?_not a j)).trans Option.isSome_map
  simp only [KnownUpTo, hbit]

/-- Negation adds one to the complement, and one is known throughout. -/
theorem isSome_neg : ((-a).bit? i).isSome = true ↔ a.KnownUpTo i := by
  have hsum : ((-a).bit? i).isSome = true ↔ (~~~a).KnownUpTo i ∧ (concrete 1).KnownUpTo i :=
    isSome_of_carryMask _
  rw [hsum, knownUpTo_not]
  exact ⟨And.left, fun h => ⟨h, knownUpTo_concrete 1 h.lt⟩⟩

theorem isLowEnd_neg (a : PartialWord) : (-a).IsLowEnd [a] (results₁ (-·) a) where
  mem := by
    rintro z ⟨x, hx, rfl⟩
    exact mem_neg hx
  known i := by
    rw [isSome_neg, lt_knownRun_iff]
    simp only [List.mem_singleton, forall_eq]
    exact ⟨fun h => ⟨h.lt, h⟩, And.right⟩

/-! ## All operations -/

/-- **The operations are sound, and exact where bits do not depend on each
other.**  Of the results on all completions, the bitwise operations, the
shifts by any amount and the extensions from any width know exactly the bits
that they share; addition, subtraction, multiplication and negation hold them
all, and know exactly the low bits that are known in every operand. -/
theorem operations_exact (a b : PartialWord) (amount : BitVec 32) (bits : Nat) :
    ((a &&& b).IsExact (results₂ (· &&& ·) a b) ∧
      (a ||| b).IsExact (results₂ (· ||| ·) a b) ∧
      (a ^^^ b).IsExact (results₂ (· ^^^ ·) a b) ∧
      (~~~a).IsExact (results₁ (~~~·) a)) ∧
    ((a.shl amount).IsExact (results₁ (· <<< (amount.toNat % 32)) a) ∧
      (a.shr amount).IsExact (results₁ (·.sshiftRight (amount.toNat % 32)) a) ∧
      (a.shrUnsigned amount).IsExact (results₁ (· >>> (amount.toNat % 32)) a)) ∧
    ((a.signExtend (bits + 1)).IsExact
        (results₁ (fun x => (x.setWidth (bits + 1)).signExtend 32) a) ∧
      (a.zeroExtend (bits + 1)).IsExact
        (results₁ (fun x => (x.setWidth (bits + 1)).setWidth 32) a)) ∧
    (a + b).IsLowEnd [a, b] (results₂ (· + ·) a b) ∧
    (a - b).IsLowEnd [a, b] (results₂ (· - ·) a b) ∧
    (a * b).IsLowEnd [a, b] (results₂ (· * ·) a b) ∧
    (-a).IsLowEnd [a] (results₁ (-·) a) := by
  refine ⟨⟨?_, ?_, ?_, ?_⟩, ⟨?_, ?_, ?_⟩, ⟨?_, ?_⟩, ?_, ?_, ?_, ?_⟩
  · exact isExact_and a b
  · exact isExact_or a b
  · exact isExact_xor a b
  · exact isExact_not a
  · exact isExact_shl a amount
  · exact isExact_shr a amount
  · exact isExact_shrUnsigned a amount
  · exact isExact_signExtend a bits
  · exact isExact_zeroExtend a (bits + 1)
  · exact isLowEnd_add a b
  · exact isLowEnd_sub a b
  · exact isLowEnd_mul a b
  · exact isLowEnd_neg a

end PartialWord

end KeyLoop
