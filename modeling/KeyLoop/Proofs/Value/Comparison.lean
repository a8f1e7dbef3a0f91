/-
# Comparison of integers

`op.Holds x y` says of two words of one width what a comparison asks of them
as numbers, signed or unsigned.  A comparison of integers is right against it
in every reading that makes sense:

    two words, both whole        as numbers of 32 bits
    integers of any width        as numbers of 64 bits, the sign repeated
    two words of any knowledge   on all their completions

The first two readings agree since repeating the sign keeps all the orders
(`holds_signExtend`).  For the unsigned order that takes a thought: the words
with the sign bit set are the upper ones before and after, and keep their
distances.

Partial knowledge decides one comparison only.  Two words are known to differ
when some bit tells them apart, and if none does they have a completion in
common (`disagrees_iff`), so nothing more could be said of their equality.
-/
import KeyLoop.Proofs.PartialWord.Exactness
import KeyLoop.Proofs.Value.Covers

namespace KeyLoop

/-! ## Comparison of numbers -/

namespace CompareOp

/-- The comparison holds of two words as numbers. -/
def Holds {w : Nat} (op : CompareOp) (x y : BitVec w) : Prop :=
  match op with
  | eq => x = y
  | gt .signed => y.toInt < x.toInt
  | gt .unsigned => y.toNat < x.toNat
  | lt .signed => x.toInt < y.toInt
  | lt .unsigned => x.toNat < y.toNat

/-- The comparison with its operands the other way round. -/
def swap : CompareOp → CompareOp
  | eq => eq
  | gt s => lt s
  | lt s => gt s

variable {w : Nat} {op : CompareOp}

theorem onBits_iff {x y : BitVec w} : op.onBits x y = true ↔ op.Holds x y := by
  match op with
  | eq => exact beq_iff_eq
  | gt .signed => exact BitVec.slt_iff_toInt_lt
  | gt .unsigned => exact BitVec.ult_iff_lt
  | lt .signed => exact BitVec.slt_iff_toInt_lt
  | lt .unsigned => exact BitVec.ult_iff_lt

instance (op : CompareOp) (x y : BitVec w) : Decidable (op.Holds x y) :=
  decidable_of_iff _ onBits_iff

theorem onBits_eq_decide (op : CompareOp) (x y : BitVec w) :
    op.onBits x y = decide (op.Holds x y) := by
  rw [Bool.eq_iff_iff, onBits_iff, decide_eq_true_iff]

theorem holds_swap {x y : BitVec w} : op.swap.Holds y x ↔ op.Holds x y := by
  match op with
  | eq => exact eq_comm
  | gt .signed => exact Iff.rfl
  | gt .unsigned => exact Iff.rfl
  | lt .signed => exact Iff.rfl
  | lt .unsigned => exact Iff.rfl

theorem toNat_signExtend_lt_iff (x y : BitVec 32) :
    (x.signExtend 64).toNat < (y.signExtend 64).toNat ↔ x.toNat < y.toNat := by
  have hx := x.isLt
  have hy := y.isLt
  rw [BitVec.toNat_signExtend, BitVec.toNat_signExtend, BitVec.toNat_setWidth, BitVec.toNat_setWidth,
    BitVec.msb_eq_decide, BitVec.msb_eq_decide, Nat.mod_eq_of_lt (by omega),
    Nat.mod_eq_of_lt (by omega)]
  simp only [decide_eq_true_eq]
  split <;> split <;> omega

/-- Repeating the sign keeps equality and all the orders, the unsigned one as well. -/
theorem holds_signExtend (op : CompareOp) (x y : BitVec 32) :
    op.Holds (x.signExtend 64) (y.signExtend 64) ↔ op.Holds x y := by
  have hsigned : ∀ z : BitVec 32, (z.signExtend 64).toInt = z.toInt :=
    fun z => BitVec.toInt_signExtend_of_le (by decide)
  match op with
  | eq =>
    show x.signExtend 64 = y.signExtend 64 ↔ x = y
    rw [← BitVec.toInt_inj, ← BitVec.toInt_inj, hsigned, hsigned]
  | gt .signed =>
    show (y.signExtend 64).toInt < (x.signExtend 64).toInt ↔ y.toInt < x.toInt
    rw [hsigned, hsigned]
  | gt .unsigned => exact toNat_signExtend_lt_iff y x
  | lt .signed =>
    show (x.signExtend 64).toInt < (y.signExtend 64).toInt ↔ x.toInt < y.toInt
    rw [hsigned, hsigned]
  | lt .unsigned => exact toNat_signExtend_lt_iff x y

end CompareOp

/-! ## Words that have no completion in common -/

namespace PartialWord

variable {u v : PartialWord}

/-- Where no bit tells two words apart, the bits of both together complete them. -/
theorem exists_mem_of_not_disagrees (h : ¬ u.disagrees v = true) : ∃ x, x ∈ u ∧ x ∈ v := by
  have hagree : ∀ i a b, u.bit? i = some a → v.bit? i = some b → b = a := by
    intro i a b ha hb
    cases hab : (b == !a) with
    | true => exact absurd (disagrees_iff.mpr ⟨i, a, ha, by rw [hb, beq_iff_eq.mp hab]⟩) h
    | false => cases a <;> cases b <;> first | rfl | cases hab
  refine ⟨u.value ||| v.value, mem_iff_getLsbD.mpr fun i a ha => ?_,
    mem_iff_getLsbD.mpr fun i b hb => ?_⟩
  · rw [BitVec.getLsbD_or, getLsbD_value, getLsbD_value, ha]
    cases hb : v.bit? i with
    | none => exact Bool.or_false a
    | some b =>
      obtain rfl := hagree i a b ha hb
      exact Bool.or_self b
  · rw [BitVec.getLsbD_or, getLsbD_value, getLsbD_value, hb]
    cases ha : u.bit? i with
    | none => exact Bool.false_or b
    | some a =>
      obtain rfl := hagree i a b ha hb
      exact Bool.or_self b

/-- Some bit tells two words apart exactly when no completions of them are equal. -/
theorem disagrees_iff_forall_ne : u.disagrees v = true ↔ ∀ x ∈ u, ∀ y ∈ v, x ≠ y := by
  constructor
  · intro h x hx y hy hxy
    obtain ⟨i, a, hu, hv⟩ := disagrees_iff.mp h
    have hx' := mem_iff_getLsbD.mp hx i a hu
    have hy' := mem_iff_getLsbD.mp hy i (!a) hv
    rw [← hxy, hx'] at hy'
    cases a <;> cases hy'
  · intro h
    apply Classical.byContradiction
    intro hnot
    obtain ⟨x, hu, hv⟩ := exists_mem_of_not_disagrees hnot
    exact h x hu x hv rfl

/-- Zero or one, with what is known of which of them it is. -/
def truth (known : Option Bool) : PartialWord :=
  known.elim anyFlag fun r => concrete (if r then 1 else 0)

theorem bit?_truth_zero (known : Option Bool) : (truth known).bit? 0 = known := by
  rcases known with _ | _ | _ <;> decide

theorem bit?_truth (known : Option Bool) : ∀ i < 32, 1 ≤ i → (truth known).bit? i = some false := by
  rcases known with _ | _ | _ <;> decide

end PartialWord

/-! ## Comparison of values -/

namespace Value

variable {op : CompareOp} {a b : Value} {r : Bool}

theorem compare_eq_truth (a : Value) (op : CompareOp) (b : Value) :
    a.compare op b = int32 (.truth (a.compare? op b)) := by
  unfold Value.compare
  cases a.compare? op b <;> rfl

theorem widened?_of_toBits? {x : BitVec 32} (h : a.toBits? = some x) :
    a.widened? = some (x.signExtend 64) := by
  cases a with
  | int32 u => exact congrArg (Option.map (·.signExtend 64)) h
  | int64 bits => cases h
  | float number => cases h
  | unknown => cases h

/-- Whole words are compared alike before and after the sign is repeated. -/
theorem exists_toBits?_iff {u v : PartialWord} :
    (∃ x y, u.toBits? = some x ∧ v.toBits? = some y ∧ op.onBits x y = r) ↔
      ∃ x y, (int32 u).widened? = some x ∧ (int32 v).widened? = some y ∧ op.onBits x y = r := by
  have hwide : ∀ x y : BitVec 32, op.onBits (x.signExtend 64) (y.signExtend 64) = op.onBits x y := by
    intro x y
    rw [Bool.eq_iff_iff, CompareOp.onBits_iff, CompareOp.onBits_iff, CompareOp.holds_signExtend]
  constructor
  · rintro ⟨x, y, hx, hy, rfl⟩
    exact ⟨_, _, widened?_of_toBits? (a := int32 u) hx, widened?_of_toBits? (a := int32 v) hy,
      hwide x y⟩
  · rintro ⟨_, _, hx, hy, rfl⟩
    obtain ⟨x, hu, rfl⟩ := Option.map_eq_some_iff.mp hx
    obtain ⟨y, hv, rfl⟩ := Option.map_eq_some_iff.mp hy
    exact ⟨x, y, hu, hv, (hwide x y).symm⟩

/-- **When a comparison of integers is decided**: both are whole, or they are
two words that have to differ. -/
theorem compare?_eq_some_iff (ha : a.kind ≠ .float) (hb : b.kind ≠ .float) :
    a.compare? op b = some r ↔
      (∃ x y, a.widened? = some x ∧ b.widened? = some y ∧ op.onBits x y = r) ∨
        op = .eq ∧ r = false ∧ ∃ u v, a = int32 u ∧ b = int32 v ∧ ∀ x ∈ u, ∀ y ∈ v, x ≠ y := by
  have hwide : (∀ u v, ¬ (a = int32 u ∧ b = int32 v)) → a.compare? op b = op.onWide? a b := by
    intro hwords
    cases a with
    | int32 u =>
      cases b with
      | int32 v => exact absurd ⟨rfl, rfl⟩ (hwords u v)
      | _ => rfl
    | float number => exact absurd rfl ha
    | _ => cases b <;> rfl
  by_cases hwords : ∃ u v, a = int32 u ∧ b = int32 v
  · obtain ⟨u, v, rfl, rfl⟩ := hwords
    show op.onWords? u v = some r ↔ _
    rw [CompareOp.onWords?_eq_some_iff, exists_toBits?_iff]
    refine or_congr Iff.rfl ⟨?_, ?_⟩
    · rintro ⟨hop, hdisagree, hr⟩
      exact ⟨hop, hr, u, v, rfl, rfl, PartialWord.disagrees_iff_forall_ne.mp hdisagree⟩
    · rintro ⟨hop, hr, _, _, ⟨⟩, ⟨⟩, hne⟩
      exact ⟨hop, PartialWord.disagrees_iff_forall_ne.mpr hne, hr⟩
  · rw [hwide fun u v h => hwords ⟨u, v, h⟩, CompareOp.onWide?_eq_some_iff]
    constructor
    · exact .inl
    · rintro (h | ⟨-, -, u, v, hu, hv, -⟩)
      · exact h
      · exact absurd ⟨u, v, hu, hv⟩ hwords

theorem compare?_swap_of_eq_some (ha : a.kind ≠ .float) (hb : b.kind ≠ .float)
    (h : a.compare? op b = some r) : b.compare? op.swap a = some r := by
  rw [compare?_eq_some_iff ha hb] at h
  rw [compare?_eq_some_iff hb ha]
  obtain ⟨x, y, hx, hy, hr⟩ | ⟨rfl, hr, u, v, hu, hv, hne⟩ := h
  · refine .inl ⟨y, x, hy, hx, ?_⟩
    rw [← hr, Bool.eq_iff_iff, CompareOp.onBits_iff, CompareOp.onBits_iff, CompareOp.holds_swap]
  · exact .inr ⟨rfl, hr, v, u, hv, hu, fun y hy x hx => (hne x hx y hy).symm⟩

/-- Integers are compared alike from either side. -/
theorem compare_swap (ha : a.kind ≠ .float) (hb : b.kind ≠ .float) (op : CompareOp) :
    a.compare op b = b.compare op.swap a := by
  have hback : ∀ r, b.compare? op.swap a = some r → a.compare? op b = some r := by
    intro r h
    have hswap : op.swap.swap = op := by cases op <;> rfl
    rw [← hswap]
    exact compare?_swap_of_eq_some hb ha h
  have hsame : a.compare? op b = b.compare? op.swap a :=
    Option.ext fun r => ⟨compare?_swap_of_eq_some ha hb, hback r⟩
  rw [compare_eq_truth, compare_eq_truth, hsame]

end Value

/-- What the word that a comparison of integers pushes says of its outcome. -/
structure CompareOp.Reports (op : CompareOp) (a b : Value) (w : PartialWord) : Prop where
  /-- It is zero or one. -/
  upper : ∀ i < 32, 1 ≤ i → w.bit? i = some false
  /-- Two whole words are compared as numbers of 32 bits. -/
  words : ∀ x y, a.toBits? = some x → b.toBits? = some y → w.bit? 0 = some (decide (op.Holds x y))
  /-- Whole integers of any width are compared as numbers of 64 bits. -/
  wide : ∀ x y, a.widened? = some x → b.widened? = some y →
    w.bit? 0 = some (decide (op.Holds x y))
  /-- A decided comparison of words has the same outcome for all their completions. -/
  completions : ∀ u v r, a = .int32 u → b = .int32 v → w.bit? 0 = some r →
    ∀ x ∈ u, ∀ y ∈ v, decide (op.Holds x y) = r
  /-- Words are known to differ exactly when no completions of them are equal. -/
  different : ∀ u v, op = eq → a = .int32 u → b = .int32 v →
    (w.bit? 0 = some false ↔ ∀ x ∈ u, ∀ y ∈ v, x ≠ y)
  /-- Without two whole integers, only words are decided, and only to differ. -/
  decided : ∀ r, w.bit? 0 = some r →
    (∃ x y, a.widened? = some x ∧ b.widened? = some y) ∨
      op = eq ∧ r = false ∧ ∃ u v, a = .int32 u ∧ b = .int32 v

namespace Value

variable {op : CompareOp} {a b : Value}

theorem reports_truth (ha : a.kind ≠ .float) (hb : b.kind ≠ .float) :
    op.Reports a b (.truth (a.compare? op b)) := by
  have hiff : ∀ r, a.compare? op b = some r ↔ _ := fun r => compare?_eq_some_iff ha hb
  have hwide : ∀ x y, a.widened? = some x → b.widened? = some y →
      a.compare? op b = some (decide (op.Holds x y)) := by
    intro x y hx hy
    exact (hiff _).mpr (.inl ⟨x, y, hx, hy, op.onBits_eq_decide x y⟩)
  have hcompletions : ∀ u v r, a = .int32 u → b = .int32 v → a.compare? op b = some r →
      ∀ x ∈ u, ∀ y ∈ v, decide (op.Holds x y) = r := by
    rintro u v r rfl rfl hr x hx y hy
    obtain h | ⟨rfl, rfl, _, _, ⟨⟩, ⟨⟩, hne⟩ := (hiff r).mp hr
    · obtain ⟨p, q, hp, hq, rfl⟩ := exists_toBits?_iff.mpr h
      rw [PartialWord.toBits?_eq_some_iff] at hp hq
      subst hp hq
      rw [PartialWord.mem_concrete_iff.mp hx, PartialWord.mem_concrete_iff.mp hy]
      exact (op.onBits_eq_decide p q).symm
    · exact decide_eq_false (hne x hx y hy)
  refine ⟨PartialWord.bit?_truth _, ?_, ?_, ?_, ?_, ?_⟩
  · intro x y hx hy
    rw [PartialWord.bit?_truth_zero, hwide _ _ (widened?_of_toBits? hx) (widened?_of_toBits? hy),
      decide_eq_decide.mpr (op.holds_signExtend x y)]
  · intro x y hx hy
    rw [PartialWord.bit?_truth_zero, hwide x y hx hy]
  · intro u v r hu hv hr
    rw [PartialWord.bit?_truth_zero] at hr
    exact hcompletions u v r hu hv hr
  · rintro u v rfl hu hv
    rw [PartialWord.bit?_truth_zero]
    constructor
    · intro hfalse x hx y hy
      show ¬ CompareOp.eq.Holds x y
      exact of_decide_eq_false (hcompletions u v false hu hv hfalse x hx y hy)
    · intro hne
      exact (hiff false).mpr (.inr ⟨rfl, rfl, u, v, hu, hv, hne⟩)
  · intro r hr
    rw [PartialWord.bit?_truth_zero] at hr
    obtain ⟨x, y, hx, hy, -⟩ | ⟨hop, hfalse, u, v, hu, hv, -⟩ := (hiff r).mp hr
    · exact .inl ⟨x, y, hx, hy⟩
    · exact .inr ⟨hop, hfalse, u, v, hu, hv⟩

/-- **Comparisons of integers are right and say no more than is known**: the
word pushed is zero or one, its lowest bit is known where the comparison is
decided and then as the numbers compare, and the operands may change sides. -/
theorem compare_reports (ha : a.kind ≠ .float) (hb : b.kind ≠ .float) (op : CompareOp) :
    (∃ w, a.compare op b = int32 w ∧ op.Reports a b w) ∧
      a.compare op b = b.compare op.swap a :=
  ⟨⟨_, compare_eq_truth a op b, reports_truth ha hb⟩, compare_swap ha hb op⟩

/-- A negative word against a long integer in the unsigned order, and two words
that are not whole but have to differ. -/
theorem compare_reports_sign_and_parts :
    let a := ofBits 0xFFFFFFFF#32
    let b := int64 0x00000000FFFFFFFF#64
    let c := int32 (.of 0x00000004#32 0x00000006#32)
    let d := int32 (.of 0x00000002#32 0x00000003#32)
    (a.kind ≠ .float ∧ b.kind ≠ .float ∧ a.compare (.gt .unsigned) b = flag true ∧
        (∃ w, a.compare (.gt .unsigned) b = int32 w ∧ (CompareOp.gt .unsigned).Reports a b w) ∧
        a.compare (.gt .unsigned) b = b.compare (.lt .unsigned) a) ∧
      (c.kind ≠ .float ∧ d.kind ≠ .float ∧ c.compare .eq d = flag false ∧
        (∃ w, c.compare .eq d = int32 w ∧ CompareOp.eq.Reports c d w) ∧
        c.compare .eq d = d.compare .eq c) :=
  ⟨⟨by decide, by decide, by decide, compare_reports (by decide) (by decide) (.gt .unsigned)⟩,
    ⟨by decide, by decide, by decide, compare_reports (by decide) (by decide) .eq⟩⟩

end Value

end KeyLoop
