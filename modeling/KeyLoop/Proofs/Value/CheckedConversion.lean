/-
# Checked conversion of integers

`v.ReadsAs s n` says that `v` is an integer all of whose bits are known, and
that they make up the number `n` under a reading of the sign.  A checked
conversion of an integer is a matter of that number alone:

    there is none, or the target does not hold it   the unknown value
    the target holds it                             the same number again

In the second case the conversion that does not check gives the same value.
The source may be read without a sign and the target with one, so the two
agree for a reason that depends on the target: a narrow one keeps low bits,
which are those of the number in either reading (`ofInt_read`), and extends
them as its own sign wants it, which restores the number since it is in range
(`narrow_ofInt`).  A target of 64 bits extends the source instead, and then
the sign that counts is that of the source.
-/
import KeyLoop.Proofs.Value.Truncation
import KeyLoop.Value.Conversion
import Mathlib.Algebra.Ring.Int.Defs

namespace KeyLoop

/-! ## Numbers and their bits -/

namespace Signedness

variable {s : Signedness} {w v : Nat} {n : Int}

/-- The number that a word is. -/
def read (s : Signedness) (bits : BitVec w) : Int :=
  match s with
  | signed => bits.toInt
  | unsigned => bits.toNat

/-- The numbers that a word of `w` bits can be. -/
def Fits (s : Signedness) (w : Nat) (n : Int) : Prop :=
  match s with
  | signed => -2 ^ (w - 1) ≤ n ∧ n < 2 ^ (w - 1)
  | unsigned => 0 ≤ n ∧ n < 2 ^ w

instance (s : Signedness) (w : Nat) (n : Int) : Decidable (s.Fits w n) :=
  match s with
  | signed => inferInstanceAs (Decidable (_ ∧ _))
  | unsigned => inferInstanceAs (Decidable (_ ∧ _))

theorem read_ofInt (hw : 0 < w) (h : s.Fits w n) : s.read (BitVec.ofInt w n) = n := by
  cases s with
  | signed => exact BitVec.toInt_ofInt_eq_self hw h.1 h.2
  | unsigned =>
    obtain ⟨hleast, hgreatest⟩ := h
    have hmod : n % ((2 ^ w : Nat) : Int) = n := by
      apply Int.emod_eq_of_lt hleast
      rwa [Int.natCast_pow]
    show ((BitVec.ofInt w n).toNat : Int) = n
    rw [BitVec.toNat_ofInt, hmod, Int.toNat_of_nonneg hleast]

/-- The low bits of a word are those of its number, whatever the reading. -/
theorem ofInt_read (s : Signedness) (hv : v ≤ w) (bits : BitVec w) :
    BitVec.ofInt v (s.read bits) = bits.setWidth v := by
  cases s with
  | signed => exact BitVec.signExtend_eq_setWidth_of_le bits hv
  | unsigned => exact (BitVec.ofInt_natCast v bits.toNat).trans (BitVec.ofNat_toNat v bits)

theorem ofInt_read_self (s : Signedness) (bits : BitVec w) : BitVec.ofInt w (s.read bits) = bits := by
  rw [ofInt_read s (Nat.le_refl w), BitVec.setWidth_eq]

theorem Fits.mono (h : s.Fits w n) (hv : w ≤ v) : s.Fits v n := by
  have hpow : ∀ {i j : Nat}, i ≤ j → (2 : Int) ^ i ≤ 2 ^ j := by
    intro i j hij
    have hnat := Nat.pow_le_pow_right (n := 2) (by decide) hij
    exact_mod_cast hnat
  cases s with
  | signed =>
    have := hpow (Nat.sub_le_sub_right hv 1)
    exact ⟨by have := h.1; omega, Int.lt_of_lt_of_le h.2 this⟩
  | unsigned => exact ⟨h.1, Int.lt_of_lt_of_le h.2 (hpow hv)⟩

end Signedness

/-- A target holds the numbers that words of its width and its sign can be. -/
theorem IntType.holds_iff {t : IntType} {n : Int} :
    t.holds n = true ↔ t.signedness.Fits t.width n := by
  have hsigned : t.signedness = .signed →
      t.least = -2 ^ (t.width - 1) ∧ t.greatest + 1 = 2 ^ (t.width - 1) := by
    cases t <;> decide
  have hunsigned : t.signedness = .unsigned → t.least = 0 ∧ t.greatest + 1 = 2 ^ t.width := by
    cases t <;> decide
  unfold holds Signedness.Fits
  rw [Bool.and_eq_true, decide_eq_true_iff, decide_eq_true_iff, ← Int.lt_add_one_iff (b := t.greatest)]
  cases hs : t.signedness with
  | signed =>
    obtain ⟨hleast, hgreatest⟩ := hsigned hs
    rw [hleast, hgreatest]
  | unsigned =>
    obtain ⟨hleast, hgreatest⟩ := hunsigned hs
    rw [hleast, hgreatest]

namespace PartialWord

variable {n : Nat}

theorem signExtend_concrete (hn : 0 < n) (x : BitVec 32) :
    (concrete x).signExtend n = concrete ((x.setWidth n).signExtend 32) := by
  refine eq_concrete fun i hi => ?_
  rw [bit?_signExtend _ hn hi, bit?_concrete x (by omega), BitVec.getLsbD_signExtend,
    decide_eq_true hi, Bool.true_and]
  split
  · rename_i hin
    rw [Nat.min_eq_left (by omega), BitVec.getLsbD_setWidth, decide_eq_true hin, Bool.true_and]
  · rw [Nat.min_eq_right (by omega), BitVec.msb_eq_getLsbD_last, BitVec.getLsbD_setWidth,
      decide_eq_true (by omega), Bool.true_and]

theorem zeroExtend_concrete (x : BitVec 32) :
    (concrete x).zeroExtend n = concrete ((x.setWidth n).setWidth 32) := by
  refine eq_concrete fun i hi => ?_
  rw [bit?_zeroExtend _ n hi, bit?_concrete x hi, BitVec.getLsbD_setWidth, BitVec.getLsbD_setWidth,
    decide_eq_true hi, Bool.true_and]
  split
  · rename_i hin
    rw [decide_eq_true hin, Bool.true_and]
  · rename_i hin
    rw [decide_eq_false hin, Bool.false_and]

/-- Cutting a number down to a width at which it fits changes nothing. -/
theorem narrow_ofInt {s : Signedness} {k : Int} (hpos : 0 < n) (hn : n ≤ 32) (h : s.Fits n k) :
    (concrete (BitVec.ofInt 32 k)).narrow n (s = .signed) = concrete (BitVec.ofInt 32 k) := by
  have hlow : (BitVec.ofInt 32 k).setWidth n = BitVec.ofInt n k := by
    rw [← Signedness.ofInt_read s hn, Signedness.read_ofInt (by decide) (h.mono hn)]
  have hread := Signedness.read_ofInt hpos h
  cases s with
  | signed =>
    show (concrete (BitVec.ofInt 32 k)).signExtend n = _
    rw [signExtend_concrete hpos, hlow]
    exact congrArg (fun k => concrete (BitVec.ofInt 32 k)) hread
  | unsigned =>
    show (concrete (BitVec.ofInt 32 k)).zeroExtend n = _
    rw [zeroExtend_concrete, hlow, ← BitVec.ofNat_toNat, ← BitVec.ofInt_natCast]
    exact congrArg (fun k => concrete (BitVec.ofInt 32 k)) hread

end PartialWord

/-! ## Conversions -/

/-- The value is an integer all of whose bits are known, and the number `n`
when its sign is read so. -/
inductive Value.ReadsAs (s : Signedness) : Value → Int → Prop
  | word {bits : BitVec 32} {n : Int} : s.read bits = n → ReadsAs s (.ofBits bits) n
  | wide {bits : BitVec 64} {n : Int} : s.read bits = n → ReadsAs s (.int64 bits) n

namespace Conversion

variable {t : IntType} {s : Signedness} {v : Value} {n : Int}

theorem source?_eq_some_iff (hv : v.kind ≠ .float) : source? s v = some n ↔ v.ReadsAs s n := by
  cases v with
  | int32 w =>
    have hsource : source? s (.int32 w) = w.toBits?.map s.read := by cases s <;> rfl
    rw [hsource, Option.map_eq_some_iff]
    constructor
    · rintro ⟨bits, hw, hread⟩
      obtain rfl := PartialWord.toBits?_eq_some_iff.mp hw
      exact .word hread
    · intro h
      cases h with
      | word hread => exact ⟨_, PartialWord.toBits?_concrete _, hread⟩
  | int64 bits =>
    have hsource : source? s (.int64 bits) = some (s.read bits) := by cases s <;> rfl
    rw [hsource, Option.some_inj]
    constructor
    · exact .wide
    · intro h
      cases h with
      | wide hread => exact hread
  | float number => exact absurd rfl hv
  | unknown => exact ⟨nofun, nofun⟩

/-- An unchecked conversion to a narrow type cuts the word down to its width. -/
theorem wordToInteger_of_narrow (ht : t.width ≠ 64) (w : PartialWord) :
    wordToInteger t w = .int32 (w.narrow t.width (t.signedness = .signed)) := by
  cases t <;> first | rfl | exact absurd rfl ht

/-- The narrow targets see of an integer the low bits of its number. -/
theorem convert_integer_of_narrow (ht : t.width ≠ 64) (h : v.ReadsAs s n) :
    v.convert (.integer t) =
      .int32 ((PartialWord.concrete (BitVec.ofInt 32 n)).narrow t.width (t.signedness = .signed)) := by
  rw [← wordToInteger_of_narrow ht]
  cases h with
  | word hread =>
    rw [← hread, Signedness.ofInt_read_self]
    rfl
  | wide hread =>
    rw [← hread, Signedness.ofInt_read s (by decide)]
    exact if_neg ht

/-- To 64 bits a word is extended as the target is signed. -/
theorem convert_integer_ofBits (ht : t.width = 64) (bits : BitVec 32) :
    (Value.ofBits bits).convert (.integer t) =
      .int64 (if t.signedness = .signed then bits.signExtend 64 else bits.zeroExtend 64) := by
  have hbits := PartialWord.toBits?_concrete bits
  show wordToInteger t (.concrete bits) = _
  unfold wordToInteger
  rw [hbits]
  cases t <;> first | rfl | cases ht

/-- A word without its sign bit is extended alike in both readings. -/
theorem zeroExtend_eq_ofInt {bits : BitVec 32} (h : 0 ≤ bits.toInt) :
    bits.zeroExtend 64 = BitVec.ofInt 64 bits.toInt := by
  have hnat : bits.toInt = (bits.toNat : Int) := by
    have hlt := bits.isLt
    rw [BitVec.toInt_eq_toNat_cond] at h ⊢
    split at h
    · rename_i hsmall
      exact if_pos hsmall
    · omega
  rw [hnat, BitVec.ofInt_natCast, BitVec.ofNat_toNat]

/-- To 64 bits an integer is extended by the sign that it is read with; where
the target holds no negative numbers, a sign is not there to be repeated. -/
theorem convert_integer_of_wide (ht : t.width = 64) (h : v.ReadsAs s n)
    (hn : t.signedness.Fits t.width n) :
    v.convert (.integer (if s = .unsigned then .u8 else t)) = .int64 (BitVec.ofInt 64 n) := by
  cases h with
  | @word bits _ hread =>
    subst hread
    cases s with
    | signed =>
      rw [if_neg (by decide), convert_integer_ofBits ht]
      cases hsign : t.signedness with
      | signed => rfl
      | unsigned =>
        rw [hsign] at hn
        exact congrArg Value.int64 (zeroExtend_eq_ofInt hn.1)
    | unsigned =>
      rw [if_pos rfl, convert_integer_ofBits rfl]
      exact congrArg Value.int64
        ((BitVec.ofInt_natCast 64 bits.toNat).trans (BitVec.ofNat_toNat 64 bits)).symm
  | wide hread =>
    rw [← hread, Signedness.ofInt_read_self]
    cases s with
    | signed => exact if_pos ht
    | unsigned => rfl

/-- A target reads back the numbers that it holds. -/
theorem readsAs_embed (hn : t.signedness.Fits t.width n) :
    (embed t n).ReadsAs t.signedness n := by
  unfold embed
  by_cases ht : t.width = 64
  · rw [ht] at hn
    rw [if_pos ht]
    exact .wide (Signedness.read_ofInt (by decide) hn)
  · have hle : t.width ≤ 32 := by cases t <;> first | decide | exact absurd rfl ht
    rw [if_neg ht]
    exact .word (Signedness.read_ofInt (by decide) (hn.mono hle))

theorem convert_integer_eq_embed (h : v.ReadsAs s n) (hn : t.signedness.Fits t.width n) :
    v.convert (.integer (if t.width = 64 ∧ s = .unsigned then .u8 else t)) = embed t n := by
  unfold embed
  by_cases ht : t.width = 64
  · rw [if_pos ht, ← convert_integer_of_wide ht h hn]
    simp only [ht, true_and]
  · have hle : 0 < t.width ∧ t.width ≤ 32 := by cases t <;> first | decide | exact absurd rfl ht
    rw [if_neg ht, if_neg fun h => ht h.1, convert_integer_of_narrow ht h,
      PartialWord.narrow_ofInt hle.1 hle.2 hn]
    rfl

theorem convert_checked (hv : v.kind ≠ .float) : v.convert (.checked t s) = onChecked t s v := by
  cases v with
  | float number => exact absurd rfl hv
  | _ => rfl

end Conversion

namespace Value

variable {v : Value} {t : IntType} {s : Signedness} {n : Int}

theorem ReadsAs.kind_ne_float (h : v.ReadsAs s n) : v.kind ≠ .float := by
  cases h <;> nofun

/-- A value is one number at most. -/
theorem ReadsAs.unique {m : Int} (hn : v.ReadsAs s n) (hm : v.ReadsAs s m) : n = m := by
  have hsource := (Conversion.source?_eq_some_iff hn.kind_ne_float).mpr hn
  rw [(Conversion.source?_eq_some_iff hn.kind_ne_float).mpr hm] at hsource
  exact (Option.some.inj hsource).symm

theorem exists_readsAs_iff (hv : v.kind ≠ .float) :
    (∃ n, v.ReadsAs s n) ↔ v.isConcrete = true := by
  constructor
  · rintro ⟨n, h⟩
    cases h with
    | word hread => exact beq_self_eq_true _
    | wide hread => rfl
  · intro h
    cases v with
    | int32 w =>
      have hw : w = .concrete w.value := PartialWord.toBits?_eq_some_iff.mp (if_pos h)
      rw [hw]
      exact ⟨_, .word rfl⟩
    | int64 bits => exact ⟨_, .wide rfl⟩
    | float number => exact absurd rfl hv
    | unknown => cases h

theorem convert_checked_of_fits (h : v.ReadsAs s n) (hn : t.signedness.Fits t.width n) :
    v.convert (.checked t s) = Conversion.embed t n := by
  rw [Conversion.convert_checked h.kind_ne_float]
  unfold Conversion.onChecked
  rw [(Conversion.source?_eq_some_iff h.kind_ne_float).mpr h]
  exact if_pos (IntType.holds_iff.mpr hn)

theorem convert_checked_of_not_fits (hv : v.kind ≠ .float)
    (h : ∀ n, v.ReadsAs s n → ¬ t.signedness.Fits t.width n) :
    v.convert (.checked t s) = unknown := by
  rw [Conversion.convert_checked hv]
  unfold Conversion.onChecked
  cases hn : Conversion.source? s v with
  | none => rfl
  | some n =>
    refine if_neg fun hfits => ?_
    exact h n ((Conversion.source?_eq_some_iff hv).mp hn) (IntType.holds_iff.mp hfits)

/-- **Checked conversions of integers are exact**: the source is a number just
when all of it is known, the result is unknown unless there is one that the
target holds, and otherwise it is that number in the target.  The unchecked
conversion gives the same; to 64 bits, the one without a sign when the source
is read without. -/
theorem convert_checked_exact (hv : v.kind ≠ .float) (t : IntType) (s : Signedness) :
    ((∃ n, v.ReadsAs s n) ↔ v.isConcrete = true) ∧
      (v.convert (.checked t s) = unknown ↔
        ∀ n, v.ReadsAs s n → ¬ t.signedness.Fits t.width n) ∧
      ∀ n, v.ReadsAs s n → t.signedness.Fits t.width n →
        (v.convert (.checked t s)).ReadsAs t.signedness n ∧
          (v.convert (.checked t s)).kind = (if t.width = 64 then .int64 else .int32) ∧
          v.convert (.checked t s) =
            v.convert (.integer (if t.width = 64 ∧ s = .unsigned then .u8 else t)) := by
  refine ⟨exists_readsAs_iff hv, ⟨?_, convert_checked_of_not_fits hv⟩, fun n h hn => ?_⟩
  · intro hunknown n h hn
    have hresult := Conversion.readsAs_embed hn
    rw [← convert_checked_of_fits h hn, hunknown] at hresult
    cases hresult
  · rw [convert_checked_of_fits h hn, Conversion.convert_integer_eq_embed h hn]
    refine ⟨Conversion.readsAs_embed hn, ?_, rfl⟩
    unfold Conversion.embed
    split <;> rfl

/-- The word with all bits set, read without its sign: too large for a signed
word, and held by the unsigned one. -/
theorem convert_checked_exact_all_ones :
    let v := ofBits 0xFFFFFFFF#32
    v.kind ≠ .float ∧ v.ReadsAs .unsigned 4294967295 ∧
      IntType.u4.signedness.Fits IntType.u4.width 4294967295 ∧
      v.convert (.checked .i4 .unsigned) = unknown ∧
      (v.convert (.checked .u4 .unsigned)).ReadsAs .unsigned 4294967295 ∧
      v.convert (.checked .u4 .unsigned) = v.convert (.integer .u4) := by
  intro v
  have hword : v.ReadsAs .unsigned 4294967295 := .word rfl
  have hfits : IntType.u4.signedness.Fits IntType.u4.width 4294967295 := by decide
  obtain ⟨-, hunknown, -⟩ := convert_checked_exact (v := v) (by decide) .i4 .unsigned
  obtain ⟨-, -, hexact⟩ := convert_checked_exact (v := v) (by decide) .u4 .unsigned
  obtain ⟨hresult, -, hsame⟩ := hexact _ hword hfits
  refine ⟨by decide, hword, hfits, hunknown.mpr fun n hn => ?_, hresult, hsame⟩
  rw [hn.unique hword]
  decide

end Value

end KeyLoop
