/-
# What a store can leave in a slot

A store cuts a value down to the flavor of its slot, and what it leaves there
has the shape of the flavor, whatever value came in:

    boolean, char, u1, u2    a word with zeros from the width on
    i1, i2                   a word that repeats its sign bit from the width on,
                             be that bit known or not
    i4, u4                   no integer of 64 bits
    i8, u8, i, u             no integer of 32 bits

A slot that was never stored to can also hold the unknown value, of any
flavor (`Flavor.Admits`).  Storing what a slot holds already changes nothing
(`coerce_coerce`).  Single-precision slots are left out of this: they round,
and about rounding a number twice floats give no equation.
-/
import KeyLoop.Proofs.Value.Truncation

namespace KeyLoop

/-! ## Narrow words -/

namespace PartialWord

variable {n : Nat} {signed : Bool} {w : PartialWord}

/-- The bits from `n` on are zeros, or what is known of them is what is known
of the bit right below. -/
def ExtendedFrom (n : Nat) (signed : Bool) (w : PartialWord) : Prop :=
  ∀ i, n ≤ i → i < 32 → w.bit? i = if signed then w.bit? (n - 1) else some false

theorem extendedFrom_narrow (hpos : 0 < n) (signed : Bool) (w : PartialWord) :
    (w.narrow n signed).ExtendedFrom n signed := by
  intro i hle hlt
  cases signed with
  | false => exact (bit?_zeroExtend w n hlt).trans (if_neg (Nat.not_lt.mpr hle))
  | true =>
    show (w.signExtend n).bit? i = (w.signExtend n).bit? (n - 1)
    rw [bit?_signExtend w hpos hlt, bit?_signExtend w hpos (by omega), Nat.min_eq_right (by omega),
      Nat.min_self]

/-- What is narrow already stays as it is. -/
theorem narrow_narrow (hpos : 0 < n) (hn : n ≤ 32) (signed : Bool) (w : PartialWord) :
    (w.narrow n signed).narrow n signed = w.narrow n signed :=
  narrow_congr hpos signed (sameBelow_narrow hpos hn signed w)

end PartialWord

/-! ## The shapes of the flavors -/

namespace Flavor

/-- The slot is narrower than a 32-bit word. -/
def isNarrow : Flavor → Bool
  | boolean | char | i1 | u1 | i2 | u2 => true
  | _ => false

/-- Nothing is known of the value, or it is a word that is extended from bit `n` on. -/
def AdmitsNarrow (n : Nat) (signed : Bool) (v : Value) : Prop :=
  v = .unknown ∨ ∃ w : PartialWord, v = .int32 w ∧ w.ExtendedFrom n signed

/-- A slot of this flavor can hold the value. -/
def Admits (f : Flavor) (v : Value) : Prop :=
  match f with
  | boolean | u1 => AdmitsNarrow 8 false v
  | char | u2 => AdmitsNarrow 16 false v
  | i1 => AdmitsNarrow 8 true v
  | i2 => AdmitsNarrow 16 true v
  | i4 | u4 => v.kind ≠ .int64
  | i8 | u8 | i | u => v.kind ≠ .int32
  | r4 | r8 | object | valueType => True

/-- A store to a slot of this flavor leaves the value as it is, and has left
it there. -/
structure Settles (f : Flavor) (v : Value) : Prop where
  known : f.isNarrow = true → v ≠ .unknown
  fixed : f ≠ .r4 → v.coerce f = v

/-- A narrow slot has a width, which is one of its 32 bits. -/
theorem intBits?_of_isNarrow {f : Flavor} (hf : f.isNarrow = true) :
    ∃ n, f.intBits? = some n ∧ 0 < n ∧ n < 32 ∧ f.isInt32 = true := by
  cases f <;> first | exact ⟨_, rfl, by decide, by decide, rfl⟩ | cases hf

end Flavor

/-! ## What a store leaves -/

namespace Value

variable {f : Flavor}

/-- A narrow slot sees a float as a whole number of 32 bits. -/
theorem exists_coerce_float (hf : f.isNarrow = true) (x : Float) :
    ∃ bits, (float x).coerce f = (ofBits bits).coerce f := by
  cases f with
  | i1 | i2 => exact ⟨signedOfFloat 32 x, rfl⟩
  | boolean | char | u1 | u2 => exact ⟨unsignedOfFloat 32 IntType.i8.greatest x, rfl⟩
  | _ => cases hf

/-- A narrow slot makes a narrow word of every value, also of one of which
nothing is known. -/
theorem exists_coerce_eq_narrow {n : Nat} (hf : f.isNarrow = true) (hn : f.intBits? = some n)
    (v : Value) : ∃ w : PartialWord, v.coerce f = int32 (w.narrow n f.isSigned) := by
  obtain ⟨-, -, -, -, h32⟩ := Flavor.intBits?_of_isNarrow hf
  cases v with
  | int32 w => exact ⟨w, coerce_int32_eq_narrow h32 hn w⟩
  | int64 bits => exact ⟨_, coerce_eq_narrow h32 hn rfl⟩
  | float x =>
    obtain ⟨bits, hbits⟩ := exists_coerce_float hf x
    exact ⟨.concrete bits, hbits.trans (coerce_int32_eq_narrow h32 hn _)⟩
  | unknown => cases f <;> cases hf <;> cases hn <;> exact ⟨.unknown, rfl⟩

theorem coerce_ne_unknown (hf : f.isNarrow = true) (v : Value) : v.coerce f ≠ unknown := by
  obtain ⟨n, hn, -⟩ := Flavor.intBits?_of_isNarrow hf
  obtain ⟨w, hw⟩ := exists_coerce_eq_narrow hf hn v
  rw [hw]
  nofun

theorem admitsNarrow_coerce {n : Nat} (hf : f.isNarrow = true) (hn : f.intBits? = some n) (v : Value) :
    Flavor.AdmitsNarrow n f.isSigned (v.coerce f) := by
  obtain ⟨n', hn', hpos, -⟩ := Flavor.intBits?_of_isNarrow hf
  obtain rfl : n' = n := Option.some.inj (hn'.symm.trans hn)
  obtain ⟨w, hw⟩ := exists_coerce_eq_narrow hf hn v
  exact .inr ⟨w.narrow n' f.isSigned, hw, PartialWord.extendedFrom_narrow hpos f.isSigned w⟩

/-- A 64-bit slot widens a fully known word, and gives up any other. -/
theorem exists_coerce_word (hf : f.isInt64 = true) (w : PartialWord) :
    ∃ widen : BitVec 32 → BitVec 64, (int32 w).coerce f = w.toBits?.elim unknown (int64 ∘ widen) := by
  cases f with
  | i8 | i => exact ⟨(·.signExtend 64), rfl⟩
  | u8 | u => exact ⟨(·.zeroExtend 64), rfl⟩
  | _ => cases hf

theorem kind_coerce_ne_int32 (hf : f.isInt64 = true) (v : Value) : (v.coerce f).kind ≠ .int32 := by
  cases v with
  | int32 w =>
    obtain ⟨widen, hw⟩ := exists_coerce_word hf w
    rw [hw]
    cases w.toBits? <;> nofun
  | _ => cases f <;> cases hf <;> nofun

/-- What a store leaves, the slot can hold. -/
theorem admits_coerce (f : Flavor) (v : Value) : f.Admits (v.coerce f) := by
  cases f with
  | boolean | char | i1 | u1 | i2 | u2 => exact admitsNarrow_coerce rfl rfl v
  | i4 | u4 => cases v <;> nofun
  | i8 | u8 | i | u => exact kind_coerce_ne_int32 rfl v
  | r4 | r8 | object | valueType => trivial

/-- Storing what a slot holds already changes nothing. -/
theorem coerce_coerce (hf : f ≠ .r4) (v : Value) : (v.coerce f).coerce f = v.coerce f := by
  have hnarrow : f.isNarrow = true → (v.coerce f).coerce f = v.coerce f := by
    intro hf
    obtain ⟨n, hn, hpos, hlt, h32⟩ := Flavor.intBits?_of_isNarrow hf
    obtain ⟨w, hw⟩ := exists_coerce_eq_narrow hf hn v
    rw [hw, coerce_int32_eq_narrow h32 hn,
      PartialWord.narrow_narrow hpos (Nat.le_of_lt hlt) f.isSigned w]
  have hwide : f.isInt64 = true → (v.coerce f).coerce f = v.coerce f := by
    intro hf
    have hkind := kind_coerce_ne_int32 hf v
    cases hv : v.coerce f with
    | int32 w =>
      rw [hv] at hkind
      exact absurd rfl hkind
    | _ => cases f <;> cases hf <;> rfl
  cases f with
  | boolean | char | i1 | u1 | i2 | u2 => exact hnarrow rfl
  | i4 | u4 => cases v <;> rfl
  | i8 | u8 | i | u => exact hwide rfl
  | r4 => exact absurd rfl hf
  | r8 | object | valueType => cases v <;> rfl

theorem settles_coerce (f : Flavor) (v : Value) : f.Settles (v.coerce f) where
  known hf := coerce_ne_unknown hf v
  fixed hf := coerce_coerce hf v

/-! ## What is there at first -/

theorem admits_unknown (f : Flavor) : f.Admits unknown := by
  cases f with
  | boolean | char | i1 | u1 | i2 | u2 => exact .inl rfl
  | i4 | u4 | i8 | u8 | i | u => nofun
  | r4 | r8 | object | valueType => trivial

/-- The zero of a narrow slot is what a store of zero leaves there. -/
theorem zero_eq_coerce (hf : f.isNarrow = true) : f.zero = (ofBits 0).coerce f := by
  cases f <;> first | decide | cases hf

theorem admits_zero (f : Flavor) : f.Admits f.zero := by
  cases f with
  | boolean | char | i1 | u1 | i2 | u2 =>
    rw [zero_eq_coerce rfl]
    exact admits_coerce _ (ofBits 0)
  | i4 | u4 | i8 | u8 | i | u => nofun
  | r4 | r8 | object | valueType => trivial

end Value

end KeyLoop
