/-
# Little-endian numbers

Numbers in code and in buffers are stored with their least significant byte
first.  `value` reads a whole list of bytes as one number, `ofNat` writes the
low bytes of a number; on lists of equal length they undo each other.
-/

namespace KeyLoop

/-- Eight bits of code or data. -/
abbrev Byte := BitVec 8

namespace LittleEndian

/-- The number whose bytes are these, least significant first. -/
def value : List Byte → Nat
  | [] => 0
  | b :: bs => b.toNat + 256 * value bs

/-- The low `count` bytes of `n`, least significant first. -/
def ofNat : (count n : Nat) → List Byte
  | 0, _ => []
  | count + 1, n => BitVec.ofNat 8 n :: ofNat count (n / 256)

/-- How many numbers `count` bytes have room for. -/
def capacity : (count : Nat) → Nat
  | 0 => 1
  | count + 1 => 256 * capacity count

/-- The bytes of a word whose width is a whole number of bytes. -/
def ofBits {w : Nat} (bits : BitVec w) : List Byte := ofNat (w / 8) bits.toNat

@[simp] theorem length_ofNat (count n : Nat) : (ofNat count n).length = count := by
  induction count generalizing n with
  | zero => rfl
  | succ count ih => simp [ofNat, ih]

/-- Writing keeps what so many bytes have room for. -/
theorem value_ofNat (count n : Nat) : value (ofNat count n) = n % capacity count := by
  induction count generalizing n with
  | zero => simp [ofNat, value, capacity, Nat.mod_one]
  | succ count ih =>
    simp only [ofNat, value, capacity, ih, BitVec.toNat_ofNat]
    exact (Nat.mod_mul (x := n) (a := 256) (b := capacity count)).symm

/-- Writing undoes reading. -/
theorem ofNat_value (bs : List Byte) : ofNat bs.length (value bs) = bs := by
  induction bs with
  | nil => rfl
  | cons b bs ih =>
    have hb := b.isLt
    have hq : (b.toNat + 256 * value bs) / 256 = value bs := by omega
    simp only [List.length_cons, value, ofNat, hq, ih]
    congr 1
    apply BitVec.eq_of_toNat_eq
    simp only [BitVec.toNat_ofNat]
    omega

theorem capacity_pos (count : Nat) : 0 < capacity count := by
  induction count with
  | zero => decide
  | succ count ih =>
    rw [capacity]
    omega

/-- Bytes have room for the number they are. -/
theorem value_lt (bs : List Byte) : value bs < capacity bs.length := by
  have hback : value bs = value bs % capacity bs.length := by
    rw [← value_ofNat, ofNat_value]
  rw [hback]
  exact Nat.mod_lt _ (capacity_pos _)

end LittleEndian

end KeyLoop
