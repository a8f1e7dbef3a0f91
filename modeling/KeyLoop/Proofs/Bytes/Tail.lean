/-
# Words at the end of a buffer, byte by byte

A word read at an offset has the bytes that stand there, and a word written
there replaces them and no others; of a word that is cut short only the low
bytes count.  Joining a word to the buffer by exclusive or therefore joins
each of its bytes to the byte it lies on (`xor_eq`), and joining a word for
every offset of the buffer joins byte `j` to byte `j % 4` of word `j / 4`
(`xorEach_offsets`).
-/
import KeyLoop.Bytes.Tail

namespace KeyLoop

/-- Byte `i` of a word, counted from the least significant one. -/
def byteOf (word : BitVec 32) (i : Nat) : Byte := word.extractLsb' (8 * i) 8

theorem byteOf_xor (v w : BitVec 32) (i : Nat) : byteOf (v ^^^ w) i = byteOf v i ^^^ byteOf w i :=
  BitVec.extractLsb'_xor

theorem byteOf_zero (i : Nat) : byteOf 0#32 i = 0#8 := by
  simp [byteOf]

namespace LittleEndian

/-- Byte `i` of a number is what is left of it `8 * i` bits further up. -/
theorem getElem?_ofNat (count n i : Nat) (h : i < count) :
    (ofNat count n)[i]? = some (BitVec.ofNat 8 (n >>> (8 * i))) := by
  induction count generalizing n i with
  | zero => omega
  | succ count ih =>
    cases i with
    | zero => simp [ofNat]
    | succ i =>
      have hshift : (n / 256) >>> (8 * i) = n >>> (8 * (i + 1)) := by
        rw [show n / 256 = n >>> 8 from (Nat.shiftRight_eq_div_pow n 8).symm,
          ← Nat.shiftRight_add, show 8 + 8 * i = 8 * (i + 1) by omega]
      simp only [ofNat, List.getElem?_cons_succ]
      rw [ih (n / 256) i (by omega), hshift]

theorem getElem?_ofBits (word : BitVec 32) {i : Nat} (h : i < 4) :
    (ofBits word)[i]? = some (byteOf word i) :=
  getElem?_ofNat 4 word.toNat i h

/-- A number of at most four bytes keeps each of them when it becomes a word. -/
theorem byteOf_value {bs : List Byte} (h4 : bs.length ≤ 4) {i : Nat} (h : i < bs.length) :
    byteOf (BitVec.ofNat 32 (value bs)) i = bs[i] := by
  have hbyte : bs[i]? = some (BitVec.ofNat 8 (value bs >>> (8 * i))) := by
    have hback := getElem?_ofNat bs.length (value bs) i h
    rwa [ofNat_value] at hback
  have hlow : byteOf (BitVec.ofNat 32 (value bs)) i = BitVec.ofNat 8 (value bs >>> (8 * i)) := by
    apply BitVec.eq_of_getLsbD_eq
    intro k hk
    have hk32 : 8 * i + k < 32 := by omega
    simp only [byteOf, BitVec.getLsbD_extractLsb', BitVec.getLsbD_ofNat, Nat.testBit_shiftRight,
      hk, hk32, decide_true, Bool.true_and]
  rw [hlow]
  exact (Option.some.inj ((List.getElem?_eq_getElem h).symm.trans hbyte)).symm

end LittleEndian

namespace Tail

/-! ## One word -/

/-- The word at a place has the bytes from there on. -/
theorem read_eq {buffer : List Byte} {offset : Nat} (h : offset < buffer.length) :
    ∃ word, read buffer offset = .ok word ∧
      ∀ i, i < 4 → ∀ hi : offset + i < buffer.length, byteOf word i = buffer[offset + i] := by
  refine ⟨_, if_pos h, ?_⟩
  intro i hi4 hi
  have hlength : i < ((buffer.drop offset).take 4).length := by
    simp only [List.length_take, List.length_drop]
    omega
  have hshort : ((buffer.drop offset).take 4).length ≤ 4 := List.length_take_le 4 _
  rw [LittleEndian.byteOf_value hshort hlength]
  simp only [List.getElem_take, List.getElem_drop]

/-- Writing replaces the bytes of the word and no others. -/
theorem write_eq {buffer : List Byte} {offset : Nat} (h : offset < buffer.length)
    (word : BitVec 32) :
    write buffer offset word = .ok (buffer.mapIdx fun j b =>
      if offset ≤ j ∧ j < offset + 4 then byteOf word (j - offset) else b) := by
  have hbits : (LittleEndian.ofBits word).length = 4 := LittleEndian.length_ofNat 4 word.toNat
  simp only [write, if_pos h, Except.ok.injEq]
  have hlow : ((LittleEndian.ofBits word).take (width buffer offset)).length =
      width buffer offset := by
    simp only [List.length_take, hbits, width]
    omega
  have hwidth : width buffer offset = min 4 (buffer.length - offset) := rfl
  apply List.ext_getElem?
  intro j
  rw [List.getElem?_mapIdx, List.append_assoc]
  rcases Nat.lt_or_ge j offset with hj | hj
  · -- before the word
    rw [List.getElem?_append_left (by simp; omega), List.getElem?_take_of_lt hj]
    simp [show ¬ offset ≤ j by omega]
  · have htake : (buffer.take offset).length = offset := by simp; omega
    rw [List.getElem?_append_right (by omega), htake]
    rcases Nat.lt_or_ge (j - offset) (width buffer offset) with hin | hout
    · -- in the word
      have hj4 : j - offset < 4 := by omega
      have hjlen : j < buffer.length := by omega
      rw [List.getElem?_append_left (by omega), List.getElem?_take_of_lt hin,
        LittleEndian.getElem?_ofBits word hj4, List.getElem?_eq_getElem hjlen]
      simp [show offset ≤ j ∧ j < offset + 4 by omega]
    · -- behind the word
      rw [List.getElem?_append_right (by omega), List.getElem?_drop, hlow]
      have hback : offset + width buffer offset + (j - offset - width buffer offset) = j := by
        omega
      rw [hback]
      rcases Nat.lt_or_ge j buffer.length with hjlen | hjlen
      · simp [show ¬ (offset ≤ j ∧ j < offset + 4) by omega]
      · simp [List.getElem?_eq_none hjlen]

/-- Joining a word changes each byte of the place by one byte of the word. -/
theorem xor_eq {buffer : List Byte} {offset : Nat} (h : offset < buffer.length)
    (word : BitVec 32) :
    xor offset word buffer = .ok () (buffer.mapIdx fun j b =>
      if offset ≤ j ∧ j < offset + 4 then b ^^^ byteOf word (j - offset) else b) := by
  obtain ⟨here, hread, hbyte⟩ := read_eq h
  simp only [xor, hread, write_eq h, EStateM.Result.ok.injEq, true_and]
  apply List.ext_getElem (by simp)
  intro j hj _
  simp only [List.length_mapIdx] at hj
  simp only [List.getElem_mapIdx]
  split
  · rename_i hin
    have hplace : offset + (j - offset) = j := by omega
    have hb := hbyte (j - offset) (by omega) (by omega)
    simp only [hplace] at hb
    rw [byteOf_xor, hb]
  · rfl

/-! ## A word for every offset -/

/-- The buffer with words joined to the places from word `start` on. -/
def joined (start : Nat) (words : List (BitVec 32)) (buffer : List Byte) : List Byte :=
  buffer.mapIdx fun j b =>
    if start ≤ j / 4 then b ^^^ byteOf (words.getD (j / 4 - start) 0) (j % 4) else b

@[simp] theorem length_joined (start : Nat) (words : List (BitVec 32)) (buffer : List Byte) :
    (joined start words buffer).length = buffer.length := by
  simp [joined]

theorem getElem_joined_zero {words : List (BitVec 32)} {buffer : List Byte} {j : Nat}
    (h : j < (joined 0 words buffer).length) (hb : j < buffer.length)
    (hw : j / 4 < words.length) :
    (joined 0 words buffer)[j] = buffer[j] ^^^ byteOf words[j / 4] (j % 4) := by
  simp [joined, hw]

/-- Joining the same words twice gives the buffer back. -/
theorem joined_joined (start : Nat) (words : List (BitVec 32)) (buffer : List Byte) :
    joined start words (joined start words buffer) = buffer := by
  apply List.ext_getElem (by simp)
  intro j hj _
  simp only [joined, List.getElem_mapIdx]
  split
  · rw [BitVec.xor_assoc, BitVec.xor_self, BitVec.xor_zero]
  · rfl

theorem joined_nil (start : Nat) (buffer : List Byte) : joined start [] buffer = buffer := by
  apply List.ext_getElem (by simp)
  intro j hj _
  simp [joined, byteOf_zero]

theorem joined_cons (start : Nat) (word : BitVec 32) (words : List (BitVec 32))
    (buffer : List Byte) :
    joined (start + 1) words (buffer.mapIdx fun j b =>
      if 4 * start ≤ j ∧ j < 4 * start + 4 then b ^^^ byteOf word (j - 4 * start) else b)
      = joined start (word :: words) buffer := by
  apply List.ext_getElem (by simp)
  intro j hj _
  simp only [joined, List.getElem_mapIdx]
  rcases Nat.lt_trichotomy (j / 4) start with hlt | heq | hgt
  · simp [show ¬ start + 1 ≤ j / 4 by omega, show ¬ start ≤ j / 4 by omega,
      show ¬ (4 * start ≤ j ∧ j < 4 * start + 4) by omega]
  · simp [show ¬ start + 1 ≤ j / 4 by omega, show start ≤ j / 4 by omega,
      show 4 * start ≤ j ∧ j < 4 * start + 4 by omega, show j / 4 - start = 0 by omega,
      show j - 4 * start = j % 4 by omega]
  · simp [show start + 1 ≤ j / 4 by omega, show start ≤ j / 4 by omega,
      show ¬ (4 * start ≤ j ∧ j < 4 * start + 4) by omega,
      show j / 4 - start = (j / 4 - (start + 1)) + 1 by omega]

/-- Words joined to consecutive places, each of which has a byte. -/
theorem xorEach_range' (words : List (BitVec 32)) (start : Nat) (buffer : List Byte)
    (h : ∀ k, k < words.length → 4 * (start + k) < buffer.length) :
    xorEach (((List.range' start words.length).map (4 * ·)).zip words) buffer =
      .ok () (joined start words buffer) := by
  induction words generalizing start buffer with
  | nil => rw [joined_nil]; rfl
  | cons word words ih =>
    have hfirst : 4 * start < buffer.length := h 0 (by simp)
    rw [List.length_cons, List.range'_succ, List.map_cons, List.zip_cons_cons]
    simp only [xorEach, bind, EStateM.bind, xor_eq hfirst]
    rw [ih (start + 1), joined_cons]
    intro k hk
    have hnext := h (k + 1) (by simpa using hk)
    simp only [List.length_mapIdx]
    omega

/-- Words joined to all the places of a buffer, as many words as it has places. -/
theorem xorEach_offsets {words : List (BitVec 32)} {buffer : List Byte}
    (h : words.length = count buffer) :
    xorEach ((offsets buffer).zip words) buffer = .ok () (joined 0 words buffer) := by
  rw [offsets, ← h, List.range_eq_range']
  apply xorEach_range'
  intro k hk
  rw [h, count] at hk
  omega

end Tail

end KeyLoop
