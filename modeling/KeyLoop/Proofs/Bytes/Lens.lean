/-
# A place in a buffer is a lens

A place with at least one byte has room for `k = width buffer offset` bytes of
a word: four, or fewer at the end of the buffer.  Reading gives the number that
these bytes are and writing replaces them, so what is done at one place obeys
the laws of a lens, up to what there is room for:

    read, then write      nothing has changed
    write, then read      the word modulo `2 ^ (8 * k)`
    write, then write     the second write alone
    write elsewhere       the word read here is the same

A place without a byte can be neither read nor written, and trying to leaves
the buffer alone.

Joining a word by exclusive or is reading a place and writing it.  Seen byte by
byte it is an exclusive or with a mask, which the buffer has no part in
(`joinAt_eq`).  This is why the order in which words are joined to places makes
no difference: not to the bytes, and not to whether all places have one.  Plain
writes have an order where their places overlap, and none where they lie apart,
as those at different multiples of four do.
-/
import KeyLoop.Proofs.Bytes.Tail
import KeyLoop.Proofs.Machine.Frame
import Mathlib.Algebra.BigOperators.Intervals
import Mathlib.Algebra.BigOperators.Ring.Finset
import Mathlib.Data.List.Perm.Basic

namespace KeyLoop

/-! ## Numbers of some bytes -/

namespace LittleEndian

theorem capacity_eq_two_pow (count : Nat) : capacity count = 2 ^ (8 * count) := by
  induction count with
  | zero => rfl
  | succ count ih =>
    rw [capacity, ih, Nat.mul_succ, pow_add]
    omega

/-- Each byte counts 256 times as much as the one before it. -/
theorem value_eq_sum (bs : List Byte) :
    value bs = ∑ i ∈ Finset.range bs.length, (bs.getD i 0).toNat * 256 ^ i := by
  induction bs with
  | nil => rfl
  | cons b bs ih =>
    have hrest : 256 * value bs =
        ∑ i ∈ Finset.range bs.length, (bs.getD i 0).toNat * 256 ^ (i + 1) := by
      rw [ih, Finset.mul_sum]
      refine Finset.sum_congr rfl fun i _ => ?_
      rw [pow_succ', Nat.mul_left_comm]
    rw [value, hrest, List.length_cons, Finset.sum_range_succ']
    simp only [List.getD_cons_succ, List.getD_cons_zero, pow_zero, mul_one]
    omega

/-- A number of at most four bytes is the same number in a word. -/
theorem toNat_ofNat_value {bs : List Byte} (h : bs.length ≤ 4) :
    (BitVec.ofNat 32 (value bs)).toNat = value bs := by
  have hroom : capacity bs.length ≤ 2 ^ 32 := by
    rw [capacity_eq_two_pow]
    exact Nat.pow_le_pow_right (by decide) (by omega)
  have hlt := value_lt bs
  rw [BitVec.toNat_ofNat]
  exact Nat.mod_eq_of_lt (by omega)

end LittleEndian

namespace Tail

variable {buffer : List Byte} {offset : Nat}

/-! ## Reading -/

/-- The bytes of the word at a place. -/
def bytesAt (buffer : List Byte) (offset : Nat) : List Byte := (buffer.drop offset).take 4

@[simp] theorem length_bytesAt (buffer : List Byte) (offset : Nat) :
    (bytesAt buffer offset).length = width buffer offset := by
  simp [bytesAt, width]

theorem getElem?_bytesAt (buffer : List Byte) (offset : Nat) {i : Nat} (h : i < 4) :
    (bytesAt buffer offset)[i]? = buffer[offset + i]? := by
  rw [bytesAt, List.getElem?_take_of_lt h, List.getElem?_drop]

theorem width_le (buffer : List Byte) (offset : Nat) : width buffer offset ≤ 4 := Nat.min_le_left _ _

/-- A word is known by the bytes that it is read from. -/
theorem read_congr {other : List Byte} (hlength : other.length = buffer.length)
    (h : ∀ i, i < 4 → other[offset + i]? = buffer[offset + i]?) :
    read other offset = read buffer offset := by
  have hbytes : bytesAt other offset = bytesAt buffer offset := by
    apply List.ext_getElem?
    intro i
    by_cases hi : i < 4
    · rw [getElem?_bytesAt other offset hi, getElem?_bytesAt buffer offset hi, h i hi]
    · have hshort : ∀ b : List Byte, (bytesAt b offset)[i]? = none := by
        intro b
        have hwidth := width_le b offset
        exact List.getElem?_eq_none (by rw [length_bytesAt]; omega)
      rw [hshort, hshort]
  unfold bytesAt at hbytes
  rw [read, read, underrun, underrun, hlength, hbytes]

/-- The word at a place is the number of its bytes. -/
theorem read_eq_value (h : offset < buffer.length) :
    ∃ here, read buffer offset = .ok here ∧
      here.toNat = LittleEndian.value (bytesAt buffer offset) := by
  refine ⟨_, if_pos h, LittleEndian.toNat_ofNat_value ?_⟩
  exact List.length_take_le 4 _

/-- The number of the bytes at a place, each with its weight. -/
theorem value_bytesAt (buffer : List Byte) (offset : Nat) :
    LittleEndian.value (bytesAt buffer offset) =
      ∑ i ∈ Finset.range (width buffer offset), (buffer.getD (offset + i) 0).toNat * 256 ^ i := by
  rw [LittleEndian.value_eq_sum, length_bytesAt]
  refine Finset.sum_congr rfl fun i hi => ?_
  have hi4 : i < 4 := Nat.lt_of_lt_of_le (Finset.mem_range.mp hi) (width_le buffer offset)
  rw [List.getD_eq_getElem?_getD, List.getD_eq_getElem?_getD, getElem?_bytesAt buffer offset hi4]

/-! ## Writing -/

/-- Write a word into the buffer that is worked on. -/
def put (offset : Nat) (word : BitVec 32) : EStateM Fault (List Byte) Unit := fun buffer =>
  match write buffer offset word with
  | .ok written => .ok () written
  | .error fault => .error fault buffer

/-- The buffer with a word in place of the bytes at its place. -/
def overwritten (offset : Nat) (word : BitVec 32) (buffer : List Byte) : List Byte :=
  buffer.mapIdx fun j b => if offset ≤ j ∧ j < offset + 4 then byteOf word (j - offset) else b

theorem put_eq (h : offset < buffer.length) (word : BitVec 32) :
    put offset word buffer = .ok () (overwritten offset word buffer) := by
  simp only [put, write_eq h]
  rfl

@[simp] theorem length_overwritten (offset : Nat) (word : BitVec 32) (buffer : List Byte) :
    (overwritten offset word buffer).length = buffer.length := by
  simp [overwritten]

theorem getElem?_overwritten (offset : Nat) (word : BitVec 32) (buffer : List Byte) (j : Nat) :
    (overwritten offset word buffer)[j]? = buffer[j]?.map fun b =>
      if offset ≤ j ∧ j < offset + 4 then byteOf word (j - offset) else b :=
  List.getElem?_mapIdx

/-- Bytes away from the place stay as they are. -/
theorem getElem?_overwritten_of_outside (offset : Nat) (word : BitVec 32) (buffer : List Byte) {j : Nat}
    (h : j < offset ∨ offset + 4 ≤ j) : (overwritten offset word buffer)[j]? = buffer[j]? := by
  rw [getElem?_overwritten]
  simp [show ¬ (offset ≤ j ∧ j < offset + 4) by omega]

/-- The place has as many bytes of the word as there is room for. -/
theorem bytesAt_overwritten (offset : Nat) (word : BitVec 32) (buffer : List Byte) :
    bytesAt (overwritten offset word buffer) offset =
      LittleEndian.ofNat (width buffer offset) word.toNat := by
  have hwidth : width buffer offset = min 4 (buffer.length - offset) := rfl
  apply List.ext_getElem?
  intro i
  by_cases hi : i < width buffer offset
  · have hplace : offset + i < buffer.length := by omega
    rw [getElem?_bytesAt _ offset (by omega), getElem?_overwritten,
      List.getElem?_eq_getElem hplace, LittleEndian.getElem?_ofNat _ _ i hi, Option.map_some,
      if_pos (by omega), Nat.add_sub_cancel_left]
    rfl
  · have hroom : width (overwritten offset word buffer) offset = width buffer offset := by
      rw [width, length_overwritten, width]
    rw [List.getElem?_eq_none (by rw [length_bytesAt, hroom]; omega),
      List.getElem?_eq_none (by rw [LittleEndian.length_ofNat]; omega)]

/-- What was read here, written back. -/
theorem overwritten_read (h : offset < buffer.length) {here : BitVec 32}
    (hread : read buffer offset = .ok here) : overwritten offset here buffer = buffer := by
  obtain ⟨word, hword, hbyte⟩ := read_eq h
  obtain rfl : word = here := Except.ok.inj (hword.symm.trans hread)
  apply List.ext_getElem (by simp)
  intro j hj _
  simp only [overwritten, List.getElem_mapIdx]
  split
  · rename_i hin
    have hplace : offset + (j - offset) = j := by omega
    rw [length_overwritten] at hj
    have hb := hbyte (j - offset) (by omega) (by omega)
    simpa only [hplace] using hb
  · rfl

/-- Of two words written at one place the second one stays. -/
theorem overwritten_overwritten (offset : Nat) (v w : BitVec 32) (buffer : List Byte) :
    overwritten offset w (overwritten offset v buffer) = overwritten offset w buffer := by
  apply List.ext_getElem (by simp)
  intro j hj _
  simp only [overwritten, List.getElem_mapIdx]
  split <;> rfl

/-! ## The laws -/

/-- The words at these places have no byte in common, whether they are cut short or not. -/
def Apart (offset other : Nat) : Prop := other + 4 ≤ offset ∨ offset + 4 ≤ other

/-- Words at different multiples of four have no byte in common. -/
theorem apart_of_dvd {offset other : Nat} (h : 4 ∣ offset) (hother : 4 ∣ other) (hne : offset ≠ other) :
    Apart offset other := by
  unfold Apart
  omega

/-- What writing a word at a place has made of a buffer. -/
structure IsWritten (buffer : List Byte) (offset : Nat) (word : BitVec 32) (written : List Byte) :
    Prop where
  length : written.length = buffer.length
  /-- Only bytes that belong to the word at the place may have changed. -/
  outside : ∀ j, j < offset ∨ offset + width buffer offset ≤ j → written[j]? = buffer[j]?
  /-- As much of the word can be read again as there is room for. -/
  reread : ∃ again, read written offset = .ok again ∧
    again.toNat = word.toNat % 2 ^ (8 * width buffer offset)
  overwrite : ∀ later, put offset later written = put offset later buffer
  elsewhere : ∀ other, Apart offset other → read written other = read buffer other

/-- The laws of reading and writing at a place where the word `here` is. -/
structure IsLens (buffer : List Byte) (offset : Nat) (here : BitVec 32) : Prop where
  read : read buffer offset = .ok here
  /-- The word is the number of the bytes at the place, the first one the least significant. -/
  number : here.toNat =
    ∑ i ∈ Finset.range (width buffer offset), (buffer.getD (offset + i) 0).toNat * 256 ^ i
  restore : put offset here buffer = .ok () buffer
  write : ∀ word, ∃ written, put offset word buffer = .ok () written ∧
    IsWritten buffer offset word written
  /-- Joining a word is writing what was read, joined to it. -/
  join : ∀ word, xor offset word buffer = put offset (here ^^^ word) buffer

theorem isWritten_overwritten (h : offset < buffer.length) (word : BitVec 32) :
    IsWritten buffer offset word (overwritten offset word buffer) where
  length := length_overwritten offset word buffer
  outside j hj := by
    rcases Nat.lt_or_ge j buffer.length with hlt | hge
    · refine getElem?_overwritten_of_outside offset word buffer ?_
      unfold width at hj
      omega
    · rw [List.getElem?_eq_none hge, List.getElem?_eq_none (by simpa using hge)]
  reread := by
    have hplace : offset < (overwritten offset word buffer).length := by simpa using h
    obtain ⟨again, hread, hnumber⟩ := read_eq_value hplace
    refine ⟨again, hread, ?_⟩
    rw [hnumber, bytesAt_overwritten, LittleEndian.value_ofNat, LittleEndian.capacity_eq_two_pow]
  overwrite later := by
    rw [put_eq h, put_eq (by simpa using h), overwritten_overwritten]
  elsewhere other hother := by
    refine read_congr (length_overwritten offset word buffer) fun i hi => ?_
    refine getElem?_overwritten_of_outside offset word buffer ?_
    unfold Apart at hother
    omega

theorem exists_isLens (h : offset < buffer.length) : ∃ here, IsLens buffer offset here := by
  obtain ⟨here, hread, hnumber⟩ := read_eq_value h
  refine ⟨here, hread, hnumber.trans (value_bytesAt buffer offset), ?_, fun word => ?_, fun word => ?_⟩
  · rw [put_eq h, overwritten_read h hread]
  · exact ⟨_, put_eq h word, isWritten_overwritten h word⟩
  · simp only [xor, hread]
    rfl

/-- At a place without a byte there are none available. -/
theorem underrun_of_le (h : buffer.length ≤ offset) :
    underrun buffer offset = .bufferUnderrun offset 0 := by
  rw [underrun, Nat.sub_eq_zero_of_le h]

theorem read_of_le (h : buffer.length ≤ offset) :
    read buffer offset = .error (.bufferUnderrun offset 0) := by
  rw [read, if_neg (Nat.not_lt.mpr h), underrun_of_le h]

theorem put_of_le (h : buffer.length ≤ offset) (word : BitVec 32) :
    put offset word buffer = .error (.bufferUnderrun offset 0) buffer := by
  simp only [put, write, if_neg (Nat.not_lt.mpr h), underrun_of_le h]

theorem xor_of_le (h : buffer.length ≤ offset) (word : BitVec 32) :
    xor offset word buffer = .error (.bufferUnderrun offset 0) buffer := by
  simp only [xor, read_of_le h]

/-! ## Words joined in any order -/

/-- The buffer after a word has been joined to a place; where there is no byte
it stays as it is. -/
def joinAt (buffer : List Byte) (job : Nat × BitVec 32) : List Byte := after (xor job.1 job.2) buffer

theorem xor_eq_joinAt {job : Nat × BitVec 32} (h : job.1 < buffer.length) :
    xor job.1 job.2 buffer = .ok () (joinAt buffer job) := by
  rw [joinAt, after_ok (xor_eq h job.2)]
  exact xor_eq h job.2

/-- What a job joins to byte `j`. -/
def mask (job : Nat × BitVec 32) (j : Nat) : Byte :=
  if job.1 ≤ j ∧ j < job.1 + 4 then byteOf job.2 (j - job.1) else 0

theorem mask_of_outside {job : Nat × BitVec 32} {j : Nat} (h : ¬ (job.1 ≤ j ∧ j < job.1 + 4)) :
    mask job j = 0#8 := if_neg h

/-- A job joins its mask to the buffer, whatever the buffer is and wherever the
place lies: past the end the mask has no byte to be joined to. -/
theorem joinAt_eq (buffer : List Byte) (job : Nat × BitVec 32) :
    joinAt buffer job = buffer.mapIdx fun j b => b ^^^ mask job j := by
  rcases Nat.lt_or_ge job.1 buffer.length with hlt | hge
  · rw [joinAt, after_ok (xor_eq hlt job.2)]
    apply List.ext_getElem (by simp)
    intro j hj _
    simp only [List.getElem_mapIdx]
    by_cases hin : job.1 ≤ j ∧ j < job.1 + 4
    · rw [if_pos hin, mask, if_pos hin]
    · rw [if_neg hin, mask_of_outside hin, BitVec.xor_zero]
  · rw [joinAt, after_error (xor_of_le hge job.2)]
    apply List.ext_getElem (by simp)
    intro j hj _
    rw [List.getElem_mapIdx, mask_of_outside (by omega), BitVec.xor_zero]

@[simp] theorem length_joinAt (buffer : List Byte) (job : Nat × BitVec 32) :
    (joinAt buffer job).length = buffer.length := by
  simp [joinAt_eq]

theorem joinAt_right_comm (buffer : List Byte) (job job' : Nat × BitVec 32) :
    joinAt (joinAt buffer job) job' = joinAt (joinAt buffer job') job := by
  simp only [joinAt_eq]
  apply List.ext_getElem (by simp)
  intro j hj _
  simp only [List.getElem_mapIdx]
  rw [BitVec.xor_assoc, BitVec.xor_comm (mask job j), ← BitVec.xor_assoc]

/-- Where every place has a byte all words are joined. -/
theorem xorEach_eq_foldl (jobs : List (Nat × BitVec 32)) (buffer : List Byte)
    (h : ∀ job ∈ jobs, job.1 < buffer.length) :
    xorEach jobs buffer = .ok () (jobs.foldl joinAt buffer) := by
  induction jobs generalizing buffer with
  | nil => rfl
  | cons job jobs ih =>
    obtain ⟨hfirst, hrest⟩ := List.forall_mem_cons.mp h
    simp only [xorEach, bind, EStateM.bind, xor_eq_joinAt hfirst, List.foldl_cons]
    refine ih (joinAt buffer job) fun later hlater => ?_
    rw [length_joinAt]
    exact hrest later hlater

/-- Where some place has no byte the work ends at such a place. -/
theorem xorEach_error (jobs : List (Nat × BitVec 32)) (buffer : List Byte)
    (h : ∃ job ∈ jobs, buffer.length ≤ job.1) :
    ∃ job ∈ jobs, ∃ left, xorEach jobs buffer = .error (.bufferUnderrun job.1 0) left := by
  induction jobs generalizing buffer with
  | nil => simp at h
  | cons job jobs ih =>
    rcases Nat.lt_or_ge job.1 buffer.length with hfirst | hfirst
    · have hlater : ∃ later ∈ jobs, (joinAt buffer job).length ≤ later.1 := by
        obtain ⟨later, hmem, hplace⟩ := h
        rw [length_joinAt]
        rcases List.mem_cons.mp hmem with rfl | hmem
        · omega
        · exact ⟨later, hmem, hplace⟩
      obtain ⟨failing, hmem, left, hleft⟩ := ih (joinAt buffer job) hlater
      refine ⟨failing, List.mem_cons_of_mem job hmem, left, ?_⟩
      simpa only [xorEach, bind, EStateM.bind, xor_eq_joinAt hfirst] using hleft
    · refine ⟨job, List.mem_cons_self, buffer, ?_⟩
      simp only [xorEach, bind, EStateM.bind, xor_of_le hfirst]

/-! ## Words written in any order -/

/-- The buffer after a word has been written at a place; where there is no byte
it stays as it is. -/
def putAt (buffer : List Byte) (job : Nat × BitVec 32) : List Byte := after (put job.1 job.2) buffer

theorem putAt_eq (buffer : List Byte) (job : Nat × BitVec 32) :
    putAt buffer job = overwritten job.1 job.2 buffer := by
  rcases Nat.lt_or_ge job.1 buffer.length with hlt | hge
  · exact after_ok (put_eq hlt job.2)
  · rw [putAt, after_error (put_of_le hge job.2)]
    apply List.ext_getElem (by simp)
    intro j hj _
    simp only [overwritten, List.getElem_mapIdx, if_neg (show ¬ (job.1 ≤ j ∧ j < job.1 + 4) by omega)]

theorem putAt_right_comm (buffer : List Byte) {job job' : Nat × BitVec 32}
    (h : Apart job.1 job'.1) : putAt (putAt buffer job) job' = putAt (putAt buffer job') job := by
  simp only [putAt_eq]
  apply List.ext_getElem?
  intro j
  unfold Apart at h
  by_cases hj : job.1 ≤ j ∧ j < job.1 + 4
  · -- a byte of the first place is none of the second
    rw [getElem?_overwritten_of_outside job'.1 _ _ (by omega), getElem?_overwritten,
      getElem?_overwritten, getElem?_overwritten_of_outside job'.1 _ _ (by omega)]
  · rw [getElem?_overwritten, getElem?_overwritten_of_outside job.1 _ _ (by omega),
      getElem?_overwritten_of_outside job.1 _ _ (by omega), getElem?_overwritten]

/-- What comes out the same in whatever order jobs are done. -/
structure AnyOrder (buffer : List Byte) (jobs order : List (Nat × BitVec 32)) : Prop where
  /-- The bytes behind the last word that is joined, places without a byte being passed over. -/
  joined : order.foldl joinAt buffer = jobs.foldl joinAt buffer
  /-- If every place has a byte, all words are joined. -/
  ends : (∀ job ∈ jobs, job.1 < buffer.length) →
    xorEach order buffer = .ok () (jobs.foldl joinAt buffer)
  /-- If some place has none, the work ends at such a place. -/
  fails : (∃ job ∈ jobs, buffer.length ≤ job.1) →
    ∃ job ∈ jobs, ∃ left, xorEach order buffer = .error (.bufferUnderrun job.1 0) left
  /-- The bytes behind the last word that is written, at different multiples of four. -/
  written : (∀ job ∈ jobs, 4 ∣ job.1) → (jobs.map (·.1)).Nodup →
    order.foldl putAt buffer = jobs.foldl putAt buffer

theorem anyOrder_of_perm (buffer : List Byte) {jobs order : List (Nat × BitVec 32)}
    (h : order.Perm jobs) : AnyOrder buffer jobs order := by
  have hjoined : order.foldl joinAt buffer = jobs.foldl joinAt buffer :=
    h.foldl_eq' (fun job _ job' _ b => joinAt_right_comm b job job') buffer
  refine ⟨hjoined, fun hplaces => ?_, fun hplace => ?_, fun hdvd hnodup => ?_⟩
  · rw [xorEach_eq_foldl order buffer fun job hjob => hplaces job (h.mem_iff.mp hjob), hjoined]
  · obtain ⟨job, hjob, hend⟩ := hplace
    obtain ⟨failing, hmem, left, hleft⟩ := xorEach_error order buffer ⟨job, h.mem_iff.mpr hjob, hend⟩
    exact ⟨failing, h.mem_iff.mp hmem, left, hleft⟩
  · refine h.foldl_eq' (fun job hjob job' hjob' b => ?_) buffer
    rw [h.mem_iff] at hjob hjob'
    by_cases hsame : job = job'
    · rw [hsame]
    · have hne : job.1 ≠ job'.1 := fun heq =>
        hsame (List.inj_on_of_nodup_map hnodup hjob hjob' heq)
      exact putAt_right_comm b (apart_of_dvd (hdvd job hjob) (hdvd job' hjob') hne)

/-- **A place with a byte is a lens**, cut short or not.  A place without one can
be neither read nor written, and the buffer stays as it is.  Words can be joined
to places in any order, among others to any set of multiples of four. -/
theorem lens_laws (buffer : List Byte) :
    (∀ offset, offset < buffer.length → ∃ here, IsLens buffer offset here) ∧
    (∀ offset, buffer.length ≤ offset → ∀ word,
      read buffer offset = .error (.bufferUnderrun offset 0) ∧
        put offset word buffer = .error (.bufferUnderrun offset 0) buffer) ∧
    ∀ jobs order : List (Nat × BitVec 32), order.Perm jobs → AnyOrder buffer jobs order := by
  refine ⟨fun offset hplace => ?_, fun offset hend word => ?_, fun jobs order hperm => ?_⟩
  · exact exists_isLens hplace
  · exact ⟨read_of_le hend, put_of_le hend word⟩
  · exact anyOrder_of_perm buffer hperm

/-- The last two of six bytes, and words joined from the end to the start. -/
theorem lens_laws_cut_short :
    let buffer : List Byte := [0x11, 0x22, 0x33, 0x44, 0x55, 0x66]
    width buffer 4 = 2 ∧ IsLens buffer 4 0x6655 ∧
      put 4 0xAABBCCDD buffer = .ok () [0x11, 0x22, 0x33, 0x44, 0xDD, 0xCC] ∧
      xorEach [(4, 0xAABBCCDD), (0, 1)] buffer = xorEach [(0, 1), (4, 0xAABBCCDD)] buffer := by
  intro buffer
  obtain ⟨hplaces, -, horder⟩ := lens_laws buffer
  obtain ⟨here, hlens⟩ := hplaces 4 (by decide)
  have hread : read buffer 4 = .ok 0x6655 := rfl
  obtain rfl : here = 0x6655 := Except.ok.inj (hlens.read.symm.trans hread)
  have hforth := (horder [(0, 1), (4, 0xAABBCCDD)] _ (.refl _)).ends (by decide)
  have hback := (horder [(0, 1), (4, 0xAABBCCDD)] [(4, 0xAABBCCDD), (0, 1)] (.swap ..)).ends (by decide)
  exact ⟨rfl, hlens, rfl, hback.trans hforth.symm⟩

end Tail

end KeyLoop
