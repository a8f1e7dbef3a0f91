/-
# Words at the end of a buffer

A buffer is worked on in words of four bytes, and its last word may be cut
short.  A place that has at least one byte holds a word: the bytes it lacks
count as zero when the word is read and are dropped when it is written.  A
place without a byte holds no word.
-/
import KeyLoop.Fault

namespace KeyLoop

namespace Tail

/-- The number of bytes from `offset` on that belong to the word there. -/
def width (buffer : List Byte) (offset : Nat) : Nat := min 4 (buffer.length - offset)

/-- There is no word at `offset`. -/
def underrun (buffer : List Byte) (offset : Nat) : Fault :=
  .bufferUnderrun offset (buffer.length - offset)

/-- The word at `offset`. -/
def read (buffer : List Byte) (offset : Nat) : Except Fault (BitVec 32) :=
  if offset < buffer.length then
    .ok (BitVec.ofNat 32 (LittleEndian.value ((buffer.drop offset).take 4)))
  else .error (underrun buffer offset)

/-- The buffer with the low bytes of `word` at `offset`, as many as there is room for. -/
def write (buffer : List Byte) (offset : Nat) (word : BitVec 32) : Except Fault (List Byte) :=
  if offset < buffer.length then
    let low := (LittleEndian.ofBits word).take (width buffer offset)
    .ok (buffer.take offset ++ low ++ buffer.drop (offset + low.length))
  else .error (underrun buffer offset)

/-- Join `word` to the word at `offset` of the buffer by exclusive or. -/
def xor (offset : Nat) (word : BitVec 32) : EStateM Fault (List Byte) Unit := fun buffer =>
  match read buffer offset with
  | .error fault => .error fault buffer
  | .ok here =>
      match write buffer offset (here ^^^ word) with
      | .ok buffer => .ok () buffer
      | .error fault => .error fault buffer

/-- Join words to the buffer, each at its own offset.  A fault ends the work
and leaves what was joined before it. -/
def xorEach : List (Nat × BitVec 32) → EStateM Fault (List Byte) Unit
  | [] => pure ()
  | (offset, word) :: rest => do
      xor offset word
      xorEach rest

/-- How many words a buffer holds, the last one perhaps cut short. -/
def count (buffer : List Byte) : Nat := (buffer.length + 3) / 4

/-- The offsets of the words of a buffer. -/
def offsets (buffer : List Byte) : List Nat := (List.range (count buffer)).map (4 * ·)

end Tail

end KeyLoop
