/-
# Reading bytes in order

A `Reader` takes bytes from the front of a list.  It either succeeds, with
the bytes it left, or fails, with the bytes that were left where it stopped:
a failure does not give back what was read before it.  A `Cursor` is a place
in a buffer, the bytes before it and the bytes after it, from which readers
can be run and which can be moved.
-/
import KeyLoop.Fault

namespace KeyLoop

/-- A computation that takes bytes from the front of a list. -/
abbrev Reader := EStateM Fault (List Byte)

namespace Reader

/-- Take `count` bytes, or none at all when fewer are left. -/
def bytes (count : Nat) : Reader (List Byte) := fun input =>
  if count ≤ input.length then .ok (input.take count) (input.drop count)
  else .error .outOfBounds input

/-- Take one byte. -/
def byte : Reader Byte
  | b :: rest => .ok b rest
  | [] => .error .outOfBounds []

/-- Take a word of `w` bits, a whole number of bytes. -/
def word (w : Nat) : Reader (BitVec w) := do
  return BitVec.ofNat w (LittleEndian.value (← bytes (w / 8)))

def remaining : Reader Nat := do return (← get).length

def words (w : Nat) : (count : Nat) → Reader (List (BitVec w))
  | 0 => return []
  | count + 1 => do return (← word w) :: (← words w count)

/-! ## What is left is shorter -/

/-- The bytes left by a run, whether it succeeded or not. -/
def rest {α : Type} (r : Reader α) (input : List Byte) : List Byte :=
  match r input with
  | .ok _ left => left
  | .error _ left => left

/-- A reader never leaves more than it was given. -/
def Consumes {α : Type} (r : Reader α) : Prop := ∀ input, (r.rest input).length ≤ input.length

theorem consumes_pure {α : Type} (a : α) : Consumes (pure a : Reader α) := fun _ => Nat.le_refl _

theorem consumes_throw {α : Type} (e : Fault) : Consumes (throw e : Reader α) :=
  fun _ => Nat.le_refl _

/-- After a success the second reader starts from what the first one left. -/
theorem rest_bind_ok {α β : Type} {r : Reader α} {f : α → Reader β} {input left : List Byte}
    {a : α} (h : r input = .ok a left) : (r >>= f).rest input = (f a).rest left := by
  simp only [rest, bind, EStateM.bind, h]

/-- Reading on never gives bytes back. -/
theorem length_rest_bind_le {α β : Type} {r : Reader α} {f : α → Reader β}
    (hf : ∀ a, Consumes (f a)) (input : List Byte) :
    ((r >>= f).rest input).length ≤ (r.rest input).length := by
  cases h : r input with
  | error e left => simp [rest, bind, EStateM.bind, h]
  | ok a left =>
    have hr : r.rest input = left := by simp only [rest, h]
    rw [rest_bind_ok h, hr]
    exact hf a left

theorem consumes_bind {α β : Type} {r : Reader α} {f : α → Reader β}
    (hr : Consumes r) (hf : ∀ a, Consumes (f a)) : Consumes (r >>= f) := fun input =>
  Nat.le_trans (length_rest_bind_le hf input) (hr input)

theorem consumes_bytes (count : Nat) : Consumes (bytes count) := by
  intro input
  by_cases h : count ≤ input.length <;> simp [rest, bytes, h]

theorem consumes_byte : Consumes byte := by
  intro input
  cases input <;> simp [rest, byte]

theorem consumes_word (w : Nat) : Consumes (word w) :=
  consumes_bind (consumes_bytes _) fun _ => consumes_pure _

theorem consumes_remaining : Consumes remaining := fun _ => Nat.le_refl _

theorem consumes_words (w count : Nat) : Consumes (words w count) := by
  induction count with
  | zero => exact consumes_pure _
  | succ count ih =>
    exact consumes_bind (consumes_word w) fun _ => consumes_bind ih fun _ => consumes_pure _

end Reader

/-- A place in a buffer. -/
structure Cursor where
  /-- The bytes before the place. -/
  past : List Byte
  /-- The bytes from the place on. -/
  rest : List Byte
deriving DecidableEq, Repr

namespace Cursor

/-- The place at the start of a buffer. -/
def start (data : List Byte) : Cursor := ⟨[], data⟩

def data (c : Cursor) : List Byte := c.past ++ c.rest

/-- The distance from the start of the buffer. -/
def position (c : Cursor) : Nat := c.past.length

/-- The place where only `left` is still to be read. -/
def advance (c : Cursor) (left : List Byte) : Cursor :=
  ⟨c.past ++ c.rest.take (c.rest.length - left.length), left⟩

/-- Run a reader from the place; the cursor stands where the reader stopped,
also when it failed. -/
def read {α : Type} (r : Reader α) : EStateM Fault Cursor α := fun c =>
  match r c.rest with
  | .ok a left => .ok a (c.advance left)
  | .error e left => .error e (c.advance left)

/-- Move to a distance from the start; the place has to be in front of a byte. -/
def seek (position : Nat) : EStateM Fault Cursor Unit := fun c =>
  if position < c.data.length then .ok () ⟨c.data.take position, c.data.drop position⟩
  else .error .outOfBounds c

/-- The next byte, without moving past it. -/
def peek : EStateM Fault Cursor Byte := fun c =>
  match c.rest with
  | b :: _ => .ok b c
  | [] => .error .outOfBounds c

end Cursor

end KeyLoop
