/-
# Method bodies — the header in front of the code

The two low bits of the first byte tell the format.  A tiny header is that
one byte, with the code size in its upper six bits.  A fat header has at
least twelve bytes: flags and its own size in words, the stack limit, the
code size, and the token of the locals' signature.
-/
import KeyLoop.Fault
import KeyLoop.Instruction.Basic

namespace KeyLoop

/-- What a method header says. -/
structure Body where
  codeSize : Nat
  headerSize : Nat
  /-- The token of the locals' signature, zero when there are no locals. -/
  localsToken : BitVec 32
  maxStack : Nat
  isFat : Bool
  initLocals : Bool
  /-- More data follows the code. -/
  hasSections : Bool
deriving DecidableEq, Repr

namespace Body

def size (b : Body) : Nat := b.codeSize + b.headerSize

/-- The number in `count` bytes from `start` on. -/
def field (data : List Byte) (start count : Nat) : Nat :=
  LittleEndian.value ((data.drop start).take count)

/-- The stack limit of methods with a tiny header. -/
def tinyMaxStack : Nat := 8

/-- The body behind a tiny header. -/
def tiny (first : Byte) (data : List Byte) : Except Fault Body :=
  let codeSize := first.toNat / 4
  if data.length < codeSize + 1 then .error .outOfBounds
  else .ok
    { codeSize, headerSize := 1, localsToken := 0, maxStack := tinyMaxStack
      isFat := false, initLocals := false, hasSections := false }

/-- The body behind a fat header. -/
def fat (data : List Byte) : Except Fault Body :=
  if data.length < 12 then .error .outOfBounds
  else
    let flags := field data 0 2
    let headerSize := (flags >>> 12) * 4
    let codeSize := field data 4 4
    if headerSize < 12 then .error (.malformed (.headerTooShort headerSize))
    else if data.length < codeSize + headerSize then .error .outOfBounds
    else .ok
      { codeSize, headerSize
        localsToken := BitVec.ofNat 32 (field data 8 4)
        maxStack := field data 2 2
        isFat := true
        initLocals := flags.testBit 4
        hasSections := flags.testBit 3 }

/-- Read the header at the start of the data. -/
def parse (data : List Byte) : Except Fault Body :=
  match data with
  | [] => .error (.malformed .emptyBody)
  | first :: _ =>
      if first.toNat % 4 = 2 then tiny first data
      else if first.toNat % 4 = 3 then fat data
      else .error (.malformed (.unknownHeader first))

/-- The code of the body within the data. -/
def code (b : Body) (data : List Byte) : Except Fault (List Byte) :=
  if b.size ≤ data.length then .ok ((data.drop b.headerSize).take b.codeSize)
  else .error .outOfBounds

end Body

end KeyLoop
