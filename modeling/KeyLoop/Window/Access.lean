/-
# Locating with every access in sight

Locating reads code by index, and here reading where nothing stands is a fault
of the search.  Four kinds of access are told apart.

    entry      the element at an index, which must be there
    suffix     the elements from an index on, which may be the end
    between    the elements between two indices, which must be there; an empty
               range may begin behind its end
    part?      so many elements from an index on; nothing is found if there are fewer

What is asked of an element, or checked, is asked of one that must be there.

The search is the one of `Method.locate?`, step by step and in the same order;
only addresses are looked up in any way one likes, since on code that is not in
the order of its addresses ways differ.
-/
import KeyLoop.Method.Lookup
import KeyLoop.Window.Locate

namespace KeyLoop

/-- An access to an index at which nothing stands. -/
structure OutOfRange where
  index : Nat
  length : Nat
deriving DecidableEq, Repr

/-- A search that reads by index: it finds something, it finds nothing, or it
reads where nothing stands. -/
abbrev Search (α : Type) := OptionT (Except OutOfRange) α

namespace Search

variable {α : Type}

def outOfRange (l : List α) {β : Type} (index : Nat) : Search β := OptionT.mk (.error ⟨index, l.length⟩)

def entry (l : List α) (index : Nat) : Search α :=
  match l[index]? with
  | some a => pure a
  | none => outOfRange l index

def suffix (l : List α) (first : Nat) : Search (List α) :=
  if first ≤ l.length then pure (l.drop first) else outOfRange l first

def between (l : List α) (first last : Nat) : Search (List α) :=
  if last < l.length then
    if first ≤ last + 1 then pure ((l.drop first).take (last + 1 - first)) else outOfRange l first
  else outOfRange l last

def part? (l : List α) (first count : Nat) : Search (List α) :=
  if first + count ≤ l.length then pure ((l.drop first).take count) else failure

/-- What is asked of the element at an index, which must be there. -/
def ask {β : Type} (l : List α) (index : Nat) (question : α → Option β) : Search β := do
  (question (← entry l index)).getM

/-- Go on if the element at an index, which must be there, passes a test. -/
def check (l : List α) (index : Nat) (test : α → Bool) : Search Unit := do
  guard (test (← entry l index))

end Search

/-- What a search for a loop finds: the ends of the update, and its running sum. -/
structure Found where
  strategy : Strategy
  dialect : Dialect
  first : Nat
  last : Nat
  accumulator : BitVec 16
deriving DecidableEq, Repr

namespace Method

open Search

variable (m : Method) (find : Lookup)

/-! ## Two-phase loops -/

/-- The byte fold that the code is: the running sum, and the instruction behind the fold. -/
def byteFoldBy (shape : List Instruction) : Search (BitVec 16 × Instruction) := do
  check shape 0 (·.opcode == .convU)
  check shape 1 (·.opcode == .ldelemU1)
  check shape 2 (·.opcode == .or)
  let _ ← ask shape 3 m.storedLocal?
  let accumulator ← ask shape 4 m.loadedLocal?
  let _ ← ask shape 5 m.loadedLocal?
  check shape 6 (·.opcode == .add)
  check shape 7 (m.storedLocal? · == some accumulator)
  let behind ← entry shape 8
  return (accumulator, behind)

/-- The start of the update behind a byte fold at `index`, and the running sum. -/
def twoPhaseStartBy (index : Nat) : Search (Nat × BitVec 16) := do
  let (accumulator, behind) ← m.byteFoldBy (← part? m.code index 9)
  let start ← (if behind.isBr then m.targetBy? find (index + 8) else some (index + 8)).getM
  check m.code start (m.loadedLocal? · == some accumulator)
  return (start, accumulator)

/-- The ends of the leftmost two-phase loop. -/
def twoPhaseBy : Search Found := do
  let (start, accumulator) ← (List.range (m.code.length - 8)).firstM (m.twoPhaseStartBy find)
  let line := (← suffix m.code start).takeWhile (·.isSequential)
  let distance ← (line.findIdx? fun i => m.storedLocal? i = some accumulator).getM
  guard (0 < start + distance)
  let last := start + distance - 1
  guard (start ≤ last)
  return { strategy := .twoPhase, dialect := .standard, first := start, last, accumulator }

/-! ## Single-phase loops -/

/-- Where the unconditional branch at `index` leads, if that is not backward. -/
def forwardTargetBy (index : Nat) : Search Nat := do
  check m.code index (·.isBr)
  let target ← (m.targetBy? find index).getM
  if index ≤ target then return target
  let previous ← (if index = 0 then none else m.targetBy? find (index - 1)).getM
  guard (index ≤ previous)
  return previous

/-- Where the last branch at or before `last` that leads forward leads. -/
def nearestTargetBy (last : Nat) : Search Nat :=
  (List.range (last + 1)).reverse.firstM (m.forwardTargetBy find)

/-- The code is the floating-point round trip and the addition behind it. -/
def roundTripBy (shape : List Instruction) : Search Unit := do
  check shape 0 (·.opcode == .convRUn)
  check shape 1 (·.opcode == .convR8)
  check shape 2 (·.opcode == .convU4)
  check shape 3 (·.opcode == .add)

/-- The ends of the single-phase loop whose round trip begins at `index`. -/
def singlePhaseAtBy (index : Nat) : Search Found := do
  roundTripBy (← part? m.code index 4)
  let last := index + 3
  let first ← m.nearestTargetBy find last
  guard (first ≤ last)
  let accumulator ← ask m.code first m.loadedLocal?
  let before ← between m.code 0 last
  return { strategy := .singlePhase, dialect := dialect before, first, last, accumulator }

/-- The ends of the leftmost single-phase loop. -/
def singlePhaseBy : Search Found :=
  (List.range (m.code.length - 3)).firstM (m.singlePhaseAtBy find)

/-! ## Both -/

/-- The window between the ends that were found. -/
def windowOf (f : Found) : Search Window := do
  let code ← between m.code f.first f.last
  return { f with code, touched := m.touchedLocals code }

/-- The keystream loop of a method; the two-phase shape goes first. -/
def locateBy (s : Strategies) : Search Window := do
  let found ← (if s.twoPhase then m.twoPhaseBy find else failure) <|>
    (if s.singlePhase then m.singlePhaseBy find else failure)
  m.windowOf found

end Method

end KeyLoop
