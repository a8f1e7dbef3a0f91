/-
# Locating the update of a keystream loop

A decrypter folds its input into a running sum, word by word, and the sum is
the next key word.  Two shapes of code give the update of the sum away.

    two-phase      conv.u; ldelem.u1; or; stloc; ldloc L; ldloc; add; stloc L
                   and then, directly or behind a branch, a load of L: the
                   update runs from there to the next store of L
    single-phase   conv.r.un; conv.r8; conv.u4; add
                   the update ends here; it starts where the nearest earlier
                   forward branch leads

The leftmost occurrence counts.  For the two-phase shape it decides alone:
if its update has no end, a later occurrence is not tried.
-/
import KeyLoop.Method.Basic

namespace KeyLoop

/-- The shape by which a loop was located. -/
inductive Strategy where
  | twoPhase | singlePhase
deriving DecidableEq, Repr

def Strategy.name : Strategy → String
  | twoPhase => "TwoPhase"
  | singlePhase => "SinglePhase"

/-- Whether an update is interleaved with guarded decrements, which have no
effect on a local that is not zero. -/
inductive Dialect where
  | standard | guarded
deriving DecidableEq, Repr

def Dialect.name : Dialect → String
  | standard => "StandardLoop"
  | guarded => "GuardedDecrementLoop"

def Dialect.all : List Dialect := [standard, guarded]

/-- The strategies that may be tried. -/
structure Strategies where
  twoPhase : Bool
  singlePhase : Bool
deriving DecidableEq, Repr

namespace Strategies

def both : Strategies := ⟨true, true⟩

/-- The strategies of a bit set; bits without a strategy are ignored. -/
def ofBits (bits : Nat) : Strategies := ⟨bits.testBit 0, bits.testBit 1⟩

/-- The bit set of the strategies. -/
def toBits (s : Strategies) : Nat := s.twoPhase.toNat + 2 * s.singlePhase.toNat

end Strategies

/-- The located update of a keystream loop. -/
structure Window where
  strategy : Strategy
  dialect : Dialect
  /-- The index of its first instruction. -/
  first : Nat
  /-- The index of its last instruction. -/
  last : Nat
  /-- The local that holds the running sum. -/
  accumulator : BitVec 16
  /-- The declared locals it loads or stores, in the order of first use. -/
  touched : List (BitVec 16)
  code : List Instruction
deriving DecidableEq, Repr

namespace Method

/-- The instructions from index `first` to index `last`. -/
def slice (m : Method) (first last : Nat) : List Instruction :=
  (m.code.drop first).take (last + 1 - first)

/-- The declared local that an instruction loads or stores. -/
def touchedLocal? (m : Method) (i : Instruction) : Option (BitVec 16) :=
  (m.loadedLocal? i).or (m.storedLocal? i)

/-- The declared locals that instructions load or store, in the order of first use. -/
def touchedLocals (m : Method) (code : List Instruction) : List (BitVec 16) :=
  (code.filterMap m.touchedLocal?).foldl (fun seen n => if n ∈ seen then seen else seen ++ [n]) []

/-- The window between two indices. -/
def window (m : Method) (strategy : Strategy) (dialect : Dialect) (first last : Nat)
    (accumulator : BitVec 16) : Window :=
  let code := m.slice first last
  { strategy, dialect, first, last, accumulator, code, touched := m.touchedLocals code }

/-! ## Two-phase loops -/

/-- The byte fold at the front of the code: the running sum, and the
instruction behind the fold. -/
def byteFold? (m : Method) : List Instruction → Option (BitVec 16 × Instruction)
  | widen :: element :: join :: keep :: sum :: word :: plus :: save :: behind :: _ => do
      guard (widen.opcode = .convU ∧ element.opcode = .ldelemU1 ∧ join.opcode = .or)
      let _ ← m.storedLocal? keep
      let accumulator ← m.loadedLocal? sum
      let _ ← m.loadedLocal? word
      guard (plus.opcode = .add ∧ m.storedLocal? save = some accumulator)
      return (accumulator, behind)
  | _ => none

/-- The start of the update behind a byte fold at `index`, and the running sum. -/
def twoPhaseStart? (m : Method) (index : Nat) : Option (Nat × BitVec 16) := do
  let (accumulator, behind) ← m.byteFold? (m.code.drop index)
  let start ← if behind.isBr then m.branchTarget? (index + 8) else some (index + 8)
  guard ((m.code[start]?.bind m.loadedLocal?) = some accumulator)
  return (start, accumulator)

/-- The distance from `start` to the first store of a local, through
instructions that do not branch. -/
def distanceToStore? (m : Method) (start : Nat) (accumulator : BitVec 16) : Option Nat :=
  ((m.code.drop start).takeWhile (·.isSequential)).findIdx?
    fun i => m.storedLocal? i = some accumulator

/-- The leftmost two-phase loop. -/
def twoPhase? (m : Method) : Option Window := do
  let (start, accumulator) ← (List.range (m.code.length - 8)).findSome? m.twoPhaseStart?
  let distance ← m.distanceToStore? start accumulator
  guard (0 < distance)
  return m.window .twoPhase .standard start (start + distance - 1) accumulator

/-! ## Single-phase loops -/

/-- The code begins with the floating-point round trip and the addition behind it. -/
def isRoundTrip : List Instruction → Bool
  | unsigned :: double :: cut :: plus :: _ =>
      unsigned.opcode == .convRUn && double.opcode == .convR8 && cut.opcode == .convU4
        && plus.opcode == .add
  | _ => false

/-- Where the unconditional branch at `index` leads, if that is not backward.
Behind a backward branch the branch just before it gets a chance to lead
past it. -/
def forwardTarget? (m : Method) (index : Nat) : Option Nat := do
  let i ← m.code[index]?
  guard i.isBr
  let target ← m.branchTarget? index
  if index ≤ target then return target
  else
    let previous ← if index = 0 then none else m.branchTarget? (index - 1)
    guard (index ≤ previous)
    return previous

/-- Where the last branch at or before `last` that leads forward leads. -/
def nearestTarget? (m : Method) (last : Nat) : Option Nat :=
  (List.range (last + 1)).reverse.findSome? m.forwardTarget?

/-- The dialect of the update that ends with these instructions: guarded if a
branch on inequality lies in the straight line before the end.  The very
first instruction of a method is left out. -/
def dialect (code : List Instruction) : Dialect :=
  let line := (code.drop 1).reverse.takeWhile fun i => i.isSequential || i.isBneUn
  if line.any fun i => !i.isSequential then .guarded else .standard

/-- The single-phase loop whose round trip begins at `index`. -/
def singlePhaseAt? (m : Method) (index : Nat) : Option Window := do
  guard (isRoundTrip (m.code.drop index))
  let last := index + 3
  let first ← m.nearestTarget? last
  guard (first ≤ last)
  let accumulator ← m.code[first]?.bind m.loadedLocal?
  return m.window .singlePhase (dialect (m.code.take (last + 1))) first last accumulator

/-- The leftmost single-phase loop. -/
def singlePhase? (m : Method) : Option Window :=
  (List.range (m.code.length - 3)).findSome? m.singlePhaseAt?

/-! ## Both -/

/-- The keystream loop of a method; the two-phase shape goes first. -/
def locate? (m : Method) (s : Strategies) : Option Window :=
  (if s.twoPhase then m.twoPhase? else none).or (if s.singlePhase then m.singlePhase? else none)

/-- The keystream loop of a method, or the fault that there is none. -/
def locate (m : Method) (s : Strategies) : Except Fault Window :=
  match m.locate? s with
  | some w => .ok w
  | none => .error .loopNotFound

end Method

end KeyLoop
