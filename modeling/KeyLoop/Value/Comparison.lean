/-
# Comparison of values

A comparison is decided when both operands are fully known.  Two partial
words are also known to differ as soon as they disagree on a bit that both
know.  An undecided comparison still pushes zero or one, so all bits of the
outcome but the lowest are known.
-/
import KeyLoop.Value.Basic
import KeyLoop.Value.Operation

namespace KeyLoop

/-- The comparison of two whole words. -/
def CompareOp.onBits {w : Nat} (op : CompareOp) (a b : BitVec w) : Bool :=
  match op with
  | eq => a == b
  | gt .signed => b.slt a
  | gt .unsigned => b.ult a
  | lt .signed => a.slt b
  | lt .unsigned => a.ult b

/-- The comparison of two floats.  The unsigned forms also hold when the
operands are not ordered, that is when one is NaN. -/
def CompareOp.onFloats (op : CompareOp) (x y : Float) : Bool :=
  match op with
  | eq => x == y
  | gt .signed => decide (y < x)
  | gt .unsigned => !decide (x ≤ y)
  | lt .signed => decide (x < y)
  | lt .unsigned => !decide (y ≤ x)

/-- The two words disagree on a bit that both know. -/
def PartialWord.disagrees (a b : PartialWord) : Bool :=
  (a.value ^^^ b.value) &&& (a.known &&& b.known) != 0

/-- The comparison of two partial words, when it is decided. -/
def CompareOp.onWords? (op : CompareOp) (a b : PartialWord) : Option Bool :=
  match a.toBits?, b.toBits? with
  | some x, some y => some (op.onBits x y)
  | _, _ => if op = eq ∧ a.disagrees b then some false else none

/-- The comparison of two integers of mixed width, both widened to 64 bits,
when it is decided. -/
def CompareOp.onWide? (op : CompareOp) (a b : Value) : Option Bool :=
  match a.widened?, b.widened? with
  | some x, some y => some (op.onBits x y)
  | _, _ => none

namespace Value

/-- The outcome of a comparison, when it is decided. -/
def compare? (a : Value) (op : CompareOp) (b : Value) : Option Bool :=
  match a, b with
  | int32 a, int32 b => op.onWords? a b
  | float x, float y => some (op.onFloats x y)
  | a, b => op.onWide? a b

/-- The value a comparison pushes. -/
def compare (a : Value) (op : CompareOp) (b : Value) : Value := (a.compare? op b).elim anyFlag flag

end Value

end KeyLoop
