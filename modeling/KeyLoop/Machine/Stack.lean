/-
# `Stack` — the evaluation stack

A list of values with the top in front, and a limit that pushing respects.
Lowering the limit keeps the values that are there.
-/
import KeyLoop.Fault

namespace KeyLoop

structure Stack where
  /-- The values, the top one first. -/
  values : List Value
  /-- How many values a push may lead to. -/
  limit : Nat
deriving DecidableEq, Repr

namespace Stack

/-- A stack without values. -/
def empty (limit : Nat) : Stack := ⟨[], limit⟩

def depth (s : Stack) : Nat := s.values.length

def top? (s : Stack) : Option Value := s.values.head?

/-- The stack without its values. -/
def clear (s : Stack) : Stack := { s with values := [] }

def push (v : Value) : EStateM MachineFault Stack Unit := fun s =>
  if s.depth < s.limit then .ok () { s with values := v :: s.values }
  else .error (.stackOverflow s.limit) s

def pop : EStateM MachineFault Stack Value := fun s =>
  match s.values with
  | v :: rest => .ok v { s with values := rest }
  | [] => .error .stackUnderflow s

def peek : EStateM MachineFault Stack Value := fun s =>
  match s.values with
  | v :: _ => .ok v s
  | [] => .error .stackUnderflow s

/-- Repeat the top value. -/
def dup : EStateM MachineFault Stack Unit := do push (← peek)

/-- Take `count` values away, or none when there are fewer. -/
def discard (count : Nat) : EStateM MachineFault Stack Unit := fun s =>
  if count ≤ s.depth then .ok () { s with values := s.values.drop count }
  else .error .stackUnderflow s

end Stack

end KeyLoop
