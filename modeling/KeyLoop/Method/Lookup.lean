/-
# Ways of looking up addresses

A method looks up addresses by halving.  What is said of branches is said for
any way of looking up addresses; the index of a branch's target depends on it
in no other way.  The plainest way is to read the code from the front: unlike
halving it finds an address wherever it stands.
-/
import KeyLoop.Method.Basic

namespace KeyLoop

/-- A way of looking up the instruction at an address. -/
abbrev Lookup := BitVec 64 → Option Nat

namespace Method

/-- The index of the first instruction at an address. -/
def scan? (m : Method) : Lookup := fun address => m.code.findIdx? (·.address == address)

/-- The index of the instruction that the one at `index` branches to. -/
def targetBy? (m : Method) (find : Lookup) (index : Nat) : Option Nat := do
  let i ← m.code[index]?
  find (← i.branchTarget?)

end Method

end KeyLoop
