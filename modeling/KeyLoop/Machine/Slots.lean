/-
# `Slots` — the locals or the arguments of a method

Slots are declared with an index and a flavor; indices need not be dense.
When an index is declared twice the first declaration counts.  A store
narrows the value to the flavor of the slot; an index without a declaration
can be neither read nor written.
-/
import KeyLoop.Fault
import KeyLoop.Flavor

namespace KeyLoop

/-- The declaration of a slot. -/
structure Declaration where
  index : BitVec 16
  flavor : Flavor
deriving DecidableEq, Repr

/-- A declared slot and what it holds. -/
structure Slot extends Declaration where
  value : Value
deriving DecidableEq, Repr

/-- All slots of one kind. -/
structure Slots where
  kind : SlotKind
  /-- The slots in the order of their declarations. -/
  slots : List Slot
deriving DecidableEq, Repr

namespace Slots

def empty (kind : SlotKind) : Slots := ⟨kind, []⟩

/-- A slot as it is at first: the zero of its flavor, or unknown. -/
def fresh (zeroed : Bool) (d : Declaration) : Slot :=
  { d with value := if zeroed then d.flavor.zero else .unknown }

/-- The slots of these declarations, as they are at first. -/
def declare (kind : SlotKind) (declarations : List Declaration) (zeroed : Bool) : Slots :=
  ⟨kind, declarations.map (fresh zeroed)⟩

def count (s : Slots) : Nat := s.slots.length

def find? (s : Slots) (index : BitVec 16) : Option Slot := s.slots.find? (·.index == index)

/-- The flavor that an index is declared with. -/
def flavor? (s : Slots) (index : BitVec 16) : Option Flavor := (s.find? index).map (·.flavor)

def undeclared (s : Slots) (index : BitVec 16) : MachineFault :=
  .slotUndeclared s.kind index s.count

/-- The value of a slot. -/
def get (index : BitVec 16) : EStateM MachineFault Slots Value := fun s =>
  match s.find? index with
  | some slot => .ok slot.value s
  | none => .error (s.undeclared index) s

/-- The slots after a store to one of them. -/
def store (s : Slots) (index : BitVec 16) (v : Value) : Slots :=
  { s with slots := s.slots.map fun slot =>
      if slot.index = index then { slot with value := v.coerce slot.flavor } else slot }

def set (index : BitVec 16) (v : Value) : EStateM MachineFault Slots Unit := fun s =>
  if (s.find? index).isSome then .ok () (s.store index v)
  else .error (s.undeclared index) s

end Slots

end KeyLoop
