/-
# Slots in a table by index

The slots of a kind can be kept in a table that has a place for every index up
to the greatest one that is declared.  A place without a declaration is empty.
The table grows while declarations are entered, and a place that is taken
keeps its slot: here, too, the first declaration of an index counts.
-/
import KeyLoop.Machine.Slots

namespace KeyLoop

/-- All slots of one kind, by index. -/
structure SparseSlots where
  kind : SlotKind
  /-- The places; those without a declaration are empty. -/
  places : List (Option Slot)
  /-- How many declarations were entered, repeated ones included. -/
  count : Nat
deriving DecidableEq, Repr

namespace SparseSlots

/-- The places, with empty ones behind them up to the one at `index`. -/
def grow (places : List (Option Slot)) (index : Nat) : List (Option Slot) :=
  if places.length ≤ index then places ++ List.replicate (index + 1 - places.length) none else places

/-- Enter a slot at its place, unless that is taken. -/
def enter (places : List (Option Slot)) (slot : Slot) : List (Option Slot) :=
  (grow places slot.index.toNat).modify slot.index.toNat (·.or (some slot))

/-- The table with the slots of these declarations, as they are at first, in
place of those it has. -/
def reset (declarations : List Declaration) (zeroed : Bool) (s : SparseSlots) : SparseSlots :=
  { s with
    places := declarations.foldl (fun places d => enter places (Slots.fresh zeroed d)) []
    count := declarations.length }

def find? (s : SparseSlots) (index : BitVec 16) : Option Slot := s.places[index.toNat]?.join

/-- The flavor that an index is declared with. -/
def flavor? (s : SparseSlots) (index : BitVec 16) : Option Flavor := (s.find? index).map (·.flavor)

def undeclared (s : SparseSlots) (index : BitVec 16) : MachineFault :=
  .slotUndeclared s.kind index s.count

/-- The value of a slot. -/
def get (index : BitVec 16) : EStateM MachineFault SparseSlots Value := fun s =>
  match s.find? index with
  | some slot => .ok slot.value s
  | none => .error (s.undeclared index) s

/-- The table after a store to a slot. -/
def store (s : SparseSlots) (index : BitVec 16) (v : Value) : SparseSlots :=
  { s with
    places := s.places.modify index.toNat fun place =>
      place.map fun slot => { slot with value := v.coerce slot.flavor } }

def set (index : BitVec 16) (v : Value) : EStateM MachineFault SparseSlots Unit := fun s =>
  if (s.find? index).isSome then .ok () (s.store index v)
  else .error (s.undeclared index) s

end SparseSlots

end KeyLoop
