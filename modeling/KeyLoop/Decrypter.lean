/-
# `Decrypter` — a resource and the keystream over it

A decrypter is made from a method once its loop is located; from then on it
needs the method no more.  The keystream starts with the word that follows
zero, and every word is joined by exclusive or to four bytes of the resource,
the last one to as many as are left.

All key words of a resource are computed before its first byte is changed,
so a resource whose keystream ends early stays as it is.  A decrypter keeps
the state of its machine between calls, also after a failed one.
-/
import KeyLoop.Bytes.Tail
import KeyLoop.Window.KeyWord

namespace KeyLoop

/-- What may be chosen when a decrypter is made. -/
structure Configuration where
  strategies : Strategies
  limits : Limits
deriving DecidableEq, Repr

namespace Configuration

/-- Both strategies, with the standard limits. -/
def standard : Configuration := ⟨.both, .standard⟩

def twoPhaseOnly : Configuration := { standard with strategies := ⟨true, false⟩ }

def singlePhaseOnly : Configuration := { standard with strategies := ⟨false, true⟩ }

end Configuration

/-- A located loop with the machine it runs on. -/
structure Decrypter (σ : Type) where
  generator : Generator
  /-- The strategies by which the loop was looked for. -/
  strategies : Strategies
  machine : σ
deriving DecidableEq, Repr

namespace Decrypter

/-- The decrypter for a method, running on the given machine. -/
def onMachine {σ : Type} (method : Method) (machine : σ) (strategies : Strategies) :
    Except Fault (Decrypter σ) := do
  let window ← method.locate strategies
  return { generator := .ofWindow method window, strategies, machine }

/-- The decrypter for a method. -/
def ofMethod (method : Method) (c : Configuration) : Except Fault (Decrypter Machine) :=
  onMachine method (.new c.limits) c.strategies

variable {σ : Type} [Emulator σ]

/-- The key word that follows `input`. -/
def keyWord (input : BitVec 32) : EStateM Fault (Decrypter σ) (BitVec 32) := fun d =>
  match d.generator.keyWord input d.machine with
  | .ok word machine => .ok word { d with machine }
  | .error cause machine => .error (.keyWord cause) { d with machine }

/-- The first `count` items of the keystream; after an item that is a fault
there are no more. -/
def keystream (count : Nat) : StateM (Decrypter σ) (List (Except KeyWordFault (BitVec 32))) :=
  fun d =>
    let (items, machine) := d.generator.keystream 0 count d.machine
    (items, { d with machine })

/-- The first `count` words of the keystream, or the fault of the first that
cannot be computed. -/
def keyWords (count : Nat) : EStateM Fault (Decrypter σ) (List (BitVec 32)) := fun d =>
  let (items, d) := keystream count d
  match items.mapM id with
  | .ok words => .ok words d
  | .error cause => .error (.keyWord cause) d

/-- Decrypt a resource where it is.  The key words come first; only when all
of them are there are they joined to the resource, one after the other. -/
def decryptInPlace : EStateM Fault (Decrypter σ × List Byte) Unit := fun (d, resource) =>
  match keyWords (Tail.count resource) d with
  | .error fault d => .error fault (d, resource)
  | .ok words d =>
      match Tail.xorEach ((Tail.offsets resource).zip words) resource with
      | .ok _ resource => .ok () (d, resource)
      | .error fault resource => .error fault (d, resource)

/-- The decrypted resource: a copy of it, decrypted where it is. -/
def decrypt (resource : List Byte) : EStateM Fault (Decrypter σ) (List Byte) := fun d =>
  match decryptInPlace (d, resource) with
  | .ok _ (d, plain) => .ok plain d
  | .error fault (d, _) => .error fault d

/-- Decrypt resources that have nothing to do with each other, every one
with a decrypter in the given state.  The answers keep the order of the
resources; the first fault in that order stands for all. -/
def decryptAll (d : Decrypter σ) (resources : List (List Byte)) : Except Fault (List (List Byte)) :=
  resources.mapM fun resource =>
    match decrypt resource d with
    | .ok plain _ => .ok plain
    | .error fault _ => .error fault

end Decrypter

end KeyLoop
