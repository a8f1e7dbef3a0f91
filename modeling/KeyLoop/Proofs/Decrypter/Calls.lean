/-
# A calculation has no memory

A decrypter keeps the state of its machine from call to call, and a call that
fails leaves it wherever the run stopped: with values on the stack, stores
done, and steps counted.  None of this is ever read again.  A calculation
enters the method first, and entering takes over the limits of the machine
and nothing else, so it is enough that every call, also a failing one, keeps

    the generator, the strategies, the limits      (`SameLoop`)

One call keeps them (`sameLoop_afterCall`), and so do any number of calls in
any order (`sameLoop_afterCalls`).
-/
import KeyLoop.Proofs.Window.Chain
import KeyLoop.Decrypter

namespace KeyLoop

namespace Generator

/-- A keystream leaves the limits alone, wherever it stops. -/
theorem limits_keystream (g : Generator) (count : Nat) (sum : BitVec 32) (m : Machine) :
    (g.keystream sum count m).2.limits = m.limits := by
  induction count generalizing sum m with
  | zero => rfl
  | succ count ih =>
    have hword := limits_keyWord g sum m
    rw [keystream]
    cases hr : g.keyWord sum m with
    | ok word n =>
      rw [after_ok hr] at hword
      exact (ih word n).trans hword
    | error fault n =>
      rw [after_error hr] at hword
      exact hword

end Generator

namespace Decrypter

/-- What may be asked of a decrypter. -/
inductive Call where
  | keyWord (input : BitVec 32)
  | keystream (count : Nat)
  | decrypt (resource : List Byte)
  | decryptInPlace (resource : List Byte)
deriving DecidableEq, Repr

/-- The decrypter after a call, whether the call succeeds or fails. -/
def afterCall (d : Decrypter Machine) : Call → Decrypter Machine
  | .keyWord input => after (keyWord input) d
  | .keystream count => (keystream count d).2
  | .decrypt resource => after (decrypt resource) d
  | .decryptInPlace resource => (after decryptInPlace (d, resource)).1

/-- The decrypter after calls, one after the other. -/
def afterCalls (d : Decrypter Machine) : List Call → Decrypter Machine
  | [] => d
  | call :: calls => afterCalls (d.afterCall call) calls

/-- The decrypters run the same loop under the same limits. -/
structure SameLoop (c d : Decrypter Machine) : Prop where
  generator : c.generator = d.generator
  strategies : c.strategies = d.strategies
  limits : c.machine.limits = d.machine.limits

namespace SameLoop

variable {c d e : Decrypter Machine}

theorem refl (d : Decrypter Machine) : SameLoop d d := ⟨rfl, rfl, rfl⟩

theorem trans (h : SameLoop c d) (h' : SameLoop d e) : SameLoop c e :=
  ⟨h.generator.trans h'.generator, h.strategies.trans h'.strategies, h.limits.trans h'.limits⟩

end SameLoop

/-! ## What a call keeps -/

theorem sameLoop_keyWord (input : BitVec 32) (d : Decrypter Machine) :
    SameLoop (after (keyWord input) d) d := by
  have hlimits := d.generator.limits_keyWord input d.machine
  cases hr : d.generator.keyWord input d.machine with
  | ok word m =>
    rw [after_ok hr] at hlimits
    have hcall : keyWord input d = .ok word { d with machine := m } := by
      simp only [keyWord, hr]
    rw [after_ok hcall]
    exact ⟨rfl, rfl, hlimits⟩
  | error cause m =>
    rw [after_error hr] at hlimits
    have hcall : keyWord input d = .error (.keyWord cause) { d with machine := m } := by
      simp only [keyWord, hr]
    rw [after_error hcall]
    exact ⟨rfl, rfl, hlimits⟩

theorem sameLoop_keystream (count : Nat) (d : Decrypter Machine) :
    SameLoop (keystream count d).2 d :=
  ⟨rfl, rfl, d.generator.limits_keystream count 0 d.machine⟩

/-- The words of a resource leave the decrypter as the keystream does. -/
theorem after_keyWords (count : Nat) (d : Decrypter Machine) :
    after (keyWords count) d = (keystream count d).2 := by
  cases hitems : keystream count d with
  | mk items c =>
    cases hwords : items.mapM id with
    | ok words => simp only [after, keyWords, hitems, hwords]
    | error cause => simp only [after, keyWords, hitems, hwords]

/-- Decryption leaves the decrypter as the words of the resource do. -/
theorem after_decryptInPlace (resource : List Byte) (d : Decrypter Machine) :
    (after decryptInPlace (d, resource)).1 = (keystream (Tail.count resource) d).2 := by
  rw [← after_keyWords]
  cases hr : keyWords (Tail.count resource) d with
  | error fault c => simp only [after, decryptInPlace, hr]
  | ok words c =>
    cases hx : Tail.xorEach ((Tail.offsets resource).zip words) resource with
    | ok u plain => simp only [after, decryptInPlace, hr, hx]
    | error fault rest => simp only [after, decryptInPlace, hr, hx]

theorem after_decrypt (resource : List Byte) (d : Decrypter Machine) :
    after (decrypt resource) d = (keystream (Tail.count resource) d).2 := by
  rw [← after_decryptInPlace]
  cases hr : decryptInPlace (d, resource) with
  | ok u s => simp only [after, decrypt, hr]
  | error fault s => simp only [after, decrypt, hr]

/-- A call keeps the loop and the limits, at whatever point it fails. -/
theorem sameLoop_afterCall (d : Decrypter Machine) (call : Call) : SameLoop (d.afterCall call) d := by
  cases call with
  | keyWord input => exact sameLoop_keyWord input d
  | keystream count => exact sameLoop_keystream count d
  | decrypt resource =>
    rw [afterCall, after_decrypt]
    exact sameLoop_keystream _ d
  | decryptInPlace resource =>
    rw [afterCall, after_decryptInPlace]
    exact sameLoop_keystream _ d

/-- Any number of calls keeps the loop and the limits. -/
theorem sameLoop_afterCalls (d : Decrypter Machine) (calls : List Call) :
    SameLoop (d.afterCalls calls) d := by
  induction calls generalizing d with
  | nil => exact .refl d
  | cons call calls ih => exact (ih (d.afterCall call)).trans (sameLoop_afterCall d call)

/-! ## What an answer depends on -/

/-- Decrypters of one loop and the same limits not only answer alike, they
are also left alike. -/
theorem keyWord_congr {c d : Decrypter Machine} (h : SameLoop c d) (input : BitVec 32) :
    keyWord input c = keyWord input d := by
  obtain ⟨g, strategies, m⟩ := c
  obtain ⟨g', strategies', n⟩ := d
  obtain ⟨rfl, rfl, hlimits⟩ := h
  simp only [keyWord, g.keyWord_congr input hlimits]

/-- **A calculation has no memory.**  Whatever calls were made on a decrypter
before, succeeding or failing, a calculation answers what it answers on the
decrypter as it was before all of them, and on one with a new machine.  To a
run of the update only the limits of the machine matter. -/
theorem keyWord_afterCalls (d : Decrypter Machine) (calls : List Call) (input : BitVec 32) :
    outcome (keyWord input (d.afterCalls calls)) = outcome (keyWord input d) ∧
      outcome (keyWord input d) =
        outcome (keyWord input { d with machine := Machine.new d.machine.limits }) ∧
      ∀ m n : Machine, m.limits = n.limits →
        d.generator.runWindow input m = d.generator.runWindow input n := by
  have hcalls : SameLoop (d.afterCalls calls) d := sameLoop_afterCalls d calls
  have hnew : SameLoop d { d with machine := Machine.new d.machine.limits } := ⟨rfl, rfl, rfl⟩
  refine ⟨congrArg outcome (keyWord_congr hcalls input), congrArg outcome (keyWord_congr hnew input), ?_⟩
  intro m n hlimits
  exact d.generator.runWindow_congr input hlimits

end Decrypter

end KeyLoop
