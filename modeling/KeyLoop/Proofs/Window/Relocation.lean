/-
# Methods at another address

A method does not come to depend on where its code stood when it was decoded.
Everything behind decoding speaks of instructions by their index, and there is
one place where an address becomes an index: the branch target that is looked
up among the addresses of the code.

    decoding          shifts the addresses and the targets   (`decode_relocate`)
    branchTarget?     finds the same index, or none
    locate            finds the same window, in shifted code
    keyWord           runs it to the same word or fault

A target and the addresses it is compared with are shifted by one distance,
and shifting is one to one, also where it wraps around; so a target stands at
the same index at both places, be it inside the code or outside.  As long as
the code does not reach past the last address, the addresses of its
instructions ascend at both places, and halving finds what stands there.
-/
import KeyLoop.Proofs.Instruction.Relocation
import KeyLoop.Proofs.Window.Shape
import KeyLoop.Proofs.Window.TwoPhase
import KeyLoop.Window.KeyWord

namespace KeyLoop

variable {r : BitVec 64}

/-- The same window in code that starts `r` addresses further up. -/
def Window.relocate (r : BitVec 64) (w : Window) : Window :=
  { w with code := w.code.map (·.relocate r) }

/-- The same method with code that starts `r` addresses further up. -/
def Method.relocate (r : BitVec 64) (m : Method) : Method :=
  { m with code := m.code.map (·.relocate r) }

/-! ## Branches -/

/-- The target of a decoded instruction is shifted with it. -/
theorem Instruction.IsStatement.branchTarget?_relocate {i : Instruction} (hi : i.IsStatement)
    (r : BitVec 64) : (i.relocate r).branchTarget? = i.branchTarget?.map (· + r) := by
  obtain ⟨s, address, offset, rfl⟩ := hi
  rw [s.relocate_instruction, s.branchTarget?_instruction, s.branchTarget?_instruction,
    ← s.relocate_instruction]
  exact List.head?_map ..

namespace Method

variable {m : Method}

/-- A shifted address stands where the address stood. -/
theorem at_relocate_iff {address : BitVec 64} {k : Nat} :
    (m.relocate r).At k (·.address = address + r) ↔ m.At k (·.address = address) := by
  have hcode : (m.relocate r).code[k]? = m.code[k]?.map (·.relocate r) := List.getElem?_map
  unfold At
  rw [hcode]
  constructor
  · rintro ⟨_, hshifted, haddress⟩
    obtain ⟨i, hi, rfl⟩ := Option.map_eq_some_iff.mp hshifted
    exact ⟨i, hi, (BitVec.add_left_inj r).mp haddress⟩
  · rintro ⟨i, hi, rfl⟩
    exact ⟨i.relocate r, Option.map_eq_some_iff.mpr ⟨i, hi, rfl⟩, rfl⟩

/-- A shifted address is found where the address was found, if the code is in
order at both places. -/
theorem indexOf?_relocate (h : m.Ascending) (h' : (m.relocate r).Ascending) (address : BitVec 64) :
    (m.relocate r).indexOf? (address + r) = m.indexOf? address := by
  refine Option.ext fun k => ?_
  rw [finds_indexOf? _ h', finds_indexOf? _ h, at_relocate_iff]

theorem window_relocate (r : BitVec 64) (strategy : Strategy) (dialect : Dialect) (first last : Nat)
    (sum : BitVec 16) :
    (m.relocate r).window strategy dialect first last sum =
      (m.window strategy dialect first last sum).relocate r := by
  have hslice : (m.relocate r).slice first last = (m.slice first last).map (·.relocate r) := by
    simp only [slice, relocate, List.map_take, List.map_drop]
  have htouched (code : List Instruction) :
      (m.relocate r).touchedLocals (code.map (·.relocate r)) = m.touchedLocals code := by
    rw [touchedLocals, List.filterMap_map]
    rfl
  simp only [window, Window.relocate, hslice, htouched]

/-- The same code at two places, in order at both. -/
structure InOrderAt (m : Method) (r : BitVec 64) : Prop where
  isStatement : ∀ i ∈ m.code, i.IsStatement
  here : m.Ascending
  there : (m.relocate r).Ascending

variable (hm : m.InOrderAt r)
include hm

/-- A branch leads to the same index. -/
theorem branchTarget?_relocate (k : Nat) : (m.relocate r).branchTarget? k = m.branchTarget? k := by
  have hcode : (m.relocate r).code[k]? = m.code[k]?.map (·.relocate r) := List.getElem?_map
  unfold branchTarget?
  rw [hcode]
  cases hi : m.code[k]? with
  | none => rfl
  | some i =>
    have htarget := (hm.isStatement i (List.mem_of_getElem? hi)).branchTarget?_relocate r
    have hlookup : (fun address => (m.relocate r).indexOf? address) ∘ (· + r) = m.indexOf? :=
      funext (indexOf?_relocate hm.here hm.there)
    show (i.relocate r).branchTarget?.bind (m.relocate r).indexOf? = i.branchTarget?.bind m.indexOf?
    rw [htarget, Option.bind_map, hlookup]

/-! ## Locating -/

theorem alike_relocate : List.Forall₂ (Instruction.Alike id) m.code (m.relocate r).code :=
  List.forall₂_map_right_iff.mpr <| List.forall₂_same.mpr fun i hi =>
    ⟨hm.isStatement i hi, (hm.isStatement i hi).relocate r, (hm.isStatement i hi).sameShape_relocate r⟩

theorem sameShape_relocate : m.SameShape id (m.relocate r) where
  injective := Function.injective_id
  arguments := rfl
  locals := fun _ => rfl
  initLocals := rfl
  code := (alike_relocate hm).imp fun _ _ hij => hij.shape
  targets := branchTarget?_relocate hm

/-- Windows between the same ends are the same but for where they stand. -/
theorem locate?_relocate (s : Strategies) :
    (m.relocate r).locate? s = (m.locate? s).map (·.relocate r) := by
  have hsearch := (sameShape_relocate hm).locate?_rel (alike_relocate hm) s
  revert hsearch
  generalize hfound : m.locate? s = found
  generalize hfound' : (m.relocate r).locate? s = found'
  rintro (hends | _)
  · rename_i w w'
    refine congrArg some ?_
    calc w' = (m.relocate r).window w'.strategy w'.dialect w'.first w'.last w'.accumulator :=
          eq_window_of_locate? hfound'
      _ = (m.relocate r).window w.strategy w.dialect w.first w.last w.accumulator := by
          rw [hends.strategy, hends.dialect, hends.first, hends.last, hends.accumulator, id]
      _ = (m.window w.strategy w.dialect w.first w.last w.accumulator).relocate r :=
          window_relocate ..
      _ = w.relocate r := by rw [← eq_window_of_locate? hfound]
  · rfl

theorem locate_relocate (s : Strategies) :
    (m.relocate r).locate s = (m.locate s).map (·.relocate r) := by
  unfold locate
  rw [locate?_relocate hm]
  cases m.locate? s <;> rfl

end Method

/-! ## Key words -/

namespace Generator

/-- A step does not look at where the instruction stands. -/
theorem step_relocate (r : BitVec 64) (i : Instruction) :
    (Emulator.step (i.relocate r) : EStateM MachineFault Machine Unit) = Emulator.step i := rfl

theorem guardedLocal?_relocate (r : BitVec 64) (code : List Instruction) :
    guardedLocal? (code.map (·.relocate r)) = guardedLocal? code := by
  rcases code with _ | ⟨_, _ | ⟨_, _ | ⟨_, _ | ⟨_, _ | ⟨_, _ | ⟨_, _ | _⟩⟩⟩⟩⟩⟩ <;> rfl

theorem runCode_relocate (r : BitVec 64) (guarded : Bool) (code : List Instruction) (m : Machine) :
    runCode guarded (code.map (·.relocate r)) m = runCode guarded code m := by
  induction code using runCode.induct generalizing m with
  | case1 => rfl
  | case2 i rest ihSkip ihRest =>
    have hdead : guardIsDead m ((i :: rest).map (·.relocate r)) = guardIsDead m (i :: rest) := by
      rw [guardIsDead, guardIsDead, guardedLocal?_relocate]
    rw [List.map_cons, runCode, runCode]
    dsimp only
    rw [← List.map_cons, hdead, step_relocate]
    split
    · rw [← List.map_drop]
      exact ihSkip m
    · cases Emulator.step i m with
      | ok _ s => exact ihRest s
      | error e s => rfl

theorem runWindow_relocate (m : Method) (r : BitVec 64) (w : Window) (input : BitVec 32) :
    (ofWindow (m.relocate r) (w.relocate r)).runWindow input =
      ((ofWindow m w).runWindow input : EStateM MachineFault Machine Value) := by
  have hcode : runCode (w.dialect == .guarded) (w.code.map (·.relocate r)) =
      (runCode (w.dialect == .guarded) w.code : EStateM MachineFault Machine Unit) :=
    funext (runCode_relocate r _ w.code)
  exact congrArg (fun update : EStateM MachineFault Machine Unit => do
    modify (Emulator.enter m.arguments m.locals m.initLocals)
    Emulator.setLocal w.accumulator (.ofBits input)
    update
    Emulator.pop) hcode

theorem keyWord_relocate (m : Method) (r : BitVec 64) (w : Window) (input : BitVec 32) :
    (ofWindow (m.relocate r) (w.relocate r)).keyWord input =
      ((ofWindow m w).keyWord input : EStateM KeyWordFault Machine (BitVec 32)) := by
  funext s
  rw [keyWord, keyWord, runWindow_relocate]

end Generator

/-! ## Position independence -/

namespace Method

/-- **Code does not depend on where it stands.**  Bytes that do not reach past
the last address are decoded at `r` as they are at zero: to the same fault, or
to the same instructions, shifted by `r`.  The addresses ascend at both places.
In the two methods with these instructions and the same slots each branch
leads to the same index; the same loop is located, whichever strategies are
tried; and from every state of the machine every input gives the same key
word, or the same fault. -/
theorem position_independent (r : BitVec 64) (bytes : List Byte)
    (hroom : r.toNat + bytes.length < 0x10000000000000000) :
    (∃ fault, decode 0 bytes = .error fault ∧ decode r bytes = .error (fault.relocate r)) ∨
    ∃ code, decode 0 bytes = .ok code ∧ decode r bytes = .ok (code.map (·.relocate r)) ∧
      code.Pairwise (·.address.toNat < ·.address.toNat) ∧
      (code.map (·.relocate r)).Pairwise (·.address.toNat < ·.address.toNat) ∧
      ∀ (token : Token) (name : String) (arguments locals : List Declaration) (initLocals : Bool),
        let m := ofInstructions token name code arguments locals initLocals
        let m' := ofInstructions token name (code.map (·.relocate r)) arguments locals initLocals
        (∀ k, m'.branchTarget? k = m.branchTarget? k) ∧
        (∀ s, m'.locate s = (m.locate s).map (·.relocate r)) ∧
        ∀ w input, (Generator.ofWindow m' (w.relocate r)).keyWord input =
          ((Generator.ofWindow m w).keyWord input : EStateM KeyWordFault Machine (BitVec 32)) := by
  have hshift := decode_relocate r 0 bytes
  rw [show 0 + r = r from BitVec.zero_add r] at hshift
  cases hdecode : decode 0 bytes with
  | error fault =>
    rw [hdecode] at hshift
    exact .inl ⟨fault, rfl, hshift⟩
  | ok code =>
    rw [hdecode] at hshift
    have hzero : (0 : BitVec 64).toNat = 0 := rfl
    have hhere := ascending_decode hdecode (by omega)
    have hthere := ascending_decode hshift (Nat.le_of_lt hroom)
    refine .inr ⟨code, rfl, hshift, hhere, hthere, fun token name arguments locals initLocals => ?_⟩
    let m := ofInstructions token name code arguments locals initLocals
    have hm : m.InOrderAt r := ⟨fun i hi => isStatement_of_mem_decode hdecode hi, hhere, hthere⟩
    exact ⟨branchTarget?_relocate hm, locate_relocate hm, Generator.keyWord_relocate m r⟩

/-- A byte fold with a branch behind it, at address zero and far up. -/
theorem position_independent_foldAndBranch :
    ∃ code w, decode 0 foldAndBranch = .ok code ∧
      decode 0x180002050 foldAndBranch = .ok (code.map (·.relocate 0x180002050)) ∧
      let m := ofInstructions ⟨0⟩ "" code [] [⟨0, .i4⟩, ⟨1, .i4⟩] true
      let m' := ofInstructions ⟨0⟩ "" (code.map (·.relocate 0x180002050)) [] [⟨0, .i4⟩, ⟨1, .i4⟩] true
      m.branchTarget? 8 = some 10 ∧ m'.branchTarget? 8 = some 10 ∧
        m.locate .both = .ok w ∧ m'.locate .both = .ok (w.relocate 0x180002050) ∧
        w.first = 10 ∧ w.last = 12 ∧
        ∀ input, (Generator.ofWindow m' (w.relocate 0x180002050)).keyWord input =
          ((Generator.ofWindow m w).keyWord input : EStateM KeyWordFault Machine (BitVec 32)) := by
  have hchecks : decodesTo foldAndBranch (fun code =>
      let m := ofInstructions ⟨0⟩ "" code [] [⟨0, .i4⟩, ⟨1, .i4⟩] true
      m.branchTarget? 8 == some 10 &&
        (m.locate? .both).any fun w => w.first == 10 && w.last == 12) = true := by
    decide +kernel
  obtain ⟨code, hdecode, hcode⟩ := exists_of_decodesTo _ _ hchecks
  simp only [Bool.and_eq_true, beq_iff_eq, Option.any_eq_true] at hcode
  obtain ⟨htarget, w, hw, hfirst, hlast⟩ := hcode
  have hlocate := locate_eq_ok_iff.mpr hw
  rcases position_independent 0x180002050 foldAndBranch (by decide) with
    ⟨fault, herror, -⟩ | ⟨code', hdecode', hshift, -, -, hmethods⟩
  · rw [hdecode] at herror
    cases herror
  · obtain rfl : code = code' := Except.ok.inj (hdecode.symm.trans hdecode')
    obtain ⟨hbranches, hwindows, hwords⟩ := hmethods ⟨0⟩ "" [] [⟨0, .i4⟩, ⟨1, .i4⟩] true
    refine ⟨code, w, hdecode, hshift, htarget, (hbranches 8).trans htarget, hlocate, ?_, hfirst,
      hlast, hwords w⟩
    rw [hwindows, hlocate]
    rfl

end Method

end KeyLoop
