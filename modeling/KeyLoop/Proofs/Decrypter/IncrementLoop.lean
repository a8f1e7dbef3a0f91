/-
# A loop that counts in steps of a constant

The smallest decrypter there is: behind the byte fold, the update adds a
constant `c` to the running sum `a`.

    0 .. 7       conv.u; ldelem.u1; or; store b; load a; load i; add; store a
    8 .. 10      load a; the constant c; add
    11           store a

Which instructions these are depends on the slots and on the constant, since
each has several encodings.  In all of them, and whatever else the method
declares, the loop is located with the update from 8 to 10 and running sum
`a`, a run of the update takes a word to that word plus `c`, and so the
keystream counts `c, 2 c, 3 c, …` modulo `2 ^ 32` (`keystream_incrementLoop`).
-/
import KeyLoop.Decrypter
import KeyLoop.Proofs.Assembly.StraightLine
import KeyLoop.Proofs.Method.Declarations
import KeyLoop.Proofs.PartialWord.Refinement
import KeyLoop.Proofs.Window.Repetition

namespace KeyLoop

namespace Machine

/-! ## Steps that go through -/

/-- The machine after one more instruction, with these values on its stack. -/
def reached (m : Machine) (values : List Value) : Machine :=
  { m with stack := { m.stack with values }, executed := m.executed + 1 }

variable {m : Machine}

theorem counted_push (hgo : ¬ m.Exhausted) (hroom : m.stack.depth < m.stack.limit) (v : Value) :
    counted (push v) m = .ok () (m.reached (v :: m.stack.values)) := by
  have hpush : Stack.push v m.stack = .ok () { m.stack with values := v :: m.stack.values } :=
    if_pos hroom
  rw [counted, if_neg hgo]
  simp only [push, onStack, begun, hpush, reached]

theorem counted_load (hgo : ¬ m.Exhausted) (hroom : m.stack.depth < m.stack.limit) {n : BitVec 16}
    {v : Value} (hlocal : m.local? n = some v) :
    counted (access .localVar n .load) m = .ok () (m.reached (v :: m.stack.values)) := by
  obtain ⟨slot, hslot, rfl⟩ := Option.map_eq_some_iff.mp hlocal
  have hget : onSlots .localVar (Slots.get n) m.begun = .ok slot.value m.begun := by
    simp only [onSlots, Slots.get, begun, hslot]
  have hpush := counted_push hgo hroom slot.value
  rw [counted, if_neg hgo] at hpush ⊢
  simp only [access, bind, EStateM.bind, hget, hpush]

theorem counted_binary (hgo : ¬ m.Exhausted) {left right : Value} {rest : List Value}
    (hvalues : m.stack.values = right :: left :: rest) (hroom : rest.length < m.stack.limit)
    (op : BinaryOp) : counted (Operation.binary op).perform m =
      .ok () (m.reached (left.binary op right :: rest)) := by
  rw [counted, if_neg hgo]
  simp only [Operation.perform, pop, push, onStack, Stack.pop, Stack.push, Stack.depth, begun, bind,
    EStateM.bind, hvalues, hroom, if_true, reached]

/-! ## One run of the update -/

/-- Adding a word to a word. -/
theorem binary_add_ofBits (x y : BitVec 32) :
    (Value.ofBits x).binary (.arithmetic (.add .wrap)) (.ofBits y) = .ofBits (x + y) :=
  congrArg Value.int32 (PartialWord.concrete_add x y)

/-- A load, a constant and an addition leave the sum on an empty stack. -/
theorem run_increment {x y z : Instruction} {a : BitVec 16} {c word : BitVec 32}
    (hx : step x = counted (access .localVar a .load)) (hy : step y = counted (push (.ofBits c)))
    (hz : step z = counted (Operation.binary (.arithmetic (.add .wrap))).perform)
    (hlocal : m.local? a = some (.ofBits word)) (hempty : m.stack.values = [])
    (hroom : 2 ≤ m.stack.limit) (hlimit : m.executed + 3 ≤ m.limits.maxInstructions) :
    ∃ m', run [x, y, z] m = .ok () m' ∧ m'.stack.values = [.ofBits (word + c)] := by
  have hgo : ∀ n : Machine, n.limits = m.limits → n.executed < m.executed + 3 → ¬ n.Exhausted := by
    rintro n hn hexecuted ⟨-, hover⟩
    rw [hn] at hover
    omega
  have hdepth : m.stack.depth = 0 := congrArg List.length hempty
  have hfirst := counted_load (hgo m rfl (by omega)) (by omega) hlocal
  rw [hempty] at hfirst
  have hsecond := counted_push (m := m.reached [.ofBits word])
    (hgo _ rfl (by simp only [reached]; omega)) hroom (.ofBits c)
  have hthird := counted_binary (m := (m.reached [.ofBits word]).reached [.ofBits c, .ofBits word])
    (hgo _ rfl (by simp only [reached]; omega)) rfl
    (show 0 < m.stack.limit by omega) (.arithmetic (.add .wrap))
  rw [binary_add_ofBits] at hthird
  refine ⟨_, run_cons_ok_iff.mpr ⟨_, (congrFun hx m).trans hfirst, run_cons_ok_iff.mpr
    ⟨_, (congrFun hy _).trans hsecond, run_cons_ok_iff.mpr ⟨_, (congrFun hz _).trans hthird, rfl⟩⟩⟩, rfl⟩

end Machine

/-! ## The listing -/

/-- The listing of the loop, which keeps the byte in local `b`, reads a word
from local `i`, and sums in local `a`. -/
def incrementLoop (a b i : BitVec 16) (c : BitVec 32) : List Call :=
  [.plain "conv.u", .plain "ldelem.u1", .plain "or", .storeLocal b, .loadLocal a, .loadLocal i,
    .plain "add", .storeLocal a, .loadLocal a, .int32 c, .plain "add", .storeLocal a]

/-- What the lines of the loop yield, one after the other. -/
def incrementShape (a b i : BitVec 16) (c : BitVec 32) : List (Instruction → Prop) :=
  [(·.opcode = .convU), (·.opcode = .ldelemU1), (·.opcode = .or), (·.IsAccess .localVar .store b),
    (·.IsAccess .localVar .load a), (·.IsAccess .localVar .load i), (·.opcode = .add),
    (·.IsAccess .localVar .store a), (·.IsAccess .localVar .load a), (·.int32Constant? = some c),
    (·.opcode = .add), (·.IsAccess .localVar .store a)]

theorem yields_incrementLoop (a b i : BitVec 16) (c : BitVec 32) :
    List.Forall₂ Call.Yields (incrementLoop a b i c) (incrementShape a b i c) := by
  have hwiden : (Call.plain "conv.u").Yields (·.opcode = .convU) :=
    Call.yields_opcode (.convert (.integer .u)) (by decide +kernel) rfl
  have helement : (Call.plain "ldelem.u1").Yields (·.opcode = .ldelemU1) :=
    Call.yields_opcode (.loadNarrow 8) (by decide +kernel) rfl
  have hjoin : (Call.plain "or").Yields (·.opcode = .or) :=
    Call.yields_opcode (.binary (.arithmetic .or)) (by decide +kernel) rfl
  have hplus : (Call.plain "add").Yields (·.opcode = .add) :=
    Call.yields_opcode (.binary (.arithmetic (.add .wrap))) (by decide +kernel) rfl
  have hload := Call.yields_loadLocal
  have hstore := Call.yields_storeLocal
  exact .cons hwiden <| .cons helement <| .cons hjoin <| .cons (hstore b) <| .cons (hload a) <|
    .cons (hload i) <| .cons hplus <| .cons (hstore a) <| .cons (hload a) <|
    .cons (Call.yields_int32 c) <| .cons hplus <| .cons (hstore a) .nil

/-! ## Where the loop is -/

namespace Method

variable {m : Method} {a b i : BitVec 16} {c : BitVec 32}

/-- Code of which the instructions are as listed, one by one. -/
theorem at_of_forall₂ {Ps : List (Instruction → Prop)}
    (h : List.Forall₂ (fun P x => P x) Ps m.code) {k : Nat} {P : Instruction → Prop}
    (hP : Ps[k]? = some P) : m.At k P := by
  obtain ⟨hlt, rfl⟩ := List.getElem?_eq_some_iff.mp hP
  have hlt' : k < m.code.length := h.length_eq ▸ hlt
  exact ⟨m.code[k], List.getElem?_eq_getElem hlt', h.get hlt hlt'⟩

theorem action_add {x : Instruction} (h : x.opcode = .add) :
    x.action = .binary (.arithmetic (.add .wrap)) := by
  rw [Instruction.action, h]
  decide +kernel

/-- The update stores no local. -/
theorem update_increment
    (hcode : List.Forall₂ (fun P x => P x) (incrementShape a b i c) m.code) :
    ∀ k, 8 ≤ k → k ≤ 10 → m.At k fun x => ∀ place, x.action ≠ .slot .localVar .store place := by
  intro k hlow hhigh
  have hk : k = 8 ∨ k = 9 ∨ k = 10 := by omega
  rcases hk with rfl | rfl | rfl
  · obtain ⟨x, hx, hload⟩ := at_of_forall₂ hcode (k := 8) rfl
    obtain ⟨place, haction⟩ := hload.exists_action
    exact ⟨x, hx, fun _ hstore => nomatch haction.symm.trans hstore⟩
  · obtain ⟨x, hx, hconstant⟩ := at_of_forall₂ hcode (k := 9) rfl
    obtain ⟨place, haction⟩ := Instruction.exists_action_of_int32Constant? hconstant
    exact ⟨x, hx, fun _ hstore => nomatch haction.symm.trans hstore⟩
  · obtain ⟨x, hx, hplus⟩ := at_of_forall₂ hcode (k := 10) rfl
    exact ⟨x, hx, fun _ hstore => nomatch (action_add hplus).symm.trans hstore⟩

/-- The loop is the two-phase loop of a method with its code. -/
theorem twoPhaseLoop_increment (hline : ∀ x ∈ m.code, x.isSequential = true)
    (hcode : List.Forall₂ (fun P x => P x) (incrementShape a b i c) m.code)
    (ha : ∃ d ∈ m.locals, d.index = a) (hb : ∃ d ∈ m.locals, d.index = b)
    (hi : ∃ d ∈ m.locals, d.index = i) : m.TwoPhaseLoop 8 10 a := by
  have hload : m.At 8 (m.Loads a) := (at_of_forall₂ hcode rfl).imp fun _ _ h => ⟨ha, h⟩
  have hfold : m.FoldsAt 0 a :=
    { widen := at_of_forall₂ hcode rfl
      element := at_of_forall₂ hcode rfl
      join := at_of_forall₂ hcode rfl
      keep := (at_of_forall₂ hcode rfl).imp fun _ _ h => ⟨b, hb, h⟩
      load := (at_of_forall₂ hcode rfl).imp fun _ _ h => ⟨ha, h⟩
      word := (at_of_forall₂ hcode rfl).imp fun _ _ h => ⟨i, hi, h⟩
      plus := at_of_forall₂ hcode rfl
      save := (at_of_forall₂ hcode rfl).imp fun _ _ h => ⟨ha, h⟩ }
  have hbehind : m.At 8 fun x => if x.isBr then m.LeadsTo 8 8 else 8 = 8 :=
    hload.imp fun x _ h => by
      rw [Instruction.isBr_of_isStraight h.2.isStraight]
      rfl
  have hupdate : ∀ k, 8 ≤ k → k ≤ 10 → m.At k fun x => x.isSequential ∧ ¬ m.Stores a x := by
    intro k hlow hhigh
    refine (update_increment hcode k hlow hhigh).imp fun x hx h => ⟨?_, ?_⟩
    · exact hline x (List.mem_of_getElem? hx)
    · rintro ⟨-, hstore⟩
      obtain ⟨place, haction⟩ := hstore.exists_action
      exact h place haction
  have hsave : m.At 11 (m.Stores a) := (at_of_forall₂ hcode rfl).imp fun _ _ h => ⟨ha, h⟩
  exact ⟨0, ⟨hfold, hbehind, hload⟩, fun j hj => absurd hj (Nat.not_lt_zero j), ⟨by omega, hupdate, hsave⟩⟩

/-! ## What the loop computes -/

/-- The update takes a word to that word plus the constant. -/
theorem answer_increment (hm : m.Legible)
    (hcode : List.Forall₂ (fun P x => P x) (incrementShape a b i c) m.code) {d : Declaration}
    (hd : m.local? a = some d) (hflavor : d.flavor = .i4 ∨ d.flavor = .u4) (word : BitVec 32) :
    (Generator.ofWindow m (m.window .twoPhase .standard 8 10 a)).answer .standard word =
      .ok (word + c) := by
  let g := Generator.ofWindow m (m.window .twoPhase .standard 8 10 a)
  have hd : g.locals.find? (·.index == g.window.accumulator) = some d := hd
  obtain ⟨x, hx, hload⟩ := at_of_forall₂ hcode (k := 8) rfl
  obtain ⟨y, hy, hconstant⟩ := at_of_forall₂ hcode (k := 9) rfl
  obtain ⟨z, hz, hplus⟩ := at_of_forall₂ hcode (k := 10) rfl
  have hslice : g.window.code = [x, y, z] := by
    show (m.code.drop 8).take 3 = [x, y, z]
    rw [drop_eq_cons hx, drop_eq_cons hy, drop_eq_cons hz]
    rfl
  have hstatement : ∀ {k : Nat} {w : Instruction}, m.code[k]? = some w → w.IsStatement := fun hw =>
    hm.isStatement _ (List.mem_of_getElem? hw)
  have haction := action_add hplus
  have hsum : Machine.step z = Machine.counted (Operation.binary (.arithmetic (.add .wrap))).perform := by
    rw [((hstatement hz).step_straight (by rw [haction]; rfl)).2, haction]
    rfl
  obtain ⟨m', hrun, hvalues⟩ := Machine.run_increment ((hstatement hx).step_access hload)
    ((hstatement hy).step_constant hconstant) hsum (m := g.seeded .standard word)
    (Generator.local?_seeded hd hflavor word) rfl (show 2 ≤ 1024 by decide) (show 0 + 3 ≤ 100000 by decide)
  have hpop : Machine.pop m' = .ok (.ofBits (word + c)) { m' with stack := { m'.stack with values := [] } } := by
    simp only [Machine.pop, Machine.onStack, Stack.pop, hvalues]
  have hbits : (Value.ofBits (word + c)).toBits? = some (word + c) := PartialWord.toBits?_concrete _
  have hkey : g.keyWord word (Machine.new .standard) =
      .ok (word + c) { m' with stack := { m'.stack with values := [] } } := by
    rw [Generator.keyWord, Generator.runWindow_eq g rfl, Generator.setLocal_seeded hd, hslice]
    simp only [hrun, hpop, hbits]
  rw [Generator.answer, hkey]
  rfl

end Method

/-- Adding a constant over and over multiplies it. -/
theorem chain_add {answer : BitVec 32 → Except KeyWordFault (BitVec 32)} {c : BitVec 32}
    (h : ∀ word, answer word = .ok (word + c)) (k : Nat) :
    chain answer 0 k = .ok (BitVec.ofNat 32 (k + 1) * c) := by
  induction k with
  | zero =>
    rw [chain, h]
    simp
  | succ k ih =>
    rw [chain, ih]
    refine (h _).trans (congrArg Except.ok ?_)
    rw [BitVec.ofNat_add (k + 1) 1, BitVec.add_mul]
    simp

namespace Decrypter

/-- **The loop counts in steps of its constant.**  Whatever the locals and
the constant, the listing is assembled, the code decodes at any address, and
a method with that code has a decrypter for the update from 8 to 10 with
running sum `a`; the words of its keystream are the multiples of the
constant. -/
theorem keystream_incrementLoop {locals : List Declaration} {a b i : BitVec 16} {d : Declaration}
    (ha : locals.find? (·.index == a) = some d) (hflavor : d.flavor = .i4 ∨ d.flavor = .u4)
    (hb : ∃ d ∈ locals, d.index = b) (hi : ∃ d ∈ locals, d.index = i) (c : BitVec 32) :
    ∃ p, Call.assemble (incrementLoop a b i c) = .ok p ∧ ∀ base, ∃ is, decode base p.code = .ok is ∧
      ∀ token name arguments initLocals, ∃ decrypter,
        ofMethod (.ofInstructions token name is arguments locals initLocals) .standard =
          .ok decrypter ∧
        decrypter.generator.window.first = 8 ∧ decrypter.generator.window.last = 10 ∧
        decrypter.generator.window.accumulator = a ∧
        ∀ n, (decrypter.keystream n).1 =
          (List.range n).map fun k => .ok (BitVec.ofNat 32 (k + 1) * c) := by
  obtain ⟨p, hp, hdecode⟩ := Call.decode_of_yields (yields_incrementLoop a b i c)
  refine ⟨p, hp, fun base => ?_⟩
  obtain ⟨is, his, hline, hshape⟩ := hdecode base
  refine ⟨is, his, fun token name arguments initLocals => ?_⟩
  let m := Method.ofInstructions token name is arguments locals initLocals
  have hm : m.Legible :=
    Method.legible_of_isSequential (fun _ hx => isStatement_of_mem_decode his hx) hline
  have hlocal : ∀ n, m.local? n = locals.find? (·.index == n) := fun n =>
    Declaration.find?_normalize locals n
  have hdeclared : ∀ n, (∃ d ∈ locals, d.index = n) → ∃ d ∈ m.locals, d.index = n := by
    rintro n hn
    rw [← Method.isSome_local?_iff, hlocal, List.find?_isSome]
    simpa using hn
  have hd : m.local? a = some d := (hlocal a).trans ha
  have hmember : ∃ d ∈ locals, d.index = a :=
    ⟨d, List.mem_of_find?_eq_some ha, by simpa using List.find?_some ha⟩
  have hloop := Method.twoPhaseLoop_increment hline hshape (hdeclared a hmember) (hdeclared b hb)
    (hdeclared i hi)
  let w := m.window .twoPhase .standard 8 10 a
  have hfound : m.twoPhase? = some w := (Method.twoPhase?_eq_some_iff hm).mpr ⟨8, 10, a, hloop, rfl⟩
  have hlocate : m.locate .both = .ok w := by
    refine Method.locate_eq_ok_iff.mpr ?_
    show (m.twoPhase?.or m.singlePhase?) = some w
    rw [hfound]
    rfl
  refine ⟨⟨.ofWindow m w, .both, .new .standard⟩, ?_, rfl, rfl, rfl, fun n => ?_⟩
  · show (m.locate .both >>= _) = _
    rw [hlocate]
    rfl
  · have hwords := chain_add (Method.answer_increment hm hshape hd hflavor)
    obtain ⟨s, hs, -⟩ := Generator.keystream_ok (.ofWindow m w)
      ((List.range n).map fun k => BitVec.ofNat 32 (k + 1) * c) 0 (.new .standard) (fun k hk => by
        rw [List.getElem_map, List.getElem_range]
        exact hwords k)
    rw [List.length_map, List.length_range, List.map_map] at hs
    simp only [keystream, hs]
    rfl

/-- Locals of several flavors, one of them declared twice. -/
def someLocals : List Declaration := [⟨300, .u4⟩, ⟨1, .object⟩, ⟨7, .i8⟩, ⟨300, .r8⟩]

theorem keystream_incrementLoop_thousand :
    ∃ p is decrypter, Call.assemble (incrementLoop 300 1 7 1000) = .ok p ∧
      decode 0x2000 p.code = .ok is ∧
      ofMethod (.ofInstructions ⟨0⟩ "" is [] someLocals true) .standard = .ok decrypter ∧
      decrypter.generator.window.first = 8 ∧ decrypter.generator.window.last = 10 ∧
      decrypter.generator.window.accumulator = 300 ∧
      (decrypter.keystream 3).1 = [.ok 1000, .ok 2000, .ok 3000] := by
  have ha : someLocals.find? (·.index == 300) = some ⟨300, .u4⟩ := by decide
  obtain ⟨p, hp, hdecode⟩ := keystream_incrementLoop ha (.inr rfl) (b := 1) (i := 7)
    ⟨⟨1, .object⟩, by decide, rfl⟩ ⟨⟨7, .i8⟩, by decide, rfl⟩ 1000
  obtain ⟨is, his, hmethod⟩ := hdecode 0x2000
  obtain ⟨decrypter, hmade, hfirst, hlast, hsum, hwords⟩ := hmethod ⟨0⟩ "" [] true
  exact ⟨p, is, decrypter, hp, his, hmade, hfirst, hlast, hsum, hwords 3⟩

end Decrypter

end KeyLoop
