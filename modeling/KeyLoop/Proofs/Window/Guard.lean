/-
# Guards that are passed over

A guarded decrement is written

    test   ldloc X
    zero   ldc.i4 0
    skip   bne.un  behind `save`
    load   ldloc X
    one    ldc.i4 1
    minus  sub
    save   stloc X

and takes one from `X` exactly if `X` is zero.  It is recognised by the seven
opcodes and the two constants (`Guard`), and it is passed over when the local
that `save` names is known not to be zero.  Which locals `test` and `load`
name, and where `skip` leads, is not looked at.

So passing over is what the program does under two conditions that the code
has to meet by itself (`passes_over_guard`): the local that `test` names is
not zero either, as when it is the same local, and `skip` leads right behind
`save`.  Where one of them is not met, the two part: `passes_over_live_guard`.
-/
import KeyLoop.Proofs.Machine.Simulation
import KeyLoop.Proofs.Method.Course
import KeyLoop.Proofs.Window.Chain
import KeyLoop.Proofs.Window.SinglePhase

namespace KeyLoop

/-- Seven instructions that have the shape of a guarded decrement. -/
structure Guard where
  test : Instruction
  zero : Instruction
  skip : Instruction
  load : Instruction
  one : Instruction
  minus : Instruction
  save : Instruction
  loads_test : test.loadsLocal = true
  constant_zero : zero.int32Constant? = some 0
  isBneUn_skip : skip.isBneUn = true
  loads_load : load.loadsLocal = true
  constant_one : one.int32Constant? = some 1
  opcode_minus : minus.opcode = .sub
  stores_save : save.storesLocal = true

namespace Guard

/-- The guard as code. -/
def code (g : Guard) : List Instruction :=
  [g.test, g.zero, g.skip, g.load, g.one, g.minus, g.save]

/-- The guard stands in the code of a method, from index `k` on. -/
def StandsAt (g : Guard) (m : Method) (k : Nat) : Prop :=
  ∀ j i, g.code[j]? = some i → m.code[k + j]? = some i

/-- The local that the guard stores is known not to be zero. -/
def IsDead (g : Guard) (s : Machine) : Prop :=
  ∃ n v, g.save.localIndex? = some n ∧ s.local? n = some v ∧ v.isNonzero = true

variable {g : Guard} {m : Method} {k : Nat}

theorem StandsAt.isStatement (hm : m.IsDecoded) (h : g.StandsAt m k) {j : Nat} {i : Instruction}
    (hi : g.code[j]? = some i) : i.IsStatement := hm.isStatement (List.mem_of_getElem? (h j i hi))

/-- What an instruction of the guard is written as, the machine does. -/
theorem StandsAt.touches (hm : m.IsDecoded) (h : g.StandsAt m k) {j : Nat} {i : Instruction}
    (hi : g.code[j]? = some i) {kind : SlotKind} {access : SlotAccess} {n : BitVec 16}
    (haccess : i.IsAccess kind access n) : i.Touches kind access n :=
  (h.isStatement hm hi).touches_iff.mpr haccess

/-! ## How guards are recognised -/

/-- Where code goes on with a guard, the guard is, instruction by instruction. -/
theorem getElem?_of_drop {code rest : List Instruction} (h : code.drop k = g.code ++ rest) {j : Nat}
    {i : Instruction} (hi : g.code[j]? = some i) : code[k + j]? = some i := by
  rw [← List.getElem?_drop, h, List.getElem?_append_left (List.getElem?_eq_some_iff.mp hi).1]
  exact hi

theorem guardedLocal?_code (g : Guard) (rest : List Instruction) :
    Generator.guardedLocal? (g.code ++ rest) = g.save.localIndex? := by
  simp [Generator.guardedLocal?, code, g.loads_test, g.constant_zero, g.isBneUn_skip, g.loads_load,
    g.constant_one, g.opcode_minus, g.stores_save]

/-- Code that is taken for a guard begins with one. -/
theorem exists_of_guardedLocal? {code : List Instruction} {n : BitVec 16}
    (h : Generator.guardedLocal? code = some n) :
    ∃ (g : Guard) (rest : List Instruction), code = g.code ++ rest ∧ g.save.localIndex? = some n := by
  unfold Generator.guardedLocal? at h
  split at h
  · rename_i test zero skip load one minus save rest
    split at h
    · rename_i hshape
      simp only [Bool.and_eq_true, beq_iff_eq] at hshape
      obtain ⟨⟨⟨⟨⟨⟨htest, hzero⟩, hskip⟩, hload⟩, hone⟩, hminus⟩, hsave⟩ := hshape
      exact ⟨⟨test, zero, skip, load, one, minus, save, htest, hzero, hskip, hload, hone, hminus,
        hsave⟩, rest, rfl, h⟩
    · cases h
  · cases h

theorem guardIsDead_code_iff (g : Guard) (rest : List Instruction) (s : Machine) :
    Generator.guardIsDead s (g.code ++ rest) = true ↔ g.IsDead s := by
  rw [Generator.guardIsDead, g.guardedLocal?_code, Option.any_eq_true]
  constructor
  · rintro ⟨v, hv, hnonzero⟩
    obtain ⟨n, hn, hv⟩ := Option.bind_eq_some_iff.mp hv
    exact ⟨n, v, hn, hv, hnonzero⟩
  · rintro ⟨n, v, hn, hv, hnonzero⟩
    exact ⟨v, Option.bind_eq_some_iff.mpr ⟨n, hn, hv⟩, hnonzero⟩

/-- A dead guard is passed over as a whole. -/
theorem runCode_dead {s : Machine} (h : g.IsDead s) (rest : List Instruction) :
    Generator.runCode true (g.code ++ rest) s = Generator.runCode true rest s := by
  have hdead := (g.guardIsDead_code_iff rest s).mpr h
  rw [code, List.cons_append] at hdead ⊢
  rw [Generator.runCode]
  simp only [hdead, Bool.and_self, if_true]
  rfl

/-! ## Where a guard leads -/

theorem action_skip (g : Guard) : g.skip.action = .branch := by
  have hskip := g.isBneUn_skip
  simp only [Instruction.isBneUn, Bool.or_eq_true, beq_iff_eq] at hskip
  rw [Instruction.action]
  rcases hskip with h | h <;> rw [h] <;> decide +kernel

theorem isBr_skip (g : Guard) : g.skip.isBr = false := by
  have hskip := g.isBneUn_skip
  simp only [Instruction.isBneUn, Bool.or_eq_true, beq_iff_eq] at hskip
  rw [Instruction.isBr]
  rcases hskip with h | h <;> rw [h] <;> decide

/-- The branch of a guard compares two values, and leads on if they differ. -/
theorem advance?_skip (g : Guard) {left right : Value} {taken : Bool}
    (h : left.differs? right = some taken) (address : BitVec 64) (stack : List Value) (locals : Slots) :
    g.skip.advance? ⟨address, right :: left :: stack, locals⟩ =
      (if taken then g.skip.branchTarget? else some g.skip.next).map (⟨·, stack, locals⟩) := by
  simp only [Instruction.advance?, g.action_skip, g.isBr_skip, g.isBneUn_skip, h]
  cases taken with
  | true => cases g.skip.branchTarget? <;> rfl
  | false => rfl

variable {l n : BitVec 16}

/-- A step of the program through a guard, from one instruction to the next. -/
theorem StandsAt.reaches_next (hm : m.IsDecoded) (h : g.StandsAt m k) {j : Nat}
    {i i' : Instruction} (hi : g.code[j]? = some i) (hi' : g.code[j + 1]? = some i')
    {stack stack' : List Value} {locals locals' : Slots} {q : Position}
    (hstep : i.advance? ⟨i.address, stack, locals⟩ = some ⟨i.next, stack', locals'⟩)
    (hq : m.Reaches ⟨i'.address, stack', locals'⟩ q) : m.Reaches ⟨i.address, stack, locals⟩ q := by
  have hnext : i'.address = i.next := hm.address_eq_next (h j i hi) (h (j + 1) i' hi')
  rw [hnext] at hq
  exact .step ((hm.advance?_eq (h j i hi) rfl).trans hstep) hq

/-- From the test to the branch of a guard the program takes the value of the
local to the stack, and a zero. -/
theorem StandsAt.reaches_skip (hm : m.IsDecoded) (h : g.StandsAt m k)
    (htest : g.test.IsAccess .localVar .load l) {locals : Slots} {slot : Slot}
    (hslot : locals.find? l = some slot) {stack : List Value} {q : Position}
    (hq : m.Reaches ⟨g.skip.address, .ofBits 0 :: slot.value :: stack, locals⟩ q) :
    m.Reaches ⟨g.test.address, stack, locals⟩ q := by
  refine h.reaches_next hm (j := 0) rfl rfl
    (Instruction.advance?_load (h.touches hm (j := 0) rfl htest) hslot) ?_
  exact h.reaches_next hm (j := 1) rfl rfl (Instruction.advance?_int32 g.constant_zero) hq

/-- Where the tested local is not zero, the program goes where the branch
leads, and nothing else has changed. -/
theorem StandsAt.reaches_of_isNonzero (hm : m.IsDecoded) (h : g.StandsAt m k)
    (htest : g.test.IsAccess .localVar .load l) {locals : Slots} {slot : Slot}
    (hslot : locals.find? l = some slot) (hnonzero : slot.value.isNonzero = true)
    {a : BitVec 64} (hskip : g.skip.branchTarget? = some a) (stack : List Value) :
    m.Reaches ⟨g.test.address, stack, locals⟩ ⟨a, stack, locals⟩ := by
  refine h.reaches_skip hm htest hslot (.step ?_ (.refl _))
  rw [hm.advance?_eq (h 2 g.skip rfl) rfl,
    g.advance?_skip (slot.value.differs?_zero.mpr hnonzero), if_pos rfl, hskip]
  rfl

end Guard

/-! ## Windows with guards -/

namespace Generator

/-- **What a guard that is passed over does.**  Take a guarded window over
decoded code, any state of the machine, and a place in the window where the
run passes over the next seven instructions.  They are a guard, and the local
that it stores is known not to be zero.  If that is the local that the guard
tests, then the tested local is not zero; and whenever the tested local is
known not to be zero and the branch leads right behind the guard, the program
comes there too, with the same stack and the same locals. -/
theorem passes_over_guard (m : Method) (hm : m.IsDecoded) (w : Window) (first last : Nat)
    (hw : w.Spans m first last) (hguarded : w.dialect = .guarded) (k : Nat) (s : Machine)
    (hdead : guardIsDead s (w.code.drop k) = true) :
    ∃ (g : Guard) (n : BitVec 16) (v : Value), g.StandsAt m (first + k) ∧
      w.code.drop k = g.code ++ w.code.drop (k + guardLength) ∧
      runCode (w.dialect == .guarded) (w.code.drop k) s =
        runCode (w.dialect == .guarded) (w.code.drop (k + guardLength)) s ∧
      g.save.IsAccess .localVar .store n ∧ s.local? n = some v ∧ v.isNonzero = true ∧
      ∀ l u, g.test.IsAccess .localVar .load l → s.local? l = some u →
        (l = n → u.isNonzero = true) ∧
        (u.isNonzero = true → g.skip.branchTarget? = some g.save.next →
          m.Reaches ⟨g.test.address, s.stack.values, s.locals⟩
            ⟨g.save.next, s.stack.values, s.locals⟩) := by
  obtain ⟨v', hv', -⟩ := (Option.any_eq_true _ _).mp hdead
  obtain ⟨n', hn', -⟩ := Option.bind_eq_some_iff.mp hv'
  obtain ⟨g, rest, hcode, -⟩ := Guard.exists_of_guardedLocal? hn'
  have hrest : w.code.drop (k + guardLength) = rest := by
    rw [← List.drop_drop, hcode]
    rfl
  have hat : g.StandsAt m (first + k) := by
    intro j i hi
    have hlocal : w.code[k + j]? = some i := Guard.getElem?_of_drop hcode hi
    have hinside : k + j < last + 1 - first := by
      rw [← hw.length]
      exact (List.getElem?_eq_some_iff.mp hlocal).1
    rw [Nat.add_assoc, ← hw.code (k + j) hinside]
    exact hlocal
  rw [hcode] at hdead
  obtain ⟨n, v, hn, hv, hnonzero⟩ := (g.guardIsDead_code_iff rest s).mp hdead
  have hsave : g.save.IsAccess .localVar .store n :=
    (hat.isStatement hm (j := 6) rfl).isAccess_iff.mpr ⟨g.stores_save, hn⟩
  refine ⟨g, n, v, hat, ?_, ?_, hsave, hv, hnonzero, ?_⟩
  · rw [hcode, hrest]
  · rw [hcode, hrest, hguarded]
    exact Guard.runCode_dead ⟨n, v, hn, hv, hnonzero⟩ rest
  · intro l u htest hu
    constructor
    · rintro rfl
      rw [hu] at hv
      cases hv
      exact hnonzero
    · intro hu' hskip
      obtain ⟨slot, hslot, rfl⟩ := Option.map_eq_some_iff.mp hu
      exact hat.reaches_of_isNonzero hm htest hslot hu' hskip _

/-- A machine with a value in local 1, and nothing known of local 0. -/
def withLocalOne (v : Value) : Machine :=
  { Machine.new .standard with locals := ⟨.localVar, [⟨⟨0, .i4⟩, .unknown⟩, ⟨⟨1, .i4⟩, v⟩]⟩ }

theorem passes_over_guard_guardedRoundTrip :
    ∃ code, decode 0 Method.guardedRoundTrip = .ok code ∧
      let m := Method.ofInstructions ⟨0⟩ "" code [] [⟨0, .i4⟩, ⟨1, .i4⟩] true
      let w := m.window .singlePhase .guarded 2 13 0
      let s := withLocalOne (.ofBits 5)
      m.IsDecoded ∧ m.locate .both = .ok w ∧ w.Spans m 2 13 ∧ guardIsDead s (w.code.drop 1) = true ∧
        ∃ (g : Guard) (n : BitVec 16) (v : Value), g.StandsAt m (2 + 1) ∧
          w.code.drop 1 = g.code ++ w.code.drop (1 + guardLength) ∧
          runCode (w.dialect == .guarded) (w.code.drop 1) s =
            runCode (w.dialect == .guarded) (w.code.drop (1 + guardLength)) s ∧
          g.save.IsAccess .localVar .store n ∧ s.local? n = some v ∧ v.isNonzero = true ∧
          ∀ l u, g.test.IsAccess .localVar .load l → s.local? l = some u →
            (l = n → u.isNonzero = true) ∧
            (u.isNonzero = true → g.skip.branchTarget? = some g.save.next →
              m.Reaches ⟨g.test.address, s.stack.values, s.locals⟩
                ⟨g.save.next, s.stack.values, s.locals⟩) := by
  obtain ⟨code, hdecode, hcheck⟩ := exists_of_decodesTo Method.guardedRoundTrip (fun code =>
    let m := Method.ofInstructions ⟨0⟩ "" code [] [⟨0, .i4⟩, ⟨1, .i4⟩] true
    let w := m.window .singlePhase .guarded 2 13 0
    m.locate? .both == some w && decide (13 < m.code.length) &&
      guardIsDead (withLocalOne (.ofBits 5)) (w.code.drop 1)) (by decide +kernel)
  simp only [Bool.and_eq_true, beq_iff_eq, decide_eq_true_eq] at hcheck
  obtain ⟨⟨hlocate, hinside⟩, hdead⟩ := hcheck
  have hm : (Method.ofInstructions ⟨0⟩ "" code [] [⟨0, .i4⟩, ⟨1, .i4⟩] true).IsDecoded :=
    ⟨0, Method.guardedRoundTrip, by decide, hdecode⟩
  exact ⟨code, hdecode, hm, Method.locate_eq_ok_iff.mpr hlocate, Method.spans_window hinside _ _ _, hdead,
    passes_over_guard _ hm _ 2 13 (Method.spans_window hinside _ _ _) rfl 1 (withLocalOne (.ofBits 5)) hdead⟩

/-- A guard that tests local 1 and takes from local 0. -/
def testsAnother : List Byte :=
  [0x2B, 0x00, 0x06, 0x07, 0x16, 0x33, 0x04, 0x06, 0x17, 0x59, 0x0A, 0x06, 0x76, 0x6C, 0x6D, 0x58]

/-- A guard for local 1, which is two, that leads on behind an addition of three. -/
def leadsFurther : List Byte :=
  [0x2B, 0x00, 0x06, 0x18, 0x0B, 0x07, 0x16, 0x33, 0x06, 0x07, 0x17, 0x59, 0x0B, 0x19, 0x58, 0x06, 0x76,
    0x6C, 0x6D, 0x58]

/-- The state of a run for the input five behind the first `count` instructions of a window. -/
def stateBehind (m : Method) (w : Window) (count : Nat) : Machine :=
  after (Machine.run (w.code.take count))
    (after (Machine.setLocal w.accumulator (.ofBits 5))
      ((Machine.new .standard).enter m.arguments m.locals m.initLocals))

/-- Guards are passed over although the program would not skip them: one that
tests another local, which is zero, and one that leads on further behind. -/
theorem passes_over_live_guard :
    (∃ code, decode 0 testsAnother = .ok code ∧
      let m := Method.ofInstructions ⟨0⟩ "" code [] [⟨0, .i4⟩, ⟨1, .i4⟩] true
      let w := m.window .singlePhase .guarded 1 13 0
      let s := stateBehind m w 1
      m.locate .both = .ok w ∧ guardIsDead s (w.code.drop 1) = true ∧
        m.At 2 (·.IsAccess .localVar .load 1) ∧ s.local? 1 = some (.ofBits 0)) ∧
    ∃ code, decode 0 leadsFurther = .ok code ∧
      let m := Method.ofInstructions ⟨0⟩ "" code [] [⟨0, .i4⟩, ⟨1, .i4⟩] true
      let w := m.window .singlePhase .guarded 1 17 0
      m.locate .both = .ok w ∧ guardIsDead (stateBehind m w 3) (w.code.drop 3) = true ∧
        m.At 6 (·.branchTarget? = some 0x0F) ∧ m.At 10 (·.next = 0x0D) := by
  constructor
  · obtain ⟨code, hdecode, hcheck⟩ := exists_of_decodesTo testsAnother (fun code =>
      let m := Method.ofInstructions ⟨0⟩ "" code [] [⟨0, .i4⟩, ⟨1, .i4⟩] true
      let w := m.window .singlePhase .guarded 1 13 0
      let s := stateBehind m w 1
      m.locate? .both == some w && guardIsDead s (w.code.drop 1) &&
        m.code[2]?.any (·.opcode == .single 0x07) && s.local? 1 == some (.ofBits 0)) (by decide +kernel)
    simp only [Bool.and_eq_true, beq_iff_eq, Option.any_eq_true] at hcheck
    obtain ⟨⟨⟨hlocate, hdead⟩, i, hi, hopcode⟩, hzero⟩ := hcheck
    exact ⟨code, hdecode, Method.locate_eq_ok_iff.mpr hlocate, hdead,
      ⟨i, hi, .own (k := 1) rfl (by decide) hopcode⟩, hzero⟩
  · obtain ⟨code, hdecode, hcheck⟩ := exists_of_decodesTo leadsFurther (fun code =>
      let m := Method.ofInstructions ⟨0⟩ "" code [] [⟨0, .i4⟩, ⟨1, .i4⟩] true
      let w := m.window .singlePhase .guarded 1 17 0
      m.locate? .both == some w && guardIsDead (stateBehind m w 3) (w.code.drop 3) &&
        m.code[6]?.any (·.branchTarget? == some 0x0F) && m.code[10]?.any (·.next == 0x0D))
      (by decide +kernel)
    simp only [Bool.and_eq_true, beq_iff_eq, Option.any_eq_true] at hcheck
    obtain ⟨⟨⟨hlocate, hdead⟩, hskip⟩, hsave⟩ := hcheck
    exact ⟨code, hdecode, Method.locate_eq_ok_iff.mpr hlocate, hdead, hskip, hsave⟩

end Generator

end KeyLoop
