/-
# Guards that are run through

A guard whose local is not known to be different from zero is not passed
over.  Its seven instructions are run one after the other, and one is taken
from the local, be it zero or not:

    the local `X`               the program            the machine
    zero                        takes one              takes one
    another number, known       leads on               leads on
    another number, not known   leads on               takes one

In the last row the machine may go wrong, and the lowest bit of `X` tells
when.  If that bit is not known, then after the subtraction no bit is known,
and nothing false is either.  If it is known, then the subtraction turns it
over, and what the machine knows of `X` is false.  So the machine is right
about what a guard leaves in `X` exactly for `X` zero, for `X` fully known,
and for `X` with an unknown lowest bit (`guardLeaves_mem_iff`).
-/
import KeyLoop.Proofs.Machine.Effects
import KeyLoop.Proofs.PartialWord.Refinement
import KeyLoop.Proofs.Value.Covers
import KeyLoop.Proofs.Window.Guard

namespace KeyLoop

/-! ## No guard within a guard -/

namespace Generator

/-- An instruction that is no dead guard's first is run. -/
theorem runCode_cons {guarded : Bool} {i : Instruction} {rest : List Instruction} {s : Machine}
    (h : guardIsDead s (i :: rest) = false) :
    runCode guarded (i :: rest) s =
      match Machine.step i s with
      | .ok _ t => runCode guarded rest t
      | .error fault t => .error fault t := by
  rw [runCode]
  cases hstep : Machine.step i s with
  | ok u t => simp only [h, Bool.and_false, Bool.false_eq_true, if_false, Emulator.step, hstep]
  | error fault t => simp only [h, Bool.and_false, Bool.false_eq_true, if_false, Emulator.step, hstep]

/-- Code without guards in it, in front of other code: its instructions are
run in order, and then the other code. -/
theorem runCode_append {code : List Instruction} (rest : List Instruction)
    (h : ∀ j < code.length, guardedLocal? (code.drop j ++ rest) = none) (guarded : Bool) (s : Machine) :
    runCode guarded (code ++ rest) s =
      match Machine.run code s with
      | .ok _ t => runCode guarded rest t
      | .error (_, fault) t => .error fault t := by
  induction code generalizing s with
  | nil => rfl
  | cons i code ih =>
    have hfirst : guardedLocal? (i :: (code ++ rest)) = none := h 0 (Nat.succ_pos _)
    have hlater : ∀ j < code.length, guardedLocal? (code.drop j ++ rest) = none := fun j hj =>
      h (j + 1) (Nat.succ_lt_succ hj)
    have hlive : guardIsDead s (i :: (code ++ rest)) = false := by
      rw [guardIsDead, hfirst]
      rfl
    rw [List.cons_append, runCode_cons hlive]
    cases hstep : Machine.step i s with
    | error fault t => simp only [Machine.run, hstep]
    | ok u t =>
      simp only [ih hlater]
      cases hrun : Machine.run code t with
      | ok u' t' => simp only [Machine.run, hstep, hrun]
      | error fault t' => simp only [Machine.run, hstep, hrun]

end Generator

namespace Guard

open Generator

variable {g : Guard} {m : Method} {k : Nat} {n : BitVec 16}

theorem action_minus (g : Guard) : g.minus.action = .binary (.arithmetic (.sub .wrap)) := by
  rw [Instruction.action, g.opcode_minus]
  decide +kernel

/-- A guard begins with a load of a local. -/
theorem guardedLocal?_eq_none_of_action {i : Instruction} {action : Action} (h : i.action = action)
    (hload : ∀ place, action ≠ .slot .localVar .load place) (code : List Instruction) :
    guardedLocal? (i :: code) = none := by
  refine Option.eq_none_iff_forall_ne_some.mpr fun n hn => ?_
  obtain ⟨g, rest, hcode, -⟩ := exists_of_guardedLocal? hn
  cases hcode
  obtain ⟨place, haction⟩ := Instruction.exists_action_of_accesses g.loads_test
  exact hload place (h.symm.trans haction)

/-- The second instruction of a guard pushes zero. -/
theorem guardedLocal?_eq_none_of_constant {i i' : Instruction} (h : i'.int32Constant? ≠ some 0)
    (code : List Instruction) : guardedLocal? (i :: i' :: code) = none := by
  refine Option.eq_none_iff_forall_ne_some.mpr fun n hn => ?_
  obtain ⟨g, rest, hcode, -⟩ := exists_of_guardedLocal? hn
  cases hcode
  exact h g.constant_zero

/-- No instruction of a guard but the first begins a guard. -/
theorem guardedLocal?_tail (g : Guard) (rest : List Instruction) :
    ∀ j < g.code.tail.length, guardedLocal? (g.code.tail.drop j ++ rest) = none := by
  obtain ⟨zero, hzero⟩ := Instruction.exists_action_of_int32Constant? g.constant_zero
  obtain ⟨one, hone⟩ := Instruction.exists_action_of_int32Constant? g.constant_one
  obtain ⟨save, hsave⟩ := Instruction.exists_action_of_accesses g.stores_save
  have hconstant : g.one.int32Constant? ≠ some 0 := by
    rw [g.constant_one]
    decide
  intro j hj
  rcases j with _ | _ | _ | _ | _ | _ | j
  · exact guardedLocal?_eq_none_of_action hzero nofun _
  · exact guardedLocal?_eq_none_of_action g.action_skip nofun _
  · -- the second load: what is pushed behind it is one, not zero
    exact guardedLocal?_eq_none_of_constant hconstant _
  · exact guardedLocal?_eq_none_of_action hone nofun _
  · exact guardedLocal?_eq_none_of_action g.action_minus nofun _
  · exact guardedLocal?_eq_none_of_action hsave nofun _
  · simp only [code, List.tail_cons, List.length_cons, List.length_nil] at hj
    omega

/-- A guard that is not passed over is run, and then what is behind it. -/
theorem runCode_live {s : Machine} (h : ¬ g.IsDead s) (rest : List Instruction) :
    runCode true (g.code ++ rest) s =
      match Machine.run g.code s with
      | .ok _ t => runCode true rest t
      | .error (_, fault) t => .error fault t := by
  have hlive : guardIsDead s (g.test :: (g.code.tail ++ rest)) = false := by
    have hdead := mt (g.guardIsDead_code_iff rest s).mp h
    exact eq_false_of_ne_true hdead
  show runCode true (g.test :: (g.code.tail ++ rest)) s =
    match Machine.run (g.test :: g.code.tail) s with
    | .ok _ t => runCode true rest t
    | .error (_, fault) t => .error fault t
  rw [runCode_cons hlive]
  cases hstep : Machine.step g.test s with
  | error fault t => simp only [Machine.run, hstep]
  | ok u t =>
    simp only [runCode_append rest (g.guardedLocal?_tail rest) true t]
    cases hrun : Machine.run g.code.tail t with
    | ok u' t' => simp only [Machine.run, hstep, hrun]
    | error fault t' => simp only [Machine.run, hstep, hrun]

/-- A guard is passed over, or else it is run. -/
theorem passed_cases {s s' : Machine} (h : runCode true g.code s = .ok () s') :
    (g.IsDead s ∧ s' = s) ∨ (¬ g.IsDead s ∧ Machine.run g.code s = .ok () s') := by
  have hend : ∀ t : Machine, runCode true [] t = .ok () t := fun t => by
    rw [runCode]
    rfl
  rw [← List.append_nil g.code] at h
  by_cases hdead : g.IsDead s
  · rw [runCode_dead hdead, hend] at h
    cases h
    exact .inl ⟨hdead, rfl⟩
  · rw [runCode_live hdead] at h
    cases hrun : Machine.run g.code s with
    | error fault t =>
      rw [hrun] at h
      cases h
    | ok u t =>
      simp only [hrun, hend] at h
      cases h
      exact .inr ⟨hdead, rfl⟩

/-- Behind a guard the run goes on from where the guard has left the machine. -/
theorem runCode_passed {s s' : Machine} (h : runCode true g.code s = .ok () s')
    (rest : List Instruction) : runCode true (g.code ++ rest) s = runCode true rest s' := by
  rcases passed_cases h with ⟨hdead, rfl⟩ | ⟨hlive, hrun⟩
  · exact runCode_dead hdead rest
  · rw [runCode_live hlive, hrun]

/-! ## What running a guard does -/

/-- The guard is about one local, and its branch leads right behind it. -/
structure IsFor (g : Guard) (n : BitVec 16) : Prop where
  test : g.test.IsAccess .localVar .load n
  load : g.load.IsAccess .localVar .load n
  save : g.save.IsAccess .localVar .store n
  skip : g.skip.branchTarget? = some g.save.next

/-- A guard for local `n` is at the front of the code. -/
def isAtFront (n : BitVec 16) : List Instruction → Bool
  | test :: zero :: skip :: load :: one :: minus :: save :: rest =>
      guardedLocal? (test :: zero :: skip :: load :: one :: minus :: save :: rest) == some n &&
        test.localIndex? == some n && load.localIndex? == some n &&
        skip.branchTarget? == some save.next
  | _ => false

/-- What is recognised as a guard for a local is one. -/
theorem exists_isFor (hm : m.IsDecoded) (h : isAtFront n (m.code.drop k) = true) :
    ∃ g : Guard, g.StandsAt m k ∧ g.IsFor n ∧ g.code = (m.code.drop k).take guardLength := by
  unfold isAtFront at h
  split at h
  · rename_i test zero skip load one minus save rest hdrop
    simp only [Bool.and_eq_true, beq_iff_eq] at h
    obtain ⟨⟨⟨hguard, htest⟩, hload⟩, hskip⟩ := h
    obtain ⟨g, rest', hcode, hsave⟩ := exists_of_guardedLocal? hguard
    cases hcode
    have hat : g.StandsAt m k := fun _ _ hi => getElem?_of_drop hdrop hi
    refine ⟨g, hat, ⟨?_, ?_, ?_, hskip⟩, by rw [hdrop]; rfl⟩
    · exact (hat.isStatement hm (j := 0) rfl).isAccess_iff.mpr ⟨g.loads_test, htest⟩
    · exact (hat.isStatement hm (j := 3) rfl).isAccess_iff.mpr ⟨g.loads_load, hload⟩
    · exact (hat.isStatement hm (j := 6) rfl).isAccess_iff.mpr ⟨g.stores_save, hsave⟩
  · cases h

/-- The branch takes away the two values that it compares. -/
theorem pops_skip (hm : m.IsDecoded) (h : g.StandsAt m k) : g.skip.pops = 2 := by
  obtain ⟨s, address, offset, hs⟩ := h.isStatement hm (j := 2) rfl
  have hskip := g.isBneUn_skip
  simp only [Instruction.isBneUn, Bool.or_eq_true, beq_iff_eq] at hskip
  have hrow : g.skip.opcode.row? = some s.row := by
    rw [hs]
    exact Row.row?_opcode s.defined
  have hpops : g.skip.opcode.row?.map (·.pops) = some 2 := by
    rcases hskip with h | h <;> rw [h] <;> decide +kernel
  rw [hrow] at hpops
  rw [hs]
  exact Option.some.inj hpops

/-- What a run of the seven instructions does: it takes one from the local. -/
theorem run_ok (hm : m.IsDecoded) (h : g.StandsAt m k) (hg : g.IsFor n) {s s' : Machine}
    (hrun : Machine.run g.code s = .ok () s') :
    ∃ slot, s.locals.find? n = some slot ∧ s'.stack.values = s.stack.values ∧
      s'.locals = s.locals.store n (slot.value.binary (.arithmetic (.sub .wrap)) (.ofBits 1)) := by
  have htest := h.touches hm (j := 0) rfl hg.test
  have hload := h.touches hm (j := 3) rfl hg.load
  have hsave := h.touches hm (j := 6) rfl hg.save
  simp only [code, Machine.run_cons_ok_iff] at hrun
  obtain ⟨s₁, h₁, s₂, h₂, s₃, h₃, s₄, h₄, s₅, h₅, s₆, h₆, s₇, h₇, hend⟩ := hrun
  obtain ⟨slot, hslot, hs₁⟩ := (Machine.Holds.self s).step_load htest h₁
  have hs₂ := hs₁.step_int32 g.constant_zero h₂
  have hs₃ := hs₂.step_branch g.action_skip h₃
  obtain ⟨slot', hslot', hs₄⟩ := hs₃.step_load hload h₄
  have hs₅ := hs₄.step_int32 g.constant_one h₅
  obtain ⟨right, left, rest, hvalues, hs₆⟩ := hs₅.step_binary g.action_minus h₆
  cases hvalues
  obtain ⟨v, rest', hvalues, hs₇⟩ := hs₆.step_store hsave h₇
  cases hvalues
  cases hend
  have hlocals := congrFun hs₇.slots .localVar
  have hvalues := hs₇.values
  rw [Function.update_self] at hlocals
  rw [pops_skip hm h] at hvalues
  exact ⟨slot', hslot', hvalues, hlocals⟩

end Guard

/-! ## What a guard leaves -/

/-- What a guard leaves in its local, for what was there. -/
def guardLeaves (x : BitVec 32) : BitVec 32 := if x = 0 then x - 1 else x

/-- A slot of 32 bits holds words as they are. -/
theorem Value.coerce_int32 {f : Flavor} (hwidth : f.intBits? = some 32) (w : PartialWord) :
    (Value.int32 w).coerce f = .int32 w := by
  cases f <;> first | rfl | cases hwidth

/-- What is in a slot of 32 bits after a word was stored there. -/
theorem Slots.find?_store_int32 {s : Slots} {n : BitVec 16} {slot : Slot}
    (hslot : s.find? n = some slot) (hwidth : slot.flavor.intBits? = some 32) (w : PartialWord) :
    (s.store n (.int32 w)).find? n = some { slot with value := .int32 w } := by
  rw [Slots.find?_store, hslot, Option.map_some, if_pos (Slots.index_of_find? hslot),
    Value.coerce_int32 hwidth]

namespace Value

/-- A word less one; an unknown value counts as an unknown word. -/
theorem binary_sub_one {v : Value} {w : PartialWord} (h : v.word? = some w) :
    v.binary (.arithmetic (.sub .wrap)) (.ofBits 1) = .int32 (w - .concrete 1) := by
  cases v <;> cases h <;> rfl

/-- A word is known not to be zero if it is fully known and another one. -/
theorem isNonzero_iff {v : Value} {w : PartialWord} (h : v.word? = some w) :
    v.isNonzero = true ↔ ∃ x, w = .concrete x ∧ x ≠ 0 := by
  have hbits : v.isNonzero = w.toBits?.any (· != 0) := by
    cases v <;> cases h <;> rfl
  rw [hbits, Option.any_eq_true]
  simp only [PartialWord.toBits?_eq_some_iff, bne_iff_ne]

end Value

namespace Guard

variable {g : Guard} {m : Method} {k : Nat} {n : BitVec 16}

/-- The program comes behind the guard, with what the guard leaves in its local. -/
theorem reaches_leaves (hm : m.IsDecoded) (h : g.StandsAt m k) (hg : g.IsFor n) {locals : Slots}
    {slot : Slot} (hslot : locals.find? n = some slot) (hwidth : slot.flavor.intBits? = some 32)
    (x : BitVec 32) (stack : List Value) :
    m.Reaches ⟨g.test.address, stack, locals.store n (.ofBits x)⟩
      ⟨g.save.next, stack, locals.store n (.ofBits (guardLeaves x))⟩ := by
  have hx : (locals.store n (.ofBits x)).find? n = some { slot with value := .ofBits x } :=
    Slots.find?_store_int32 hslot hwidth (.concrete x)
  by_cases hzero : x = 0
  · subst hzero
    have hload := h.touches hm (j := 3) rfl hg.load
    have hsave := h.touches hm (j := 6) rfl hg.save
    have hequal : (Value.ofBits 0).differs? (.ofBits 0) = some false := by decide
    refine h.reaches_skip hm hg.test hx ?_
    refine h.reaches_next hm (j := 2) rfl rfl (g.advance?_skip hequal _ _ _) ?_
    refine h.reaches_next hm (j := 3) rfl rfl (Instruction.advance?_load hload hx) ?_
    refine h.reaches_next hm (j := 4) rfl rfl (Instruction.advance?_int32 g.constant_one) ?_
    refine h.reaches_next hm (j := 5) rfl rfl (Instruction.advance?_binary g.action_minus _ _) ?_
    refine .step ?_ (.refl _)
    rw [hm.advance?_eq (h 6 g.save rfl) rfl,
      Instruction.advance?_store hsave (Option.isSome_of_eq_some hx), Slots.store_store,
      Value.binary_sub_one rfl, PartialWord.concrete_sub]
    rfl
  · rw [guardLeaves, if_neg hzero]
    refine h.reaches_of_isNonzero hm hg.test hx ?_ hg.skip stack
    exact (Value.isNonzero_iff rfl).mpr ⟨x, rfl, hzero⟩

end Guard

/-- A guard for a word is dead if the word is fully known and not zero. -/
theorem Guard.isDead_iff {g : Guard} {n : BitVec 16} (hg : g.IsFor n) {s : Machine} {slot : Slot}
    (hslot : s.locals.find? n = some slot) {w : PartialWord} (hw : slot.value.word? = some w) :
    g.IsDead s ↔ ∃ x, w = .concrete x ∧ x ≠ 0 := by
  have hindex : g.save.localIndex? = some n := hg.save.queries.2
  have hvalue : s.local? n = some slot.value := by rw [Machine.local?, hslot, Option.map_some]
  rw [← Value.isNonzero_iff hw]
  constructor
  · rintro ⟨n', v, hn', hv, hnonzero⟩
    cases hindex.symm.trans hn'
    cases hvalue.symm.trans hv
    exact hnonzero
  · intro hnonzero
    exact ⟨n, slot.value, hindex, hvalue, hnonzero⟩

/-- What running a guard leaves of the knowledge of its local is right for a
number if that is zero, or if nothing is known of its lowest bit. -/
theorem PartialWord.guardLeaves_mem_sub_one_iff {w : PartialWord} {x : BitVec 32} (hx : x ∈ w) :
    guardLeaves x ∈ w - .concrete 1 ↔ x = 0 ∨ w.bit? 0 = none := by
  by_cases hzero : x = 0
  · rw [guardLeaves, if_pos hzero]
    exact ⟨fun _ => .inl hzero, fun _ => mem_sub_one hx⟩
  · rw [guardLeaves, if_neg hzero, mem_sub_one_iff hx]
    exact ⟨.inr, fun h => h.resolve_left hzero⟩

namespace Generator

/-- **What a guard leaves is known rightly, with one exception.**  Take a guard
for a local of 32 bits, any state in which something is known of the local,
or nothing, and any number that agrees with what is known.  Once the guard is
passed, over or through, the run goes on behind it, with the stack as it was.
The program comes there too, from that number to the number that a guard
leaves.  And that agrees with what is then known of the local exactly if the
number was zero, or the local was fully known, or its lowest bit was not
known. -/
theorem guardLeaves_mem_iff (m : Method) (hm : m.IsDecoded) (g : Guard) (k : Nat) (hat : g.StandsAt m k)
    (n : BitVec 16) (hg : g.IsFor n) (s s' : Machine) (slot : Slot)
    (hslot : s.locals.find? n = some slot) (hwidth : slot.flavor.intBits? = some 32)
    (w : PartialWord) (hw : slot.value.word? = some w) (x : BitVec 32) (hx : x ∈ w)
    (hrun : runCode true g.code s = .ok () s') :
    (∀ rest, runCode true (g.code ++ rest) s = runCode true rest s') ∧
      s'.stack.values = s.stack.values ∧
      m.Reaches ⟨g.test.address, s.stack.values, s.locals.store n (.ofBits x)⟩
        ⟨g.save.next, s.stack.values, s.locals.store n (.ofBits (guardLeaves x))⟩ ∧
      ∃ w', (s'.local? n).bind Value.word? = some w' ∧
        (guardLeaves x ∈ w' ↔ x = 0 ∨ w.isConcrete = true ∨ w.bit? 0 = none) := by
  have hreaches := g.reaches_leaves hm hat hg hslot hwidth x s.stack.values
  rcases Guard.passed_cases hrun with ⟨hdead, rfl⟩ | ⟨hlive, hthrough⟩
  · refine ⟨Guard.runCode_passed hrun, rfl, hreaches, w, ?_, ?_⟩
    · rw [Machine.local?, hslot, Option.map_some, Option.bind_some, hw]
    · obtain ⟨y, rfl, hy⟩ := (Guard.isDead_iff hg hslot hw).mp hdead
      obtain rfl := PartialWord.mem_concrete_iff.mp hx
      rw [guardLeaves, if_neg hy]
      exact ⟨fun _ => .inr (.inl (beq_self_eq_true _)), fun _ => hx⟩
  · obtain ⟨slot', hslot', hvalues, hlocals⟩ := Guard.run_ok hm hat hg hthrough
    cases hslot.symm.trans hslot'
    rw [Value.binary_sub_one hw] at hlocals
    have hzero : w.isConcrete = true → x = 0 := by
      intro hconcrete
      refine Classical.byContradiction fun hother => hlive ?_
      have hbits : w.toBits? = some w.value := if_pos hconcrete
      rw [PartialWord.toBits?_eq_some_iff] at hbits
      rw [hbits, PartialWord.mem_concrete_iff] at hx
      exact (Guard.isDead_iff hg hslot hw).mpr ⟨w.value, hbits, hx ▸ hother⟩
    refine ⟨Guard.runCode_passed hrun, hvalues, hreaches, w - .concrete 1, ?_, ?_⟩
    · rw [Machine.local?, hlocals, Slots.find?_store_int32 hslot hwidth]
      rfl
    · rw [PartialWord.guardLeaves_mem_sub_one_iff hx]
      constructor
      · rintro (h | h)
        · exact .inl h
        · exact .inr (.inr h)
      · rintro (h | h | h)
        · exact .inl h
        · exact .inl (hzero h)
        · exact .inr h

theorem guardLeaves_mem_iff_guardedRoundTrip :
    ∃ code, decode 0 Method.guardedRoundTrip = .ok code ∧
      let m := Method.ofInstructions ⟨0⟩ "" code [] [⟨0, .i4⟩, ⟨1, .i4⟩] true
      let w := PartialWord.of 2 2
      let s := withLocalOne (.int32 w)
      m.IsDecoded ∧ (2 : BitVec 32) ∈ w ∧ ∃ (g : Guard) (s' : Machine), g.StandsAt m 3 ∧ g.IsFor 1 ∧
        runCode true g.code s = .ok () s' ∧
        (∀ rest, runCode true (g.code ++ rest) s = runCode true rest s') ∧
        s'.stack.values = s.stack.values ∧
        m.Reaches ⟨g.test.address, s.stack.values, s.locals.store 1 (.ofBits 2)⟩
          ⟨g.save.next, s.stack.values, s.locals.store 1 (.ofBits (guardLeaves 2))⟩ ∧
        ∃ w', (s'.local? 1).bind Value.word? = some w' ∧
          (guardLeaves 2 ∈ w' ↔ (2 : BitVec 32) = 0 ∨ w.isConcrete = true ∨ w.bit? 0 = none) := by
  obtain ⟨code, hdecode, hcheck⟩ := exists_of_decodesTo Method.guardedRoundTrip (fun code =>
    let m := Method.ofInstructions ⟨0⟩ "" code [] [⟨0, .i4⟩, ⟨1, .i4⟩] true
    Guard.isAtFront 1 (m.code.drop 3) && decide (outcome (runCode true ((m.code.drop 3).take guardLength)
      (withLocalOne (.int32 (.of 2 2)))) = .ok ())) (by decide +kernel)
  simp only [Bool.and_eq_true, decide_eq_true_eq] at hcheck
  obtain ⟨hfront, hrun⟩ := hcheck
  have hm : (Method.ofInstructions ⟨0⟩ "" code [] [⟨0, .i4⟩, ⟨1, .i4⟩] true).IsDecoded :=
    ⟨0, Method.guardedRoundTrip, by decide, hdecode⟩
  obtain ⟨g, hat, hg, hcode⟩ := Guard.exists_isFor hm hfront
  rw [← hcode] at hrun
  have hrun := eq_ok_of_outcome hrun
  exact ⟨code, hdecode, hm, by decide, g, _, hat, hg, hrun,
    guardLeaves_mem_iff _ hm g 3 hat 1 hg (withLocalOne (.int32 (.of 2 2))) _ ⟨⟨1, .i4⟩, .int32 (.of 2 2)⟩ rfl rfl
      (.of 2 2) rfl 2 (by decide) hrun⟩

/-- A guard for local 1, of which the lowest bit has just been set, and what
the guard leaves of that bit added to the sum. -/
def lowestBitSet : List Byte :=
  [0x2B, 0x00, 0x06, 0x07, 0x17, 0x60, 0x0B, 0x07, 0x16, 0x33, 0x04, 0x07, 0x17, 0x59, 0x0B, 0x07, 0x17,
    0x5F, 0x76, 0x6C, 0x6D, 0x58]

/-- The machine takes one from a local that is known to be odd, and holds it
to be even: the one that the program leaves there does not agree with it. -/
theorem guardLeaves_notMem_lowestBitSet :
    ∃ code, decode 0 lowestBitSet = .ok code ∧
      let m := Method.ofInstructions ⟨0⟩ "" code [] [⟨0, .i4⟩, ⟨1, .i4⟩] false
      let w := m.window .singlePhase .guarded 1 19 0
      let s := stateBehind m w 5
      m.locate .both = .ok w ∧ s.local? 1 = some (.int32 (.of 1 1)) ∧ (1 : BitVec 32) ∈ PartialWord.of 1 1 ∧
        ∃ (g : Guard) (s' : Machine), g.StandsAt m 6 ∧ g.IsFor 1 ∧ runCode true g.code s = .ok () s' ∧
          s'.local? 1 = some (.int32 (.of 0 1)) ∧ guardLeaves 1 ∉ PartialWord.of 0 1 := by
  obtain ⟨code, hdecode, hcheck⟩ := exists_of_decodesTo lowestBitSet (fun code =>
    let m := Method.ofInstructions ⟨0⟩ "" code [] [⟨0, .i4⟩, ⟨1, .i4⟩] false
    let w := m.window .singlePhase .guarded 1 19 0
    let s := stateBehind m w 5
    let guard := (m.code.drop 6).take guardLength
    m.locate? .both == some w && s.local? 1 == some (.int32 (.of 1 1)) &&
      Guard.isAtFront 1 (m.code.drop 6) && decide (outcome (runCode true guard s) = .ok ()) &&
      (after (runCode true guard) s).local? 1 == some (.int32 (.of 0 1))) (by decide +kernel)
  simp only [Bool.and_eq_true, beq_iff_eq, decide_eq_true_eq] at hcheck
  obtain ⟨⟨⟨⟨hlocate, hbefore⟩, hfront⟩, hrun⟩, hbehind⟩ := hcheck
  have hm : (Method.ofInstructions ⟨0⟩ "" code [] [⟨0, .i4⟩, ⟨1, .i4⟩] false).IsDecoded :=
    ⟨0, lowestBitSet, by decide, hdecode⟩
  obtain ⟨g, hat, hg, hcode⟩ := Guard.exists_isFor hm hfront
  rw [← hcode] at hrun hbehind
  exact ⟨code, hdecode, Method.locate_eq_ok_iff.mpr hlocate, hbefore, by decide, g, _, hat, hg,
    eq_ok_of_outcome hrun, hbehind, by decide⟩

end Generator

end KeyLoop
