/-
# Single-phase loops

A single-phase loop ends with a round trip through floating point and the
addition behind it, and it begins where the nearest branch before its end
leads.

    i .. i + 3       conv.r.un; conv.r8; conv.u4; add
    b                the last branch up to `i + 3` that resolves
    first            where it resolves to, not behind `i + 3`; loads the sum
    last             the addition, `i + 3`

A branch resolves to its target, if that is not before the branch.  Behind a
branch that leads backward, what stands right before it may lead past it
instead (`Resolves`).  The leftmost round trip with all of this decides.

The dialect is guarded if a branch on inequality lies in the straight line
before the end (`GuardedBy`).  The search for one leaves out the very first
instruction of the method, and that is no loss: the branch that resolves
stands in front of all instructions that count, so they cannot be the first.
-/
import KeyLoop.Proofs.Window.Span

namespace KeyLoop

namespace Method

/-! ## What a single-phase loop is -/

/-- The floating-point round trip and an addition stand at index `i`. -/
structure RoundTripAt (m : Method) (i : Nat) : Prop where
  unsigned : m.At i (·.opcode = .convRUn)
  double : m.At (i + 1) (·.opcode = .convR8)
  cut : m.At (i + 2) (·.opcode = .convU4)
  plus : m.At (i + 3) (·.opcode = .add)

/-- The branch at index `b` leads to `s`, at or behind `b`; or it leads
backward, and what stands right before it leads to `s`, at or behind `b`. -/
def Resolves (m : Method) (b s : Nat) : Prop :=
  m.At b (fun x => x.isBr) ∧
    (m.LeadsTo b s ∧ b ≤ s ∨
      (∃ t < b, m.LeadsTo b t) ∧ ∃ p, p + 1 = b ∧ m.LeadsTo p s ∧ b ≤ s)

/-- The last branch up to index `e` that resolves, resolves to `s`. -/
def ResolvedTo (m : Method) (e s : Nat) : Prop :=
  ∃ b ≤ e, m.Resolves b s ∧ ∀ b' ≤ e, b < b' → ∀ s', ¬ m.Resolves b' s'

/-- The round trip at index `i` closes an update that begins at `first`, with
a load of the sum. -/
structure ClosesAt (m : Method) (i first : Nat) (sum : BitVec 16) : Prop where
  trip : m.RoundTripAt i
  start : m.ResolvedTo (i + 3) first
  ordered : first ≤ i + 3
  load : m.At first (m.Loads sum)

/-- The single-phase loop of a method, by the leftmost round trip that closes an update. -/
def SinglePhaseLoop (m : Method) (first last : Nat) (sum : BitVec 16) : Prop :=
  ∃ i, m.ClosesAt i first sum ∧ (∀ j < i, ∀ n s, ¬ m.ClosesAt j n s) ∧ last = i + 3

/-- A branch on inequality stands at index `k`, at or before `last`, and
behind it, up to `last`, only such branches and the straight line. -/
structure GuardedBy (m : Method) (k last : Nat) : Prop where
  le : k ≤ last
  guard : m.At k fun x => x.isBneUn
  line : ∀ j ≤ last, m.At j (fun x => ¬ x.isSequential ∧ ¬ x.isBneUn) → j < k

variable {m : Method}

/-! ## Branches leave the straight line -/

theorem flow_of_opcode (hm : m.Legible) {x : Instruction} (hx : x ∈ m.code) {flow : Flow}
    (h : x.opcode.row?.map (·.flow) = some flow) : x.flow = flow := by
  obtain ⟨s, address, offset, rfl⟩ := hm.isStatement x hx
  have hrow : s.row.opcode.row? = some s.row := Row.row?_opcode s.defined
  rw [show (s.instruction address offset).opcode = s.row.opcode from rfl, hrow] at h
  exact Option.some.inj h

theorem flow_of_isBneUn (hm : m.Legible) {x : Instruction} (hx : x ∈ m.code)
    (h : x.isBneUn = true) : x.flow = .conditional := by
  simp only [Instruction.isBneUn, Bool.or_eq_true, beq_iff_eq] at h
  refine flow_of_opcode hm hx ?_
  rcases h with h | h <;> rw [h] <;> decide +kernel

theorem flow_of_isBr (hm : m.Legible) {x : Instruction} (hx : x ∈ m.code)
    (h : x.isBr = true) : x.flow = .unconditional := by
  simp only [Instruction.isBr, Bool.or_eq_true, beq_iff_eq] at h
  refine flow_of_opcode hm hx ?_
  rcases h with h | h <;> rw [h] <;> decide +kernel

theorem not_isSequential_of_isBneUn (hm : m.Legible) {x : Instruction} (hx : x ∈ m.code)
    (h : x.isBneUn = true) : ¬ x.isSequential = true := by
  rw [Instruction.isSequential, flow_of_isBneUn hm hx h]
  decide

/-- An unconditional branch ends every straight line, also one with guards. -/
theorem not_in_line_of_isBr (hm : m.Legible) {x : Instruction} (hx : x ∈ m.code)
    (h : x.isBr = true) : ¬ x.isSequential = true ∧ ¬ x.isBneUn = true := by
  have hflow := flow_of_isBr hm hx h
  constructor
  · rw [Instruction.isSequential, hflow]
    decide
  · intro hguard
    rw [flow_of_isBneUn hm hx hguard] at hflow
    cases hflow

/-! ## The round trip -/

theorem isRoundTrip_iff {i : Nat} : isRoundTrip (m.code.drop i) = true ↔ m.RoundTripAt i := by
  constructor
  · intro h
    have hget : ∀ k, m.code[i + k]? = (m.code.drop i)[k]? := fun k => List.getElem?_drop.symm
    unfold isRoundTrip at h
    split at h
    · rename_i unsigned double cut plus rest hcode
      rw [hcode] at hget
      simp only [Bool.and_eq_true, beq_iff_eq] at h
      obtain ⟨⟨⟨hunsigned, hdouble⟩, hcut⟩, hplus⟩ := h
      exact ⟨⟨unsigned, hget 0, hunsigned⟩, ⟨double, hget 1, hdouble⟩, ⟨cut, hget 2, hcut⟩,
        ⟨plus, hget 3, hplus⟩⟩
    · cases h
  · rintro ⟨⟨unsigned, h₀, hunsigned⟩, ⟨double, h₁, hdouble⟩, ⟨cut, h₂, hcut⟩, ⟨plus, h₃, hplus⟩⟩
    rw [drop_eq_cons h₀, drop_eq_cons h₁, drop_eq_cons h₂, drop_eq_cons h₃]
    simp [isRoundTrip, hunsigned, hdouble, hcut, hplus]

/-! ## The branch before it -/

theorem forwardTarget?_eq_some_iff (hm : m.Legible) {b s : Nat} :
    m.forwardTarget? b = some s ↔ m.Resolves b s := by
  unfold forwardTarget? Resolves
  simp only [Option.bind_eq_bind, Option.bind_eq_some_iff, Option.guard_eq_some']
  constructor
  · rintro ⟨x, hx, -, hbr, t, ht, h⟩
    refine ⟨⟨x, hx, hbr⟩, ?_⟩
    rw [hm.branchTarget?_eq_some_iff] at ht
    split at h
    · rename_i hforward
      cases h
      exact .inl ⟨ht, hforward⟩
    · rename_i hbackward
      rw [if_neg (by omega)] at h
      simp only [Option.bind_eq_some_iff, Option.guard_eq_some', hm.branchTarget?_eq_some_iff,
        Option.pure_def, Option.some.injEq] at h
      obtain ⟨_, hprevious, -, hpast, rfl⟩ := h
      exact .inr ⟨⟨t, by omega, ht⟩, b - 1, by omega, hprevious, hpast⟩
  · rintro ⟨⟨x, hx, hbr⟩, ⟨hs, hforward⟩ | ⟨⟨t, hbackward, ht⟩, p, rfl, hp, hpast⟩⟩
    · refine ⟨x, hx, (), hbr, s, (hm.branchTarget?_eq_some_iff _ _).mpr hs, ?_⟩
      rw [if_pos hforward]
      rfl
    · refine ⟨x, hx, (), hbr, t, (hm.branchTarget?_eq_some_iff _ _).mpr ht, ?_⟩
      rw [if_neg (by omega), if_neg (by omega)]
      simp only [Option.bind_eq_some_iff, Option.guard_eq_some', hm.branchTarget?_eq_some_iff,
        Option.pure_def, Option.some.injEq]
      exact ⟨s, hp, (), hpast, rfl⟩

theorem nearestTarget?_eq_some_iff (hm : m.Legible) {e s : Nat} :
    m.nearestTarget? e = some s ↔ m.ResolvedTo e s := by
  have hnone : ∀ b, m.forwardTarget? b = none ↔ ∀ s, ¬ m.Resolves b s := by
    intro b
    simp only [Option.eq_none_iff_forall_ne_some, ne_eq, forwardTarget?_eq_some_iff hm]
  unfold nearestTarget? ResolvedTo
  simp only [findSome?_reverse_range_eq_some_iff, forwardTarget?_eq_some_iff hm, hnone, Nat.lt_succ_iff]

/-! ## The dialect -/

/-- A guard is there with one more instruction at the end, if that one is in
the line, and is a guard or has one before it. -/
theorem exists_guardedBy_succ (hm : m.Legible) {last : Nat} {x : Instruction}
    (hx : m.code[last + 1]? = some x) :
    (∃ k, 0 < k ∧ m.GuardedBy k (last + 1)) ↔
      (x.isSequential = true ∨ x.isBneUn = true) ∧
        (¬ x.isSequential = true ∨ ∃ k, 0 < k ∧ m.GuardedBy k last) := by
  constructor
  · rintro ⟨k, hpos, hle, hguard, hline⟩
    constructor
    · refine Classical.byContradiction fun hneither => ?_
      rw [not_or] at hneither
      have hlt := hline (last + 1) (Nat.le_refl _) ⟨x, hx, hneither⟩
      omega
    · by_cases hsequential : x.isSequential = true
      · have hbefore : k ≠ last + 1 := by
          rintro rfl
          exact not_isSequential_of_isBneUn hm (List.mem_of_getElem? hx) (hguard.of_eq hx) hsequential
        exact .inr ⟨k, hpos, by omega, hguard, fun j hj => hline j (by omega)⟩
      · exact .inl hsequential
  · rintro ⟨hin, hguard⟩
    have hnot : ¬ m.At (last + 1) fun y => ¬ y.isSequential ∧ ¬ y.isBneUn := by
      intro hneither
      obtain ⟨hsequential, hbne⟩ := hneither.of_eq hx
      exact hin.elim hsequential hbne
    have hlater : ∀ j ≤ last + 1, m.At j (fun y => ¬ y.isSequential ∧ ¬ y.isBneUn) → j ≤ last := by
      intro j hj hneither
      have hne : j ≠ last + 1 := by
        rintro rfl
        exact hnot hneither
      omega
    rcases hguard with hsequential | ⟨k, hpos, hle, hguard, hline⟩
    · refine ⟨last + 1, Nat.succ_pos last, Nat.le_refl _, ⟨x, hx, hin.resolve_left hsequential⟩, ?_⟩
      intro j hj hneither
      exact Nat.lt_succ_of_le (hlater j hj hneither)
    · refine ⟨k, hpos, by omega, hguard, ?_⟩
      intro j hj hneither
      exact hline j (hlater j hj hneither) hneither

/-- The search for guards goes back one instruction at a time, down to the
second of the method. -/
theorem dialect_eq_guarded_iff (hm : m.Legible) {last : Nat} (hlast : last < m.code.length) :
    dialect (m.code.take (last + 1)) = .guarded ↔ ∃ k, 0 < k ∧ m.GuardedBy k last := by
  have hany : ∀ code, dialect code = .guarded ↔
      (((code.drop 1).reverse.takeWhile fun i => i.isSequential || i.isBneUn).any
        fun i => !i.isSequential) = true := by
    intro code
    unfold dialect
    dsimp only
    split
    · rename_i h
      exact ⟨fun _ => h, fun _ => rfl⟩
    · rename_i h
      exact ⟨nofun, fun h' => absurd h' h⟩
  rw [hany]
  induction last with
  | zero =>
    have hnothing : (m.code.take 1).drop 1 = [] := by
      rw [List.drop_eq_nil_iff, List.length_take]
      omega
    rw [Nat.zero_add, hnothing]
    constructor
    · nofun
    · rintro ⟨k, hpos, hk⟩
      have hle := hk.le
      omega
  | succ last ih =>
    have hx : m.code[last + 1]? = some m.code[last + 1] := List.getElem?_eq_getElem hlast
    generalize m.code[last + 1] = x at hx
    have hsnoc : ((m.code.take (last + 1 + 1)).drop 1).reverse =
        x :: ((m.code.take (last + 1)).drop 1).reverse := by
      rw [List.take_add_one, hx, Option.toList_some, List.drop_append_of_le_length,
        List.reverse_append, List.reverse_singleton, List.singleton_append]
      rw [List.length_take]
      omega
    have ih : _ ↔ _ := ih (by omega)
    rw [hsnoc, exists_guardedBy_succ hm hx, ← ih]
    rw [List.takeWhile_cons, ← Bool.or_eq_true]
    by_cases hin : (x.isSequential || x.isBneUn) = true
    · rw [if_pos hin, List.any_cons, Bool.or_eq_true, Bool.not_eq_true', Bool.not_eq_true,
        and_iff_right hin]
    · rw [if_neg hin]
      constructor
      · nofun
      · rintro ⟨hin', -⟩
        exact absurd hin' hin

/-- Behind a branch that resolves, no guard can be the first instruction. -/
theorem ResolvedTo.guardedBy_pos (hm : m.Legible) {last s k : Nat} (h : m.ResolvedTo last s)
    (hk : m.GuardedBy k last) : 0 < k := by
  obtain ⟨b, hb, ⟨hbr, -⟩, -⟩ := h
  have hlt := hk.line b hb (hbr.imp fun x hx => not_in_line_of_isBr hm (List.mem_of_getElem? hx))
  omega

/-! ## The loop -/

theorem singlePhaseAt?_eq_some_iff (hm : m.Legible) {i : Nat} {w : Window} :
    m.singlePhaseAt? i = some w ↔ ∃ first sum, m.ClosesAt i first sum ∧
      w = m.window .singlePhase (dialect (m.code.take (i + 3 + 1))) first (i + 3) sum := by
  unfold singlePhaseAt?
  simp only [Option.bind_eq_bind, Option.bind_eq_some_iff, Option.guard_eq_some', isRoundTrip_iff,
    nearestTarget?_eq_some_iff hm, hm.bind_loadedLocal?_eq_some_iff, Option.pure_def,
    Option.some.injEq]
  constructor
  · rintro ⟨-, htrip, first, hstart, -, hordered, sum, hload, rfl⟩
    exact ⟨first, sum, ⟨htrip, hstart, hordered, hload⟩, rfl⟩
  · rintro ⟨first, sum, ⟨htrip, hstart, hordered, hload⟩, rfl⟩
    exact ⟨(), htrip, first, hstart, (), hordered, sum, hload, rfl⟩

/-- The search finds the single-phase loop, if there is one. -/
theorem singlePhase?_eq_some_iff (hm : m.Legible) {w : Window} :
    m.singlePhase? = some w ↔ ∃ first last sum, m.SinglePhaseLoop first last sum ∧
      w = m.window .singlePhase (dialect (m.code.take (last + 1))) first last sum := by
  have hnone : ∀ j, m.singlePhaseAt? j = none ↔ ∀ n s, ¬ m.ClosesAt j n s := by
    intro j
    simp only [Option.eq_none_iff_forall_ne_some, ne_eq, singlePhaseAt?_eq_some_iff hm, not_exists,
      not_and]
    constructor
    · intro h n s hcloses
      exact h _ n s hcloses rfl
    · intro h w n s hcloses
      exact absurd hcloses (h n s)
  unfold singlePhase?
  simp only [findSome?_range_eq_some_iff, hnone, singlePhaseAt?_eq_some_iff hm]
  constructor
  · rintro ⟨i, -, ⟨first, sum, hcloses, rfl⟩, hleast⟩
    exact ⟨first, i + 3, sum, ⟨i, hcloses, hleast, rfl⟩, rfl⟩
  · rintro ⟨first, _, sum, ⟨i, hcloses, hleast, rfl⟩, rfl⟩
    have hlt := hcloses.trip.plus.lt
    exact ⟨i, by omega, ⟨first, sum, hcloses, rfl⟩, hleast⟩

/-- **Single-phase locating is its specification.**  In a method with decoded
code the window of the single-phase loop is found, holding exactly the
instructions of the update, in the guarded dialect exactly if there is a
guard before its end; without such a loop there is no window. -/
theorem locate_singlePhase (m : Method) (hm : m.IsDecoded) :
    (∀ first last sum, m.SinglePhaseLoop first last sum →
      ∃ w, m.locate ⟨false, true⟩ = .ok w ∧ w.Spans m first last ∧ w.accumulator = sum ∧
        w.strategy = .singlePhase ∧ (w.dialect = .guarded ↔ ∃ k, m.GuardedBy k last)) ∧
    ((¬ ∃ first last sum, m.SinglePhaseLoop first last sum) →
      m.locate ⟨false, true⟩ = .error .loopNotFound) := by
  have hlocate : m.locate? ⟨false, true⟩ = m.singlePhase? := Option.none_or
  constructor
  · intro first last sum hloop
    have hfound := (singlePhase?_eq_some_iff hm.legible).mpr ⟨first, last, sum, hloop, rfl⟩
    obtain ⟨i, hcloses, -, rfl⟩ := hloop
    have hinside := hcloses.trip.plus.lt
    refine ⟨_, locate_eq_ok_iff.mpr (hlocate.trans hfound), spans_window hinside _ _ _, rfl, rfl, ?_⟩
    refine (dialect_eq_guarded_iff hm.legible hinside).trans ?_
    constructor
    · rintro ⟨k, -, hk⟩
      exact ⟨k, hk⟩
    · rintro ⟨k, hk⟩
      exact ⟨k, hcloses.start.guardedBy_pos hm.legible hk, hk⟩
  · intro hno
    refine locate_eq_error fun w hw => hno ?_
    obtain ⟨first, last, sum, hloop, -⟩ := (singlePhase?_eq_some_iff hm.legible).mp (hlocate.symm.trans hw)
    exact ⟨first, last, sum, hloop⟩

/-- A branch back to a branch over it, to an update with a guard in it. -/
def guardedRoundTrip : List Byte :=
  [0x2B, 0x02, 0x2B, 0xFC, 0x06, 0x07, 0x16, 0x33, 0x04, 0x07, 0x17, 0x59, 0x0B, 0x76, 0x6C, 0x6D, 0x58]

theorem locate_singlePhase_guardedRoundTrip :
    ∃ code, decode 0 guardedRoundTrip = .ok code ∧
      let m := ofInstructions ⟨0⟩ "" code [] [⟨0, .i4⟩, ⟨1, .i4⟩] true
      m.IsDecoded ∧ ∃ w, m.locate ⟨false, true⟩ = .ok w ∧ w.Spans m 2 13 ∧ w.accumulator = 0 ∧
        w.strategy = .singlePhase ∧ (w.dialect = .guarded ↔ ∃ k, m.GuardedBy k 13) := by
  obtain ⟨code, hdecode, hcheck⟩ := exists_of_decodesTo guardedRoundTrip (fun code =>
    (ofInstructions ⟨0⟩ "" code [] [⟨0, .i4⟩, ⟨1, .i4⟩] true).singlePhase?.any fun w =>
      w.first == 2 && w.last == 13 && w.accumulator == 0) (by decide +kernel)
  have hm : (ofInstructions ⟨0⟩ "" code [] [⟨0, .i4⟩, ⟨1, .i4⟩] true).IsDecoded :=
    ⟨0, guardedRoundTrip, by decide, hdecode⟩
  refine ⟨code, hdecode, hm, (locate_singlePhase _ hm).1 2 13 0 ?_⟩
  obtain ⟨w, hw, hwindow⟩ := (Option.any_eq_true _ _).mp hcheck
  obtain ⟨first, last, sum, hloop, rfl⟩ := (singlePhase?_eq_some_iff hm.legible).mp hw
  simp only [window, Bool.and_eq_true, beq_iff_eq] at hwindow
  obtain ⟨⟨rfl, rfl⟩, rfl⟩ := hwindow
  exact hloop

end Method

end KeyLoop
