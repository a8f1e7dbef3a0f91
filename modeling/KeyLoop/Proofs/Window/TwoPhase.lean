/-
# Two-phase loops

A two-phase loop is a byte fold and the update behind it.

    i .. i + 7         conv.u; ldelem.u1; or; a store; a load of the sum;
                       a load; add; a store to the sum
    i + 8              the update begins here, or where a branch here leads
    first              loads the sum
    first .. last      the straight line of the update, without a store to the sum
    last + 1           stores the sum

The leftmost fold with a load of its sum behind it decides; its update may
have no end, and then there is no loop.  `locate_twoPhase` says that locating
finds the loop so described whenever there is one, and that otherwise it
answers that there is none.
-/
import KeyLoop.Proofs.Window.Span

namespace KeyLoop

namespace Method

/-! ## What a two-phase loop is -/

/-- A byte fold into local `sum` stands at index `i`. -/
structure FoldsAt (m : Method) (i : Nat) (sum : BitVec 16) : Prop where
  widen : m.At i (·.opcode = .convU)
  element : m.At (i + 1) (·.opcode = .ldelemU1)
  join : m.At (i + 2) (·.opcode = .or)
  keep : m.At (i + 3) fun x => ∃ n, m.Stores n x
  load : m.At (i + 4) (m.Loads sum)
  word : m.At (i + 5) fun x => ∃ n, m.Loads n x
  plus : m.At (i + 6) (·.opcode = .add)
  save : m.At (i + 7) (m.Stores sum)

/-- The update behind a byte fold at index `i` begins at `first`, with a load of the sum. -/
structure BeginsAt (m : Method) (i first : Nat) (sum : BitVec 16) : Prop where
  fold : m.FoldsAt i sum
  behind : m.At (i + 8) fun x => if x.isBr then m.LeadsTo (i + 8) first else first = i + 8
  load : m.At first (m.Loads sum)

/-- The update between two indices is a straight line up to the first store of the sum. -/
structure EndsAt (m : Method) (first last : Nat) (sum : BitVec 16) : Prop where
  ordered : first ≤ last
  line : ∀ k, first ≤ k → k ≤ last → m.At k fun x => x.isSequential ∧ ¬ m.Stores sum x
  store : m.At (last + 1) (m.Stores sum)

/-- The two-phase loop of a method: the leftmost fold with an update behind
it, and the end of that update. -/
def TwoPhaseLoop (m : Method) (first last : Nat) (sum : BitVec 16) : Prop :=
  ∃ i, m.BeginsAt i first sum ∧ (∀ j < i, ∀ n s, ¬ m.BeginsAt j n s) ∧ m.EndsAt first last sum

/-! ## The byte fold -/

variable {m : Method}

theorem byteFold?_eq_some_iff (hm : m.Legible) {i : Nat} {sum : BitVec 16} {x : Instruction} :
    m.byteFold? (m.code.drop i) = some (sum, x) ↔ m.FoldsAt i sum ∧ m.code[i + 8]? = some x := by
  constructor
  · intro h
    have hget : ∀ k, m.code[i + k]? = (m.code.drop i)[k]? := fun k => List.getElem?_drop.symm
    unfold byteFold? at h
    split at h
    · rename_i widen element join keep load word plus save behind rest hcode
      rw [hcode] at hget
      simp only [Option.bind_eq_bind, Option.bind_eq_some_iff, Option.guard_eq_some', Option.pure_def,
        Option.some.injEq, Prod.mk.injEq] at h
      obtain ⟨-, ⟨hwiden, helement, hjoin⟩, n, hkeep, sum, hload, n', hword, -, ⟨hplus, hsave⟩, rfl,
        rfl⟩ := h
      have hmem : ∀ {k y}, m.code[i + k]? = some y → y ∈ m.code := List.mem_of_getElem?
      exact ⟨{
        widen := ⟨widen, hget 0, hwiden⟩
        element := ⟨element, hget 1, helement⟩
        join := ⟨join, hget 2, hjoin⟩
        keep := ⟨keep, hget 3, n, (hm.storedLocal?_eq_some_iff (hmem (hget 3))).mp hkeep⟩
        load := ⟨load, hget 4, (hm.loadedLocal?_eq_some_iff (hmem (hget 4))).mp hload⟩
        word := ⟨word, hget 5, n', (hm.loadedLocal?_eq_some_iff (hmem (hget 5))).mp hword⟩
        plus := ⟨plus, hget 6, hplus⟩
        save := ⟨save, hget 7, (hm.storedLocal?_eq_some_iff (hmem (hget 7))).mp hsave⟩ }, hget 8⟩
    · cases h
  · rintro ⟨⟨⟨widen, h₀, hwiden⟩, ⟨element, h₁, helement⟩, ⟨join, h₂, hjoin⟩, ⟨keep, h₃, n, hkeep⟩,
      ⟨load, h₄, hload⟩, ⟨word, h₅, n', hword⟩, ⟨plus, h₆, hplus⟩, ⟨save, h₇, hsave⟩⟩, h₈⟩
    have hmem : ∀ {k y}, m.code[i + k]? = some y → y ∈ m.code := List.mem_of_getElem?
    have hkeep := (hm.storedLocal?_eq_some_iff (hmem h₃)).mpr hkeep
    have hload := (hm.loadedLocal?_eq_some_iff (hmem h₄)).mpr hload
    have hword := (hm.loadedLocal?_eq_some_iff (hmem h₅)).mpr hword
    have hsave := (hm.storedLocal?_eq_some_iff (hmem h₇)).mpr hsave
    rw [drop_eq_cons h₀, drop_eq_cons h₁, drop_eq_cons h₂, drop_eq_cons h₃, drop_eq_cons h₄,
      drop_eq_cons h₅, drop_eq_cons h₆, drop_eq_cons h₇, drop_eq_cons h₈]
    simp [byteFold?, guard, hwiden, helement, hjoin, hkeep, hload, hword, hplus, hsave]

/-- The start of an update is found exactly where one begins. -/
theorem twoPhaseStart?_eq_some_iff (hm : m.Legible) {i first : Nat} {sum : BitVec 16} :
    m.twoPhaseStart? i = some (first, sum) ↔ m.BeginsAt i first sum := by
  have hstart : ∀ x : Instruction,
      (if x.isBr then m.branchTarget? (i + 8) else some (i + 8)) = some first ↔
        if x.isBr then m.LeadsTo (i + 8) first else first = i + 8 := by
    intro x
    split
    · exact hm.branchTarget?_eq_some_iff (i + 8) first
    · rw [Option.some.injEq, eq_comm]
  have hbind : m.twoPhaseStart? i = (m.byteFold? (m.code.drop i)).bind fun p =>
      (if p.2.isBr then m.branchTarget? (i + 8) else some (i + 8)).bind fun start =>
        Option.bind (guard (m.code[start]?.bind m.loadedLocal? = some p.1)) fun _ =>
          some (start, p.1) := by
    unfold twoPhaseStart?
    refine congrArg (Option.bind _) (funext fun p => ?_)
    dsimp only
    split <;> rfl
  rw [hbind]
  simp only [Option.bind_eq_some_iff, Prod.exists, byteFold?_eq_some_iff hm, Option.guard_eq_some',
    hm.bind_loadedLocal?_eq_some_iff, Option.some.injEq, Prod.mk.injEq]
  constructor
  · rintro ⟨sum, x, ⟨hfold, hx⟩, first, hfirst, -, hload, rfl, rfl⟩
    exact ⟨hfold, ⟨x, hx, (hstart x).mp hfirst⟩, hload⟩
  · rintro ⟨hfold, ⟨x, hx, hfirst⟩, hload⟩
    exact ⟨sum, x, ⟨hfold, hx⟩, first, (hstart x).mpr hfirst, (), hload, rfl, rfl⟩

/-! ## The end of the update -/

/-- The first element with `q` among the leading ones with `p`. -/
theorem findIdx?_takeWhile_eq_some_iff {α : Type} {p q : α → Bool} {l : List α} {d : Nat} :
    (l.takeWhile p).findIdx? q = some d ↔
      (∀ k < d, ∃ a, l[k]? = some a ∧ p a ∧ ¬ q a) ∧ ∃ a, l[d]? = some a ∧ p a ∧ q a := by
  induction l generalizing d with
  | nil => simp
  | cons a l ih =>
    by_cases hp : p a
    · rw [List.takeWhile_cons_of_pos hp, List.findIdx?_cons]
      by_cases hq : q a
      · rw [if_pos hq]
        constructor
        · rintro ⟨⟩
          exact ⟨fun k hk => absurd hk (Nat.not_lt_zero k), a, rfl, hp, hq⟩
        · rintro ⟨hbefore, -⟩
          cases d with
          | zero => rfl
          | succ d =>
            obtain ⟨_, ⟨⟩, -, hnot⟩ := hbefore 0 (Nat.succ_pos d)
            exact absurd hq hnot
      · rw [if_neg hq]
        cases d with
        | zero =>
          constructor
          · intro h
            simp at h
          · rintro ⟨-, _, ⟨⟩, -, hq'⟩
            exact absurd hq' hq
        | succ d =>
          rw [Option.map_eq_some_iff]
          simp only [Nat.add_right_cancel_iff, exists_eq_right, ih, List.getElem?_cons_succ]
          constructor
          · rintro ⟨hbefore, hfound⟩
            refine ⟨fun k hk => ?_, hfound⟩
            cases k with
            | zero => exact ⟨a, rfl, hp, hq⟩
            | succ k => exact hbefore k (by omega)
          · rintro ⟨hbefore, hfound⟩
            exact ⟨fun k hk => hbefore (k + 1) (by omega), hfound⟩
    · rw [List.takeWhile_cons_of_neg hp]
      constructor
      · intro h
        cases h
      · rintro ⟨hbefore, hfound⟩
        cases d with
        | zero =>
          obtain ⟨_, ⟨⟩, hp', -⟩ := hfound
          exact absurd hp' hp
        | succ d =>
          obtain ⟨_, ⟨⟩, hp', -⟩ := hbefore 0 (Nat.succ_pos d)
          exact absurd hp' hp

/-- The distance to the first store of the sum is found if only a straight
line lies before it. -/
theorem distanceToStore?_eq_some_iff (hm : m.Legible) {first d : Nat} {sum : BitVec 16} :
    m.distanceToStore? first sum = some d ↔
      (∀ k < d, m.At (first + k) fun x => x.isSequential ∧ ¬ m.Stores sum x) ∧
        m.At (first + d) (m.Stores sum) := by
  unfold distanceToStore?
  rw [findIdx?_takeWhile_eq_some_iff]
  simp only [List.getElem?_drop, decide_eq_true_eq, At]
  have hstore : ∀ {k x}, m.code[k]? = some x →
      (m.storedLocal? x = some sum ↔ m.Stores sum x) := fun hx =>
    hm.storedLocal?_eq_some_iff (List.mem_of_getElem? hx)
  constructor
  · rintro ⟨hbefore, x, hx, -, hstored⟩
    refine ⟨fun k hk => ?_, x, hx, (hstore hx).mp hstored⟩
    obtain ⟨y, hy, hsequential, hnot⟩ := hbefore k hk
    exact ⟨y, hy, hsequential, mt (hstore hy).mpr hnot⟩
  · rintro ⟨hbefore, x, hx, hstores⟩
    refine ⟨fun k hk => ?_, x, hx, ?_, (hstore hx).mpr hstores⟩
    · obtain ⟨y, hy, hsequential, hnot⟩ := hbefore k hk
      exact ⟨y, hy, hsequential, mt (hstore hy).mp hnot⟩
    · exact hm.isSequential_of_stores (List.mem_of_getElem? hx) hstores

theorem endsAt_iff (hm : m.Legible) {first last : Nat} {sum : BitVec 16} :
    m.EndsAt first last sum ↔ ∃ d, m.distanceToStore? first sum = some d ∧ 0 < d ∧
      last = first + d - 1 := by
  simp only [distanceToStore?_eq_some_iff hm]
  constructor
  · rintro ⟨hordered, hline, hstore⟩
    refine ⟨last + 1 - first, ⟨fun k hk => hline (first + k) (by omega) (by omega), ?_⟩, by omega,
      by omega⟩
    rwa [show first + (last + 1 - first) = last + 1 by omega]
  · rintro ⟨d, ⟨hline, hstore⟩, hpos, rfl⟩
    refine ⟨by omega, fun k hlow hhigh => ?_, ?_⟩
    · have hk := hline (k - first) (by omega)
      rwa [show first + (k - first) = k by omega] at hk
    · rwa [show first + d - 1 + 1 = first + d by omega]

/-! ## The loop -/

/-- The search finds the two-phase loop, if there is one. -/
theorem twoPhase?_eq_some_iff (hm : m.Legible) {w : Window} :
    m.twoPhase? = some w ↔ ∃ first last sum, m.TwoPhaseLoop first last sum ∧
      w = m.window .twoPhase .standard first last sum := by
  have hnone : ∀ j, m.twoPhaseStart? j = none ↔ ∀ n s, ¬ m.BeginsAt j n s := by
    intro j
    simp only [Option.eq_none_iff_forall_ne_some, Prod.forall, ne_eq, twoPhaseStart?_eq_some_iff hm]
  unfold twoPhase?
  simp only [Option.bind_eq_bind, Option.bind_eq_some_iff, Prod.exists, Option.guard_eq_some',
    Option.pure_def, Option.some.injEq, findSome?_range_eq_some_iff, twoPhaseStart?_eq_some_iff hm, hnone]
  constructor
  · rintro ⟨first, sum, ⟨i, -, hbegins, hleast⟩, d, hd, -, hpos, rfl⟩
    exact ⟨first, first + d - 1, sum,
      ⟨i, hbegins, hleast, (endsAt_iff hm).mpr ⟨d, hd, hpos, rfl⟩⟩, rfl⟩
  · rintro ⟨first, last, sum, ⟨i, hbegins, hleast, hends⟩, rfl⟩
    obtain ⟨d, hd, hpos, rfl⟩ := (endsAt_iff hm).mp hends
    have hlt := hbegins.behind.lt
    exact ⟨first, sum, ⟨i, by omega, hbegins, hleast⟩, d, hd, (), hpos, rfl⟩

/-- **Two-phase locating is its specification.**  In a method with decoded
code the window of the two-phase loop is found, holding exactly the
instructions of the update; without such a loop there is no window. -/
theorem locate_twoPhase (m : Method) (hm : m.IsDecoded) :
    (∀ first last sum, m.TwoPhaseLoop first last sum →
      ∃ w, m.locate ⟨true, false⟩ = .ok w ∧ w.Spans m first last ∧ w.accumulator = sum ∧
        w.strategy = .twoPhase ∧ w.dialect = .standard) ∧
    ((¬ ∃ first last sum, m.TwoPhaseLoop first last sum) →
      m.locate ⟨true, false⟩ = .error .loopNotFound) := by
  have hlocate : m.locate? ⟨true, false⟩ = m.twoPhase? := Option.or_none
  constructor
  · intro first last sum hloop
    have hfound := (twoPhase?_eq_some_iff hm.legible).mpr ⟨first, last, sum, hloop, rfl⟩
    obtain ⟨-, -, -, hends⟩ := hloop
    have hinside := hends.store.lt
    exact ⟨_, locate_eq_ok_iff.mpr (hlocate.trans hfound), spans_window (by omega) _ _ _, rfl, rfl, rfl⟩
  · intro hno
    refine locate_eq_error fun w hw => hno ?_
    obtain ⟨first, last, sum, hloop, -⟩ := (twoPhase?_eq_some_iff hm.legible).mp (hlocate.symm.trans hw)
    exact ⟨first, last, sum, hloop⟩

/-- A byte fold with a branch behind it, over one byte to the update. -/
def foldAndBranch : List Byte :=
  [0xE0, 0x91, 0x60, 0x0B, 0x06, 0x07, 0x58, 0x0A, 0x2B, 0x01, 0x00, 0x11, 0x00, 0x17, 0x58, 0x0A]

theorem locate_twoPhase_foldAndBranch :
    ∃ code, decode 0 foldAndBranch = .ok code ∧
      let m := ofInstructions ⟨0⟩ "" code [] [⟨0, .i4⟩, ⟨1, .i4⟩] true
      m.IsDecoded ∧ ∃ w, m.locate ⟨true, false⟩ = .ok w ∧ w.Spans m 10 12 ∧ w.accumulator = 0 ∧
        w.strategy = .twoPhase ∧ w.dialect = .standard := by
  obtain ⟨code, hdecode, hcheck⟩ := exists_of_decodesTo foldAndBranch (fun code =>
    (ofInstructions ⟨0⟩ "" code [] [⟨0, .i4⟩, ⟨1, .i4⟩] true).twoPhase?.any fun w =>
      w.first == 10 && w.last == 12 && w.accumulator == 0) (by decide +kernel)
  have hm : (ofInstructions ⟨0⟩ "" code [] [⟨0, .i4⟩, ⟨1, .i4⟩] true).IsDecoded :=
    ⟨0, foldAndBranch, by decide, hdecode⟩
  refine ⟨code, hdecode, hm, (locate_twoPhase _ hm).1 10 12 0 ?_⟩
  obtain ⟨w, hw, hwindow⟩ := (Option.any_eq_true _ _).mp hcheck
  obtain ⟨first, last, sum, hloop, rfl⟩ := (twoPhase?_eq_some_iff hm.legible).mp hw
  simp only [window, Bool.and_eq_true, beq_iff_eq] at hwindow
  obtain ⟨⟨rfl, rfl⟩, rfl⟩ := hwindow
  exact hloop

end Method

end KeyLoop
