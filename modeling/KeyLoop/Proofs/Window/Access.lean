/-
# Locating reads only what is there

Whatever a method holds, every access that locating makes is to an instruction
that is there.  Of the lookup of addresses no more is needed than that its
answers are right (`Truthful`); it may miss addresses, and on code that is not
in the order of its addresses halving does.  The bounds come from four places:

    a shape that is compared        is a part of the code, as long as it must be
    the target of a branch          is an answer of the lookup
    the end of a two-phase update   is before a store that was found behind its start
    the end of the other kind       is the end of the shape, and a branch is
                                    looked for from there to the front

What is found has its ends in order (`Found.Fits`), and so it is a window of
the method: `Window.LocatedIn` says what that means.  Where the lookup is the
one of `Method.locate?`, so is the answer.
-/
import KeyLoop.Proofs.Machine.Slots
import KeyLoop.Proofs.Method.BranchTargets
import KeyLoop.Proofs.Window.Search
import KeyLoop.Proofs.Window.Span
import KeyLoop.Proofs.Window.Touched
import KeyLoop.Window.KeyWord

namespace KeyLoop

open Search

/-- The ends are in order and inside the code, and the first instruction loads the running sum. -/
structure Found.Fits (f : Found) (m : Method) : Prop where
  ordered : f.first ≤ f.last
  inside : f.last < m.code.length
  loads : m.At f.first (m.loadedLocal? · = some f.accumulator)

/-- The window between the ends. -/
def Found.window (f : Found) (m : Method) : Window :=
  m.window f.strategy f.dialect f.first f.last f.accumulator

/-- The window is one of the method: it holds the instructions between its
ends and what they touch, and it begins with the running sum. -/
structure Window.LocatedIn (w : Window) (m : Method) : Prop where
  ordered : w.first ≤ w.last
  spans : w.Spans m w.first w.last
  loads : w.code.head?.bind m.loadedLocal? = some w.accumulator
  declared : ∃ d ∈ m.locals, d.index = w.accumulator
  nodup : w.touched.Nodup
  /-- The touched locals are the declared ones that the instructions load or store. -/
  mem_touched : ∀ n, n ∈ w.touched ↔ (∃ d ∈ m.locals, d.index = n) ∧
    ∃ i ∈ w.code, (i.loadsLocal ∨ i.storesLocal) ∧ i.localIndex? = some n
  /-- They stand in the order in which the instructions come to them. -/
  pairwise : w.touched.Pairwise fun a b => m.firstUse w.code a < m.firstUse w.code b
  head : w.touched.head? = some w.accumulator

/-- Every calculation on the window gets past seeding the running sum, and
goes on with the instructions. -/
def Window.StartsIn (w : Window) (m : Method) : Prop :=
  ∀ (input : BitVec 32) (machine : Machine), ∃ seeded,
    Machine.setLocal w.accumulator (.ofBits input)
      (machine.enter m.arguments m.locals m.initLocals) = .ok () seeded ∧
    (Generator.ofWindow m w).runWindow input machine =
      (do Generator.runCode (w.dialect == .guarded) w.code; Emulator.pop : Machine.Run Value) seeded

namespace Method

variable {m : Method} {find : Lookup}

/-! ## Every access is inside the code -/

/-- What the lookup answers with is an instruction at the address; it may miss others. -/
def Truthful (m : Method) (find : Lookup) : Prop :=
  ∀ address k, find address = some k → m.At k (·.address = address)

theorem Truthful.lt_length (h : m.Truthful find) {index target : Nat}
    (htarget : m.targetBy? find index = some target) : target < m.code.length := by
  obtain ⟨i, -, htarget⟩ := Option.bind_eq_some_iff.mp htarget
  obtain ⟨address, -, hfound⟩ := Option.bind_eq_some_iff.mp htarget
  exact (h address target hfound).lt

theorem truthful_indexOf? (m : Method) : m.Truthful m.indexOf? := fun _ _ => at_of_indexOf?

theorem yields_targetBy? (h : m.Truthful find) (index : Nat) :
    ((m.targetBy? find index).getM : Search Nat).Yields (· < m.code.length) :=
  (yields_getM _).imp fun _ htarget => h.lt_length htarget

theorem yields_byteFoldBy {shape : List Instruction} (hlength : shape.length = 9) :
    (m.byteFoldBy shape).Yields fun _ => True := by
  refine yields_bind (yields_check (by omega) _) fun _ _ => ?_
  refine yields_bind (yields_check (by omega) _) fun _ _ => ?_
  refine yields_bind (yields_check (by omega) _) fun _ _ => ?_
  refine yields_bind (yields_ask (by omega) _) fun _ _ => ?_
  refine yields_bind (yields_ask (by omega) _) fun accumulator _ => ?_
  refine yields_bind (yields_ask (by omega) _) fun _ _ => ?_
  refine yields_bind (yields_check (by omega) _) fun _ _ => ?_
  refine yields_bind (yields_check (by omega) _) fun _ _ => ?_
  exact yields_bind (yields_entry (by omega)) fun behind _ => yields_pure trivial

/-- Behind a byte fold the code goes on, directly or at the target of a branch. -/
theorem yields_twoPhaseStartBy (h : m.Truthful find) (index : Nat) :
    (m.twoPhaseStartBy find index).Yields fun p => m.At p.1 (m.loadedLocal? · = some p.2) := by
  refine yields_bind (yields_part? m.code index 9) fun shape hshape => ?_
  obtain ⟨hinside, hlength⟩ := hshape
  refine yields_bind (yields_byteFoldBy hlength) fun p _ => ?_
  have hstart : ((if p.2.isBr then m.targetBy? find (index + 8) else some (index + 8)).getM :
      Search Nat).Yields (· < m.code.length) := by
    split
    · exact yields_targetBy? h (index + 8)
    · exact yields_pure (by omega)
  refine yields_bind hstart fun start hlt => ?_
  refine yields_bind (yields_check hlt _) fun _ hload => yields_pure ?_
  obtain ⟨i, hi, hload⟩ := hload
  exact ⟨i, hi, beq_iff_eq.mp hload⟩

/-- The store that ends the update is looked for in the code behind its start. -/
theorem yields_twoPhaseBy (h : m.Truthful find) : (m.twoPhaseBy find).Yields (·.Fits m) := by
  refine yields_bind (yields_firstM fun index _ => yields_twoPhaseStartBy h index) fun p hload => ?_
  obtain ⟨start, accumulator⟩ := p
  have hstart : start < m.code.length := hload.lt
  refine yields_bind (yields_suffix (Nat.le_of_lt hstart)) fun rest hrest => ?_
  subst hrest
  refine yields_bind (yields_getM _) fun distance hdistance => ?_
  refine yields_bind (yields_guard _) fun _ _ => ?_
  refine yields_bind (yields_guard _) fun _ hordered => yields_pure ?_
  refine ⟨hordered, ?_, hload⟩
  have hbefore := (List.findIdx?_eq_some_iff_getElem.mp hdistance).1
  have hline := (List.takeWhile_prefix (l := m.code.drop start) (·.isSequential)).length_le
  rw [List.length_drop] at hline
  show start + distance - 1 < m.code.length
  omega

theorem yields_forwardTargetBy (h : m.Truthful find) {index : Nat} (hindex : index < m.code.length) :
    (m.forwardTargetBy find index).Yields (· < m.code.length) := by
  refine yields_bind (yields_check hindex _) fun _ _ => ?_
  refine yields_bind (yields_targetBy? h index) fun target htarget => ?_
  split
  · exact yields_pure htarget
  · have hprevious : ((if index = 0 then none else m.targetBy? find (index - 1)).getM :
        Search Nat).Yields (· < m.code.length) := by
      split
      · exact yields_failure
      · exact yields_targetBy? h (index - 1)
    refine yields_bind hprevious fun previous hlt => ?_
    exact yields_bind (yields_guard _) fun _ _ => yields_pure hlt

theorem yields_nearestTargetBy (h : m.Truthful find) {last : Nat} (hlast : last < m.code.length) :
    (m.nearestTargetBy find last).Yields (· < m.code.length) := by
  refine yields_firstM fun index hindex => yields_forwardTargetBy h ?_
  rw [List.mem_reverse, List.mem_range] at hindex
  omega

theorem yields_roundTripBy {shape : List Instruction} (hlength : shape.length = 4) :
    (roundTripBy shape).Yields fun _ => True := by
  refine yields_bind (yields_check (by omega) _) fun _ _ => ?_
  refine yields_bind (yields_check (by omega) _) fun _ _ => ?_
  refine yields_bind (yields_check (by omega) _) fun _ _ => ?_
  exact (yields_check (by omega) _).imp fun _ _ => trivial

/-- Every instruction up to the end of the round trip is there, and so is the
one that a branch among them leads to. -/
theorem yields_singlePhaseAtBy (h : m.Truthful find) (index : Nat) :
    (m.singlePhaseAtBy find index).Yields (·.Fits m) := by
  refine yields_bind (yields_part? m.code index 4) fun shape hshape => ?_
  obtain ⟨hinside, hlength⟩ := hshape
  have hlast : index + 3 < m.code.length := by omega
  refine yields_bind (yields_roundTripBy hlength) fun _ _ => ?_
  refine yields_bind (yields_nearestTargetBy h hlast) fun first hfirst => ?_
  refine yields_bind (yields_guard _) fun _ hordered => ?_
  refine yields_bind (yields_ask hfirst _) fun accumulator hload => ?_
  exact yields_bind (yields_between hlast (Nat.zero_le _)) fun _ _ =>
    yields_pure ⟨hordered, hlast, hload⟩

theorem yields_found (h : m.Truthful find) (s : Strategies) :
    ((if s.twoPhase then m.twoPhaseBy find else failure) <|>
      (if s.singlePhase then m.singlePhaseBy find else failure) : Search Found).Yields (·.Fits m) :=
  yields_orElse (yields_ite (yields_twoPhaseBy h))
    (yields_ite (yields_firstM fun index _ => yields_singlePhaseAtBy h index))

theorem yields_windowOf {f : Found} (h : f.Fits m) : (m.windowOf f).Yields (· = f.window m) := by
  refine yields_bind (yields_between h.inside (Nat.le_succ_of_le h.ordered)) fun code hcode => ?_
  subst hcode
  exact yields_pure rfl

/-- What is found is the window between ends that fit. -/
theorem yields_locateBy (h : m.Truthful find) (s : Strategies) :
    (m.locateBy find s).Yields fun w => ∃ f : Found, f.Fits m ∧ w = f.window m :=
  yields_bind (yields_found h s) fun f hf => (yields_windowOf hf).imp fun _ hw => ⟨f, hf, hw⟩

/-! ## The search is the one that runs -/

theorem bind_guard_eq {α β : Type} [DecidableEq β] (o : Option α) (f : α → Option β) (b : β) :
    (o.bind fun a => guard ((f a == some b) = true) : Option Unit) = guard (o.bind f = some b) := by
  cases o with
  | none => rfl
  | some a => simp only [Option.bind_some, beq_iff_eq]

theorem answer_part_byteFoldBy (index : Nat) :
    ((part? m.code index 9).answer.bind fun shape => (m.byteFoldBy shape).answer) =
      m.byteFold? (m.code.drop index) := by
  have hinside : index + 9 ≤ m.code.length ↔ 9 ≤ (m.code.drop index).length := by
    rw [List.length_drop]
    omega
  rw [answer_part?]
  simp only [hinside]
  refine Option.ext fun p => ?_
  -- code that is too short to be a fold is no part, and no byte fold either
  rcases m.code.drop index with
    _ | ⟨a, _ | ⟨b, _ | ⟨c, _ | ⟨d, _ | ⟨e, _ | ⟨f, _ | ⟨g, _ | ⟨h, _ | ⟨i, rest⟩⟩⟩⟩⟩⟩⟩⟩⟩
  all_goals
    simp [byteFoldBy, byteFold?, Option.bind_eq_some_iff, Option.guard_eq_some', -bind_pure_comp, and_assoc]

theorem answer_part_roundTripBy (index : Nat) :
    ((part? m.code index 4).answer.bind fun shape => (roundTripBy shape).answer) =
      guard (isRoundTrip (m.code.drop index) = true) := by
  have hinside : index + 4 ≤ m.code.length ↔ 4 ≤ (m.code.drop index).length := by
    rw [List.length_drop]
    omega
  rw [answer_part?]
  simp only [hinside]
  refine Option.ext fun p => ?_
  rcases m.code.drop index with _ | ⟨a, _ | ⟨b, _ | ⟨c, _ | ⟨d, rest⟩⟩⟩⟩
  all_goals
    simp [roundTripBy, isRoundTrip, Option.bind_eq_some_iff, Option.guard_eq_some', and_assoc]

theorem answer_twoPhaseStartBy (index : Nat) :
    (m.twoPhaseStartBy m.indexOf? index).answer = m.twoPhaseStart? index := by
  unfold twoPhaseStartBy twoPhaseStart?
  simp only [answer_bind, answer_getM, answer_check, answer_pure]
  rw [← Option.bind_assoc, answer_part_byteFoldBy]
  refine Option.bind_congr fun p _ => ?_
  simp only [bind_guard_eq]
  split <;> rfl

theorem answer_twoPhaseBy : (m.twoPhaseBy m.indexOf?).answer.map (·.window m) = m.twoPhase? := by
  have hstarts := yields_firstM fun index (_ : index ∈ List.range (m.code.length - 8)) =>
    yields_twoPhaseStartBy m.truthful_indexOf? index
  have hfirst := answer_firstM fun index (_ : index ∈ List.range (m.code.length - 8)) =>
    yields_twoPhaseStartBy m.truthful_indexOf? index
  simp only [answer_twoPhaseStartBy] at hfirst
  unfold twoPhaseBy twoPhase?
  rw [answer_bind, Option.map_bind, ← hfirst]
  refine Option.bind_congr fun p hp => ?_
  obtain ⟨start, accumulator⟩ := p
  have hstart : start < m.code.length := (hstarts.run_eq.2 _ hp).lt
  simp only [Function.comp_apply, answer_bind, answer_suffix, answer_getM, answer_guard, answer_pure]
  rw [if_pos (Nat.le_of_lt hstart), Option.bind_some, Option.map_bind]
  refine Option.bind_congr fun distance _ => Option.ext fun w => ?_
  have hend : 0 < start + distance ∧ start ≤ start + distance - 1 ↔ 0 < distance := by omega
  simp only [Function.comp_apply, Option.map_bind, Option.bind_eq_bind, Option.bind_eq_some_iff,
    Option.guard_eq_some', exists_const, ← and_assoc, hend]
  rfl

theorem answer_forwardTargetBy (index : Nat) :
    (m.forwardTargetBy m.indexOf? index).answer = m.forwardTarget? index := by
  unfold forwardTargetBy forwardTarget?
  rw [answer_bind, answer_check, Option.bind_assoc]
  refine Option.bind_congr fun i _ => Option.bind_congr fun _ _ => ?_
  rw [answer_bind, answer_getM]
  refine Option.bind_congr fun target _ => ?_
  dsimp only
  split
  · rfl
  · simp only [answer_bind, answer_getM, answer_guard, answer_pure]
    split <;> rfl

theorem answer_nearestTargetBy {last : Nat} (hlast : last < m.code.length) :
    (m.nearestTargetBy m.indexOf? last).answer = m.nearestTarget? last := by
  unfold nearestTargetBy nearestTarget?
  rw [answer_firstM]
  · simp only [answer_forwardTargetBy]
  · intro index hindex
    rw [List.mem_reverse, List.mem_range] at hindex
    exact yields_forwardTargetBy m.truthful_indexOf? (by omega)

theorem answer_singlePhaseAtBy (index : Nat) :
    (m.singlePhaseAtBy m.indexOf? index).answer.map (·.window m) = m.singlePhaseAt? index := by
  unfold singlePhaseAtBy singlePhaseAt?
  rw [answer_bind]
  simp only [answer_bind]
  rw [← Option.bind_assoc, answer_part_roundTripBy, Option.map_bind]
  refine Option.bind_congr fun _ hround => ?_
  have hpart : (part? m.code index 4 >>= roundTripBy).Yields fun _ => index + 4 ≤ m.code.length :=
    yields_bind (yields_part? m.code index 4) fun _ hshape =>
      (yields_roundTripBy hshape.2).imp fun _ _ => hshape.1
  have hlast : index + 3 < m.code.length :=
    hpart.run_eq.2 _ (by rw [answer_bind, answer_part_roundTripBy, hround])
  simp only [Function.comp_apply, answer_nearestTargetBy hlast]
  rw [Option.map_bind]
  refine Option.bind_congr fun first hfirst => ?_
  simp only [Function.comp_apply, answer_guard, answer_ask, answer_pure, answer_between hlast (Nat.zero_le _)]
  rw [Option.map_bind]
  refine Option.bind_congr fun _ _ => ?_
  simp only [Function.comp_apply, Option.map_bind]
  refine Option.bind_congr fun accumulator _ => ?_
  rfl

/-- With the lookup of `locate?` the search finds what `locate?` does. -/
theorem answer_locateBy (m : Method) (s : Strategies) :
    (m.locateBy m.indexOf? s).answer = m.locate? s := by
  have htruthful := m.truthful_indexOf?
  have hwindow : (m.locateBy m.indexOf? s).answer = ((if s.twoPhase then m.twoPhaseBy m.indexOf? else
      failure) <|> (if s.singlePhase then m.singlePhaseBy m.indexOf? else failure) :
        Search Found).answer.map (·.window m) := by
    rw [locateBy, answer_bind, Option.map_eq_bind]
    refine Option.bind_congr fun f hf => ?_
    have hfits := (yields_found htruthful s).run_eq.2 f hf
    rw [windowOf, answer_bind, answer_between hfits.inside (Nat.le_succ_of_le hfits.ordered)]
    rfl
  rw [hwindow, answer_orElse (yields_ite (yields_twoPhaseBy htruthful)), Option.map_or, locate?]
  congr 1
  · split
    · exact answer_twoPhaseBy
    · rfl
  · split
    · rw [singlePhaseBy, answer_firstM fun index _ => yields_singlePhaseAtBy htruthful index,
        List.map_findSome?]
      simp only [Function.comp_def, answer_singlePhaseAtBy]
      rfl
    · rfl

/-! ## What is located -/

/-- The window between ends that fit is one of the method. -/
theorem locatedIn_of_fits {f : Found} (h : f.Fits m) : (f.window m).LocatedIn m := by
  obtain ⟨i, hi, hload⟩ := h.loads
  have hfirst : (m.slice f.first f.last).head? = some i := by
    have hlength : 0 < f.last + 1 - f.first := Nat.sub_pos_of_lt (Nat.lt_succ_of_le h.ordered)
    rw [List.head?_eq_getElem?, getElem?_slice hlength]
    exact hi
  have htouched : m.touchedLocal? i = some f.accumulator := by
    rw [touchedLocal?, hload]
    rfl
  have hlist : m.slice f.first f.last = i :: (m.slice f.first f.last).tail :=
    List.eq_cons_of_mem_head? hfirst
  exact
    { ordered := h.ordered
      spans := spans_window h.inside f.strategy f.dialect f.accumulator
      loads := by
        show (m.slice f.first f.last).head?.bind m.loadedLocal? = some f.accumulator
        rw [hfirst, Option.bind_some, hload]
      declared := isSome_local?_iff.mp (touchedLocal?_eq_some_iff.mp htouched).1
      nodup := nodup_touchedLocals m (m.slice f.first f.last)
      mem_touched := fun n => by
        show n ∈ m.touchedLocals (m.slice f.first f.last) ↔ _
        rw [mem_touchedLocals_iff_declared, isSome_local?_iff]
        rfl
      pairwise := pairwise_touchedLocals m (m.slice f.first f.last)
      head := by
        show (m.touchedLocals (m.slice f.first f.last)).head? = some f.accumulator
        rw [hlist]
        exact head?_touchedLocals htouched _ }

/-- A window begins with a local that is declared, so it can be seeded. -/
theorem startsIn_of_locatedIn {w : Window} (h : w.LocatedIn m) : w.StartsIn m := by
  intro input machine
  have hset : Machine.setLocal w.accumulator (.ofBits input)
      (machine.enter m.arguments m.locals m.initLocals) = .ok ()
        ((machine.enter m.arguments m.locals m.initLocals).storeSlot .localVar w.accumulator
          (.ofBits input)) := by
    refine Machine.set_eq_ok_iff.mpr ⟨?_, rfl⟩
    show ((Slots.declare .localVar m.locals m.initLocals).find? w.accumulator).isSome = true
    rw [Slots.find?_declare, Option.isSome_map]
    exact isSome_local?_iff.mpr h.declared
  have henter : (modify (Machine.enter m.arguments m.locals m.initLocals) : Machine.Run Unit) machine =
      .ok () (machine.enter m.arguments m.locals m.initLocals) := rfl
  refine ⟨_, hset, ?_⟩
  simp only [Generator.runWindow, Generator.ofWindow, bind, EStateM.bind, Emulator.enter, henter,
    Emulator.setLocal, hset]

/-- **Locating is safe on any method.**  Whatever the method and in whatever
way addresses are looked up, as long as the answers are right, no access is
out of range.  What is found is what `locate?` finds if the lookup is the same,
or if the code is in order and the lookup misses nothing.  A window that is
found is one of the method, and every calculation on it gets past seeding the
running sum. -/
theorem locateBy_safe (m : Method) (find : Lookup) (hfind : m.Truthful find) (s : Strategies) :
    ∃ found, (m.locateBy find s).run = .ok found ∧
      (find = m.indexOf? ∨ m.Ascending ∧ m.Finds find → found = m.locate? s) ∧
      ∀ w, found = some w → w.LocatedIn m ∧ w.StartsIn m := by
  obtain ⟨hrun, hfound⟩ := (yields_locateBy hfind s).run_eq
  refine ⟨_, hrun, fun hsame => ?_, fun w hw => ?_⟩
  · have hlookup : find = m.indexOf? := by
      rcases hsame with hsame | ⟨hascending, hfinds⟩
      · exact hsame
      · funext address
        refine Option.ext fun k => ?_
        rw [hfinds hascending, m.finds_indexOf? hascending]
    rw [hlookup, answer_locateBy]
  · obtain ⟨f, hfits, rfl⟩ := hfound w hw
    have hlocated := locatedIn_of_fits hfits
    exact ⟨hlocated, startsIn_of_locatedIn hlocated⟩

/-- A branch to an update, in code whose addresses are in no order. -/
def shuffled : Method :=
  let one (address : BitVec 64) (code : Byte) (flow : Flow) (targets : List (BitVec 64)) : Instruction :=
    { mnemonic := "", category := .misc, flow, pops := 0, pushes := 0
      address, offset := 0, size := 1, opcode := .single code, operand := .none, targets }
  { token := ⟨0⟩, name := "", arguments := [], locals := [⟨3, .u1⟩, ⟨0, .i4⟩], initLocals := false
    code := [one 0x20 0x38 .unconditional [0x08], one 0x08 0x06 .sequential [],
      one 0x30 0x76 .sequential [], one 0x10 0x6C .sequential [], one 0x40 0x6D .sequential [],
      one 0x02 0x58 .sequential []] }

theorem locateBy_safe_shuffled :
    ¬ shuffled.Ascending ∧ shuffled.Truthful shuffled.indexOf? ∧
      ∃ w, (shuffled.locateBy shuffled.indexOf? .both).run = .ok (some w) ∧
        w.first = 1 ∧ w.last = 5 ∧ w.LocatedIn shuffled ∧ w.StartsIn shuffled := by
  have htruthful : shuffled.Truthful shuffled.indexOf? := truthful_indexOf? shuffled
  refine ⟨by unfold Ascending; decide, htruthful, ?_⟩
  obtain ⟨found, hrun, -, hwindow⟩ := locateBy_safe shuffled shuffled.indexOf? htruthful .both
  have hends : (shuffled.locateBy shuffled.indexOf? .both).answer.any
      (fun w => w.first == 1 && w.last == 5) = true := by decide +kernel
  rw [answer, hrun] at hends
  obtain ⟨w, rfl, hw⟩ := (Option.any_eq_true ..).mp hends
  rw [Bool.and_eq_true, beq_iff_eq, beq_iff_eq] at hw
  exact ⟨w, hrun, hw.1, hw.2, hwindow w rfl⟩

end Method

end KeyLoop
