/-
# The tracked depth is the depth

An assembly follows the stack depth that its code would lead to, with numbers
that stop at both ends of their range, and remembers the greatest one.  The
machine really takes values and puts them.

    tracked      depth - pops + pushes, at least zero, at most 65535
    reached      depth - pops + pushes, or the step fails

Both count from the same table.  What an assembly tracked is therefore what
a machine reaches that starts with an empty stack, as long as no step fails
and the upper end of the range was never in the way; and a machine with room
for the greatest depth never runs out of it (`finish_stack`).
-/
import KeyLoop.Proofs.Assembly.RoundTrip
import KeyLoop.Proofs.Machine.Slots
import KeyLoop.Proofs.Machine.TableEffect

namespace KeyLoop

/-! ## What is tracked -/

/-- From one assembly to the other, an instruction has been accounted for. -/
structure Assembly.Tracks (a : Assembly) (t : Traits) (a' : Assembly) : Prop where
  depth : a'.depth = min (a.depth - t.pops + t.pushes) depthLimit
  maxDepth : a'.maxDepth = max a.maxDepth a'.depth

/-- Below the upper end of the range the depth is exact. -/
theorem Assembly.Tracks.exact {a a' : Assembly} {t : Traits} (h : a.Tracks t a')
    (hsmall : a'.maxDepth < depthLimit) : a'.depth = a.depth - t.pops + t.pushes := by
  have hdepth := h.depth
  have hmax := h.maxDepth
  omega

/-- What the table says of the instruction of a line. -/
def Line.traits : Line → Traits
  | plain s => s.row.toTraits
  | branch row .. => row.toTraits

namespace Assembly

theorem emit_tracks {mnemonic : String} {operand : Option Operand} {a a' : Assembly} {row : Row}
    (hrow : Row.ofMnemonic? mnemonic = some row) (h : emit mnemonic operand a = .ok () a') :
    a.Tracks row.toTraits a' := by
  unfold emit Assembly.row at h
  simp only [hrow, pure_bind] at h
  by_cases hlabel : row.flow.hasLabel = true
  · rw [if_pos hlabel] at h
    cases h
  · rw [if_neg hlabel] at h
    cases hbytes : operandBytes row.operandType operand with
    | error e =>
      rw [hbytes] at h
      cases h
    | ok bs =>
      rw [hbytes] at h
      cases h
      exact ⟨rfl, rfl⟩

theorem emitBranch_tracks {mnemonic label : String} {a a' : Assembly} {row : Row}
    (hrow : Row.ofMnemonic? mnemonic = some row) (h : emitBranch mnemonic label a = .ok () a') :
    a.Tracks row.toTraits a' := by
  unfold emitBranch Assembly.row at h
  simp only [hrow, pure_bind] at h
  cases hlabel : row.flow.hasLabel with
  | false =>
    rw [hlabel] at h
    cases h
  | true =>
    cases hreach : reach? row.operandType with
    | none =>
      rw [hlabel, hreach] at h
      cases h
    | some reach =>
      rw [hlabel, hreach] at h
      cases h
      exact ⟨rfl, rfl⟩

/-- A label changes no depth. -/
theorem define_depth {label : String} {a a' : Assembly} (h : define label a = .ok () a') :
    a'.depth = a.depth ∧ a'.maxDepth = a.maxDepth := by
  rw [define_eq] at h
  split at h
  · cases h
  · split at h
    · cases h
    · cases h
      exact ⟨rfl, rfl⟩

end Assembly

namespace Request

theorem run_tracks {r : Request} {l : Line} (hasks : r.Asks l) {a a' : Assembly}
    (h : r.run a = .ok () a') : a.Tracks l.traits a' := by
  cases l with
  | plain s =>
    obtain ⟨form, hform, hrow, -⟩ := hasks
    rw [run_of_emission? hform] at h
    exact Assembly.emit_tracks hrow h
  | branch row reach name defined labelled reaches =>
    obtain ⟨mnemonic, rfl, hrow⟩ := hasks
    exact Assembly.emitBranch_tracks hrow h

/-- The greatest depth never falls. -/
theorem maxDepth_le_of_run {requests : List Request} {a a' : Assembly}
    (h : requests.forM run a = .ok () a') : a.maxDepth ≤ a'.maxDepth := by
  induction requests generalizing a with
  | nil =>
    cases h
    exact Nat.le_refl _
  | cons r rs ih =>
    obtain ⟨⟨⟩, b, hr, hrs⟩ := bind_ok h
    have hlater := ih hrs
    rcases run_ok hr with ⟨name, rfl, -, -⟩ | ⟨l, hasks, -, -⟩
    · have hlabel := Assembly.define_depth hr
      omega
    · have htracks := (run_tracks hasks hr).maxDepth
      omega

end Request

/-! ## What is reached -/

/-- The statement that a line becomes is of the row that the line asks for. -/
theorem Line.traits_of_statement? {labels : List (String × Nat)} {start : Nat} {l : Line}
    {s : Statement} (h : l.statement? labels start = some s) : s.row.toTraits = l.traits := by
  cases l with
  | plain s' =>
    cases h
    rfl
  | branch row reach name defined labelled reaches =>
    obtain ⟨distance, -, rfl⟩ := Option.map_eq_some_iff.mp h
    rfl

namespace Request

variable {r : Request} {l : Line} {s : Statement} {labels : List (String × Nat)} {start : Nat}
  {a a' : Assembly} {m m' : Machine}

/-- **One instruction**: tracked and reached, from one depth to one depth.  If
what is tracked has room, the step does not run out of it. -/
theorem step_tracked (hasks : r.Asks l) (hs : l.statement? labels start = some s)
    (hr : r.run a = .ok () a') (hsmall : a'.maxDepth < Assembly.depthLimit)
    (hdepth : m.stack.depth = a.depth) (address : BitVec 64) (offset : Nat) :
    (∀ m', Machine.step (s.instruction address offset) m = .ok () m' →
      m'.stack.depth = a'.depth ∧ m'.stack.limit = m.stack.limit) ∧
    (a'.maxDepth ≤ m.stack.limit → ∀ limit m',
      Machine.step (s.instruction address offset) m ≠ .error (.stackOverflow limit) m') := by
  have houtcome := Machine.step_outcome ⟨s, address, offset, rfl⟩ m
  have htracks := run_tracks hasks hr
  have hexact := htracks.exact hsmall
  have hmax := htracks.maxDepth
  rw [← Line.traits_of_statement? hs] at hexact
  have hsame : m.stack.depth - (s.instruction address offset).pops +
      (s.instruction address offset).pushes = a'.depth := by
    rw [hdepth, hexact]
    rfl
  constructor
  · intro m' hstep
    rw [hstep] at houtcome
    exact ⟨houtcome.depth_eq.trans hsame, houtcome.frame.room⟩
  · intro hroom limit m' hstep
    rw [hstep] at houtcome
    have hover := houtcome.overflow rfl
    omega

variable {requests : List Request} {lines : List Line} {defined : List (String × Nat)}
  {ss : List Statement}

/-- Some first requests are none, or the first one and some of the others. -/
theorem forM_first {rs before after : List Request} {a₁ b : Assembly}
    (hr : r.run a = .ok () a₁) (hsplit : r :: rs = before ++ after)
    (hbefore : before.forM run a = .ok () b) :
    (before = [] ∧ b = a) ∨
      ∃ rest, before = r :: rest ∧ rs = rest ++ after ∧ rest.forM run a₁ = .ok () b := by
  cases before with
  | nil =>
    cases hbefore
    exact .inl ⟨rfl, rfl⟩
  | cons r' rest =>
    obtain ⟨rfl, hrests⟩ := List.cons.inj hsplit
    obtain ⟨⟨⟩, b₁, hr', hrest⟩ := bind_ok hbefore
    rw [hr] at hr'
    cases hr'
    exact .inr ⟨rest, rfl, hrests, hrest⟩

/-- A run of the code of some first requests reaches the depth that was
tracked when they had been made. -/
theorem run_tracked (hlays : Lays requests start lines defined)
    (hss : Line.statements? labels start lines = some ss)
    (hrun : requests.forM run a = .ok () a') (hsmall : a'.maxDepth < Assembly.depthLimit)
    (hdepth : m.stack.depth = a.depth) (address : BitVec 64) (offset : Nat) :
    ∀ before after b, requests = before ++ after → before.forM run a = .ok () b → ∀ m',
      Machine.run ((Statement.listing address offset ss).take (before.filter emits).length) m =
        .ok () m' → m'.stack.depth = b.depth := by
  induction hlays generalizing a m ss address offset with
  | nil start =>
    intro before after b hsplit hbefore m' hm'
    obtain ⟨rfl, rfl⟩ := List.nil_eq_append_iff.mp hsplit
    cases hbefore
    cases hm'
    exact hdepth
  | @line r rs start l lines defined hasks hlays ih =>
    obtain ⟨s, rest, hs, hrest, rfl⟩ := Line.statements?_cons_eq_some_iff.mp hss
    obtain ⟨⟨⟩, a₁, hr, hrs⟩ := bind_ok hrun
    intro before after b hsplit hbefore m' hm'
    rcases forM_first hr hsplit hbefore with ⟨rfl, rfl⟩ | ⟨before, rfl, hsplit, hbefore⟩
    · cases hm'
      exact hdepth
    · rw [List.filter_cons_of_pos (emits_of_asks hasks), List.length_cons, Statement.listing,
        List.take_succ_cons] at hm'
      obtain ⟨m₁, hstep, hm'⟩ := Machine.run_cons_ok_iff.mp hm'
      have hfirst := (step_tracked hasks hs hr
        (Nat.lt_of_le_of_lt (maxDepth_le_of_run hrs) hsmall) hdepth address offset).1 m₁ hstep
      exact ih hrest hrs hfirst.1 _ _ before after b hsplit hbefore m' hm'
  | @label name rs start lines defined hlays ih =>
    obtain ⟨⟨⟩, a₁, hr, hrs⟩ := bind_ok hrun
    intro before after b hsplit hbefore m' hm'
    rcases forM_first hr hsplit hbefore with ⟨rfl, rfl⟩ | ⟨before, rfl, hsplit, hbefore⟩
    · cases hm'
      exact hdepth
    · have hsame := (Assembly.define_depth hr).1
      exact ih hss hrs (hdepth.trans hsame.symm) _ _ before after b hsplit hbefore m' hm'

/-- A machine with room for the greatest depth tracked has room for the whole run. -/
theorem run_room (hlays : Lays requests start lines defined)
    (hss : Line.statements? labels start lines = some ss)
    (hrun : requests.forM run a = .ok () a') (hsmall : a'.maxDepth < Assembly.depthLimit)
    (hdepth : m.stack.depth = a.depth) (hroom : a'.maxDepth ≤ m.stack.limit)
    (address : BitVec 64) (offset : Nat) : ∀ k limit m',
      Machine.run (Statement.listing address offset ss) m ≠ .error (k, .stackOverflow limit) m' := by
  induction hlays generalizing a m ss address offset with
  | nil start =>
    cases hss
    nofun
  | @line r rs start l lines defined hasks hlays ih =>
    obtain ⟨s, rest, hs, hrest, rfl⟩ := Line.statements?_cons_eq_some_iff.mp hss
    obtain ⟨⟨⟩, a₁, hr, hrs⟩ := bind_ok hrun
    have hmax := maxDepth_le_of_run hrs
    obtain ⟨hreached, hnot⟩ := step_tracked hasks hs hr (Nat.lt_of_le_of_lt hmax hsmall) hdepth
      address offset
    intro k limit m' herror
    rw [Statement.listing, Machine.run] at herror
    cases hstep : Machine.step (s.instruction address offset) m with
    | error fault t =>
      simp only [hstep] at herror
      cases herror
      exact hnot (Nat.le_trans hmax hroom) limit _ hstep
    | ok u t =>
      obtain ⟨hdepth', hlimit⟩ := hreached t hstep
      simp only [hstep] at herror
      cases hlater : Machine.run (Statement.listing (address + BitVec.ofNat 64 s.size)
        (offset + s.size) rest) t with
      | ok u' t' =>
        rw [hlater] at herror
        cases herror
      | error e t' =>
        obtain ⟨k', fault⟩ := e
        rw [hlater] at herror
        cases herror
        exact ih hrest hrs hdepth' (hlimit ▸ hroom) _ _ k' limit _ hlater
  | label hlays ih =>
    obtain ⟨⟨⟩, a₁, hr, hrs⟩ := bind_ok hrun
    exact ih hss hrs (hdepth.trans (Assembly.define_depth hr).1.symm) hroom address offset

/-- **The stack limit of finished code is enough.**  If the greatest depth
tracked is below the upper end of its range, then the code decodes, at any
address, into one instruction for every request that writes one.  From an
empty stack, the depth behind the code of any first requests is the one
tracked when they had been made, as long as no step fails; and with room for
the greatest depth no step overflows the stack. -/
theorem finish_stack {p : Program} (h : requests.forM run .empty = .ok () a)
    (hp : a.finish = .ok p) (hsmall : p.maxStack < Assembly.depthLimit) (base : BitVec 64) :
    ∃ is, decode base p.code = .ok is ∧ is.length = (requests.filter emits).length ∧
      ∀ m : Machine, m.stack.values = [] →
        (∀ before after b, requests = before ++ after → before.forM run .empty = .ok () b →
          ∀ m', Machine.run (is.take (before.filter emits).length) m = .ok () m' →
            m'.stack.depth = b.depth) ∧
        (p.maxStack ≤ m.stack.limit → ∀ k limit m',
          Machine.run is m ≠ .error (k, .stackOverflow limit) m') := by
  obtain ⟨lines, hlays, -, hfinish⟩ := finish_of_run h
  obtain ⟨ss, hss, rfl⟩ := (hfinish p).mp hp
  have hshows := forall₂_shows base hlays hss
  rw [BitVec.add_zero] at hshows
  refine ⟨_, Statement.decode_bytes ss base, hshows.length_eq.symm, fun m hempty => ?_⟩
  have hdepth : m.stack.depth = Assembly.empty.depth := congrArg List.length hempty
  exact ⟨run_tracked hlays hss h hsmall hdepth base 0,
    fun hroom => run_room hlays hss h hsmall hdepth hroom base 0⟩

/-- The program of requests that all succeed and whose branches reach. -/
def program? (requests : List Request) : Option Program :=
  match requests.forM run .empty with
  | .ok _ a => a.finish.toOption
  | .error _ _ => none

theorem program?_eq_some {p : Program} (h : program? requests = some p) :
    ∃ a, requests.forM run .empty = .ok () a ∧ a.finish = .ok p := by
  unfold program? at h
  cases hrun : requests.forM run .empty with
  | error fault a =>
    rw [hrun] at h
    cases h
  | ok u a =>
    rw [hrun] at h
    cases hfinish : a.finish with
    | error fault =>
      simp only [hfinish] at h
      cases h
    | ok p' =>
      simp only [hfinish] at h
      exact ⟨a, rfl, hfinish.trans (congrArg _ (Option.some.inj h))⟩

/-- Add the square of a constant to an argument, unless local 0 is zero. -/
def addSquare : List Request :=
  [loadLocal 0, branch "brfalse.s" "end", loadArgument 0, int32 7, emit "dup" none,
    emit "mul" none, emit "add" none, storeLocal 300, label "end"]

/-- Three values are the most there are. -/
theorem finish_stack_addSquare :
    ∃ a p, addSquare.forM run .empty = .ok () a ∧ a.finish = .ok p ∧ p.maxStack = 3 ∧
      ∃ is, decode 0x2000 p.code = .ok is ∧ is.length = 8 ∧
        ∀ m : Machine, m.stack.values = [] →
          (∀ before after b, addSquare = before ++ after → before.forM run .empty = .ok () b →
            ∀ m', Machine.run (is.take (before.filter emits).length) m = .ok () m' →
              m'.stack.depth = b.depth) ∧
          (3 ≤ m.stack.limit → ∀ k limit m',
            Machine.run is m ≠ .error (k, .stackOverflow limit) m') := by
  have hcheck : ((program? addSquare).any fun p => p.maxStack == 3) = true := by decide +kernel
  obtain ⟨p, hprogram, hmax⟩ := (Option.any_eq_true _ _).mp hcheck
  obtain ⟨a, hrun, hfinish⟩ := program?_eq_some hprogram
  have hmax : p.maxStack = 3 := beq_iff_eq.mp hmax
  obtain ⟨is, hdecode, hlength, hstack⟩ :=
    finish_stack hrun hfinish (by rw [hmax]; decide) 0x2000
  rw [hmax] at hstack
  exact ⟨a, p, hrun, hfinish, hmax, is, hdecode, hlength, hstack⟩

end Request

end KeyLoop
