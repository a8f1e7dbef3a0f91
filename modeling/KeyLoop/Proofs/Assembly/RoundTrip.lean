/-
# From requests to instructions

An assembly whose requests all succeeded can be finished exactly when every
branch among them has its label in reach.  The finished code then decodes,
at any address, into one instruction for every request that writes one:

    emit              the mnemonic and the operand that were given
    the short forms   the slot or the constant that was given
    emitBranch        the mnemonic, and the address of the label as target

Labels stand in front of an instruction or at the end of the code.
-/
import KeyLoop.Proofs.Assembly.Forms
import KeyLoop.Proofs.Assembly.Resolution
import Mathlib.Data.List.Forall2

namespace KeyLoop

namespace Request

/-! ## What an instruction shows of its request -/

/-- The instruction has this name, and an operand that reads as this one. -/
def ShowsForm (form : String × Option Operand) (i : Instruction) : Prop :=
  i.mnemonic = form.1 ∧ Operand.ReadsAs form.2 i.operand

/-- The instruction, in code that starts at `base` and has these labels, is
the one that was asked for. -/
def Shows (labels : List (String × Nat)) (base : BitVec 64) : Request → Instruction → Prop
  | emit mnemonic operand, i => ShowsForm (mnemonic, operand) i
  | branch mnemonic name, i =>
      i.mnemonic = mnemonic ∧ ∃ position, Assembly.position? labels name = some position ∧
        i.targets = [base + BitVec.ofNat 64 position]
  | loadLocal index, i =>
      ShowsForm (Assembly.slotForm "ldloc" index) i ∧ i.loadsLocal = true ∧
        i.localIndex? = some index
  | storeLocal index, i =>
      ShowsForm (Assembly.slotForm "stloc" index) i ∧ i.storesLocal = true ∧
        i.localIndex? = some index
  | loadArgument index, i =>
      ShowsForm (Assembly.slotForm "ldarg" index) i ∧ i.accesses .argument .load = true ∧
        i.argumentIndex? = some index
  | int32 constant, i =>
      ShowsForm (Assembly.int32Form constant) i ∧ i.int32Constant? = some constant
  | label _, _ => False

theorem showsForm_instruction {form : String × Option Operand} {s : Statement}
    (hrow : Row.ofMnemonic? form.1 = some s.row) (hreads : Operand.ReadsAs form.2 s.operand)
    (address : BitVec 64) (offset : Nat) : ShowsForm form (s.instruction address offset) :=
  ⟨(Row.mem_of_ofMnemonic? hrow).2, hreads⟩

/-- From the end of a branch, its distance leads to its label. -/
theorem add_distance (base : BitVec 64) (start size position : Nat) :
    base + BitVec.ofNat 64 start + BitVec.ofNat 64 size +
      BitVec.ofInt 64 ((position : Int) - (start + size : Nat)) = base + BitVec.ofNat 64 position := by
  have hends : BitVec.ofNat 64 (start + size) +
      BitVec.ofInt 64 ((position : Int) - (start + size : Nat)) = BitVec.ofNat 64 position := by
    rw [← BitVec.ofInt_natCast, ← BitVec.ofInt_add, ← BitVec.ofInt_natCast]
    congr 1
    omega
  rw [BitVec.add_assoc base, ← BitVec.ofNat_add, BitVec.add_assoc, hends]

theorem emits_of_asks {r : Request} {l : Line} (h : r.Asks l) : r.emits = true := by
  cases r with
  | label name =>
    cases l with
    | plain s =>
      obtain ⟨form, hform, -⟩ := h
      cases hform
    | branch row reach name defined labelled reaches =>
      obtain ⟨mnemonic, hbranch, -⟩ := h
      cases hbranch
  | _ => rfl

/-- The statement that a line becomes reads as what was asked for. -/
theorem shows_instruction {r : Request} {l : Line} {s : Statement} {labels : List (String × Nat)}
    {start : Nat} (hasks : r.Asks l) (hs : l.statement? labels start = some s)
    (base : BitVec 64) :
    r.Shows labels base (s.instruction (base + BitVec.ofNat 64 start) start) := by
  cases l with
  | plain s' =>
    cases hs
    obtain ⟨form, hform, hrow, hreads⟩ := hasks
    have hshows := showsForm_instruction hrow hreads (base + BitVec.ofNat 64 start) start
    cases r with
    | emit mnemonic operand =>
      cases hform
      exact hshows
    | branch mnemonic name => cases hform
    | loadLocal index =>
      cases hform
      exact ⟨hshows, Assembly.slotIndex?_slotForm Assembly.loadLocal_forms hrow hreads _ _⟩
    | storeLocal index =>
      cases hform
      exact ⟨hshows, Assembly.slotIndex?_slotForm Assembly.storeLocal_forms hrow hreads _ _⟩
    | loadArgument index =>
      cases hform
      exact ⟨hshows, Assembly.slotIndex?_slotForm Assembly.loadArgument_forms hrow hreads _ _⟩
    | int32 constant =>
      cases hform
      exact ⟨hshows, Assembly.int32Constant?_int32Form hrow hreads _ _⟩
    | label name => cases hform
  | branch row reach name defined labelled reaches =>
    obtain ⟨mnemonic, rfl, hrow⟩ := hasks
    have hsize := Line.size_of_statement? hs
    obtain ⟨distance, hdistance, rfl⟩ := Option.map_eq_some_iff.mp hs
    obtain ⟨position, hposition, rfl, hholds⟩ := Branch.distance?_eq_some_iff.mp hdistance
    refine ⟨(Row.mem_of_ofMnemonic? hrow).2, position, hposition, ?_⟩
    simp only [Statement.instruction, Decode.targets, labelled, if_true]
    rw [Reach.toBits64_immediate hholds, hsize, add_distance]

/-! ## Listings of what was asked for -/

/-- The instructions that lines become show the requests one after the other. -/
theorem forall₂_shows {requests : List Request} {start : Nat} {lines : List Line}
    {defined labels : List (String × Nat)} {ss : List Statement} (base : BitVec 64)
    (hlays : Lays requests start lines defined)
    (hss : Line.statements? labels start lines = some ss) :
    List.Forall₂ (Shows labels base) (requests.filter emits)
      (Statement.listing (base + BitVec.ofNat 64 start) start ss) := by
  induction hlays generalizing ss with
  | nil start =>
    cases hss
    exact .nil
  | @line r rs start l lines defined hasks _ ih =>
    obtain ⟨s, rest, hs, hrest, rfl⟩ := Line.statements?_cons_eq_some_iff.mp hss
    have hemits : r.emits = true := emits_of_asks hasks
    rw [List.filter_cons_of_pos hemits, Statement.listing, BitVec.add_assoc, ← BitVec.ofNat_add,
      Line.size_of_statement? hs]
    exact .cons (shows_instruction hasks hs base) (ih hrest)
  | label _ ih => exact ih hss

/-- A position that a label was defined at is that of an instruction, or the
end of what was written. -/
theorem label_position {requests : List Request} {start : Nat} {lines : List Line}
    {defined labels : List (String × Nat)} {ss : List Statement} (base : BitVec 64)
    (hlays : Lays requests start lines defined)
    (hss : Line.statements? labels start lines = some ss) {name : String} {position : Nat}
    (hdefined : (name, position) ∈ defined) :
    position = start + (ss.flatMap Statement.bytes).length ∨
      ∃ i ∈ Statement.listing base start ss, i.offset = position := by
  induction hlays generalizing ss base with
  | nil start => cases hdefined
  | @line r rs start l lines defined hasks _ ih =>
    obtain ⟨s, rest, hs, hrest, rfl⟩ := Line.statements?_cons_eq_some_iff.mp hss
    rw [Statement.listing, List.flatMap_cons, List.length_append, s.length_bytes,
      Line.size_of_statement? hs]
    rcases ih (base + BitVec.ofNat 64 l.size) hrest hdefined with hend | ⟨i, hi, hoffset⟩
    · left
      omega
    · exact .inr ⟨i, List.mem_cons_of_mem _ hi, hoffset⟩
  | @label _ rs start lines defined hlays ih =>
    rcases List.mem_cons.mp hdefined with hhere | hlater
    · cases hhere
      cases ss with
      | nil => exact .inl (by simp)
      | cons s rest => exact .inr ⟨_, List.mem_cons_self, rfl⟩
    · exact ih base hss hlater

/-! ## Finished code -/

/-- What requests leave in an empty assembly, and what it is finished to. -/
theorem finish_of_run {requests : List Request} {a : Assembly}
    (h : requests.forM run .empty = .ok () a) :
    ∃ lines, Lays requests 0 lines a.labels ∧
      branches requests .empty = Line.branches 0 lines ∧
      ∀ p, a.finish = .ok p ↔ ∃ ss, Line.statements? a.labels 0 lines = some ss ∧
        p = ⟨ss.flatMap Statement.bytes, a.maxDepth, a.labels⟩ := by
  obtain ⟨lines, defined, hlays, hpieces, hlabels, hbranches⟩ := lays_of_run h
  have hempty : Assembly.empty.labels = [] := rfl
  rw [hempty, List.nil_append] at hlabels
  rw [hlabels]
  refine ⟨lines, hlays, hbranches, fun p => ?_⟩
  rw [← hlabels]
  exact Assembly.finish_ok_iff hpieces

/-- **What requests write is what is read.**  An assembly whose requests all
succeeded can be finished exactly when every branch has its label in reach.
The code decodes, at any address, into one instruction for every request that
writes one, in order, and each shows what was asked for.  Every label stands
in front of an instruction or at the end of the code. -/
theorem decode_finish {requests : List Request} {a : Assembly}
    (h : requests.forM run .empty = .ok () a) :
    ((∃ p, a.finish = .ok p) ↔ ∀ b ∈ branches requests .empty, b.Resolves a.labels) ∧
      ∀ p, a.finish = .ok p → p.labels = a.labels ∧
        ∀ base, ∃ instructions, decode base p.code = .ok instructions ∧
          List.Forall₂ (Shows p.labels base) (requests.filter emits) instructions ∧
          ∀ name position, (name, position) ∈ p.labels →
            position = p.code.length ∨ ∃ i ∈ instructions, i.offset = position := by
  obtain ⟨lines, hlays, hbranches, hfinish⟩ := finish_of_run h
  constructor
  · rw [hbranches, ← Line.statements?_isSome_iff]
    constructor
    · rintro ⟨p, hp⟩
      obtain ⟨ss, hss, -⟩ := (hfinish p).mp hp
      exact ⟨ss, hss⟩
    · rintro ⟨ss, hss⟩
      exact ⟨_, (hfinish _).mpr ⟨ss, hss, rfl⟩⟩
  · intro p hp
    obtain ⟨ss, hss, rfl⟩ := (hfinish p).mp hp
    refine ⟨rfl, fun base => ⟨_, Statement.decode_bytes ss base, ?_, ?_⟩⟩
    · have hshows := forall₂_shows base hlays hss
      rwa [BitVec.add_zero] at hshows
    · intro name position hmem
      have hposition := label_position base hlays hss hmem
      rwa [Nat.zero_add] at hposition

/-- The code of requests that all succeed and whose branches reach. -/
def code? (requests : List Request) : Option (List Byte) :=
  match requests.forM run .empty with
  | .ok _ a => a.finish.toOption.map (·.code)
  | .error _ _ => none

theorem code?_eq_some {requests : List Request} {bytes : List Byte}
    (h : code? requests = some bytes) :
    ∃ a p, requests.forM run .empty = .ok () a ∧ a.finish = .ok p ∧ p.code = bytes := by
  unfold code? at h
  cases hrun : requests.forM run .empty with
  | error fault a =>
    rw [hrun] at h
    cases h
  | ok u a =>
    rw [hrun] at h
    cases hfinish : a.finish with
    | error fault =>
      simp only [hfinish] at h
      cases h
    | ok p =>
      simp only [hfinish] at h
      exact ⟨a, p, rfl, hfinish, Option.some.inj h⟩

/-- Count local 0 down to zero. -/
def countdown : List Request :=
  [label "top", loadLocal 0, int32 1, emit "sub" none, storeLocal 0, loadLocal 0,
    branch "brtrue.s" "top", branch "br" "end", emit "nop" none, label "end", emit "ret" none]

/-- A loop with a short branch back and a long one forward. -/
theorem decode_finish_countdown :
    ∃ a p, countdown.forM run .empty = .ok () a ∧ a.finish = .ok p ∧
      p.code = [0x06, 0x17, 0x59, 0x0A, 0x06, 0x2D, 0xF9, 0x38, 0x01, 0, 0, 0, 0, 0x2A] ∧
      (∀ b ∈ branches countdown .empty, b.Resolves a.labels) ∧
      ∃ instructions, decode 0x2000 p.code = .ok instructions ∧
        List.Forall₂ (Shows p.labels 0x2000) (countdown.filter emits) instructions := by
  obtain ⟨a, p, hrun, hfinish, hcode⟩ := code?_eq_some (by decide +kernel :
    code? countdown =
      some [0x06, 0x17, 0x59, 0x0A, 0x06, 0x2D, 0xF9, 0x38, 0x01, 0, 0, 0, 0, 0x2A])
  obtain ⟨hbranches, hdecode⟩ := decode_finish hrun
  obtain ⟨-, hdecode⟩ := hdecode p hfinish
  obtain ⟨instructions, hinstructions, hshows, -⟩ := hdecode 0x2000
  exact ⟨a, p, hrun, hfinish, hcode, hbranches.mp ⟨p, hfinish⟩, instructions, hinstructions,
    hshows⟩

end Request

end KeyLoop
