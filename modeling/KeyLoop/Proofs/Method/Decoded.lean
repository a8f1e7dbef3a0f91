/-
# Methods with decoded code

The loops of a method are described by what stands at which index.  Three
phrases do for the description, and none of them asks how an instruction is
looked up, or how it encodes its slot or its target:

    m.Loads n i       `i` loads local `n`, which is declared, in some encoding;
    m.Stores n i      likewise for stores
    m.LeadsTo b t     the first address that the instruction at `b` may branch
                      to is where the instruction at `t` stands

A method is legible if its queries say exactly that (`Legible`).  The operand
of a decoded instruction is of the type in its row, so of locals the queries
say it in any decoded code.  Of branches they say it in code that does not
reach past the last address (`IsDecoded.legible`): there the addresses ascend,
and halving finds every target that is there.  Code without branches is
legible wherever it stands (`legible_of_isSequential`).
-/
import KeyLoop.Proofs.Instruction.Accesses
import KeyLoop.Proofs.Method.Lookup
import Mathlib.Data.Option.Basic

namespace KeyLoop

/-! ## Searches over indices -/

section Searches

variable {α : Type} {f : Nat → Option α} {n : Nat} {a : α}

/-- A search from the left finds the least index with an answer. -/
theorem findSome?_range_eq_some_iff :
    (List.range n).findSome? f = some a ↔ ∃ k < n, f k = some a ∧ ∀ j < k, f j = none := by
  induction n with
  | zero =>
    constructor
    · intro h
      cases h
    · rintro ⟨k, hk, -⟩
      omega
  | succ n ih =>
    rw [List.range_succ, List.findSome?_append, Option.or_eq_some_iff, ih, List.findSome?_eq_none_iff,
      List.findSome?_singleton]
    constructor
    · rintro (⟨k, hk, hfound⟩ | ⟨hnone, hn⟩)
      · exact ⟨k, by omega, hfound⟩
      · exact ⟨n, by omega, hn, fun j hj => hnone j (List.mem_range.mpr hj)⟩
    · rintro ⟨k, hk, hfound, hbefore⟩
      by_cases hlast : k = n
      · subst hlast
        exact .inr ⟨fun j hj => hbefore j (List.mem_range.mp hj), hfound⟩
      · exact .inl ⟨k, by omega, hfound, hbefore⟩

/-- A search from the right finds the greatest index with an answer. -/
theorem findSome?_reverse_range_eq_some_iff :
    (List.range n).reverse.findSome? f = some a ↔
      ∃ k < n, f k = some a ∧ ∀ j < n, k < j → f j = none := by
  induction n with
  | zero =>
    constructor
    · intro h
      cases h
    · rintro ⟨k, hk, -⟩
      omega
  | succ n ih =>
    rw [List.range_succ, List.reverse_append, List.reverse_singleton, List.singleton_append,
      List.findSome?_cons]
    cases hn : f n with
    | some b =>
      constructor
      · intro h
        exact ⟨n, by omega, hn.trans h, fun j hj hlater => by omega⟩
      · rintro ⟨k, hk, hfound, hlater⟩
        by_cases hlast : k = n
        · subst hlast
          exact hn.symm.trans hfound
        · rw [hlater n (by omega) (by omega)] at hn
          cases hn
    | none =>
      dsimp only
      rw [ih]
      constructor
      · rintro ⟨k, hk, hfound, hlater⟩
        refine ⟨k, by omega, hfound, fun j hj hkj => ?_⟩
        by_cases hlast : j = n
        · exact hlast ▸ hn
        · exact hlater j (by omega) hkj
      · rintro ⟨k, hk, hfound, hlater⟩
        have hnot : k ≠ n := by
          rintro rfl
          rw [hn] at hfound
          cases hfound
        exact ⟨k, by omega, hfound, fun j hj hkj => hlater j (by omega) hkj⟩

/-- An element at the front of what is left of a list. -/
theorem drop_eq_cons {l : List α} {k : Nat} (h : l[k]? = some a) : l.drop k = a :: l.drop (k + 1) := by
  obtain ⟨hlt, rfl⟩ := List.getElem?_eq_some_iff.mp h
  exact List.drop_eq_getElem_cons hlt

end Searches

/-! ## Targets -/

namespace Row

/-- A jump table follows only the opcode of a switch. -/
theorem flow_of_switch {row : Row} (h : row ∈ all) (hswitch : row.operandType = .switch) :
    row.flow = .switch := by
  have hall : all.all (fun row => row.operandType != .switch || row.flow == .switch) = true := by
    decide +kernel
  simpa [hswitch] using List.all_eq_true.mp hall row h

end Row

namespace Statement

/-- Only branches and leaves have targets. -/
theorem targets_eq_nil (s : Statement) (next : BitVec 64)
    (h : (s.row.flow.isBranch || s.row.flow == .leave) = false) :
    Decode.targets s.row.flow next s.operand = [] := by
  have hlabel : s.row.flow.hasLabel = false := by
    revert h
    cases s.row.flow <;> decide
  have hfits := s.fits
  cases hoperand : s.operand with
  | immediate i =>
    rw [Decode.targets, hlabel]
    rfl
  | switch displacements =>
    rw [hoperand] at hfits
    have htype : s.row.operandType = .switch := by
      cases htype : s.row.operandType <;> rw [htype] at hfits <;> first | rfl | cases hfits
    rw [Row.flow_of_switch s.defined htype] at h
    cases h
  | none => rfl
  | target a => rfl
  | token t => rfl
  | slot kind index => rfl

/-- The address a decoded instruction branches to is the first of its targets. -/
theorem branchTarget?_instruction (s : Statement) (address : BitVec 64) (offset : Nat) :
    (s.instruction address offset).branchTarget? = (s.instruction address offset).targets.head? := by
  unfold Instruction.branchTarget?
  split
  · rename_i a hoperand
    have hfits := s.fits
    rw [show s.operand = .target a from hoperand] at hfits
    cases htype : s.row.operandType <;> rw [htype] at hfits <;> cases hfits
  · split
    · rfl
    · rename_i hflow
      have hflow : (s.row.flow.isBranch || s.row.flow == .leave) = false := eq_false_of_ne_true hflow
      have hnone := s.targets_eq_nil (address + BitVec.ofNat 64 s.size) hflow
      exact (congrArg List.head? hnone).symm

end Statement

/-- What goes on in a straight line leads nowhere else. -/
theorem Instruction.IsStatement.targets_of_isSequential {i : Instruction} (hi : i.IsStatement)
    (h : i.isSequential = true) : i.targets = [] := by
  obtain ⟨s, address, offset, rfl⟩ := hi
  have hflow : s.row.flow = .sequential := beq_iff_eq.mp h
  exact s.targets_eq_nil (address + BitVec.ofNat 64 s.size) (by rw [hflow]; rfl)

namespace Method

/-! ## What a method says of its instructions -/

/-- The instruction loads a declared local. -/
def Loads (m : Method) (n : BitVec 16) (i : Instruction) : Prop :=
  (∃ d ∈ m.locals, d.index = n) ∧ i.IsAccess .localVar .load n

/-- The instruction stores a declared local. -/
def Stores (m : Method) (n : BitVec 16) (i : Instruction) : Prop :=
  (∃ d ∈ m.locals, d.index = n) ∧ i.IsAccess .localVar .store n

/-- The first address that the instruction at index `b` may branch to is the
address of the instruction at index `t`. -/
def LeadsTo (m : Method) (b t : Nat) : Prop :=
  ∃ a, m.At b (fun i => i.targets.head? = some a) ∧ m.At t (fun i => i.address = a)

/-- The code came out of decoding some bytes, and the address behind the last
of them is an address too: no address wraps around. -/
def IsDecoded (m : Method) : Prop :=
  ∃ base bytes, base.toNat + bytes.length < 0x10000000000000000 ∧ decode base bytes = .ok m.code

/-- The instructions read as statements, and the branches are found to lead
where they lead. -/
structure Legible (m : Method) : Prop where
  isStatement : ∀ i ∈ m.code, i.IsStatement
  branchTarget?_eq_some_iff : ∀ b t, m.branchTarget? b = some t ↔ m.LeadsTo b t

variable {m : Method}

theorem isSome_local?_iff {n : BitVec 16} : (m.local? n).isSome ↔ ∃ d ∈ m.locals, d.index = n := by
  rw [local?, List.find?_isSome]
  simp

/-- A branch leads where the first of its targets is found. -/
theorem branchTarget?_eq_some_iff_indexOf? (hstatement : ∀ i ∈ m.code, i.IsStatement) {b t : Nat} :
    m.branchTarget? b = some t ↔
      ∃ a, m.At b (fun i => i.targets.head? = some a) ∧ m.indexOf? a = some t := by
  have hhead : ∀ {i}, m.code[b]? = some i → i.branchTarget? = i.targets.head? := by
    intro i hi
    obtain ⟨s, address, offset, rfl⟩ := hstatement i (List.mem_of_getElem? hi)
    exact s.branchTarget?_instruction address offset
  unfold branchTarget?
  simp only [Option.bind_eq_bind, Option.bind_eq_some_iff]
  constructor
  · rintro ⟨i, hi, a, ha, ht⟩
    exact ⟨a, ⟨i, hi, (hhead hi).symm.trans ha⟩, ht⟩
  · rintro ⟨a, ⟨i, hi, ha⟩, ht⟩
    exact ⟨i, hi, a, (hhead hi).trans ha, ht⟩

namespace IsDecoded

/-- What is at an index of decoded code reads as a statement. -/
theorem isStatement (hm : m.IsDecoded) {i : Instruction} (hi : i ∈ m.code) : i.IsStatement := by
  obtain ⟨base, bytes, -, hdecode⟩ := hm
  exact isStatement_of_mem_decode hdecode hi

/-- The addresses do not wrap around. -/
theorem ascending (hm : m.IsDecoded) : m.Ascending := by
  obtain ⟨base, bytes, hroom, hdecode⟩ := hm
  exact ascending_decode hdecode (Nat.le_of_lt hroom)

/-- An address is found at the only index where it stands. -/
theorem indexOf?_eq_some_iff (hm : m.IsDecoded) {a : BitVec 64} {t : Nat} :
    m.indexOf? a = some t ↔ m.At t (·.address = a) := m.finds_indexOf? hm.ascending a t

/-- Halving finds what the branches of decoded code lead to. -/
theorem legible (hm : m.IsDecoded) : m.Legible where
  isStatement _ hi := hm.isStatement hi
  branchTarget?_eq_some_iff b t := by
    rw [branchTarget?_eq_some_iff_indexOf? fun _ hi => hm.isStatement hi]
    simp only [hm.indexOf?_eq_some_iff]
    rfl

end IsDecoded

/-- Without branches there is nothing to look up. -/
theorem legible_of_isSequential (hstatement : ∀ i ∈ m.code, i.IsStatement)
    (hline : ∀ i ∈ m.code, i.isSequential = true) : m.Legible where
  isStatement := hstatement
  branchTarget?_eq_some_iff b t := by
    have hnone : ∀ a, ¬ m.At b fun i => i.targets.head? = some a := by
      rintro a ⟨i, hi, ha⟩
      have hmem := List.mem_of_getElem? hi
      rw [(hstatement i hmem).targets_of_isSequential (hline i hmem)] at ha
      cases ha
    rw [branchTarget?_eq_some_iff_indexOf? hstatement]
    constructor
    · rintro ⟨a, ha, -⟩
      exact absurd ha (hnone a)
    · rintro ⟨a, ha, -⟩
      exact absurd ha (hnone a)

namespace Legible

variable {i : Instruction} {n : BitVec 16}

/-- The declared local that an instruction accesses in one way. -/
theorem accessedLocal?_eq_some_iff (hm : m.Legible) (hi : i ∈ m.code) {access : SlotAccess} :
    (if i.accesses .localVar access then (i.slotIndex? .localVar).filter fun n => (m.local? n).isSome
      else none) = some n ↔
      (∃ d ∈ m.locals, d.index = n) ∧ i.IsAccess .localVar access n := by
  obtain ⟨s, address, offset, rfl⟩ := hm.isStatement i hi
  rw [← isSome_local?_iff, s.isAccess_iff]
  split
  · rename_i haccess
    rw [Option.filter_eq_some_iff]
    exact ⟨fun ⟨hindex, hlocal⟩ => ⟨hlocal, haccess, hindex⟩,
      fun ⟨hlocal, _, hindex⟩ => ⟨hindex, hlocal⟩⟩
  · rename_i haccess
    exact ⟨nofun, fun h => absurd h.2.1 haccess⟩

theorem loadedLocal?_eq_some_iff (hm : m.Legible) (hi : i ∈ m.code) :
    m.loadedLocal? i = some n ↔ m.Loads n i := hm.accessedLocal?_eq_some_iff hi

theorem storedLocal?_eq_some_iff (hm : m.Legible) (hi : i ∈ m.code) :
    m.storedLocal? i = some n ↔ m.Stores n i := hm.accessedLocal?_eq_some_iff hi

theorem bind_loadedLocal?_eq_some_iff (hm : m.Legible) {k : Nat} :
    m.code[k]?.bind m.loadedLocal? = some n ↔ m.At k (m.Loads n) := by
  rw [Option.bind_eq_some_iff]
  constructor
  · rintro ⟨i, hi, hload⟩
    exact ⟨i, hi, (hm.loadedLocal?_eq_some_iff (List.mem_of_getElem? hi)).mp hload⟩
  · rintro ⟨i, hi, hload⟩
    exact ⟨i, hi, (hm.loadedLocal?_eq_some_iff (List.mem_of_getElem? hi)).mpr hload⟩

/-- A store goes on in the straight line. -/
theorem isSequential_of_stores (hm : m.Legible) (hi : i ∈ m.code) (h : m.Stores n i) :
    i.isSequential = true := by
  obtain ⟨s, address, offset, rfl⟩ := hm.isStatement i hi
  exact s.isSequential_of_isAccess address offset h.2

end Legible

end Method

end KeyLoop
