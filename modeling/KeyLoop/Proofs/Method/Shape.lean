/-
# Methods of one shape

Two methods are of one shape, under an injective renaming `r` of the locals,
if their instructions are, one by one, and if the branches at each index lead
to the same index.  Local `n` of the one is declared exactly if `r n` is
declared in the other, with the same flavor; what else a method declares is
equal.

The declared locals that the code loads and stores are then those of the
other code, renamed: `loadedLocal?`, `storedLocal?` and `touchedLocals`
commute with `r`.  For the last one the renaming has to be injective, since a
local that is touched twice is listed once.
-/
import KeyLoop.Proofs.Instruction.Shape
import KeyLoop.Proofs.Method.Declarations
import KeyLoop.Window.Locate
import Mathlib.Data.List.Forall2

namespace KeyLoop

/-! ## Lists with related elements -/

section Lists

variable {α β : Type} {R : α → β → Prop} {l : List α} {l' : List β}

/-- Lists with related elements have related elements at each index. -/
theorem forall₂_getElem? (h : List.Forall₂ R l l') (k : Nat) :
    (l[k]? = none ∧ l'[k]? = none) ∨ ∃ a b, l[k]? = some a ∧ l'[k]? = some b ∧ R a b := by
  induction h generalizing k with
  | nil => exact .inl ⟨rfl, rfl⟩
  | @cons a b l l' hab _ ih =>
    cases k with
    | zero => exact .inr ⟨a, b, rfl, rfl, hab⟩
    | succ k => exact ih k

theorem forall₂_takeWhile {p : α → Bool} {p' : β → Bool} (hp : ∀ a b, R a b → p' b = p a)
    (h : List.Forall₂ R l l') : List.Forall₂ R (l.takeWhile p) (l'.takeWhile p') := by
  induction h with
  | nil => exact .nil
  | @cons a b l l' hab _ ih =>
    rw [List.takeWhile_cons, List.takeWhile_cons, hp a b hab]
    cases p a with
    | true => exact .cons hab ih
    | false => exact .nil

theorem forall₂_any {q : α → Bool} {q' : β → Bool} (hq : ∀ a b, R a b → q' b = q a)
    (h : List.Forall₂ R l l') : l'.any q' = l.any q := by
  induction h with
  | nil => rfl
  | @cons a b _ _ hab _ ih => rw [List.any_cons, List.any_cons, hq a b hab, ih]

theorem forall₂_findIdx? {q : α → Bool} {q' : β → Bool} (hq : ∀ a b, R a b → q' b = q a)
    (h : List.Forall₂ R l l') : l'.findIdx? q' = l.findIdx? q := by
  induction h with
  | nil => rfl
  | @cons a b _ _ hab _ ih => rw [List.findIdx?_cons, List.findIdx?_cons, hq a b hab, ih]

end Lists

/-- The declaration under a new name. -/
def Declaration.rename (r : BitVec 16 → BitVec 16) (d : Declaration) : Declaration :=
  { d with index := r d.index }

/-- Decoded instructions of one shape. -/
structure Instruction.Alike (r : BitVec 16 → BitVec 16) (i j : Instruction) : Prop where
  left : i.IsStatement
  right : j.IsStatement
  shape : i.SameShape r j

namespace Instruction.Alike

variable {r : BitVec 16 → BitVec 16} {i j : Instruction}

theorem answers (h : i.Alike r j) : i.SameAnswers r j := h.shape.answers h.left h.right

theorem isSequential (h : i.Alike r j) : j.isSequential = i.isSequential := by
  rw [Instruction.isSequential, Instruction.isSequential, h.answers.flow]

end Instruction.Alike

namespace Method

/-- The methods differ in encodings and in the names of their locals only. -/
structure SameShape (r : BitVec 16 → BitVec 16) (m m' : Method) : Prop where
  injective : Function.Injective r
  arguments : m'.arguments = m.arguments
  locals : ∀ n, (m'.local? (r n)).map (·.flavor) = (m.local? n).map (·.flavor)
  initLocals : m'.initLocals = m.initLocals
  code : List.Forall₂ (Instruction.SameShape r) m.code m'.code
  targets : ∀ k, m'.branchTarget? k = m.branchTarget? k

variable {r : BitVec 16 → BitVec 16} {m m' : Method} {base base' : BitVec 64} {bytes bytes' : List Byte}

/-- Decoded code of one shape. -/
theorem SameShape.alike (h : SameShape r m m') (hm : decode base bytes = .ok m.code)
    (hm' : decode base' bytes' = .ok m'.code) :
    List.Forall₂ (Instruction.Alike r) m.code m'.code := by
  obtain ⟨hlength, hcode⟩ := List.forall₂_iff_zip.mp h.code
  refine List.forall₂_iff_zip.mpr ⟨hlength, fun hp => ?_⟩
  exact ⟨isStatement_of_mem_decode hm (List.of_mem_zip hp).1,
    isStatement_of_mem_decode hm' (List.of_mem_zip hp).2, hcode hp⟩

/-- Whether the code of two methods is of one shape, index by index. -/
def codeLooksLike (r : BitVec 16 → BitVec 16) (m m' : Method) : Bool :=
  m.code.length == m'.code.length && (m.code.zip m'.code).all (fun p => p.1.looksLike r p.2) &&
    (List.range m.code.length).all fun k => m'.branchTarget? k == m.branchTarget? k

/-- Decoded code of one shape is known by a test. -/
theorem codeLooksLike_iff (hm : decode base bytes = .ok m.code)
    (hm' : decode base' bytes' = .ok m'.code) :
    codeLooksLike r m m' = true ↔
      List.Forall₂ (Instruction.SameShape r) m.code m'.code ∧
        ∀ k, m'.branchTarget? k = m.branchTarget? k := by
  have hshape : ∀ p ∈ m.code.zip m'.code,
      p.1.looksLike r p.2 = true ↔ Instruction.SameShape r p.1 p.2 := fun p hp =>
    Instruction.looksLike_iff (isStatement_of_mem_decode hm (List.of_mem_zip hp).1)
      (isStatement_of_mem_decode hm' (List.of_mem_zip hp).2)
  have hnone : ∀ {g : Method} {k : Nat}, g.code.length ≤ k → g.branchTarget? k = none := by
    intro g k hk
    rw [branchTarget?, List.getElem?_eq_none hk]
    rfl
  simp only [codeLooksLike, Bool.and_eq_true, beq_iff_eq, List.all_eq_true, List.mem_range,
    List.forall₂_iff_zip]
  constructor
  · rintro ⟨⟨hlength, hcode⟩, htargets⟩
    refine ⟨⟨hlength, fun hp => (hshape _ hp).mp (hcode _ hp)⟩, fun k => ?_⟩
    by_cases hk : k < m.code.length
    · exact htargets k hk
    · rw [hnone (by omega), hnone (by omega)]
  · rintro ⟨⟨hlength, hcode⟩, htargets⟩
    exact ⟨⟨hlength, fun p hp => (hshape p hp).mpr (hcode hp)⟩, fun k _ => htargets k⟩

/-! ## Declared locals -/

/-- Locals that are declared under their new names. -/
theorem local?_ofInstructions (hr : Function.Injective r) (token : Token) (name : String)
    (code : List Instruction) (arguments locals : List Declaration) (initLocals : Bool)
    (n : BitVec 16) :
    ((ofInstructions token name code arguments (locals.map (Declaration.rename r)) initLocals).local? (r n)).map
        (·.flavor) =
      ((ofInstructions token name code arguments locals initLocals).local? n).map (·.flavor) := by
  have hname : (fun d : Declaration => d.index == r n) ∘ Declaration.rename r = (·.index == n) := by
    funext d
    rw [Bool.eq_iff_iff]
    simp only [Function.comp_apply, Declaration.rename, beq_iff_eq, hr.eq_iff]
  rw [local?, local?]
  simp only [ofInstructions, Declaration.find?_normalize, List.find?_map, hname, Option.map_map]
  rfl

theorem SameShape.isSome_local? (h : SameShape r m m') (n : BitVec 16) :
    (m'.local? (r n)).isSome = (m.local? n).isSome := by
  have hlocal := congrArg Option.isSome (h.locals n)
  rwa [Option.isSome_map, Option.isSome_map] at hlocal

variable {i j : Instruction}

/-- The declared local that an instruction accesses is renamed. -/
theorem SameShape.accessedLocal? (h : SameShape r m m') (hij : i.Alike r j) (way : SlotAccess) :
    (if j.accesses .localVar way then (j.slotIndex? .localVar).filter fun n => (m'.local? n).isSome
      else none) =
      (if i.accesses .localVar way then (i.slotIndex? .localVar).filter fun n => (m.local? n).isSome
        else none).map r := by
  have hdeclared : (fun n => (m'.local? n).isSome) ∘ r = fun n => (m.local? n).isSome :=
    funext h.isSome_local?
  rw [hij.answers.accesses, hij.answers.slotIndex?]
  split
  · rw [SlotKind.rename, Option.filter_map, hdeclared]
  · rfl

theorem SameShape.loadedLocal? (h : SameShape r m m') (hij : i.Alike r j) :
    m'.loadedLocal? j = (m.loadedLocal? i).map r := h.accessedLocal? hij .load

theorem SameShape.storedLocal? (h : SameShape r m m') (hij : i.Alike r j) :
    m'.storedLocal? j = (m.storedLocal? i).map r := h.accessedLocal? hij .store

theorem SameShape.touchedLocal? (h : SameShape r m m') (hij : i.Alike r j) :
    m'.touchedLocal? j = (m.touchedLocal? i).map r := by
  rw [Method.touchedLocal?, Method.touchedLocal?, h.loadedLocal? hij, h.storedLocal? hij, Option.map_or]

/-- Names are listed once before the renaming exactly if they are after it. -/
theorem foldl_unseen (hr : Function.Injective r) (ns seen : List (BitVec 16)) :
    (ns.map r).foldl (fun seen n => if n ∈ seen then seen else seen ++ [n]) (seen.map r) =
      (ns.foldl (fun seen n => if n ∈ seen then seen else seen ++ [n]) seen).map r := by
  induction ns generalizing seen with
  | nil => rfl
  | cons n ns ih =>
    rw [List.map_cons, List.foldl_cons, List.foldl_cons, ← ih]
    refine congrArg (List.foldl _ · _) ?_
    by_cases hseen : n ∈ seen
    · rw [if_pos hseen, if_pos ((List.mem_map_of_injective hr).mpr hseen)]
    · rw [if_neg hseen, if_neg (mt (List.mem_map_of_injective hr).mp hseen), List.map_append]
      rfl

/-- The locals that code touches are renamed, in their order. -/
theorem SameShape.touchedLocals (h : SameShape r m m') {code code' : List Instruction}
    (hcode : List.Forall₂ (Instruction.Alike r) code code') :
    m'.touchedLocals code' = (m.touchedLocals code).map r := by
  have htouched : code'.filterMap m'.touchedLocal? = (code.filterMap m.touchedLocal?).map r := by
    induction hcode with
    | nil => rfl
    | @cons i j _ _ hij _ ih =>
      rw [List.filterMap_cons, List.filterMap_cons, h.touchedLocal? hij]
      cases m.touchedLocal? i with
      | none => exact ih
      | some n => exact congrArg (r n :: ·) ih
  rw [Method.touchedLocals, Method.touchedLocals, htouched]
  exact foldl_unseen h.injective _ []

end Method

end KeyLoop
