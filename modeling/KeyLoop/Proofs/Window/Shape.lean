/-
# Locating sees shapes

In methods of one shape every part of the search for a loop comes to the same
end: the same indices, and renamed locals.

    byteFold?, twoPhaseStart?         the running sum is renamed
    distanceToStore?                  the same, for the renamed sum
    isRoundTrip, nearestTarget?,
    dialect                           the same
    locate?                           windows that are renamed, or none

None of the parts asks for more than what two instructions of one shape
answer alike (`SameAnswers`), and where a branch leads is alike by assumption.
The rules of the first section carry that through a search, from one question
to the next.
-/
import KeyLoop.Proofs.Method.Shape
import Mathlib.Data.Option.Basic

namespace KeyLoop

/-! ## Searches that come to the same end -/

section Rules

variable {α β γ δ : Type} {R : α → β → Prop} {S : γ → δ → Prop}

theorem rel_bind {a : Option α} {b : Option β} {f : α → Option γ} {g : β → Option δ}
    (h : Option.Rel R a b) (hnext : ∀ x y, R x y → Option.Rel S (f x) (g y)) :
    Option.Rel S (a >>= f) (b >>= g) := by
  cases h with
  | none => exact .none
  | some hxy => exact hnext _ _ hxy

theorem rel_guard {p q : Prop} [Decidable p] [Decidable q] (h : q ↔ p) :
    Option.Rel (fun _ _ => True) (guard p : Option Unit) (guard q) := by
  by_cases hp : p
  · rw [guard, guard, if_pos hp, if_pos (h.mpr hp)]
    exact .some trivial
  · rw [guard, guard, if_neg hp, if_neg (mt h.mp hp)]
    exact .none

/-- An answer and the same answer under another name. -/
theorem rel_of_map {a : Option α} {b : Option β} {f : α → β} (h : b = a.map f) :
    Option.Rel (fun x y => y = f x) a b := by
  subst h
  cases a with
  | none => exact .none
  | some x => exact .some rfl

theorem rel_of_eq {a b : Option α} (h : b = a) : Option.Rel (fun x y => y = x) a b := by
  subst h
  cases b with
  | none => exact .none
  | some x => exact .some rfl

theorem rel_or {a a' : Option α} {b b' : Option β} (h : Option.Rel R a b) (h' : Option.Rel R a' b') :
    Option.Rel R (a.or a') (b.or b') := by
  cases h with
  | none => exact h'
  | some hxy => exact .some hxy

theorem rel_findSome? {f : γ → Option α} {g : γ → Option β} (h : ∀ k, Option.Rel R (f k) (g k))
    (l : List γ) : Option.Rel R (l.findSome? f) (l.findSome? g) := by
  induction l with
  | nil => exact .none
  | cons k l ih =>
    rw [List.findSome?_cons, List.findSome?_cons]
    have hk := h k
    revert hk
    generalize f k = a
    generalize g k = b
    rintro (hxy | _)
    · exact .some hxy
    · exact ih

end Rules

/-- The windows differ in encodings and in the names of locals only. -/
structure Window.Renamed (r : BitVec 16 → BitVec 16) (w w' : Window) : Prop where
  strategy : w'.strategy = w.strategy
  dialect : w'.dialect = w.dialect
  first : w'.first = w.first
  last : w'.last = w.last
  accumulator : w'.accumulator = r w.accumulator
  touched : w'.touched = w.touched.map r
  code : List.Forall₂ (Instruction.Alike r) w.code w'.code

namespace Method

variable {r : BitVec 16 → BitVec 16} {m m' : Method}

/-! ## Code by itself -/

section Code

variable {code code' : List Instruction} (hcode : List.Forall₂ (Instruction.Alike r) code code')
include hcode

theorem isRoundTrip_alike : isRoundTrip code' = isRoundTrip code := by
  rcases hcode with _ | ⟨hunsigned, _ | ⟨hdouble, _ | ⟨hcut, _ | ⟨hplus, hrest⟩⟩⟩⟩
  -- code that is too short for the pattern
  any_goals rfl
  rw [Bool.eq_iff_iff]
  simp only [isRoundTrip, Bool.and_eq_true, beq_iff_eq, hunsigned.answers.opcode .convRUn rfl,
    hdouble.answers.opcode .convR8 rfl, hcut.answers.opcode .convU4 rfl, hplus.answers.opcode .add rfl]

theorem dialect_alike : dialect code' = dialect code := by
  have hbefore : List.Forall₂ (Instruction.Alike r) (code.drop 1).reverse (code'.drop 1).reverse :=
    List.forall₂_reverse_iff.mpr (List.forall₂_drop 1 hcode)
  have hguarded :
      ((code'.drop 1).reverse.takeWhile fun i => i.isSequential || i.isBneUn).any
          (fun i => !i.isSequential) =
        ((code.drop 1).reverse.takeWhile fun i => i.isSequential || i.isBneUn).any
          fun i => !i.isSequential := by
    refine forall₂_any (fun _ _ hij => ?_) (forall₂_takeWhile (fun _ _ hij => ?_) hbefore)
    · rw [hij.isSequential]
    · rw [hij.isSequential, hij.answers.isBneUn]
  simp only [dialect, hguarded]

end Code

namespace SameShape

variable (h : SameShape r m m')
include h

/-- The test for a store of one local, under its two names. -/
theorem stored_iff {i j : Instruction} (hij : i.Alike r j) (n : BitVec 16) :
    m'.storedLocal? j = some (r n) ↔ m.storedLocal? i = some n := by
  rw [h.storedLocal? hij, ← Option.map_some, (Option.map_injective h.injective).eq_iff]

/-- The byte fold, with what is asked of the instruction behind it. -/
theorem byteFold?_rel {code code' : List Instruction}
    (hcode : List.Forall₂ (Instruction.Alike r) code code') :
    Option.Rel (fun p q => q.1 = r p.1 ∧ q.2.isBr = p.2.isBr) (m.byteFold? code)
      (m'.byteFold? code') := by
  rcases hcode with _ | ⟨hwiden, _ | ⟨helement, _ | ⟨hjoin, _ | ⟨hkeep, _ | ⟨hsum, _ | ⟨hword, _ |
    ⟨hplus, _ | ⟨hsave, _ | ⟨hbehind, hrest⟩⟩⟩⟩⟩⟩⟩⟩⟩
  -- code that is too short for the pattern
  any_goals exact .none
  have hopcodes := rel_guard <| (hwiden.answers.opcode .convU rfl).and <|
    (helement.answers.opcode .ldelemU1 rfl).and (hjoin.answers.opcode .or rfl)
  refine rel_bind hopcodes fun _ _ _ => ?_
  refine rel_bind (rel_of_map (h.storedLocal? hkeep)) fun _ _ _ => ?_
  refine rel_bind (rel_of_map (h.loadedLocal? hsum)) fun n n' hn => ?_
  refine rel_bind (rel_of_map (h.loadedLocal? hword)) fun _ _ _ => ?_
  subst hn
  have hsaved := rel_guard <| (hplus.answers.opcode .add rfl).and (h.stored_iff hsave n)
  exact rel_bind hsaved fun _ _ _ => .some ⟨rfl, hbehind.answers.isBr⟩

variable (hcode : List.Forall₂ (Instruction.Alike r) m.code m'.code)
include hcode

theorem window (strategy : Strategy) (dialect : Dialect) (first last : Nat) (sum : BitVec 16) :
    Window.Renamed r (m.window strategy dialect first last sum)
      (m'.window strategy dialect first last (r sum)) := by
  have hslice : List.Forall₂ (Instruction.Alike r) (m.slice first last) (m'.slice first last) :=
    List.forall₂_take _ (List.forall₂_drop _ hcode)
  exact
    { strategy := rfl
      dialect := rfl
      first := rfl
      last := rfl
      accumulator := rfl
      touched := h.touchedLocals hslice
      code := hslice }

/-- The local that the instruction at an index loads. -/
theorem bind_loadedLocal? (k : Nat) :
    m'.code[k]?.bind m'.loadedLocal? = (m.code[k]?.bind m.loadedLocal?).map r := by
  rcases forall₂_getElem? hcode k with ⟨hi, hj⟩ | ⟨i, j, hi, hj, hij⟩
  · rw [hi, hj]
    rfl
  · rw [hi, hj]
    exact h.loadedLocal? hij

/-- The test for a load of one local at an index, under its two names. -/
theorem loads_iff (k : Nat) (n : BitVec 16) :
    m'.code[k]?.bind m'.loadedLocal? = some (r n) ↔ m.code[k]?.bind m.loadedLocal? = some n := by
  rw [h.bind_loadedLocal? hcode, ← Option.map_some, (Option.map_injective h.injective).eq_iff]

/-! ## Two-phase loops -/

theorem twoPhaseStart?_rel (k : Nat) :
    Option.Rel (fun p q => q = (p.1, r p.2)) (m.twoPhaseStart? k) (m'.twoPhaseStart? k) := by
  refine rel_bind (h.byteFold?_rel (List.forall₂_drop k hcode)) ?_
  rintro ⟨sum, behind⟩ ⟨_, behind'⟩ ⟨rfl, hbr⟩
  have hstart : ∀ start start' : Nat, start' = start →
      Option.Rel (fun p q => q = (p.1, r p.2))
        (do guard (m.code[start]?.bind m.loadedLocal? = some sum); pure (start, sum))
        (do guard (m'.code[start']?.bind m'.loadedLocal? = some (r sum)); pure (start', r sum)) := by
    rintro _ start rfl
    exact rel_bind (rel_guard (h.loads_iff hcode start sum)) fun _ _ _ => .some rfl
  dsimp only at hbr ⊢
  rw [hbr, h.targets]
  split
  · exact rel_bind (rel_of_eq rfl) hstart
  · exact rel_bind (rel_of_eq rfl) hstart

theorem distanceToStore? (start : Nat) (sum : BitVec 16) :
    m'.distanceToStore? start (r sum) = m.distanceToStore? start sum := by
  have hcode := List.forall₂_drop start hcode
  refine forall₂_findIdx? (fun _ _ hij => ?_) (forall₂_takeWhile (fun _ _ hij => ?_) hcode)
  · exact decide_eq_decide.mpr (h.stored_iff hij sum)
  · exact hij.isSequential

theorem twoPhase?_rel : Option.Rel (Window.Renamed r) m.twoPhase? m'.twoPhase? := by
  unfold twoPhase?
  rw [hcode.length_eq]
  refine rel_bind (rel_findSome? (h.twoPhaseStart?_rel hcode) _) ?_
  rintro ⟨start, sum⟩ _ rfl
  refine rel_bind (rel_of_eq (h.distanceToStore? hcode start sum)) ?_
  rintro distance _ rfl
  exact rel_bind (rel_guard Iff.rfl) fun _ _ _ => .some (h.window hcode _ _ _ _ _)

/-! ## Single-phase loops -/

theorem forwardTarget? (k : Nat) : m'.forwardTarget? k = m.forwardTarget? k := by
  unfold Method.forwardTarget?
  rcases forall₂_getElem? hcode k with ⟨hi, hj⟩ | ⟨i, j, hi, hj, hij⟩
  · rw [hi, hj]
    rfl
  · simp only [hi, hj, Option.bind_eq_bind, Option.bind_some, hij.answers.isBr, h.targets]

theorem nearestTarget? (last : Nat) : m'.nearestTarget? last = m.nearestTarget? last := by
  rw [Method.nearestTarget?, Method.nearestTarget?, funext (h.forwardTarget? hcode)]

theorem singlePhaseAt?_rel (k : Nat) :
    Option.Rel (Window.Renamed r) (m.singlePhaseAt? k) (m'.singlePhaseAt? k) := by
  refine rel_bind (rel_guard ?_) fun _ _ _ => ?_
  · rw [isRoundTrip_alike (List.forall₂_drop k hcode)]
  refine rel_bind (rel_of_eq (h.nearestTarget? hcode (k + 3))) ?_
  rintro _ first rfl
  refine rel_bind (rel_guard Iff.rfl) fun _ _ _ => ?_
  refine rel_bind (rel_of_map (h.bind_loadedLocal? hcode first)) ?_
  rintro sum _ rfl
  rw [dialect_alike (List.forall₂_take (k + 3 + 1) hcode)]
  exact .some (h.window hcode _ _ _ _ _)

theorem singlePhase?_rel : Option.Rel (Window.Renamed r) m.singlePhase? m'.singlePhase? := by
  unfold singlePhase?
  rw [hcode.length_eq]
  exact rel_findSome? (h.singlePhaseAt?_rel hcode) _

/-! ## Both -/

/-- **Locating sees shapes.**  Both searches end without a loop, or with
windows that are renamed. -/
theorem locate?_rel (s : Strategies) :
    Option.Rel (Window.Renamed r) (m.locate? s) (m'.locate? s) := by
  refine rel_or ?_ ?_
  · split
    · exact h.twoPhase?_rel hcode
    · exact .none
  · split
    · exact h.singlePhase?_rel hcode
    · exact .none

end SameShape

end Method

end KeyLoop
