/-
# Windows and what they hold

A window between two indices of a method holds the instructions from the one
to the other, both included, and nothing else: `Window.Spans` says it index
by index.  Locating answers with the window that the search finds, or that
there is none.
-/
import KeyLoop.Proofs.Method.Decoded
import KeyLoop.Window.Locate

namespace KeyLoop

/-- The window goes from index `first` to index `last` of a method, and holds
exactly the instructions that stand there. -/
structure Window.Spans (w : Window) (m : Method) (first last : Nat) : Prop where
  first_eq : w.first = first
  last_eq : w.last = last
  inside : last < m.code.length
  length : w.code.length = last + 1 - first
  code : ∀ k < last + 1 - first, w.code[k]? = m.code[first + k]?

namespace Method

variable {m : Method}

theorem length_slice {first last : Nat} (h : last < m.code.length) :
    (m.slice first last).length = last + 1 - first := by
  rw [slice, List.length_take, List.length_drop]
  omega

theorem getElem?_slice {first last k : Nat} (h : k < last + 1 - first) :
    (m.slice first last)[k]? = m.code[first + k]? := by
  rw [slice, List.getElem?_take_of_lt h, List.getElem?_drop]

/-- A slice that ends one instruction later. -/
theorem slice_succ {first last : Nat} (h : first ≤ last + 1) {x : Instruction}
    (hx : m.code[last + 1]? = some x) : m.slice first (last + 1) = m.slice first last ++ [x] := by
  have hlength : last + 1 + 1 - first = last + 1 - first + 1 := by omega
  have hindex : first + (last + 1 - first) = last + 1 := by omega
  rw [slice, hlength, List.take_add_one, List.getElem?_drop, hindex, hx, Option.toList_some]
  rfl

/-- What is in a slice stands at an index of the method. -/
theorem exists_of_mem_slice {first last : Nat} {i : Instruction} (h : i ∈ m.slice first last) :
    ∃ k, first ≤ k ∧ k ≤ last ∧ m.code[k]? = some i := by
  obtain ⟨k, hk⟩ := List.mem_iff_getElem?.mp h
  have hlt : k < last + 1 - first := by
    have hlength := (List.getElem?_eq_some_iff.mp hk).1
    rw [slice, List.length_take] at hlength
    omega
  rw [getElem?_slice hlt] at hk
  exact ⟨first + k, by omega, by omega, hk⟩

theorem Legible.isStatement_of_mem_slice (hm : m.Legible) {first last : Nat} {i : Instruction}
    (hi : i ∈ m.slice first last) : i.IsStatement := by
  obtain ⟨k, -, -, hk⟩ := exists_of_mem_slice hi
  exact hm.isStatement i (List.mem_of_getElem? hk)

theorem spans_window {first last : Nat} (h : last < m.code.length) (strategy : Strategy)
    (dialect : Dialect) (accumulator : BitVec 16) :
    (m.window strategy dialect first last accumulator).Spans m first last where
  first_eq := rfl
  last_eq := rfl
  inside := h
  length := length_slice h
  code _ hk := getElem?_slice hk

/-! ## The answer of a search -/

/-- The window that a search finds is the one between its two ends. -/
theorem eq_window_of_locate? {s : Strategies} {w : Window} (h : m.locate? s = some w) :
    w = m.window w.strategy w.dialect w.first w.last w.accumulator := by
  rcases Option.or_eq_some_iff.mp h with h | ⟨-, h⟩
  · split at h
    · simp only [twoPhase?, Option.bind_eq_bind, Option.bind_eq_some_iff, Option.pure_def,
        Option.some.injEq] at h
      obtain ⟨_, -, _, -, _, -, rfl⟩ := h
      rfl
    · cases h
  · split at h
    · obtain ⟨_, -, hw⟩ := List.exists_of_findSome?_eq_some h
      simp only [singlePhaseAt?, Option.bind_eq_bind, Option.bind_eq_some_iff, Option.pure_def,
        Option.some.injEq] at hw
      obtain ⟨_, -, _, -, _, -, _, -, rfl⟩ := hw
      rfl
    · cases h

theorem locate_eq_ok_iff {s : Strategies} {w : Window} :
    m.locate s = .ok w ↔ m.locate? s = some w := by
  unfold locate
  cases m.locate? s with
  | none => exact ⟨nofun, nofun⟩
  | some w' =>
    constructor
    · rintro ⟨⟩
      rfl
    · rintro ⟨⟩
      rfl

theorem locate_eq_error {s : Strategies} (h : ∀ w, m.locate? s ≠ some w) :
    m.locate s = .error .loopNotFound := by
  rw [locate, Option.eq_none_iff_forall_ne_some.mpr h]

end Method

end KeyLoop
