/-
# What a search reads, and what it finds

Two things are said of a search that reads by index.

    yields     it reads nothing but what is there, and what it finds has a
               property; this goes through a search step by step
    answer     what it finds, when reading where nothing stands counts as
               finding nothing; this turns a search into one that cannot fail

The second forgets the accesses, so a search of which the first holds is known
from its answer (`Yields.run_eq`).
-/
import KeyLoop.Window.Access
import Mathlib.Data.Option.Basic

namespace KeyLoop.Search

variable {α β : Type} {P Q : α → Prop} {R : β → Prop}

/-! ## Reading only what is there -/

/-- The search reads only what is there, and what it finds is as `P` says. -/
def Yields (x : Search α) (P : α → Prop) : Prop := ∃ found, x.run = .ok found ∧ ∀ a ∈ found, P a

theorem Yields.imp {x : Search α} (h : x.Yields P) (hPQ : ∀ a, P a → Q a) : x.Yields Q := by
  obtain ⟨found, hrun, hfound⟩ := h
  exact ⟨found, hrun, fun a ha => hPQ a (hfound a ha)⟩

theorem yields_pure {a : α} (h : P a) : (pure a : Search α).Yields P := by
  refine ⟨some a, rfl, ?_⟩
  rintro _ ⟨⟩
  exact h

theorem yields_failure : (failure : Search α).Yields P := ⟨none, rfl, nofun⟩

theorem yields_bind {x : Search α} {f : α → Search β} (hx : x.Yields P)
    (hf : ∀ a, P a → (f a).Yields R) : (x >>= f).Yields R := by
  obtain ⟨found, hrun, hfound⟩ := hx
  cases found with
  | none =>
    refine ⟨none, ?_, nofun⟩
    rw [OptionT.run_bind, hrun]
    rfl
  | some a =>
    obtain ⟨found', hrun', hfound'⟩ := hf a (hfound a rfl)
    refine ⟨found', ?_, hfound'⟩
    rw [OptionT.run_bind, hrun]
    exact hrun'

theorem yields_orElse {x y : Search α} (hx : x.Yields P) (hy : y.Yields P) :
    (x <|> y).Yields P := by
  obtain ⟨found, hrun, hfound⟩ := hx
  cases found with
  | none =>
    obtain ⟨found', hrun', hfound'⟩ := hy
    refine ⟨found', ?_, hfound'⟩
    rw [OptionT.run_orElse, hrun]
    exact hrun'
  | some a =>
    refine ⟨some a, ?_, hfound⟩
    rw [OptionT.run_orElse, hrun]
    rfl

theorem yields_firstM {f : α → Search β} {l : List α} (h : ∀ a ∈ l, (f a).Yields R) :
    (l.firstM f).Yields R := by
  induction l with
  | nil => exact yields_failure
  | cons a l ih =>
    obtain ⟨ha, hl⟩ := List.forall_mem_cons.mp h
    exact yields_orElse ha (ih hl)

/-- A search that is made under a condition. -/
theorem yields_ite {p : Prop} [Decidable p] {x : Search α} (h : x.Yields P) :
    (if p then x else failure).Yields P := by
  split
  · exact h
  · exact yields_failure

theorem yields_guard (p : Prop) [Decidable p] : (guard p : Search Unit).Yields fun _ => p := by
  by_cases h : p
  · have hpass : (guard p : Search Unit) = pure () := if_pos h
    rw [hpass]
    exact yields_pure h
  · have hstop : (guard p : Search Unit) = failure := if_neg h
    rw [hstop]
    exact yields_failure

theorem yields_getM (o : Option α) : (o.getM : Search α).Yields fun a => o = some a := by
  cases o with
  | none => exact yields_failure
  | some a => exact yields_pure rfl

/-! Accesses, each under the condition that it needs. -/

section Accesses

variable {l : List α} {index first last : Nat}

theorem yields_entry (h : index < l.length) : (entry l index).Yields fun a => l[index]? = some a := by
  rw [entry, List.getElem?_eq_getElem h]
  exact yields_pure rfl

theorem yields_ask (h : index < l.length) (question : α → Option β) :
    (ask l index question).Yields fun b => ∃ a, l[index]? = some a ∧ question a = some b :=
  yields_bind (yields_entry h) fun a ha => (yields_getM (question a)).imp fun _ hb => ⟨a, ha, hb⟩

theorem yields_check (h : index < l.length) (test : α → Bool) :
    (check l index test).Yields fun _ => ∃ a, l[index]? = some a ∧ test a = true :=
  yields_bind (yields_entry h) fun a ha => (yields_guard (test a = true)).imp fun _ hb => ⟨a, ha, hb⟩

theorem yields_suffix (h : first ≤ l.length) : (suffix l first).Yields fun l' => l' = l.drop first := by
  rw [suffix, if_pos h]
  exact yields_pure rfl

theorem yields_between (hlast : last < l.length) (hfirst : first ≤ last + 1) :
    (between l first last).Yields fun l' => l' = (l.drop first).take (last + 1 - first) := by
  rw [between, if_pos hlast, if_pos hfirst]
  exact yields_pure rfl

theorem yields_part? (l : List α) (first count : Nat) :
    (part? l first count).Yields fun l' => first + count ≤ l.length ∧ l'.length = count := by
  unfold part?
  split
  · rename_i h
    refine yields_pure ⟨h, ?_⟩
    rw [List.length_take, List.length_drop]
    omega
  · exact yields_failure

end Accesses

/-! ## The answer -/

/-- What the search finds; a search that reads where nothing stands finds nothing. -/
def answer (x : Search α) : Option α :=
  match x.run with
  | .ok found => found
  | .error _ => none

/-- Of a search that reads only what is there nothing is forgotten. -/
theorem Yields.run_eq {x : Search α} (h : x.Yields P) :
    x.run = .ok x.answer ∧ ∀ a, x.answer = some a → P a := by
  obtain ⟨found, hrun, hfound⟩ := h
  rw [answer, hrun]
  exact ⟨rfl, hfound⟩

@[simp] theorem answer_pure (a : α) : (pure a : Search α).answer = some a := rfl

@[simp] theorem answer_bind (x : Search α) (f : α → Search β) :
    (x >>= f).answer = x.answer.bind fun a => (f a).answer := by
  unfold answer
  rw [OptionT.run_bind]
  cases x.run with
  | error fault => rfl
  | ok found => cases found <;> rfl

@[simp] theorem answer_guard (p : Prop) [Decidable p] : (guard p : Search Unit).answer = guard p := by
  by_cases h : p
  · exact (congrArg answer (if_pos h)).trans (if_pos h).symm
  · exact (congrArg answer (if_neg h)).trans (if_neg h).symm

@[simp] theorem answer_getM (o : Option α) : (o.getM : Search α).answer = o := by
  cases o <;> rfl

/-- A search that reads where nothing stands does not get to the one behind it. -/
theorem answer_orElse {x y : Search α} (hx : x.Yields P) :
    (x <|> y).answer = x.answer.or y.answer := by
  obtain ⟨found, hrun, -⟩ := hx
  unfold answer
  rw [OptionT.run_orElse, hrun]
  cases found <;> rfl

theorem answer_firstM {f : α → Search β} {l : List α} (h : ∀ a ∈ l, (f a).Yields R) :
    (l.firstM f).answer = l.findSome? fun a => (f a).answer := by
  induction l with
  | nil => rfl
  | cons a l ih =>
    obtain ⟨ha, hl⟩ := List.forall_mem_cons.mp h
    rw [List.firstM, answer_orElse ha, ih hl, List.findSome?_cons]
    cases (f a).answer <;> rfl

@[simp] theorem answer_entry (l : List α) (index : Nat) : (entry l index).answer = l[index]? := by
  unfold entry
  cases l[index]? <;> rfl

@[simp] theorem answer_ask (l : List α) (index : Nat) (question : α → Option β) :
    (ask l index question).answer = l[index]?.bind question := by
  simp only [ask, answer_bind, answer_entry, answer_getM]

@[simp] theorem answer_check (l : List α) (index : Nat) (test : α → Bool) :
    (check l index test).answer = l[index]?.bind fun a => guard (test a = true) := by
  simp only [check, answer_bind, answer_entry, answer_guard]

@[simp] theorem answer_suffix (l : List α) (first : Nat) :
    (suffix l first).answer = if first ≤ l.length then some (l.drop first) else none := by
  unfold suffix
  split <;> rfl

@[simp] theorem answer_part? (l : List α) (first count : Nat) :
    (part? l first count).answer =
      if first + count ≤ l.length then some ((l.drop first).take count) else none := by
  unfold part?
  split <;> rfl

theorem answer_between {l : List α} {first last : Nat} (hlast : last < l.length)
    (hfirst : first ≤ last + 1) :
    (between l first last).answer = some ((l.drop first).take (last + 1 - first)) := by
  rw [between, if_pos hlast, if_pos hfirst, answer_pure]

end KeyLoop.Search
