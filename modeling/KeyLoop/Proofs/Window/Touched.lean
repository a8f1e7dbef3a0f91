/-
# The locals that code touches

The declared locals that code loads or stores are listed once each, in the
order in which the code comes to them.  The list grows with the code at its
end, and only by a local that is not in it (`touchedLocals_concat`); so the
place of a first use, once it is there, does not move.
-/
import KeyLoop.Window.Locate
import Mathlib.Data.List.Induction

namespace KeyLoop.Method

variable {m : Method} {code : List Instruction} {n : BitVec 16}

/-- Where code first touches a local; behind the code if it does not. -/
def firstUse (m : Method) (code : List Instruction) (n : BitVec 16) : Nat :=
  code.findIdx fun i => m.touchedLocal? i == some n

theorem touchedLocal?_eq_some_iff {i : Instruction} :
    m.touchedLocal? i = some n ↔
      (m.local? n).isSome ∧ (i.loadsLocal ∨ i.storesLocal) ∧ i.localIndex? = some n := by
  rw [touchedLocal?, loadedLocal?, storedLocal?]
  cases i.loadsLocal <;> cases i.storesLocal <;> simp [Option.filter_eq_some_iff, and_comm]

theorem touchedLocals_concat (code : List Instruction) (i : Instruction) :
    m.touchedLocals (code ++ [i]) =
      m.touchedLocals code ++ (m.touchedLocal? i).toList.filter (· ∉ m.touchedLocals code) := by
  rw [touchedLocals, List.filterMap_append, List.foldl_append, List.filterMap_cons, List.filterMap_nil]
  cases m.touchedLocal? i with
  | none => exact (List.append_nil _).symm
  | some n =>
    by_cases hseen : n ∈ m.touchedLocals code
    · rw [Option.toList_some, List.filter_cons_of_neg (by simpa using hseen), List.filter_nil,
        List.append_nil]
      exact if_pos hseen
    · rw [Option.toList_some, List.filter_cons_of_pos (by simpa using hseen), List.filter_nil]
      exact if_neg hseen

theorem mem_touchedLocals_iff : n ∈ m.touchedLocals code ↔ ∃ i ∈ code, m.touchedLocal? i = some n := by
  induction code using List.reverseRecOn with
  | nil => simp only [touchedLocals, List.filterMap_nil, List.foldl_nil, List.not_mem_nil, false_and, exists_false]
  | append_singleton code i ih =>
    rw [touchedLocals_concat, List.mem_append, List.mem_filter, Option.mem_toList, decide_eq_true_iff]
    simp only [List.mem_append, List.mem_singleton, or_and_right, exists_or, exists_eq_left, ← ih]
    exact or_congr_right' fun hnew => and_iff_left hnew

/-- The touched locals are the declared ones that instructions load or store. -/
theorem mem_touchedLocals_iff_declared :
    n ∈ m.touchedLocals code ↔ (m.local? n).isSome ∧
      ∃ i ∈ code, (i.loadsLocal ∨ i.storesLocal) ∧ i.localIndex? = some n := by
  rw [mem_touchedLocals_iff]
  simp only [touchedLocal?_eq_some_iff]
  exact ⟨fun ⟨i, hi, hlocal, htouch⟩ => ⟨hlocal, i, hi, htouch⟩,
    fun ⟨hlocal, i, hi, htouch⟩ => ⟨i, hi, hlocal, htouch⟩⟩

theorem firstUse_lt_iff : m.firstUse code n < code.length ↔ n ∈ m.touchedLocals code := by
  rw [firstUse, List.findIdx_lt_length, mem_touchedLocals_iff]
  simp only [beq_iff_eq]

/-- More code behind does not move a first use. -/
theorem firstUse_append (h : n ∈ m.touchedLocals code) (more : List Instruction) :
    m.firstUse (code ++ more) n = m.firstUse code n := by
  rw [firstUse, List.findIdx_append]
  exact if_pos (firstUse_lt_iff.mpr h)

/-- The locals stand in the order of their first use. -/
theorem pairwise_touchedLocals (m : Method) (code : List Instruction) :
    (m.touchedLocals code).Pairwise fun a b => m.firstUse code a < m.firstUse code b := by
  induction code using List.reverseRecOn with
  | nil => exact .nil
  | append_singleton code i ih =>
    have hkept : (m.touchedLocals code).Pairwise fun a b =>
        m.firstUse (code ++ [i]) a < m.firstUse (code ++ [i]) b :=
      ih.imp_of_mem fun ha hb hlt => by rwa [firstUse_append ha, firstUse_append hb]
    rw [touchedLocals_concat]
    refine List.pairwise_append.mpr ⟨hkept, ?_, fun a ha b hb => ?_⟩
    · cases m.touchedLocal? i with
      | none => exact .nil
      | some n => exact (List.pairwise_singleton ..).filter _
    · -- the new local is not touched before the last instruction
      have hnew : b ∉ m.touchedLocals code := of_decide_eq_true (List.mem_filter.mp hb).2
      have hbehind : m.firstUse (code ++ [i]) b = m.firstUse [i] b + code.length := by
        rw [firstUse, List.findIdx_append]
        exact if_neg (mt firstUse_lt_iff.mp hnew)
      have hbefore := firstUse_lt_iff.mpr ha
      rw [firstUse_append ha, hbehind]
      omega

theorem nodup_touchedLocals (m : Method) (code : List Instruction) : (m.touchedLocals code).Nodup :=
  (pairwise_touchedLocals m code).imp fun hlt => ne_of_apply_ne (m.firstUse code) (Nat.ne_of_lt hlt)

/-- What the first instruction touches comes first. -/
theorem head?_touchedLocals {i : Instruction} (h : m.touchedLocal? i = some n) (rest : List Instruction) :
    (m.touchedLocals (i :: rest)).head? = some n := by
  have hzero : m.firstUse (i :: rest) n = 0 := by
    rw [firstUse, List.findIdx_cons, h, beq_self_eq_true]
    rfl
  have hmem : n ∈ m.touchedLocals (i :: rest) :=
    mem_touchedLocals_iff.mpr ⟨i, List.mem_cons_self, h⟩
  have hordered := pairwise_touchedLocals m (i :: rest)
  cases hlist : m.touchedLocals (i :: rest) with
  | nil =>
    rw [hlist] at hmem
    cases hmem
  | cons a others =>
    rw [hlist] at hmem hordered
    rcases List.mem_cons.mp hmem with rfl | hlater
    · rfl
    · have hlt := (List.pairwise_cons.mp hordered).1 n hlater
      omega

end KeyLoop.Method
