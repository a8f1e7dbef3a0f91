/-
# The declared slots of a method

A method keeps the declarations of its slots in the order of their indices,
each index once.  Looking an index up there is looking it up in the list
that was given: of several declarations of one index the first counts
(`find?_normalize`).

    insert       into an ordered list: what was there counts before the new
                 declaration    (`find?_insert`)
    normalize    inserts one declaration after the other
-/
import KeyLoop.Method.Basic

namespace KeyLoop

namespace Declaration

/-- The declarations stand in the order of their indices, each index once. -/
def Ordered (ds : List Declaration) : Prop := ds.Pairwise (·.index.toNat < ·.index.toNat)

theorem mem_of_mem_insert {d x : Declaration} {ds : List Declaration} :
    x ∈ insert d ds → x = d ∨ x ∈ ds := by
  induction ds with
  | nil =>
    intro hx
    exact .inl (List.mem_singleton.mp hx)
  | cons e rest ih =>
    intro hx
    unfold insert at hx
    split at hx
    · exact List.mem_cons.mp hx
    · split at hx
      · exact .inr hx
      · rcases List.mem_cons.mp hx with rfl | hx
        · exact .inr List.mem_cons_self
        · exact (ih hx).imp_right (List.mem_cons_of_mem e)

theorem ordered_insert (d : Declaration) {ds : List Declaration} (h : Ordered ds) :
    Ordered (insert d ds) := by
  induction ds with
  | nil => exact List.pairwise_singleton _ d
  | cons e rest ih =>
    obtain ⟨hfirst, hrest⟩ := List.pairwise_cons.mp h
    unfold insert
    split
    · rename_i hlt
      refine .cons (fun x hx => ?_) h
      rcases List.mem_cons.mp hx with rfl | hx
      · exact hlt
      · exact Nat.lt_trans hlt (hfirst x hx)
    · split
      · exact h
      · rename_i hnot hdiffer
        refine .cons (fun x hx => ?_) (ih hrest)
        rcases mem_of_mem_insert hx with rfl | hx
        · have hne : x.index.toNat ≠ e.index.toNat := fun hsame => hdiffer (BitVec.eq_of_toNat_eq hsame)
          omega
        · exact hfirst x hx

/-- The new declaration counts where there is none of its index. -/
theorem find?_insert (d : Declaration) {ds : List Declaration} (h : Ordered ds) (n : BitVec 16) :
    (insert d ds).find? (·.index == n) =
      (ds.find? (·.index == n)).or ([d].find? (·.index == n)) := by
  induction ds with
  | nil => rfl
  | cons e rest ih =>
    obtain ⟨hfirst, hrest⟩ := List.pairwise_cons.mp h
    unfold insert
    split
    · rename_i hlt
      -- all indices in the list are greater, so the new one is not among them
      cases hd : d.index == n with
      | false => simp [List.find?_cons, hd]
      | true =>
        have hnone : (e :: rest).find? (·.index == n) = none := by
          rw [List.find?_eq_none]
          intro x hx hsame
          rw [beq_iff_eq] at hsame hd
          have hlater : d.index.toNat < x.index.toNat := by
            rcases List.mem_cons.mp hx with rfl | hx
            · exact hlt
            · exact Nat.lt_trans hlt (hfirst x hx)
          rw [hsame, hd] at hlater
          omega
        rw [hnone]
        simp [hd]
    · split
      · rename_i hsame
        cases he : e.index == n with
        | true => simp [he]
        | false =>
          have hd : (d.index == n) = false := by rwa [hsame]
          simp [hd]
      · rw [List.find?_cons, List.find?_cons]
        cases e.index == n with
        | true => rfl
        | false => exact ih hrest

/-- **The first declaration of an index counts.** -/
theorem find?_normalize (ds : List Declaration) (n : BitVec 16) :
    (normalize ds).find? (·.index == n) = ds.find? (·.index == n) := by
  have hinsert : ∀ acc, Ordered acc →
      (ds.foldl (fun acc d => insert d acc) acc).find? (·.index == n) =
        (acc.find? (·.index == n)).or (ds.find? (·.index == n)) := by
    induction ds with
    | nil =>
      intro acc _
      exact Option.or_none.symm
    | cons d ds ih =>
      intro acc hacc
      rw [List.foldl_cons, ih _ (ordered_insert d hacc), find?_insert d hacc, Option.or_assoc,
        ← List.find?_append]
      rfl
  exact hinsert [] .nil

end Declaration

end KeyLoop
