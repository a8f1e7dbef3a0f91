/-
# Declarations, sorted

The declared slots of a method are those that remain of a stable sort by index
when of neighbours with one index only the first is kept (`sortedFirsts`).  The
method inserts one declaration after the other instead, and comes to the same
list (`normalize_eq_sortedFirsts`).

    sorting       keeps the order of the declarations of an index, so the
                  first of them stays the first        (`find?_sort`)
    thinning      keeps the first of each index        (`find?_destutter`)

A list in the order of the indices, each index once, is known by what it
answers for every index (`Ordered.ext`), and both lists answer with the
declaration that was first.
-/
import KeyLoop.Proofs.Method.Declarations
import Mathlib.Data.List.Destutter
import Mathlib.Data.List.Sort

namespace KeyLoop

namespace Declaration

/-- The order of declarations by their indices. -/
def precedes (d e : Declaration) : Bool := d.index.toNat ≤ e.index.toNat

/-- The declarations in the order of their indices; those of one index stay in their order. -/
def sort (ds : List Declaration) : List Declaration := ds.mergeSort precedes

/-- The sorted declarations, of neighbours with one index the first. -/
def sortedFirsts (ds : List Declaration) : List Declaration :=
  (sort ds).destutter (·.index ≠ ·.index)

variable {ds es : List Declaration}

/-! ## What is asked of a list in order -/

theorem ordered_normalize (ds : List Declaration) : Ordered (normalize ds) := by
  have hinsert : ∀ acc, Ordered acc → Ordered (ds.foldl (fun acc d => insert d acc) acc) := by
    induction ds with
    | nil => exact fun _ hacc => hacc
    | cons d ds ih => exact fun acc hacc => ih _ (ordered_insert d hacc)
  exact hinsert [] .nil

/-- Where each index occurs once, a declaration is found by its index. -/
theorem Ordered.find?_index (h : Ordered ds) {d : Declaration} (hd : d ∈ ds) :
    ds.find? (·.index == d.index) = some d := by
  induction ds with
  | nil => cases hd
  | cons e rest ih =>
    obtain ⟨hfirst, hrest⟩ := List.pairwise_cons.mp h
    rcases List.mem_cons.mp hd with rfl | hd
    · exact List.find?_cons_of_pos (beq_self_eq_true _)
    · have hlater := hfirst d hd
      have hother : (e.index == d.index) = false := by
        refine beq_eq_false_iff_ne.mpr fun hsame => ?_
        rw [hsame] at hlater
        exact Nat.lt_irrefl _ hlater
      rw [List.find?_cons, hother]
      exact ih hrest hd

/-- Declarations in order are known by what they say of each index. -/
theorem Ordered.ext (h : Ordered ds) (h' : Ordered es)
    (hfind : ∀ n, ds.find? (·.index == n) = es.find? (·.index == n)) : ds = es := by
  have hmem : ∀ {ds es : List Declaration}, Ordered ds →
      (∀ n, ds.find? (·.index == n) = es.find? (·.index == n)) → ∀ d ∈ ds, d ∈ es :=
    fun hordered hsame d hd =>
      List.mem_of_find?_eq_some ((hsame d.index).symm.trans (hordered.find?_index hd))
  have hirrefl : Std.Irrefl fun d e : Declaration => d.index.toNat < e.index.toNat :=
    ⟨fun _ => Nat.lt_irrefl _⟩
  have hantisymm : Std.Antisymm fun d e : Declaration => d.index.toNat < e.index.toNat :=
    ⟨fun _ _ hlt hgt => absurd hlt (Nat.lt_asymm hgt)⟩
  exact List.Pairwise.eq_of_mem_iff h h' fun d =>
    ⟨hmem h hfind d, hmem h' (fun n => (hfind n).symm) d⟩

/-! ## Sorting -/

theorem precedes_trans (a b c : Declaration) (hab : a.precedes b) (hbc : b.precedes c) :
    a.precedes c := by
  simp only [precedes, decide_eq_true_eq] at *
  omega

theorem precedes_total (a b : Declaration) : a.precedes b || b.precedes a := by
  simp only [precedes, Bool.or_eq_true, decide_eq_true_eq]
  omega

theorem pairwise_sort (ds : List Declaration) :
    (sort ds).Pairwise (·.index.toNat ≤ ·.index.toNat) :=
  (List.pairwise_mergeSort precedes_trans precedes_total ds).imp of_decide_eq_true

/-- Sorting keeps the order of the declarations of an index. -/
theorem filter_sort (ds : List Declaration) (n : BitVec 16) :
    (sort ds).filter (·.index == n) = ds.filter (·.index == n) := by
  have halike : (ds.filter (·.index == n)).Pairwise fun d e => d.precedes e = true := by
    refine List.pairwise_filter.mpr (List.pairwise_of_forall fun d e hd he => ?_)
    rw [precedes, beq_iff_eq.mp hd, beq_iff_eq.mp he]
    exact decide_eq_true (Nat.le_refl _)
  -- they stand in order already, so sorting leaves them as they are
  have hkept : (ds.filter (·.index == n)).Sublist (sort ds) :=
    List.sublist_mergeSort precedes_trans precedes_total halike List.filter_sublist
  have hfiltered := hkept.filter (·.index == n)
  rw [List.filter_filter, List.filter_congr (fun d _ => Bool.and_self _)] at hfiltered
  have hperm : ((sort ds).filter (·.index == n)).Perm (ds.filter (·.index == n)) :=
    (List.mergeSort_perm ds _).filter _
  exact (hfiltered.eq_of_length hperm.length_eq.symm).symm

/-- The first declaration of an index stays the first. -/
theorem find?_sort (ds : List Declaration) (n : BitVec 16) :
    (sort ds).find? (·.index == n) = ds.find? (·.index == n) := by
  rw [← List.head?_filter, filter_sort, List.head?_filter]

/-! ## Thinning -/

/-- What is left out has a neighbour of its index in front of it. -/
theorem find?_destutter' (d : Declaration) (ds : List Declaration) (n : BitVec 16) :
    (ds.destutter' (·.index ≠ ·.index) d).find? (·.index == n) = (d :: ds).find? (·.index == n) := by
  induction ds generalizing d with
  | nil => rfl
  | cons e ds ih =>
    by_cases hsame : d.index = e.index
    · rw [List.destutter'_cons_neg _ (not_not.mpr hsame), ih]
      rw [List.find?_cons, List.find?_cons]
      cases hd : d.index == n with
      | true => rfl
      | false =>
        have he : (e.index == n) = false := hsame ▸ hd
        rw [List.find?_cons, he]
    · rw [List.destutter'_cons_pos _ hsame, List.find?_cons, List.find?_cons, ih]

theorem find?_destutter (ds : List Declaration) (n : BitVec 16) :
    (ds.destutter (·.index ≠ ·.index)).find? (·.index == n) = ds.find? (·.index == n) := by
  cases ds with
  | nil => rfl
  | cons d ds => exact find?_destutter' d ds n

theorem ordered_sortedFirsts (ds : List Declaration) : Ordered (sortedFirsts ds) := by
  have hle : (sortedFirsts ds).IsChain (·.index.toNat ≤ ·.index.toNat) :=
    ((pairwise_sort ds).sublist (List.destutter_sublist _ _)).isChain
  have hne : (sortedFirsts ds).IsChain (·.index ≠ ·.index) := List.isChain_destutter _ _
  have hlt : (sortedFirsts ds).IsChain (·.index.toNat < ·.index.toNat) := by
    rw [List.isChain_iff_getElem] at hle hne ⊢
    intro i hi
    have hdiffer : (sortedFirsts ds)[i].index.toNat ≠ (sortedFirsts ds)[i + 1].index.toNat :=
      fun hsame => hne i hi (BitVec.eq_of_toNat_eq hsame)
    exact Nat.lt_of_le_of_ne (hle i hi) hdiffer
  have htrans : IsTrans Declaration (·.index.toNat < ·.index.toNat) := ⟨fun _ _ _ => Nat.lt_trans⟩
  exact List.isChain_iff_pairwise.mp hlt

/-- **Inserting one by one is sorting and thinning.** -/
theorem normalize_eq_sortedFirsts (ds : List Declaration) : normalize ds = sortedFirsts ds := by
  refine (ordered_normalize ds).ext (ordered_sortedFirsts ds) fun n => ?_
  rw [find?_normalize, sortedFirsts, find?_destutter, find?_sort]

end Declaration

end KeyLoop
