/-
# Looking up addresses

`m.At k P` says that an instruction stands at index `k`, and that `P` holds of
it.  A lookup is to answer with the index at which the address stands.

    what a lookup answers              is right in any code     (`at_of_indexOf?`)
    what stands in code in order       is found                 (`finds_indexOf?`)
    what stands in other code          may be missed by halving

So on code in order all lookups of this kind agree.  Halving keeps the half
that the address is in (`Ascending.halve_eq`): with the order of the code, one
comparison in the middle tells on which side of it the address stands.
-/
import KeyLoop.Method.Lookup

namespace KeyLoop

namespace Method

/-! ## What stands at an index -/

/-- An instruction stands at the index, and it is as `P` says. -/
def At (m : Method) (k : Nat) (P : Instruction → Prop) : Prop := ∃ i, m.code[k]? = some i ∧ P i

variable {m : Method} {P Q : Instruction → Prop}

theorem At.lt {k : Nat} (h : m.At k P) : k < m.code.length := by
  obtain ⟨i, hi, -⟩ := h
  exact (List.getElem?_eq_some_iff.mp hi).1

theorem At.imp {k : Nat} (h : m.At k P) (hPQ : ∀ i, m.code[k]? = some i → P i → Q i) : m.At k Q := by
  obtain ⟨i, hi, hP⟩ := h
  exact ⟨i, hi, hPQ i hi hP⟩

/-- Only one instruction stands at an index. -/
theorem At.of_eq {k : Nat} (h : m.At k P) {i : Instruction} (hi : m.code[k]? = some i) : P i := by
  obtain ⟨i', hi', hP⟩ := h
  rw [hi] at hi'
  cases hi'
  exact hP

/-! ## Code in order -/

/-- The instructions stand in the order of their addresses. -/
def Ascending (m : Method) : Prop := m.code.Pairwise (·.address.toNat < ·.address.toNat)

/-- In code that is in order the lookup answers with the index of the
instruction at the address, if there is one. -/
def Finds (m : Method) (find : Lookup) : Prop :=
  m.Ascending → ∀ address k, find address = some k ↔ m.At k (·.address = address)

theorem Ascending.lt_iff (h : m.Ascending) {j k : Nat} {i i' : Instruction}
    (hj : m.code[j]? = some i) (hk : m.code[k]? = some i') :
    i.address < i'.address ↔ j < k := by
  have hpairwise := List.pairwise_iff_getElem.mp h
  obtain ⟨hjlt, rfl⟩ := List.getElem?_eq_some_iff.mp hj
  obtain ⟨hklt, rfl⟩ := List.getElem?_eq_some_iff.mp hk
  rw [BitVec.lt_def]
  rcases Nat.lt_trichotomy j k with hless | rfl | hmore
  · exact ⟨fun _ => hless, fun _ => hpairwise j k hjlt hklt hless⟩
  · exact ⟨fun hlt => absurd hlt (Nat.lt_irrefl _), fun hlt => absurd hlt (Nat.lt_irrefl _)⟩
  · have hbefore := hpairwise k j hklt hjlt hmore
    exact ⟨fun hlt => by omega, fun hlt => by omega⟩

/-- No two instructions share an address. -/
theorem Ascending.eq_of_address_eq (h : m.Ascending) {j k : Nat} {i i' : Instruction}
    (hj : m.code[j]? = some i) (hk : m.code[k]? = some i') (haddress : i.address = i'.address) :
    j = k := by
  have hless : ¬ j < k := fun hlt =>
    BitVec.lt_irrefl i'.address (haddress ▸ (h.lt_iff hj hk).mpr hlt)
  have hmore : ¬ k < j := fun hlt =>
    BitVec.lt_irrefl i'.address (haddress ▸ (h.lt_iff hk hj).mpr hlt)
  omega

/-! ## Halving -/

/-- Halving keeps the half that an address is in. -/
theorem Ascending.halve_eq (h : m.Ascending) {k : Nat} {i : Instruction} (hi : m.code[k]? = some i)
    {first count : Nat} (hfirst : first ≤ k) (hcount : k < first + count)
    (hinside : first + count ≤ m.code.length) : m.halve i.address first count = k := by
  induction first, count using Method.halve.induct m i.address with
  | case1 first count hone =>
    rw [halve, if_pos hone]
    omega
  | case2 first count hmore middle hbefore ih =>
    rw [halve, if_neg hmore]
    dsimp only
    rw [if_pos hbefore]
    obtain ⟨i', hi', hlt⟩ := (Option.any_eq_true ..).mp hbefore
    have hless := (h.lt_iff hi hi').mp (of_decide_eq_true hlt)
    exact ih hfirst (by omega) (by omega)
  | case3 first count hmore middle hbefore ih =>
    rw [halve, if_neg hmore]
    dsimp only
    rw [if_neg hbefore]
    refine ih (Nat.le_of_not_lt fun hless => hbefore ?_) (by omega) (by omega)
    have hmiddle := List.getElem?_eq_getElem (show middle < m.code.length by omega)
    exact (Option.any_eq_true ..).mpr ⟨_, hmiddle, decide_eq_true ((h.lt_iff hi hmiddle).mpr hless)⟩

/-- What halving answers with is an instruction at the address, in whatever order the code is. -/
theorem at_of_indexOf? {address : BitVec 64} {k : Nat} (h : m.indexOf? address = some k) :
    m.At k (·.address = address) := by
  unfold indexOf? at h
  dsimp only at h
  split at h
  · rename_i hany
    cases h
    obtain ⟨i, hi, hsame⟩ := (Option.any_eq_true ..).mp hany
    exact ⟨i, hi, beq_iff_eq.mp hsame⟩
  · cases h

/-- Halving finds what is there in code that is in order. -/
theorem finds_indexOf? (m : Method) : m.Finds m.indexOf? := by
  intro hascending address k
  refine ⟨at_of_indexOf?, ?_⟩
  rintro ⟨i, hi, rfl⟩
  have hinside := (List.getElem?_eq_some_iff.mp hi).1
  have hk := hascending.halve_eq hi (Nat.zero_le k) (by omega) (Nat.le_of_eq (Nat.zero_add _))
  rw [indexOf?, hk, hi]
  exact if_pos (beq_self_eq_true i.address)

/-! ## Reading from the front -/

theorem at_of_scan? {address : BitVec 64} {k : Nat} (h : m.scan? address = some k) :
    m.At k (·.address = address) := by
  obtain ⟨hlt, hfound, -⟩ := List.findIdx?_eq_some_iff_getElem.mp h
  exact ⟨m.code[k], List.getElem?_eq_getElem hlt, beq_iff_eq.mp hfound⟩

theorem finds_scan? (m : Method) : m.Finds m.scan? := by
  intro hascending address k
  refine ⟨at_of_scan?, ?_⟩
  rintro ⟨i, hi, rfl⟩
  obtain ⟨hlt, rfl⟩ := List.getElem?_eq_some_iff.mp hi
  refine List.findIdx?_eq_some_iff_getElem.mpr ⟨hlt, beq_self_eq_true _, fun j hj hsame => ?_⟩
  have heq := hascending.eq_of_address_eq (List.getElem?_eq_getElem (Nat.lt_trans hj hlt)) hi
    (beq_iff_eq.mp hsame)
  omega

end Method

end KeyLoop
