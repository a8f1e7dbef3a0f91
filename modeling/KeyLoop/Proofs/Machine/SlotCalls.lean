/-
# What declared slots answer

Slots are declared by a list, in which an index may occur several times and
other indices not at all.  What they answer later does not depend on how they
are kept.  It is read off the declarations and the calls so far:

    an index that is not declared    every access to it fails, and changes nothing
    a declared one                   its first declaration gives the flavor; it
                                     holds the last value that was stored,
                                     narrowed to the flavor, or what it had at first

`ActsAs` says this of a state that keeps slots.  Whether the slots stand in
the order of their declarations or in a table by index, and whether the list
is the one that was given or the one that a method keeps, they act so; the
answers differ in nothing but the count of declarations that a fault names.

    an operation   looks at one slot and changes at most that   (`Lawful`)
    a call         leaves the slots so that the next one is
                   answered by the declarations                 (`HoldsAfter.next`)
    calls          one after the other, likewise                (`holdsAfter_afterCalls`)
-/
import KeyLoop.Machine.SparseSlots
import KeyLoop.Proofs.Machine.Slots
import KeyLoop.Proofs.Method.SortedDeclarations

namespace KeyLoop

/-! ## Asking slots -/

/-- States that keep the slots of one kind. -/
class SlotStore (σ : Type) where
  find? : σ → BitVec 16 → Option Slot
  /-- The fault of an access to an index without a declaration. -/
  undeclared : σ → BitVec 16 → MachineFault
  flavor? : σ → BitVec 16 → Option Flavor
  get : BitVec 16 → EStateM MachineFault σ Value
  set : BitVec 16 → Value → EStateM MachineFault σ Unit

instance : SlotStore Slots where
  find? := Slots.find?
  undeclared := Slots.undeclared
  flavor? := Slots.flavor?
  get := Slots.get
  set := Slots.set

instance : SlotStore SparseSlots where
  find? := SparseSlots.find?
  undeclared := SparseSlots.undeclared
  flavor? := SparseSlots.flavor?
  get := SparseSlots.get
  set := SparseSlots.set

/-- What may be asked of slots. -/
inductive SlotCall where
  | get (index : BitVec 16)
  | set (index : BitVec 16) (v : Value)
  | flavor (index : BitVec 16)
deriving DecidableEq, Repr

/-- What slots answer. -/
inductive SlotAnswer where
  | value (v : Value)
  | stored
  | flavor (f? : Option Flavor)
deriving DecidableEq, Repr

namespace SlotStore

variable {σ : Type} [SlotStore σ]

def ask : SlotCall → EStateM MachineFault σ SlotAnswer
  | .get index => do return .value (← get index)
  | .set index v => do
      set index v
      return .stored
  | .flavor index => fun s => .ok (.flavor (flavor? s index)) s

/-- The answer to a call, without what becomes of the slots. -/
def answer (s : σ) (call : SlotCall) : Except MachineFault SlotAnswer :=
  match ask call s with
  | .ok a _ => .ok a
  | .error e _ => .error e

/-- The slots after calls, one after the other, whether they succeed or fail. -/
def afterCalls (s : σ) (calls : List SlotCall) : σ := calls.foldl (fun s call => after (ask call) s) s

end SlotStore

/-! ## What the declarations say -/

/-- The value that a call stores at an index. -/
def SlotCall.stores? (n : BitVec 16) : SlotCall → Option Value
  | .set index v => if index = n then some v else none
  | _ => none

namespace Declaration

/-- What a declared slot holds after calls. -/
def held (zeroed : Bool) (calls : List SlotCall) (d : Declaration) : Value :=
  match (calls.filterMap (·.stores? d.index)).getLast? with
  | some v => v.coerce d.flavor
  | none => if zeroed then d.flavor.zero else .unknown

/-- What declarations answer to a call behind other calls; an access to
another index is answered with the fault for it. -/
def answer (ds : List Declaration) (zeroed : Bool) (fault : BitVec 16 → MachineFault)
    (calls : List SlotCall) : SlotCall → Except MachineFault SlotAnswer
  | .get n =>
      match ds.find? (·.index == n) with
      | some d => .ok (.value (d.held zeroed calls))
      | none => .error (fault n)
  | .set n _ => if (ds.find? (·.index == n)).isSome then .ok .stored else .error (fault n)
  | .flavor n => .ok (.flavor ((ds.find? (·.index == n)).map (·.flavor)))

end Declaration

namespace SlotStore

variable {σ : Type} [SlotStore σ]

/-- The slots act as a finite map from the declared indices, each with the
flavor of its first declaration. -/
structure ActsAs (s : σ) (ds : List Declaration) (zeroed : Bool) : Prop where
  /-- Every call is answered as the declarations and the calls before it say. -/
  answers : ∀ calls call,
    answer (afterCalls s calls) call = Declaration.answer ds zeroed (undeclared s) calls call
  /-- A call that fails changes nothing. -/
  unchanged : ∀ calls call fault, answer (afterCalls s calls) call = .error fault →
    afterCalls s (calls ++ [call]) = afterCalls s calls
  /-- A store changes no other index. -/
  others : ∀ calls n v k, k ≠ n →
    find? (afterCalls s (calls ++ [.set n v])) k = find? (afterCalls s calls) k

/-- The operations do what they say to one slot, and nothing to the others. -/
class Lawful (σ : Type) [SlotStore σ] : Prop where
  flavor_eq (s : σ) (n : BitVec 16) : flavor? s n = (find? s n).map (·.flavor)
  get_some {s : σ} {n : BitVec 16} {slot : Slot} (h : find? s n = some slot) :
    get n s = .ok slot.value s
  get_none {s : σ} {n : BitVec 16} (h : find? s n = none) : get n s = .error (undeclared s n) s
  set_some {s : σ} {n : BitVec 16} {slot : Slot} (h : find? s n = some slot) (v : Value) :
    ∃ s', set n v s = .ok () s' ∧ undeclared s' = undeclared s ∧
      find? s' = Function.update (find? s) n (some { slot with value := v.coerce slot.flavor })
  set_none {s : σ} {n : BitVec 16} (h : find? s n = none) (v : Value) :
    set n v s = .error (undeclared s n) s

end SlotStore

/-! ## Calls, one after the other -/

/-- The last store counts. -/
theorem Declaration.held_append (d : Declaration) (zeroed : Bool) (calls : List SlotCall)
    (call : SlotCall) :
    d.held zeroed (calls ++ [call]) =
      match call.stores? d.index with
      | some v => v.coerce d.flavor
      | none => d.held zeroed calls := by
  have hone : [call].filterMap (·.stores? d.index) = (call.stores? d.index).toList := by
    rw [List.filterMap_cons, List.filterMap_nil]
    cases call.stores? d.index <;> rfl
  rw [held, List.filterMap_append, hone]
  cases call.stores? d.index with
  | none => rw [Option.toList_none, List.append_nil, held]
  | some v => rw [Option.toList_some, List.getLast?_concat]

/-- A store at another index does not count. -/
theorem Declaration.held_set_of_ne {d : Declaration} {n : BitVec 16} (h : d.index ≠ n)
    (zeroed : Bool) (calls : List SlotCall) (v : Value) :
    d.held zeroed (calls ++ [.set n v]) = d.held zeroed calls := by
  rw [held_append, SlotCall.stores?, if_neg (Ne.symm h)]

theorem Declaration.index_of_find? {ds : List Declaration} {n : BitVec 16} {d : Declaration}
    (h : ds.find? (·.index == n) = some d) : d.index = n := by
  simpa using List.find?_some h

namespace SlotStore

variable {σ : Type} [SlotStore σ]

/-- The slots are declared, and hold what they hold after calls. -/
def HoldsAfter (s : σ) (ds : List Declaration) (zeroed : Bool) (calls : List SlotCall) : Prop :=
  ∀ n, find? s n = (ds.find? (·.index == n)).map fun d => { d with value := d.held zeroed calls }

variable {s : σ} {ds : List Declaration} {zeroed : Bool} {calls : List SlotCall}

theorem HoldsAfter.find?_none (h : HoldsAfter s ds zeroed calls) {n : BitVec 16}
    (hd : ds.find? (·.index == n) = none) : find? s n = none := by
  rw [h n, hd, Option.map_none]

theorem HoldsAfter.find?_some (h : HoldsAfter s ds zeroed calls) {n : BitVec 16} {d : Declaration}
    (hd : ds.find? (·.index == n) = some d) :
    find? s n = some { d with value := d.held zeroed calls } := by
  rw [h n, hd, Option.map_some]

/-- A store changes what its index holds, and nothing else. -/
theorem HoldsAfter.update (h : HoldsAfter s ds zeroed calls) {d : Declaration} {s' : σ}
    {n : BitVec 16} (hd : ds.find? (·.index == n) = some d) (v : Value)
    (hs' : find? s' = Function.update (find? s) n (some { d with value := v.coerce d.flavor })) :
    HoldsAfter s' ds zeroed (calls ++ [.set n v]) := by
  intro k
  rw [hs']
  by_cases hk : k = n
  · subst hk
    rw [Function.update_self, hd, Option.map_some, Declaration.held_append, SlotCall.stores?,
      if_pos (Declaration.index_of_find? hd).symm]
  · rw [Function.update_of_ne hk, h k]
    refine Option.map_congr fun d' hd' => ?_
    have hindex : d'.index ≠ n := by rwa [Declaration.index_of_find? hd']
    rw [Declaration.held_set_of_ne hindex]

/-- A call that stores nothing at a declared index leaves what they hold. -/
theorem HoldsAfter.skip (h : HoldsAfter s ds zeroed calls) {call : SlotCall}
    (hcall : ∀ d ∈ ds, call.stores? d.index = none) :
    HoldsAfter s ds zeroed (calls ++ [call]) := by
  intro n
  rw [h n]
  refine Option.map_congr fun d hd => ?_
  rw [Declaration.held_append, hcall d (List.mem_of_find?_eq_some hd)]

theorem afterCalls_concat (s : σ) (calls : List SlotCall) (call : SlotCall) :
    afterCalls s (calls ++ [call]) = after (ask call) (afterCalls s calls) :=
  List.foldl_concat ..

variable [Lawful σ]

/-- A call is answered as the declarations say, and it leaves the slots so
that the next one is. -/
theorem HoldsAfter.next (h : HoldsAfter s ds zeroed calls) (call : SlotCall) :
    answer s call = Declaration.answer ds zeroed (undeclared s) calls call ∧
      undeclared (after (ask call) s) = undeclared s ∧
      HoldsAfter (after (ask call) s) ds zeroed (calls ++ [call]) ∧
      ∀ fault, answer s call = .error fault → after (ask call) s = s := by
  cases call with
  | get n =>
    cases hd : ds.find? (·.index == n) with
    | none =>
      have hask : ask (.get n) s = .error (undeclared s n) s := by
        show (get n >>= _) s = _
        simp only [bind, EStateM.bind, Lawful.get_none (h.find?_none hd)]
      rw [answer, after_error hask, hask, Declaration.answer, hd]
      exact ⟨rfl, rfl, h.skip fun _ _ => rfl, fun _ _ => rfl⟩
    | some d =>
      have hask : ask (.get n) s = .ok (.value (d.held zeroed calls)) s := by
        show (get n >>= _) s = _
        simp only [bind, EStateM.bind, Lawful.get_some (h.find?_some hd)]
        rfl
      rw [answer, after_ok hask, hask, Declaration.answer, hd]
      exact ⟨rfl, rfl, h.skip fun _ _ => rfl, fun _ _ => rfl⟩
  | set n v =>
    cases hd : ds.find? (·.index == n) with
    | none =>
      have hask : ask (.set n v) s = .error (undeclared s n) s := by
        show (set n v >>= _) s = _
        simp only [bind, EStateM.bind, Lawful.set_none (h.find?_none hd)]
      have hother : ∀ d ∈ ds, (SlotCall.set n v).stores? d.index = none := by
        intro d hmem
        refine if_neg fun hn => ?_
        simpa [hn] using List.find?_eq_none.mp hd d hmem
      rw [answer, after_error hask, hask, Declaration.answer, hd]
      exact ⟨rfl, rfl, h.skip hother, fun _ _ => rfl⟩
    | some d =>
      obtain ⟨s', hset, hundeclared, hupdate⟩ := Lawful.set_some (h.find?_some hd) v
      have hask : ask (.set n v) s = .ok .stored s' := by
        show (set n v >>= _) s = _
        simp only [bind, EStateM.bind, hset]
        rfl
      rw [answer, after_ok hask, hask, Declaration.answer, hd]
      exact ⟨rfl, hundeclared, h.update hd v hupdate, nofun⟩
  | flavor n =>
    have hask : ask (.flavor n) s = .ok (.flavor (flavor? s n)) s := rfl
    have hflavor : flavor? s n = (ds.find? (·.index == n)).map (·.flavor) := by
      rw [Lawful.flavor_eq, h n, Option.map_map]
      rfl
    rw [answer, after_ok hask, hask, Declaration.answer, hflavor]
    exact ⟨rfl, rfl, h.skip fun _ _ => rfl, nofun⟩

/-- What slots hold, and the fault for an index without a declaration, after any calls. -/
theorem holdsAfter_afterCalls (h : HoldsAfter s ds zeroed []) (calls : List SlotCall) :
    HoldsAfter (afterCalls s calls) ds zeroed calls ∧
      undeclared (afterCalls s calls) = undeclared s := by
  -- the calls are taken from the last on, since the next call meets the slots as the others left them
  induction calls using List.reverseRecOn with
  | nil => exact ⟨h, rfl⟩
  | append_singleton calls call ih =>
    obtain ⟨hholds, hfault⟩ := ih
    obtain ⟨-, hkept, hnext, -⟩ := hholds.next call
    rw [afterCalls_concat]
    exact ⟨hnext, hkept.trans hfault⟩

/-- Slots that are declared, and as they are at first, act as the declarations say. -/
theorem actsAs_of_fresh
    (h : ∀ n, find? s n = (ds.find? (·.index == n)).map (Slots.fresh zeroed)) :
    ActsAs s ds zeroed where
  answers calls call := by
    obtain ⟨hholds, hfault⟩ := holdsAfter_afterCalls h calls
    rw [← hfault]
    exact (hholds.next call).1
  unchanged calls call fault hanswer := by
    obtain ⟨hholds, -⟩ := holdsAfter_afterCalls h calls
    rw [afterCalls_concat]
    exact (hholds.next call).2.2.2 fault hanswer
  others calls n v k hk := by
    rw [(holdsAfter_afterCalls h _).1 k, (holdsAfter_afterCalls h calls).1 k]
    refine Option.map_congr fun d hd => ?_
    have hindex : d.index ≠ n := by rwa [Declaration.index_of_find? hd]
    rw [Declaration.held_set_of_ne hindex]

end SlotStore

/-! ## The two ways to keep slots -/

instance : SlotStore.Lawful Slots where
  flavor_eq _ _ := rfl
  get_some h := by
    show Slots.get _ _ = _
    unfold Slots.get
    rw [show Slots.find? _ _ = _ from h]
  get_none h := by
    show Slots.get _ _ = _
    unfold Slots.get
    rw [show Slots.find? _ _ = _ from h]
    rfl
  set_some {s n slot} h v := by
    have hfind : s.find? n = some slot := h
    refine ⟨s.store n v, if_pos (by rw [hfind]; rfl), funext fun k => ?_, funext fun k => ?_⟩
    · show (s.store n v).undeclared k = s.undeclared k
      rw [Slots.undeclared, Slots.undeclared, Slots.count, Slots.count, Slots.store, List.length_map]
    · show (s.store n v).find? k = Function.update s.find? n _ k
      by_cases hk : k = n
      · subst hk
        rw [Function.update_self, Slots.find?_store, hfind, Option.map_some,
          if_pos (Slots.index_of_find? hfind)]
      · rw [Function.update_of_ne hk, Slots.find?_store_of_ne s hk]
  set_none {s n} h v := by
    have hfind : s.find? n = none := h
    exact if_neg (by rw [hfind]; exact Bool.false_ne_true)

namespace SparseSlots

variable {places : List (Option Slot)}

/-- Growing adds empty places. -/
theorem join_grow (places : List (Option Slot)) (index k : Nat) :
    (grow places index)[k]?.join = places[k]?.join := by
  unfold grow
  split
  · rw [List.getElem?_append, List.getElem?_replicate]
    split
    · rfl
    · rename_i hbehind
      rw [List.getElem?_eq_none (Nat.le_of_not_lt hbehind)]
      split <;> rfl
  · rfl

theorem lt_length_grow (places : List (Option Slot)) (index : Nat) :
    index < (grow places index).length := by
  unfold grow
  split
  · rw [List.length_append, List.length_replicate]
    omega
  · omega

/-- A slot is entered at its place, behind what is there. -/
theorem join_enter (places : List (Option Slot)) (slot : Slot) (n : BitVec 16) :
    (enter places slot)[n.toNat]?.join =
      if slot.index = n then places[n.toNat]?.join.or (some slot) else places[n.toNat]?.join := by
  rw [← join_grow places slot.index.toNat n.toNat, enter, List.getElem?_modify]
  by_cases hn : slot.index = n
  · subst hn
    rw [List.getElem?_eq_getElem (lt_length_grow places slot.index.toNat)]
    simp only [if_true]
    rfl
  · have hplace : ¬ slot.index.toNat = n.toNat := mt BitVec.eq_of_toNat_eq hn
    simp only [if_neg hplace, if_neg hn, id_map']

/-- A table answers for each index with the first declaration. -/
theorem find?_reset (s : SparseSlots) (ds : List Declaration) (zeroed : Bool) (n : BitVec 16) :
    (s.reset ds zeroed).find? n = (ds.find? (·.index == n)).map (Slots.fresh zeroed) := by
  have henter : ∀ places : List (Option Slot),
      (ds.foldl (fun places d => enter places (Slots.fresh zeroed d)) places)[n.toNat]?.join =
        places[n.toNat]?.join.or ((ds.find? (·.index == n)).map (Slots.fresh zeroed)) := by
    induction ds with
    | nil =>
      intro places
      exact Option.or_none.symm
    | cons d ds ih =>
      intro places
      rw [List.foldl_cons, ih, join_enter, List.find?_cons]
      show (if d.index = n then _ else _ : Option Slot).or _ = _
      by_cases hd : d.index = n
      · rw [if_pos hd, beq_iff_eq.mpr hd, Option.or_assoc]
        rfl
      · rw [if_neg hd, beq_eq_false_iff_ne.mpr hd]
  exact henter []

theorem find?_store (s : SparseSlots) (n k : BitVec 16) (v : Value) :
    (s.store n v).find? k =
      if n = k then (s.find? k).map fun slot => { slot with value := v.coerce slot.flavor }
      else s.find? k := by
  rw [find?, find?, store, List.getElem?_modify]
  by_cases hk : n = k
  · subst hk
    simp only [if_true]
    cases s.places[n.toNat]? <;> rfl
  · have hplace : ¬ n.toNat = k.toNat := mt BitVec.eq_of_toNat_eq hk
    simp only [if_neg hplace, if_neg hk, id_map']

end SparseSlots

instance : SlotStore.Lawful SparseSlots where
  flavor_eq _ _ := rfl
  get_some h := by
    show SparseSlots.get _ _ = _
    unfold SparseSlots.get
    rw [show SparseSlots.find? _ _ = _ from h]
  get_none h := by
    show SparseSlots.get _ _ = _
    unfold SparseSlots.get
    rw [show SparseSlots.find? _ _ = _ from h]
    rfl
  set_some {s n slot} h v := by
    have hfind : s.find? n = some slot := h
    refine ⟨s.store n v, if_pos (by rw [hfind]; rfl), rfl, funext fun k => ?_⟩
    show (s.store n v).find? k = Function.update s.find? n _ k
    rw [SparseSlots.find?_store]
    by_cases hk : k = n
    · subst hk
      rw [if_pos rfl, hfind, Function.update_self]
      rfl
    · rw [if_neg (Ne.symm hk), Function.update_of_ne hk]
  set_none {s n} h v := by
    have hfind : s.find? n = none := h
    exact if_neg (by rw [hfind]; exact Bool.false_ne_true)

/-! ## Declarations, whichever way they are kept -/

section Kept

open SlotStore Declaration

variable (ds : List Declaration) (zeroed : Bool)

/-- Slots in the order of a method's declarations act as the given ones. -/
theorem actsAs_declare (kind : SlotKind) :
    ActsAs (Slots.declare kind ds zeroed) ds zeroed ∧
      ActsAs (Slots.declare kind (normalize ds) zeroed) ds zeroed := by
  refine ⟨actsAs_of_fresh fun n => Slots.find?_declare kind ds zeroed n, actsAs_of_fresh fun n => ?_⟩
  rw [← find?_normalize ds n]
  exact Slots.find?_declare kind (normalize ds) zeroed n

/-- A table of a method's declarations acts as one of the given ones. -/
theorem actsAs_reset (t : SparseSlots) :
    ActsAs (t.reset ds zeroed) ds zeroed ∧ ActsAs (t.reset (normalize ds) zeroed) ds zeroed := by
  refine ⟨actsAs_of_fresh (SparseSlots.find?_reset t ds zeroed), actsAs_of_fresh fun n => ?_⟩
  rw [← find?_normalize ds n]
  exact SparseSlots.find?_reset t (normalize ds) zeroed n

/-- Two states that act as the same declarations give the same values and
flavors, and they succeed on the same calls. -/
theorem SlotStore.ActsAs.agree {σ τ : Type} [SlotStore σ] [SlotStore τ] {s : σ} {t : τ}
    {ds : List Declaration} {zeroed : Bool} (hs : ActsAs s ds zeroed) (ht : ActsAs t ds zeroed)
    (calls : List SlotCall) (call : SlotCall) :
    (answer (afterCalls s calls) call).toOption = (answer (afterCalls t calls) call).toOption := by
  rw [hs.answers, ht.answers]
  cases call with
  | get n =>
    rw [Declaration.answer, Declaration.answer]
    cases ds.find? (·.index == n) <;> rfl
  | set n v =>
    rw [Declaration.answer, Declaration.answer]
    cases (ds.find? (·.index == n)).isSome <;> rfl
  | flavor n => rfl

/-- Normalising adds no index and drops none. -/
theorem exists_index_normalize_iff (n : BitVec 16) :
    (∃ d ∈ normalize ds, d.index = n) ↔ ∃ d ∈ ds, d.index = n := by
  have hfound : ∀ es : List Declaration,
      (∃ d ∈ es, d.index = n) ↔ (es.find? (·.index == n)).isSome := by
    intro es
    rw [List.find?_isSome]
    simp only [beq_iff_eq]
  rw [hfound, hfound, find?_normalize]

/-- Declarations mean the same wherever they are kept.  A table of the given
ones, a table of those that a method keeps, and the slots of the machine for
either act as the given declarations say, and they agree after any calls.
What a method keeps is strictly in order of the indices, has all of them and
no other, and is what sorting without changing the order of equal indices and
then dropping repetitions leaves; a method answers for an index with its first
declaration. -/
theorem slots_act_as_declared :
    (∀ t u : SparseSlots,
      ActsAs (t.reset ds zeroed) ds zeroed ∧ ActsAs (u.reset (normalize ds) zeroed) ds zeroed ∧
        ∀ calls call, (answer (afterCalls (t.reset ds zeroed) calls) call).toOption =
          (answer (afterCalls (u.reset (normalize ds) zeroed) calls) call).toOption) ∧
    (∀ kind, ActsAs (Slots.declare kind ds zeroed) ds zeroed ∧
      ActsAs (Slots.declare kind (normalize ds) zeroed) ds zeroed) ∧
    Ordered (normalize ds) ∧ normalize ds = sortedFirsts ds ∧
    (∀ n, (∃ d ∈ normalize ds, d.index = n) ↔ ∃ d ∈ ds, d.index = n) ∧
    ∀ token name code arguments initLocals,
      (Method.ofInstructions token name code arguments ds initLocals).locals = normalize ds ∧
      (Method.ofInstructions token name code ds arguments initLocals).arguments = normalize ds ∧
      ∀ n, (Method.ofInstructions token name code arguments ds initLocals).local? n =
        ds.find? (·.index == n) := by
  refine ⟨fun t u => ?_, actsAs_declare ds zeroed, ordered_normalize ds,
    normalize_eq_sortedFirsts ds, exists_index_normalize_iff ds, ?_⟩
  · have hgiven := (actsAs_reset ds zeroed t).1
    have hkept := (actsAs_reset ds zeroed u).2
    exact ⟨hgiven, hkept, hgiven.agree hkept⟩
  · intro token name code arguments initLocals
    exact ⟨rfl, rfl, find?_normalize ds⟩

example : normalize [⟨2, .i4⟩, ⟨0, .u1⟩, ⟨2, .r8⟩] = [⟨0, .u1⟩, ⟨2, .i4⟩] := by
  decide

end Kept

end KeyLoop
