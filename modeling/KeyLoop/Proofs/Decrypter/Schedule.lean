/-
# Decrypting many resources, whoever decrypts which

Resources that have nothing to do with each other are shared out among
workers.  A worker starts with a decrypter of its own and takes it from one
resource to the next, past the ones that fail.  The answers are put together
by the positions of the resources; where some are faults, one of the faults
stands for all.

Nothing is known of who takes what, and when (`Schedule`), and it makes no
difference:

    what a worker carries on     is the loop and the limits, and nothing else
                                 that an answer depends on
    a resource                   is answered by each worker as by the
                                 decrypter itself                    (`answers_perm`)
    the failing resources        all run into the first word that fails, so
                                 they fail with one fault            (`fault_unique`)

so every schedule comes to the answer of going through the resources one by
one (`decryptAll_schedule`).
-/
import KeyLoop.Proofs.Decrypter.Calls
import KeyLoop.Proofs.Decrypter.Decrypt
import Mathlib.Data.List.Forall2

namespace KeyLoop

/-! ## Answers put together -/

section Answers

variable {ε α : Type} {rs : List (Except ε α)}

/-- Answers are all there when none is a fault. -/
theorem mapM_id_eq_ok_iff {as : List α} : rs.mapM id = .ok as ↔ rs = as.map .ok := by
  constructor
  · intro h
    induction rs generalizing as with
    | nil =>
      cases h
      rfl
    | cons r rs ih =>
      rw [List.mapM_cons] at h
      cases r with
      | error e => cases h
      | ok a =>
        cases hrest : rs.mapM id with
        | error e =>
          rw [hrest] at h
          cases h
        | ok as' =>
          rw [hrest] at h
          cases h
          rw [ih hrest, List.map_cons]
  · rintro rfl
    exact mapM_id_ok as

/-- The fault that stands for all is one of the answers. -/
theorem mem_of_mapM_id_eq_error {e : ε} (h : rs.mapM id = .error e) : .error e ∈ rs := by
  induction rs with
  | nil => cases h
  | cons r rs ih =>
    rw [List.mapM_cons] at h
    cases r with
    | error f =>
      cases h
      exact .head rs
    | ok a =>
      cases hrest : rs.mapM id with
      | error f =>
        rw [hrest] at h
        cases h
        exact .tail _ (ih hrest)
      | ok as =>
        rw [hrest] at h
        cases h

/-- Where all faults are the same, each of them stands for all. -/
theorem mapM_id_eq_error_iff (hsame : ∀ e f, .error e ∈ rs → .error f ∈ rs → e = f) {e : ε} :
    rs.mapM id = .error e ↔ .error e ∈ rs := by
  constructor
  · exact mem_of_mapM_id_eq_error
  · intro he
    cases h : rs.mapM id with
    | error f => rw [hsame f e (mem_of_mapM_id_eq_error h) he]
    | ok as =>
      rw [mapM_id_eq_ok_iff.mp h] at he
      obtain ⟨a, -, ha⟩ := List.mem_map.mp he
      cases ha

/-- What may come of answers that arrive in any order, each with its position:
all of them in the order of the positions, or any one fault. -/
inductive Collected (answers : List (Except ε α × Nat)) : Except ε (List α) → Prop
  | all {as : List α} : answers.Perm (as.map Except.ok).zipIdx → Collected answers (.ok as)
  | fault {e : ε} {k : Nat} : (.error e, k) ∈ answers → Collected answers (.error e)

/-- Positions put a list back in order. -/
theorem eq_of_zipIdx_perm {β : Type} {xs ys : List β} (h : xs.zipIdx.Perm ys.zipIdx) : xs = ys := by
  apply List.ext_getElem?
  intro k
  apply Option.ext
  intro x
  rw [← List.mk_mem_zipIdx_iff_getElem?, ← List.mk_mem_zipIdx_iff_getElem?, h.mem_iff]

/-- Where all faults are the same, only one thing can come of the answers. -/
theorem collected_iff {answers : List (Except ε α × Nat)} (hanswers : answers.Perm rs.zipIdx)
    (hsame : ∀ e f, .error e ∈ rs → .error f ∈ rs → e = f) {result : Except ε (List α)} :
    Collected answers result ↔ result = rs.mapM id := by
  constructor
  · rintro (hall | hfault)
    · exact (mapM_id_eq_ok_iff.mpr (eq_of_zipIdx_perm (hanswers.symm.trans hall))).symm
    · rw [hanswers.mem_iff, List.mk_mem_zipIdx_iff_getElem?] at hfault
      exact ((mapM_id_eq_error_iff hsame).mpr (List.mem_of_getElem? hfault)).symm
  · rintro rfl
    cases h : rs.mapM id with
    | ok as =>
      rw [mapM_id_eq_ok_iff.mp h] at hanswers
      exact .all hanswers
    | error e =>
      obtain ⟨k, hk⟩ := List.mem_iff_getElem?.mp (mem_of_mapM_id_eq_error h)
      exact .fault (hanswers.mem_iff.mpr (List.mk_mem_zipIdx_iff_getElem?.mpr hk))

end Answers

/-! ## One fault -/

/-- Behind a fault there are no more words, and the fault stays. -/
theorem chain_error_of_le {ε : Type} {answer : BitVec 32 → Except ε (BitVec 32)} {sum : BitVec 32}
    {e : ε} {j k : Nat} (h : chain answer sum j = .error e) (hjk : j ≤ k) :
    chain answer sum k = .error e := by
  induction hjk with
  | refl => exact h
  | step _ ih =>
    rw [chain, ih]
    rfl

namespace Decrypter

variable {c d : Decrypter Machine}

theorem outcome_decrypt_ok {resource : List Byte} {words : List (BitVec 32)}
    (hlength : words.length = Tail.count resource)
    (hwords : ∀ k (hk : k < words.length), d.word k = .ok words[k]) :
    outcome (decrypt resource d) = .ok (Tail.joined 0 words resource) := by
  obtain ⟨m, hm, -⟩ := decryptInPlace_ok d resource words hlength hwords
  simp only [decrypt, hm, outcome]

theorem outcome_decrypt_error {resource : List Byte} {k : Nat} (hk : k < Tail.count resource)
    {fault : Fault} (hfault : d.word k = .error fault) :
    outcome (decrypt resource d) = .error fault := by
  obtain ⟨s, hs⟩ := decryptInPlace_error d resource hk hfault
  simp only [decrypt, hs, outcome]

/-- A resource that cannot be decrypted fails with the fault of a word. -/
theorem exists_word_of_decrypt_error {resource : List Byte} {e : Fault}
    (h : outcome (decrypt resource d) = .error e) : ∃ k, d.word k = .error e := by
  rcases words_or_fault d (Tail.count resource) with ⟨words, hlength, hwords⟩ | ⟨k, hk, fault, hfault⟩
  · rw [outcome_decrypt_ok hlength hwords] at h
    cases h
  · rw [outcome_decrypt_error hk hfault] at h
    cases h
    exact ⟨k, hfault⟩

/-- All resources that fail, fail with the fault of one word. -/
theorem fault_unique {x y : List Byte} {e f : Fault} (hx : outcome (decrypt x d) = .error e)
    (hy : outcome (decrypt y d) = .error f) : e = f := by
  obtain ⟨j, hj⟩ := exists_word_of_decrypt_error hx
  obtain ⟨k, hk⟩ := exists_word_of_decrypt_error hy
  rcases Nat.le_total j k with hjk | hkj
  · have hlater := chain_error_of_le hj hjk
    exact Except.error.inj (hlater.symm.trans hk)
  · have hlater := chain_error_of_le hk hkj
    exact Except.error.inj (hj.symm.trans hlater)

/-! ## Workers -/

/-- Decrypters of one loop and the same limits decrypt alike. -/
theorem decrypt_congr (h : SameLoop c d) (resource : List Byte) :
    outcome (decrypt resource c) = outcome (decrypt resource d) := by
  have hword : c.word = d.word := word_congr h.generator h.limits
  rcases words_or_fault d (Tail.count resource) with ⟨words, hlength, hwords⟩ | ⟨k, hk, fault, hfault⟩
  · rw [outcome_decrypt_ok hlength hwords, outcome_decrypt_ok hlength (hword ▸ hwords)]
  · rw [outcome_decrypt_error hk hfault, outcome_decrypt_error hk (hword ▸ hfault)]

/-- The answers of a worker to its share of the resources.  Its decrypter goes
from one resource to the next in the state in which the last one left it. -/
def work (d : Decrypter Machine) :
    List (List Byte × Nat) → List (Except Fault (List Byte) × Nat)
  | [] => []
  | (resource, k) :: share =>
      (outcome (decrypt resource d), k) :: work (after (decrypt resource) d) share

/-- A worker answers as the decrypter itself, whatever its decrypter has been through. -/
theorem work_eq (h : SameLoop c d) (share : List (List Byte × Nat)) :
    work c share = share.map (Prod.map (fun resource => outcome (decrypt resource d)) id) := by
  induction share generalizing c with
  | nil => rfl
  | cons job share ih =>
    obtain ⟨resource, k⟩ := job
    have hafter : SameLoop (after (decrypt resource) c) d :=
      (sameLoop_afterCall c (.decrypt resource)).trans h
    rw [work, decrypt_congr h, ih hafter]
    rfl

/-- Resources shared out among workers: for every worker a list of resources,
each with its position among all of them, in the order in which the worker
takes them. -/
structure Schedule (resources : List (List Byte)) where
  shares : List (List (List Byte × Nat))
  /-- Every resource is in exactly one share, once. -/
  complete : shares.flatten.Perm resources.zipIdx

/-- One worker may take everything. -/
instance (resources : List (List Byte)) : Inhabited (Schedule resources) :=
  ⟨{ shares := [resources.zipIdx], complete := by simp }⟩

/-- The answers of all workers, each of which starts with a copy of the decrypter. -/
def Schedule.answers {resources : List (List Byte)} (s : Schedule resources)
    (d : Decrypter Machine) : List (Except Fault (List Byte) × Nat) :=
  s.shares.flatMap (work d)

theorem answers_perm {resources : List (List Byte)} (s : Schedule resources)
    (d : Decrypter Machine) :
    (s.answers d).Perm (resources.map fun resource => outcome (decrypt resource d)).zipIdx := by
  have hwork : work d =
      List.map (Prod.map (fun resource => outcome (decrypt resource d)) id) := by
    funext share
    exact work_eq (.refl d) share
  rw [Schedule.answers, hwork, List.flatMap_def, ← List.map_flatten, List.zipIdx_map]
  exact s.complete.map _

/-- Going through the resources one by one. -/
theorem decryptAll_eq (d : Decrypter Machine) (resources : List (List Byte)) :
    decryptAll d resources = (resources.map fun resource => outcome (decrypt resource d)).mapM id := by
  rw [List.mapM_map, decryptAll]
  refine congrArg (fun f => resources.mapM f) (funext fun resource => ?_)
  show _ = outcome (decrypt resource d)
  cases decrypt resource d with
  | ok plain s => rfl
  | error fault s => rfl

/-- **Any schedule comes to the same answer.**  However the resources are
shared out among workers, and in whatever order a worker takes its share, what
comes of the answers is what comes of going through the resources one by one.
It is the resources decrypted one at a time, if each of them can be; and
otherwise a fault, which is the fault of every resource that fails. -/
theorem decryptAll_schedule (d : Decrypter Machine) (resources : List (List Byte)) :
    (∀ (s : Schedule resources) (result : Except Fault (List (List Byte))),
      Collected (s.answers d) result ↔ result = decryptAll d resources) ∧
    (∀ plains, decryptAll d resources = .ok plains ↔
      List.Forall₂ (fun resource plain => outcome (decrypt resource d) = .ok plain) resources plains) ∧
    ∀ e, decryptAll d resources = .error e ↔
      ∃ resource ∈ resources, outcome (decrypt resource d) = .error e := by
  have hsame : ∀ e f, .error e ∈ resources.map (fun resource => outcome (decrypt resource d)) →
      .error f ∈ resources.map (fun resource => outcome (decrypt resource d)) → e = f := by
    intro e f he hf
    obtain ⟨x, -, hx⟩ := List.mem_map.mp he
    obtain ⟨y, -, hy⟩ := List.mem_map.mp hf
    exact fault_unique hx hy
  rw [decryptAll_eq]
  refine ⟨?_, ?_, ?_⟩
  · intro s result
    exact collected_iff (answers_perm s d) hsame
  · intro plains
    rw [mapM_id_eq_ok_iff, ← List.forall₂_eq_eq_eq, List.forall₂_map_left_iff,
      List.forall₂_map_right_iff]
  · intro e
    rw [mapM_id_eq_error_iff hsame, List.mem_map]

end Decrypter

end KeyLoop
