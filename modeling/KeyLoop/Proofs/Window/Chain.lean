/-
# The keystream is a chain

A run of the update begins by entering the method, and entering forgets
everything about the machine but its limits.  So the answer to an input is a
function of the generator and the limits (`outcome_keyWord`), whatever was
computed before, and the keystream is the chain

    w 0 = answer 0        w (k + 1) = answer (w k)

cut off behind the first answer that is a fault.
-/
import KeyLoop.Proofs.Machine.Frame
import KeyLoop.Window.KeyWord

namespace KeyLoop

/-- What a run answers, whatever state it leaves. -/
def outcome {ε σ α : Type} : EStateM.Result ε σ α → Except ε α
  | .ok a _ => .ok a
  | .error e _ => .error e

/-- A run that answers has come through. -/
theorem eq_ok_of_outcome {ε σ α : Type} {run : EStateM ε σ α} {s : σ} {a : α}
    (h : outcome (run s) = .ok a) : run s = .ok a (after run s) := by
  cases hrun : run s with
  | error e t =>
    rw [hrun] at h
    cases h
  | ok b t =>
    rw [hrun] at h
    cases h
    rw [after_ok hrun]

/-- A chain of words: each is the answer to the one before it, the first one
the answer to `sum`.  It goes on until an answer is a fault. -/
def chain {ε : Type} (answer : BitVec 32 → Except ε (BitVec 32)) (sum : BitVec 32) :
    Nat → Except ε (BitVec 32)
  | 0 => answer sum
  | k + 1 => chain answer sum k >>= answer

/-- The chain from its second word on starts with the first word. -/
theorem chain_succ {ε : Type} (answer : BitVec 32 → Except ε (BitVec 32)) (sum : BitVec 32)
    (k : Nat) : chain answer sum (k + 1) = answer sum >>= fun word => chain answer word k := by
  induction k with
  | zero => rfl
  | succ k ih =>
    rw [chain, ih]
    cases answer sum with
    | error e => rfl
    | ok word => rfl

namespace Generator

/-! ## Nothing but the limits survives the entry -/

theorem runWindow_congr (g : Generator) (input : BitVec 32) {m n : Machine}
    (h : m.limits = n.limits) : g.runWindow input m = g.runWindow input n := by
  have henter : Machine.enter g.arguments g.locals g.initLocals m =
      Machine.enter g.arguments g.locals g.initLocals n := by
    simp only [Machine.enter, h]
  have hmodify : ∀ s : Machine, (modify (Emulator.enter g.arguments g.locals g.initLocals) :
      Machine.Run Unit) s = .ok () (Machine.enter g.arguments g.locals g.initLocals s) :=
    fun _ => rfl
  simp only [runWindow, bind, EStateM.bind, hmodify, henter]

theorem keyWord_congr (g : Generator) (input : BitVec 32) {m n : Machine}
    (h : m.limits = n.limits) : g.keyWord input m = g.keyWord input n := by
  simp only [keyWord, runWindow_congr g input h]

theorem frame_runCode (guarded : Bool) (code : List Instruction) (m : Machine) :
    Machine.KeepsFrame m (runCode guarded code) := by
  induction code using runCode.induct with
  | case1 =>
    rw [runCode]
    exact keeps_pure ()
  | case2 i rest ihSkip ihRest =>
    intro n hn
    have hstep := Machine.frame_step i n hn
    rw [runCode]
    by_cases hdead : (guarded && guardIsDead n (i :: rest)) = true
    · simpa only [after, if_pos hdead] using ihSkip n hn
    · simp only [after, if_neg hdead, Emulator.step]
      cases hr : Machine.step i n with
      | ok u s =>
        rw [after_ok hr] at hstep
        simpa only [after] using ihRest s hstep
      | error e s =>
        rw [after_error hr] at hstep
        exact hstep

/-- A run of the update leaves the limits alone. -/
theorem limits_runWindow (g : Generator) (input : BitVec 32) (m : Machine) :
    (after (g.runWindow input) m).limits = m.limits := by
  have hkeeps : Keeps (fun n : Machine => n.limits = m.limits) (g.runWindow input) :=
    keeps_bind (fun _ h => h) fun _ =>
      keeps_bind
        (fun n h => (Machine.frame_setLocal _ _ n (.refl n)).limits.trans h) fun _ =>
        keeps_bind (fun n h => (frame_runCode _ _ n n (.refl n)).limits.trans h) fun _ n h =>
          (Machine.frame_pop n (.refl n)).limits.trans h
  exact hkeeps m rfl

theorem limits_keyWord (g : Generator) (input : BitVec 32) (m : Machine) :
    (after (g.keyWord input) m).limits = m.limits := by
  have hrun := limits_runWindow g input m
  simp only [after] at hrun
  unfold after keyWord
  cases hr : g.runWindow input m with
  | error fault n => simpa only [hr] using hrun
  | ok result n =>
    cases hw : result.toBits? with
    | none => simpa only [hr, hw] using hrun
    | some word => simpa only [hr, hw] using hrun

/-- The answer of a generator to an input, under these limits. -/
def answer (g : Generator) (limits : Limits) (input : BitVec 32) :
    Except KeyWordFault (BitVec 32) :=
  outcome (g.keyWord input (Machine.new limits))

/-- Only the limits of a machine matter to the answer it gives. -/
theorem outcome_keyWord (g : Generator) (input : BitVec 32) (m : Machine) :
    outcome (g.keyWord input m) = g.answer m.limits input := by
  have hcongr : g.keyWord input m = g.keyWord input (Machine.new m.limits) := keyWord_congr g input rfl
  rw [answer, hcongr]

theorem keyWord_ok {g : Generator} {input word : BitVec 32} {m : Machine}
    (h : g.answer m.limits input = .ok word) :
    ∃ n, g.keyWord input m = .ok word n ∧ n.limits = m.limits := by
  rw [← outcome_keyWord] at h
  have hlimits := limits_keyWord g input m
  cases hr : g.keyWord input m with
  | error fault n => simp [outcome, hr] at h
  | ok w n =>
    simp only [outcome, hr, Except.ok.injEq] at h
    rw [after_ok hr] at hlimits
    exact ⟨n, by rw [h], hlimits⟩

theorem keyWord_error {g : Generator} {input : BitVec 32} {fault : KeyWordFault} {m : Machine}
    (h : g.answer m.limits input = .error fault) :
    ∃ n, g.keyWord input m = .error fault n ∧ n.limits = m.limits := by
  rw [← outcome_keyWord] at h
  have hlimits := limits_keyWord g input m
  cases hr : g.keyWord input m with
  | ok w n => simp [outcome, hr] at h
  | error e n =>
    simp only [outcome, hr, Except.error.injEq] at h
    rw [after_error hr] at hlimits
    exact ⟨n, by rw [h], hlimits⟩

/-! ## The keystream -/

/-- As long as the chain has words, the keystream has the same. -/
theorem keystream_ok (g : Generator) (words : List (BitVec 32)) (sum : BitVec 32) (m : Machine)
    (h : ∀ k (hk : k < words.length), chain (g.answer m.limits) sum k = .ok words[k]) :
    ∃ n, g.keystream sum words.length m = (words.map Except.ok, n) ∧ n.limits = m.limits := by
  induction words generalizing sum m with
  | nil => exact ⟨m, rfl, rfl⟩
  | cons word words ih =>
    have hfirst : g.answer m.limits sum = .ok word := h 0 (by simp)
    obtain ⟨s, hs, hlimits⟩ := keyWord_ok hfirst
    have hrest : ∀ k (hk : k < words.length), chain (g.answer s.limits) word k = .ok words[k] := by
      intro k hk
      have hnext := h (k + 1) (by simpa using hk)
      rw [chain_succ, hfirst] at hnext
      rw [hlimits]
      exact hnext
    obtain ⟨n, hn, hlimits'⟩ := ih word s hrest
    refine ⟨n, ?_, hlimits'.trans hlimits⟩
    simp only [List.length_cons, keystream, hs, hn, List.map_cons]

/-- A fault in the chain ends the keystream there. -/
theorem keystream_error (g : Generator) (fault : KeyWordFault) (count : Nat) (sum : BitVec 32)
    (m : Machine) (k : Nat) (hk : k < count)
    (h : chain (g.answer m.limits) sum k = .error fault) :
    ∃ (words : List (BitVec 32)) (n : Machine), g.keystream sum count m = (words.map Except.ok ++ [.error fault], n) ∧
      n.limits = m.limits := by
  induction count generalizing sum m k with
  | zero => omega
  | succ count ih =>
    cases hfirst : g.answer m.limits sum with
    | error e =>
      have he : e = fault := by
        cases k with
        | zero => simpa [chain, hfirst] using h
        | succ k =>
          rw [chain_succ, hfirst] at h
          exact Except.error.inj h
      subst he
      obtain ⟨n, hn, hlimits⟩ := keyWord_error hfirst
      exact ⟨[], n, by simp only [keystream, hn, List.map_nil, List.nil_append], hlimits⟩
    | ok word =>
      obtain ⟨s, hs, hlimits⟩ := keyWord_ok hfirst
      cases k with
      | zero => simp [chain, hfirst] at h
      | succ k =>
        rw [chain_succ, hfirst, ← hlimits] at h
        obtain ⟨words, n, hn, hlimits'⟩ := ih word s k (by omega) h
        refine ⟨word :: words, n, ?_, hlimits'.trans hlimits⟩
        simp only [keystream, hs, hn, List.map_cons, List.cons_append]

end Generator

end KeyLoop
