/-
# Decryption joins the keystream to the resource

With `W = ⌈n / 4⌉` words `w 0, …, w (W - 1)` for a resource of `n` bytes,

    all words exist      byte `i` becomes `byte i ^^^ byteOf (w (i / 4)) (i % 4)`
    word `k < W` fails   the fault of the first such word, and no byte changes

and there is no third case: the places to which the words are joined all lie
in the resource, so joining them never fails.
-/
import KeyLoop.Proofs.Bytes.Tail
import KeyLoop.Proofs.Window.Chain
import KeyLoop.Decrypter

namespace KeyLoop

/-- Answers with their faults renamed chain up to the chain with its faults renamed. -/
theorem chain_mapError {ε ε' : Type} (rename : ε → ε')
    (answer : BitVec 32 → Except ε (BitVec 32)) (sum : BitVec 32) (k : Nat) :
    chain (fun input => (answer input).mapError rename) sum k =
      (chain answer sum k).mapError rename := by
  induction k with
  | zero => rfl
  | succ k ih =>
    rw [chain, ih, chain]
    cases chain answer sum k with
    | error e => rfl
    | ok word => rfl

theorem mapM_id_ok {ε α : Type} (items : List α) :
    (items.map Except.ok : List (Except ε α)).mapM id = .ok items := by
  induction items with
  | nil => rfl
  | cons a items ih =>
    rw [List.map_cons, List.mapM_cons, ih]
    rfl

theorem mapM_id_error {ε α : Type} (items : List α) (e : ε) :
    (items.map Except.ok ++ [.error e] : List (Except ε α)).mapM id = .error e := by
  induction items with
  | nil => rfl
  | cons a items ih =>
    rw [List.map_cons, List.cons_append, List.mapM_cons, ih]
    rfl

namespace Decrypter

/-- Word `k` of the keystream, counted from zero: the answer of the decrypter
to the word before it, or to zero.  Behind a fault there are no more words,
and the fault stands for all of them. -/
def word (d : Decrypter Machine) : Nat → Except Fault (BitVec 32) :=
  chain (fun input => outcome (keyWord input d)) 0

theorem outcome_keyWord (d : Decrypter Machine) (input : BitVec 32) :
    outcome (keyWord input d) =
      (d.generator.answer d.machine.limits input).mapError .keyWord := by
  rw [← Generator.outcome_keyWord]
  unfold keyWord
  cases d.generator.keyWord input d.machine with
  | ok w m => rfl
  | error cause m => rfl

/-- The words of a decrypter, as words of its generator. -/
theorem word_eq (d : Decrypter Machine) (k : Nat) :
    d.word k = (chain (d.generator.answer d.machine.limits) 0 k).mapError .keyWord := by
  rw [← chain_mapError]
  unfold word
  congr 1
  funext input
  exact outcome_keyWord d input

theorem word_ok_iff {d : Decrypter Machine} {k : Nat} {w : BitVec 32} :
    d.word k = .ok w ↔ chain (d.generator.answer d.machine.limits) 0 k = .ok w := by
  rw [word_eq]
  cases chain (d.generator.answer d.machine.limits) 0 k with
  | error cause => constructor <;> (intro h; cases h)
  | ok word =>
    constructor <;>
      (intro h
       cases h
       rfl)

/-- A word that fails does so because it could not be computed. -/
theorem exists_cause_of_word_error {d : Decrypter Machine} {k : Nat} {fault : Fault}
    (h : d.word k = .error fault) :
    ∃ cause, fault = .keyWord cause ∧
      chain (d.generator.answer d.machine.limits) 0 k = .error cause := by
  rw [word_eq] at h
  cases hk : chain (d.generator.answer d.machine.limits) 0 k with
  | ok w =>
    rw [hk] at h
    cases h
  | error cause =>
    rw [hk] at h
    exact ⟨cause, (Except.error.inj h).symm, rfl⟩

/-- Decrypters of one generator and with the same limits have the same words. -/
theorem word_congr {c d : Decrypter Machine} (hg : c.generator = d.generator)
    (hl : c.machine.limits = d.machine.limits) : c.word = d.word := by
  funext k
  rw [word_eq, word_eq, hg, hl]

/-! ## All the words a resource takes -/

theorem keyWords_ok (d : Decrypter Machine) (words : List (BitVec 32))
    (h : ∀ k (hk : k < words.length), d.word k = .ok words[k]) :
    ∃ m, keyWords words.length d = .ok words { d with machine := m } ∧
      m.limits = d.machine.limits := by
  obtain ⟨m, hm, hlimits⟩ := d.generator.keystream_ok words 0 d.machine fun k hk =>
    word_ok_iff.mp (h k hk)
  refine ⟨m, ?_, hlimits⟩
  simp only [keyWords, keystream, hm, mapM_id_ok]

theorem keyWords_error (d : Decrypter Machine) {count k : Nat} (hk : k < count) {fault : Fault}
    (h : d.word k = .error fault) : ∃ after, keyWords count d = .error fault after := by
  obtain ⟨cause, rfl, hcause⟩ := exists_cause_of_word_error h
  obtain ⟨words, m, hm, -⟩ :=
    d.generator.keystream_error cause count 0 d.machine k hk hcause
  refine ⟨{ d with machine := m }, ?_⟩
  simp only [keyWords, keystream, hm, mapM_id_error]

/-- The words of a resource either all exist, or one of them fails. -/
theorem words_or_fault (d : Decrypter Machine) (count : Nat) :
    (∃ words : List (BitVec 32), words.length = count ∧
      ∀ k (hk : k < words.length), d.word k = .ok words[k]) ∨
    ∃ k < count, ∃ fault, d.word k = .error fault := by
  induction count with
  | zero => exact .inl ⟨[], rfl, fun k hk => absurd hk (Nat.not_lt_zero k)⟩
  | succ count ih =>
    rcases ih with ⟨words, hlength, hwords⟩ | ⟨k, hk, fault, hfault⟩
    · cases hlast : d.word count with
      | error fault => exact .inr ⟨count, Nat.lt_succ_self count, fault, hlast⟩
      | ok w =>
        refine .inl ⟨words ++ [w], by simp [hlength], ?_⟩
        intro k hk
        simp only [List.length_append, List.length_singleton] at hk
        rcases Nat.lt_or_ge k words.length with hlt | hge
        · rw [List.getElem_append_left hlt]
          exact hwords k hlt
        · obtain rfl : k = words.length := by omega
          rw [List.getElem_append_right (Nat.le_refl _)]
          simpa [hlength] using hlast
    · exact .inr ⟨k, Nat.lt_succ_of_lt hk, fault, hfault⟩

/-! ## Decryption -/

theorem decryptInPlace_ok (d : Decrypter Machine) (data : List Byte) (words : List (BitVec 32))
    (hlength : words.length = Tail.count data)
    (h : ∀ k (hk : k < words.length), d.word k = .ok words[k]) :
    ∃ m, decryptInPlace (d, data) =
        .ok () ({ d with machine := m }, Tail.joined 0 words data) ∧
      m.limits = d.machine.limits := by
  obtain ⟨m, hm, hlimits⟩ := keyWords_ok d words h
  rw [hlength] at hm
  refine ⟨m, ?_, hlimits⟩
  simp only [decryptInPlace, hm, Tail.xorEach_offsets hlength]

theorem decryptInPlace_error (d : Decrypter Machine) (data : List Byte) {k : Nat}
    (hk : k < Tail.count data) {fault : Fault} (h : d.word k = .error fault) :
    ∃ after, decryptInPlace (d, data) = .error fault (after, data) := by
  obtain ⟨after, hafter⟩ := keyWords_error d hk h
  exact ⟨after, by simp only [decryptInPlace, hafter]⟩

/-- **Decryption, for every decrypter in every state and every resource.**
`k` counts the words of the keystream from zero. -/
theorem decrypt_joins_keystream (d : Decrypter Machine) (data : List Byte) :
    (∀ words : List (BitVec 32), words.length = (data.length + 3) / 4 →
      (∀ k (hk : k < words.length), d.word k = .ok words[k]) →
      ∃ plain after, decrypt data d = .ok plain after ∧
        decryptInPlace (d, data) = .ok () (after, plain) ∧
        plain.length = data.length ∧
        (∀ i (hi : i < data.length), ∃ w, words[i / 4]? = some w ∧
          plain[i]? = some (data[i] ^^^ byteOf w (i % 4))) ∧
        ∃ again, decrypt plain after = .ok data again) ∧
    (∀ k < (data.length + 3) / 4, ∀ fault, d.word k = .error fault →
      (∃ cause, fault = .keyWord cause) ∧
      ∃ after, decrypt data d = .error fault after ∧
        decryptInPlace (d, data) = .error fault (after, data)) ∧
    ∀ offset available after,
      decrypt data d ≠ .error (.bufferUnderrun offset available) after := by
  refine ⟨?_, ?_, ?_⟩
  · intro words hlength hwords
    obtain ⟨m, hm, hlimits⟩ := decryptInPlace_ok d data words hlength hwords
    refine ⟨Tail.joined 0 words data, { d with machine := m }, by simp only [decrypt, hm], hm,
      Tail.length_joined 0 words data, ?_, ?_⟩
    · intro i hi
      have hw : i / 4 < words.length := by omega
      have hplain : i < (Tail.joined 0 words data).length := by simpa using hi
      refine ⟨words[i / 4], List.getElem?_eq_getElem hw, ?_⟩
      rw [List.getElem?_eq_getElem hplain, Tail.getElem_joined_zero hplain hi hw]
    · -- the keystream has not moved, so the same words are joined once more
      have hsame : Decrypter.word { d with machine := m } = d.word := word_congr rfl hlimits
      have hcount : words.length = Tail.count (Tail.joined 0 words data) := by
        simpa [Tail.count] using hlength
      obtain ⟨n, hn, -⟩ := decryptInPlace_ok { d with machine := m } (Tail.joined 0 words data)
        words hcount (by rw [hsame]; exact hwords)
      rw [Tail.joined_joined] at hn
      exact ⟨{ d with machine := n }, by simp only [decrypt, hn]⟩
  · intro k hk fault hfault
    obtain ⟨cause, hcause, -⟩ := exists_cause_of_word_error hfault
    obtain ⟨after, hafter⟩ := decryptInPlace_error d data hk hfault
    exact ⟨⟨cause, hcause⟩, after, by simp only [decrypt, hafter], hafter⟩
  · intro offset available after h
    rcases words_or_fault d (Tail.count data) with ⟨words, hlength, hwords⟩ | ⟨k, hk, fault, hfault⟩
    · obtain ⟨m, hm, -⟩ := decryptInPlace_ok d data words hlength hwords
      simp [decrypt, hm] at h
    · obtain ⟨cause, rfl, -⟩ := exists_cause_of_word_error hfault
      obtain ⟨s, hs⟩ := decryptInPlace_error d data hk hfault
      simp [decrypt, hs] at h

end Decrypter

end KeyLoop
