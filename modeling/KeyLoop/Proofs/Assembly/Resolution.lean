/-
# From lines to statements

Finishing an assembly writes a displacement into every branch: the distance
from the end of the branch to its label.  That is possible when the label is
defined and the distance fits in the bytes that were left for it, and then
the branch is a statement like any other:

    a piece       in code, if it can be written     (`displacementBytes_ok_iff`)
    a line        the statement it becomes          (`resolve_pieces_ok_iff`)
    lines         the statements they become        (`resolve_ok_iff`)

All lines become statements exactly when every branch among them has its
label in reach (`statements?_isSome_iff`).
-/
import KeyLoop.Proofs.Assembly.Requests

namespace KeyLoop

/-! ## Displacements -/

namespace Reach

/-- The distance fits in a displacement of this reach. -/
def Holds : Reach → Int → Prop
  | short, distance => -0x80 ≤ distance ∧ distance < 0x80
  | long, distance => -0x80000000 ≤ distance ∧ distance < 0x80000000

instance : (reach : Reach) → (distance : Int) → Decidable (reach.Holds distance)
  | short, _ => inferInstanceAs (Decidable (_ ∧ _))
  | long, _ => inferInstanceAs (Decidable (_ ∧ _))

/-- The displacement as a number in code. -/
def immediate : Reach → Int → Immediate
  | short, distance => ⟨.int8, BitVec.ofInt 8 distance⟩
  | long, distance => ⟨.int32, BitVec.ofInt 32 distance⟩

theorem fits_immediate {reach : Reach} {t : OperandType} (h : Assembly.reach? t = some reach)
    (distance : Int) : (Operand.immediate (reach.immediate distance)).Fits t := by
  cases t with
  | scalar s =>
    cases s <;> cases h <;> rfl
  | none => cases h
  | token => cases h
  | switch => cases h

/-- A displacement that fits is read back as the distance. -/
theorem toBits64_immediate {reach : Reach} {distance : Int} (h : reach.Holds distance) :
    (reach.immediate distance).toBits64 = BitVec.ofInt 64 distance := by
  cases reach with
  | short =>
    have hback : (BitVec.ofInt 8 distance).toInt = distance := by
      rw [BitVec.toInt_ofInt]
      exact Int.bmod_eq_of_le h.1 h.2
    exact congrArg (BitVec.ofInt 64) hback
  | long =>
    have hback : (BitVec.ofInt 32 distance).toInt = distance := by
      rw [BitVec.toInt_ofInt]
      exact Int.bmod_eq_of_le h.1 h.2
    exact congrArg (BitVec.ofInt 64) hback

end Reach

namespace Assembly

theorem displacementBytes_eq (reach : Reach) (label : String) (distance : Int) :
    displacementBytes reach label distance =
      if reach.Holds distance then .ok (Operand.immediate (reach.immediate distance)).bytes
      else .error (match reach with
        | .short => .branch (.outOfReach distance label)
        | .long => .malformed .displacementTooWide) := by
  cases reach with
  | short => rfl
  | long => rfl

/-- A displacement is written when it fits. -/
theorem displacementBytes_ok_iff {reach : Reach} {label : String} {distance : Int}
    {bs : List Byte} :
    displacementBytes reach label distance = .ok bs ↔
      reach.Holds distance ∧ bs = (Operand.immediate (reach.immediate distance)).bytes := by
  rw [displacementBytes_eq]
  by_cases h : reach.Holds distance
  · rw [if_pos h]
    constructor
    · intro hok
      cases hok
      exact ⟨h, rfl⟩
    · rintro ⟨-, rfl⟩
      rfl
  · rw [if_neg h]
    constructor
    · intro hok
      cases hok
    · rintro ⟨hholds, -⟩
      exact absurd hholds h

/-- A success of two steps is a success of each. -/
theorem bind_ok_iff {ε α β : Type} {x : Except ε α} {next : α → Except ε β} {b : β} :
    (x >>= next) = .ok b ↔ ∃ a, x = .ok a ∧ next a = .ok b := by
  cases x with
  | error e =>
    constructor
    · intro h
      cases h
    · rintro ⟨a, h, -⟩
      cases h
  | ok a =>
    constructor
    · intro h
      exact ⟨a, rfl, h⟩
    · rintro ⟨_, ha, h⟩
      cases ha
      exact h

theorem resolve_cons_ok_iff {labels : List (String × Nat)} {start : Nat} {p : Piece}
    {ps : List Piece} {code : List Byte} :
    resolve labels start (p :: ps) = .ok code ↔
      ∃ bs rest, resolvePiece labels start p = .ok bs ∧
        resolve labels (start + p.size) ps = .ok rest ∧ code = bs ++ rest := by
  rw [resolve, bind_ok_iff]
  constructor
  · rintro ⟨bs, hbs, h⟩
    obtain ⟨rest, hrest, hcode⟩ := bind_ok_iff.mp h
    cases hcode
    exact ⟨bs, rest, hbs, hrest, rfl⟩
  · rintro ⟨bs, rest, hbs, hrest, rfl⟩
    exact ⟨bs, hbs, bind_ok_iff.mpr ⟨rest, hrest, rfl⟩⟩

/-- The code of pieces is the code of the first ones with that of the others behind it. -/
theorem resolve_append_ok_iff {labels : List (String × Nat)} {start : Nat} {ps qs : List Piece}
    {code : List Byte} :
    resolve labels start (ps ++ qs) = .ok code ↔
      ∃ front back, resolve labels start ps = .ok front ∧
        resolve labels (start + piecesSize ps) qs = .ok back ∧ code = front ++ back := by
  induction ps generalizing start code with
  | nil =>
    constructor
    · intro h
      exact ⟨[], code, rfl, h, rfl⟩
    · rintro ⟨front, back, hfront, hback, rfl⟩
      cases hfront
      exact hback
  | cons p ps ih =>
    have hstart : start + piecesSize (p :: ps) = start + p.size + piecesSize ps := by
      simp only [piecesSize, List.foldr_cons]
      omega
    simp only [hstart, List.cons_append, resolve_cons_ok_iff, ih]
    constructor
    · rintro ⟨bs, rest, hp, ⟨front, back, hfront, hback, rfl⟩, rfl⟩
      exact ⟨bs ++ front, back, ⟨bs, front, hp, hfront, rfl⟩, hback, (List.append_assoc ..).symm⟩
    · rintro ⟨front, back, ⟨bs, rest, hp, hrest, rfl⟩, hback, rfl⟩
      exact ⟨bs, rest ++ back, hp, ⟨rest, back, hrest, hback, rfl⟩, List.append_assoc ..⟩

/-- Final bytes, and one more piece behind them. -/
theorem resolve_final_ok_iff {labels : List (String × Nat)} {start : Nat} {bs : List Byte}
    {p : Piece} {code : List Byte} :
    resolve labels start [.final bs, p] = .ok code ↔
      ∃ cs, resolvePiece labels (start + bs.length) p = .ok cs ∧ code = bs ++ cs := by
  rw [resolve_cons_ok_iff]
  constructor
  · rintro ⟨_, _, hbs, hrest, rfl⟩
    obtain ⟨cs, _, hcs, hnil, rfl⟩ := resolve_cons_ok_iff.mp hrest
    cases hbs
    cases hnil
    exact ⟨cs, hcs, by rw [List.append_nil]⟩
  · rintro ⟨cs, hcs, rfl⟩
    refine ⟨bs, cs, rfl, resolve_cons_ok_iff.mpr ⟨cs, [], hcs, rfl, ?_⟩, rfl⟩
    rw [List.append_nil]

end Assembly

/-! ## Lines that become statements -/

namespace Branch

/-- How far it is from the end of the branch to its label, if the label is
defined and the displacement has room for that. -/
def distance? (labels : List (String × Nat)) (b : Branch) : Option Int := do
  let position ← Assembly.position? labels b.label
  let distance := (position : Int) - b.ending
  if b.reach.Holds distance then some distance else none

/-- The label of the branch is defined, and the displacement fits. -/
def Resolves (labels : List (String × Nat)) (b : Branch) : Prop :=
  ∃ position, Assembly.position? labels b.label = some position ∧
    b.reach.Holds ((position : Int) - b.ending)

theorem distance?_eq_some_iff {labels : List (String × Nat)} {b : Branch} {distance : Int} :
    b.distance? labels = some distance ↔
      ∃ position, Assembly.position? labels b.label = some position ∧
        distance = (position : Int) - b.ending ∧ b.reach.Holds distance := by
  unfold distance?
  cases Assembly.position? labels b.label with
  | none => simp
  | some position =>
    simp only [Option.bind_eq_bind, Option.bind_some, Option.some.injEq, exists_eq_left']
    split
    · rename_i hholds
      constructor
      · rintro h
        cases h
        exact ⟨rfl, hholds⟩
      · rintro ⟨rfl, -⟩
        rfl
    · rename_i hnot
      constructor
      · intro h
        cases h
      · rintro ⟨rfl, hholds⟩
        exact absurd hholds hnot

end Branch

namespace Line

/-- The statement that a line becomes when the labels have these positions. -/
def statement? (labels : List (String × Nat)) (start : Nat) : Line → Option Statement
  | plain s => some s
  | branch row reach label defined labelled reaches =>
      let ending := start + (branch row reach label defined labelled reaches).size
      (Branch.distance? labels ⟨reach, label, ending⟩).map fun distance =>
        ⟨row, .immediate (reach.immediate distance), defined, Reach.fits_immediate reaches distance⟩

/-- The statements that lines become of which the first starts at `start`. -/
def statements? (labels : List (String × Nat)) : (start : Nat) → List Line → Option (List Statement)
  | _, [] => some []
  | start, l :: lines => do
      let s ← l.statement? labels start
      return s :: (← statements? labels (start + l.size) lines)

theorem statements?_cons_eq_some_iff {labels : List (String × Nat)} {start : Nat} {l : Line}
    {lines : List Line} {ss : List Statement} :
    statements? labels start (l :: lines) = some ss ↔
      ∃ s rest, l.statement? labels start = some s ∧
        statements? labels (start + l.size) lines = some rest ∧ ss = s :: rest := by
  rw [statements?]
  simp only [bind, Option.bind_eq_some_iff, pure, Option.some.injEq]
  constructor
  · rintro ⟨s, hs, rest, hrest, rfl⟩
    exact ⟨s, rest, hs, hrest, rfl⟩
  · rintro ⟨s, rest, hs, hrest, rfl⟩
    exact ⟨s, hs, rest, hrest, rfl⟩

/-- A line becomes a statement of its own size. -/
theorem size_of_statement? {labels : List (String × Nat)} {start : Nat} {l : Line} {s : Statement}
    (h : l.statement? labels start = some s) : s.size = l.size := by
  cases l with
  | plain s' =>
    cases h
    rw [← s.length_bytes, Statement.bytes, List.length_append]
    rfl
  | branch row reach label defined labelled reaches =>
    obtain ⟨distance, -, rfl⟩ := Option.map_eq_some_iff.mp h
    cases reach <;> rfl

/-- The pieces of a line can be written when the line becomes a statement,
and then they are that statement in code. -/
theorem resolve_pieces_ok_iff {labels : List (String × Nat)} {start : Nat} {l : Line}
    {code : List Byte} :
    Assembly.resolve labels start l.pieces = .ok code ↔
      ∃ s, l.statement? labels start = some s ∧ code = s.bytes := by
  cases l with
  | plain s =>
    rw [pieces, Assembly.resolve_final_ok_iff]
    constructor
    · rintro ⟨_, h, rfl⟩
      cases h
      exact ⟨s, rfl, rfl⟩
    · rintro ⟨_, h, rfl⟩
      cases h
      exact ⟨_, rfl, rfl⟩
  | branch row reach label defined labelled reaches =>
    have hending : start + row.opcode.bytes.length + reach.size =
        start + (branch row reach label defined labelled reaches).size := by
      simp only [size, pieces, Assembly.piecesSize, List.foldr_cons, List.foldr_nil, Piece.size]
      omega
    rw [pieces, Assembly.resolve_final_ok_iff]
    simp only [Assembly.resolvePiece, statement?, Option.map_eq_some_iff,
      Branch.distance?_eq_some_iff, hending]
    cases Assembly.position? labels label with
    | none =>
      constructor
      · rintro ⟨_, h, -⟩
        cases h
      · rintro ⟨_, ⟨_, ⟨_, h, -⟩, -⟩, -⟩
        cases h
    | some position =>
      simp only [Assembly.displacementBytes_ok_iff]
      constructor
      · rintro ⟨_, ⟨hholds, rfl⟩, rfl⟩
        exact ⟨_, ⟨_, ⟨position, rfl, rfl, hholds⟩, rfl⟩, rfl⟩
      · rintro ⟨_, ⟨_, ⟨_, h, rfl, hholds⟩, rfl⟩, rfl⟩
        cases h
        exact ⟨_, ⟨hholds, rfl⟩, rfl⟩

/-- Lines can be written when they become statements, and then they are
those statements in code. -/
theorem resolve_ok_iff {labels : List (String × Nat)} {start : Nat} {lines : List Line}
    {code : List Byte} :
    Assembly.resolve labels start (lines.flatMap pieces) = .ok code ↔
      ∃ ss, statements? labels start lines = some ss ∧ code = ss.flatMap Statement.bytes := by
  induction lines generalizing start code with
  | nil =>
    constructor
    · intro h
      cases h
      exact ⟨[], rfl, rfl⟩
    · rintro ⟨_, h, rfl⟩
      cases h
      rfl
  | cons l lines ih =>
    rw [List.flatMap_cons, Assembly.resolve_append_ok_iff]
    simp only [resolve_pieces_ok_iff, statements?_cons_eq_some_iff]
    constructor
    · rintro ⟨_, back, ⟨s, hs, rfl⟩, hback, rfl⟩
      obtain ⟨ss, hss, rfl⟩ := ih.mp hback
      exact ⟨s :: ss, ⟨s, ss, hs, hss, rfl⟩, rfl⟩
    · rintro ⟨_, ⟨s, ss, hs, hss, rfl⟩, rfl⟩
      exact ⟨s.bytes, _, ⟨s, hs, rfl⟩, ih.mpr ⟨ss, hss, rfl⟩, rfl⟩

/-- Lines become statements exactly when their branches have labels in reach. -/
theorem statements?_isSome_iff {labels : List (String × Nat)} {start : Nat} {lines : List Line} :
    (∃ ss, statements? labels start lines = some ss) ↔
      ∀ b ∈ branches start lines, b.Resolves labels := by
  induction lines generalizing start with
  | nil => exact ⟨fun _ _ h => absurd h List.not_mem_nil, fun _ => ⟨[], rfl⟩⟩
  | cons l lines ih =>
    have hcons : (∃ ss, statements? labels start (l :: lines) = some ss) ↔
        (∃ s, l.statement? labels start = some s) ∧
          ∀ b ∈ branches (start + l.size) lines, b.Resolves labels := by
      rw [← ih]
      constructor
      · rintro ⟨_, h⟩
        obtain ⟨s, rest, hs, hrest, -⟩ := statements?_cons_eq_some_iff.mp h
        exact ⟨⟨s, hs⟩, ⟨rest, hrest⟩⟩
      · rintro ⟨⟨s, hs⟩, ⟨rest, hrest⟩⟩
        exact ⟨s :: rest, statements?_cons_eq_some_iff.mpr ⟨s, rest, hs, hrest, rfl⟩⟩
    rw [hcons]
    cases l with
    | plain s => exact ⟨And.right, fun h => ⟨⟨s, rfl⟩, h⟩⟩
    | branch row reach label defined labelled reaches =>
      rw [branches, List.forall_mem_cons]
      refine and_congr_left fun _ => ?_
      constructor
      · rintro ⟨s, hs⟩
        obtain ⟨distance, hdistance, -⟩ := Option.map_eq_some_iff.mp hs
        obtain ⟨position, hposition, rfl, hholds⟩ := Branch.distance?_eq_some_iff.mp hdistance
        exact ⟨position, hposition, hholds⟩
      · rintro ⟨position, hposition, hholds⟩
        exact ⟨_, Option.map_eq_some_iff.mpr
          ⟨_, Branch.distance?_eq_some_iff.mpr ⟨position, hposition, rfl, hholds⟩, rfl⟩⟩

end Line

/-- An assembly of lines can be finished when they become statements, and
then its code is those statements. -/
theorem Assembly.finish_ok_iff {a : Assembly} {lines : List Line}
    (hpieces : a.pieces.toList = lines.flatMap Line.pieces) {p : Program} :
    a.finish = .ok p ↔
      ∃ ss, Line.statements? a.labels 0 lines = some ss ∧
        p = ⟨ss.flatMap Statement.bytes, a.maxDepth, a.labels⟩ := by
  rw [finish, hpieces, bind_ok_iff]
  constructor
  · rintro ⟨code, hcode, hp⟩
    obtain ⟨ss, hss, rfl⟩ := Line.resolve_ok_iff.mp hcode
    cases hp
    exact ⟨ss, hss, rfl⟩
  · rintro ⟨ss, hss, rfl⟩
    exact ⟨_, Line.resolve_ok_iff.mpr ⟨ss, hss, rfl⟩, rfl⟩

end KeyLoop
