/-
# Where branches lead

In code that was decoded from address zero the address of an instruction is
the distance of its first byte from the start.  So an address is looked up
right exactly if the answer is the instruction that starts at that byte, and a
branch leads to the instruction that starts where its displacement ends:

    target = offset + size + displacement

The sum is one of integers.  The decoder adds modulo the number of addresses;
that makes no difference, since code that leaves room for a displacement in
front of it has no byte at the address of a sum below zero
(`ofNat_eq_add_iff`).  A target inside an instruction, behind the code or in
front of it is no target at all.

The addresses ascend, and so it does not matter how they are looked up: every
lookup that is right on code in order gives the answers of halving, reading
from the front among them (`finds_scan?`).
-/
import KeyLoop.Proofs.Instruction.Boundaries
import KeyLoop.Proofs.Method.Decoded

namespace KeyLoop

/-! ## Displacements -/

/-- The displacement of a branch or a leave, the first one of a switch, in
bytes from the end of the instruction. -/
def Instruction.displacement? (i : Instruction) : Option Int :=
  match i.flow, i.operand with
  | .conditional, .immediate n | .unconditional, .immediate n | .leave, .immediate n => some n.toInt
  | .switch, .switch (d :: _) => some d.toInt
  | _, _ => none

namespace Statement

variable (s : Statement) (address : BitVec 64) (offset : Nat)

/-- The first target lies a displacement behind the end of the instruction. -/
theorem branchTarget?_eq_displaced :
    (s.instruction address offset).branchTarget? =
      (s.instruction address offset).displacement?.map fun d =>
        address + BitVec.ofNat 64 s.size + BitVec.ofInt 64 d := by
  rw [branchTarget?_instruction]
  have hfits := s.fits
  show (Decode.targets s.row.flow _ s.operand).head? =
    (match s.row.flow, s.operand with
      | .conditional, .immediate n | .unconditional, .immediate n | .leave, .immediate n => some n.toInt
      | .switch, .switch (d :: _) => some d.toInt
      | _, _ => none).map _
  cases hoperand : s.operand with
  | immediate n =>
    cases hflow : s.row.flow <;> rfl
  | switch displacements =>
    have hswitch : s.row.flow = .switch := by
      rw [hoperand] at hfits
      refine Row.flow_of_switch s.defined ?_
      cases htype : s.row.operandType <;> rw [htype] at hfits <;> first | rfl | cases hfits
    rw [hswitch]
    cases displacements <;> rfl
  | none => cases s.row.flow <;> rfl
  | target a => cases s.row.flow <;> rfl
  | token t => cases s.row.flow <;> rfl
  | slot kind index => cases s.row.flow <;> rfl

/-- A displacement is a number of at most four bytes. -/
theorem displacement?_bounds {d : Int} (h : (s.instruction address offset).displacement? = some d) :
    -0x80000000 ≤ d ∧ d < 0x80000000 := by
  have himmediate : ∀ n, s.operand = .immediate n → s.row.flow.hasLabel = true →
      -0x80000000 ≤ n.toInt ∧ n.toInt < 0x80000000 := by
    intro n hoperand hlabel
    have hfits := s.fits
    rw [hoperand] at hfits
    obtain ⟨type, bits⟩ := n
    rcases Row.operandType_of_hasLabel s.defined hlabel with htype | htype
    · rw [htype] at hfits
      obtain rfl : type = .int8 := hfits
      have hlow : -0x80 ≤ bits.toInt := BitVec.le_toInt bits
      have hhigh : bits.toInt < 0x80 := BitVec.toInt_lt
      show -0x80000000 ≤ bits.toInt ∧ bits.toInt < 0x80000000
      omega
    · rw [htype] at hfits
      obtain rfl : type = .int32 := hfits
      exact ⟨BitVec.le_toInt bits, BitVec.toInt_lt⟩
  unfold Instruction.displacement? at h
  split at h
  · rename_i n hflow hoperand
    cases h
    exact himmediate n hoperand (congrArg Flow.hasLabel hflow)
  · rename_i n hflow hoperand
    cases h
    exact himmediate n hoperand (congrArg Flow.hasLabel hflow)
  · rename_i n hflow hoperand
    cases h
    exact himmediate n hoperand (congrArg Flow.hasLabel hflow)
  · cases h
    exact ⟨BitVec.le_toInt _, BitVec.toInt_lt⟩
  · cases h

end Statement

/-- Addition modulo the number of addresses is addition, where a displacement
cannot lead around to the code. -/
theorem ofNat_eq_add_iff {place behind : Nat} {d : Int} (hlow : -0x80000000 ≤ d)
    (hhigh : d < 0x80000000) (hplace : place + 0x80000000 < 0x10000000000000000)
    (hbehind : behind + 0x80000000 ≤ 0x10000000000000000) :
    BitVec.ofNat 64 place = BitVec.ofNat 64 behind + BitVec.ofInt 64 d ↔ (place : Int) = behind + d := by
  rw [← BitVec.ofInt_natCast, ← BitVec.ofInt_natCast, ← BitVec.ofInt_add]
  constructor
  · intro h
    have hnat : ((place : Int) % 0x10000000000000000).toNat =
        (((behind : Int) + d) % 0x10000000000000000).toNat := congrArg BitVec.toNat h
    omega
  · intro h
    rw [h]

/-! ## Where instructions end -/

/-- An instruction and those before it take no more than all of them. -/
theorem extent_take_add_size_le {is : List Instruction} {k : Nat} {i : Instruction}
    (h : is[k]? = some i) : extent (is.take k) + i.size ≤ extent is := by
  induction is generalizing k with
  | nil => cases h
  | cons first rest ih =>
    cases k with
    | zero =>
      cases h
      show 0 + i.size ≤ i.size + extent rest
      omega
    | succ k =>
      have hrest := ih h
      show first.size + extent (rest.take k) + i.size ≤ first.size + extent rest
      omega

section Resolution

variable {m : Method} {bytes : List Byte} {j k : Nat} {i i' : Instruction}

/-- In code that was decoded from address zero an instruction stands at the
address of its first byte. -/
theorem address_eq_offset (hdecode : decode 0 bytes = .ok m.code) (hi : i ∈ m.code) :
    i.address = BitVec.ofNat 64 i.offset ∧ i.offset < bytes.length := by
  obtain ⟨s, hs, hlt⟩ := of_mem_decode hdecode hi
  refine ⟨?_, hlt⟩
  rw [hs]
  exact BitVec.zero_add _

theorem offset_add_size_le (hdecode : decode 0 bytes = .ok m.code) (hk : m.code[k]? = some i) :
    i.offset + i.size ≤ bytes.length := by
  obtain ⟨hall, htiles⟩ := tiles_of_decode hdecode
  rw [(htiles k i hk).1, ← hall]
  exact extent_take_add_size_le hk

/-- An instruction ends before the later ones start. -/
theorem offset_add_size_le_of_lt (hdecode : decode 0 bytes = .ok m.code) (hj : m.code[j]? = some i)
    (hk : m.code[k]? = some i') (hlt : j < k) : i.offset + i.size ≤ i'.offset := by
  obtain ⟨-, htiles⟩ := tiles_of_decode hdecode
  have hbefore : (m.code.take k)[j]? = some i := by rwa [List.getElem?_take_of_lt hlt]
  have htake := extent_take_add_size_le hbefore
  rw [List.take_take, Nat.min_eq_left (Nat.le_of_lt hlt)] at htake
  rwa [(htiles j i hj).1, (htiles k i' hk).1]

/-- No instruction starts inside another one. -/
theorem not_inside (hdecode : decode 0 bytes = .ok m.code) (hj : m.code[j]? = some i)
    (hk : m.code[k]? = some i') : ¬ (i.offset < i'.offset ∧ i'.offset < i.offset + i.size) := by
  rintro ⟨hlow, hhigh⟩
  rcases Nat.lt_trichotomy j k with hless | rfl | hmore
  · have hends := offset_add_size_le_of_lt hdecode hj hk hless
    omega
  · obtain rfl : i = i' := Option.some.inj (hj.symm.trans hk)
    omega
  · have hends := offset_add_size_le_of_lt hdecode hk hj hmore
    omega

theorem ascending_of_decode (hdecode : decode 0 bytes = .ok m.code)
    (hroom : bytes.length ≤ 0x10000000000000000) : m.Ascending :=
  ascending_decode hdecode (by simpa using hroom)

/-- An instruction stands at the address of a byte exactly if it starts there. -/
theorem at_address_iff (hdecode : decode 0 bytes = .ok m.code)
    (hroom : bytes.length ≤ 0x10000000000000000) (address : BitVec 64) (j : Nat) :
    m.At j (·.address = address) ↔ m.At j (·.offset = address.toNat) := by
  have hoffset : ∀ i ∈ m.code, i.address = address ↔ i.offset = address.toNat := by
    intro i hi
    obtain ⟨haddress, hlt⟩ := address_eq_offset hdecode hi
    rw [haddress, ← BitVec.toNat_inj, BitVec.toNat_ofNat, Nat.mod_eq_of_lt (by omega)]
  constructor
  · exact fun h => h.imp fun i hi => (hoffset i (List.mem_of_getElem? hi)).mp
  · exact fun h => h.imp fun i hi => (hoffset i (List.mem_of_getElem? hi)).mpr

/-- An instruction leads where its displacement ends. -/
theorem target_iff (hdecode : decode 0 bytes = .ok m.code)
    (hroom : bytes.length + 0x80000000 ≤ 0x10000000000000000) (hk : m.code[k]? = some i) (j : Nat) :
    (∃ address, i.branchTarget? = some address ∧ m.At j (·.address = address)) ↔
      ∃ d, i.displacement? = some d ∧ m.At j fun i' => (i'.offset : Int) = i.offset + i.size + d := by
  obtain ⟨haddress, -⟩ := address_eq_offset hdecode (List.mem_of_getElem? hk)
  have hends := offset_add_size_le hdecode hk
  obtain ⟨s, address, offset, rfl⟩ := isStatement_of_mem_decode hdecode (List.mem_of_getElem? hk)
  have hsum : ∀ d, (s.instruction address offset).displacement? = some d → ∀ i' ∈ m.code,
      i'.address = address + BitVec.ofNat 64 s.size + BitVec.ofInt 64 d ↔
        (i'.offset : Int) = (offset : Int) + s.size + d := by
    intro d hd i' hi'
    obtain ⟨hlow, hhigh⟩ := s.displacement?_bounds address offset hd
    obtain ⟨haddress', hlt⟩ := address_eq_offset hdecode hi'
    have hbehind : address + BitVec.ofNat 64 s.size = BitVec.ofNat 64 (offset + s.size) := by
      rw [BitVec.ofNat_add]
      exact congrArg (· + BitVec.ofNat 64 s.size) haddress
    have hplace : offset + s.size ≤ bytes.length := hends
    rw [haddress', hbehind, ofNat_eq_add_iff hlow hhigh (by omega) (by omega)]
    omega
  rw [s.branchTarget?_eq_displaced]
  constructor
  · rintro ⟨target, htarget, hat⟩
    obtain ⟨d, hd, rfl⟩ := Option.map_eq_some_iff.mp htarget
    exact ⟨d, hd, hat.imp fun i' hi' => (hsum d hd i' (List.mem_of_getElem? hi')).mp⟩
  · rintro ⟨d, hd, hat⟩
    exact ⟨_, Option.map_eq_some_iff.mpr ⟨d, hd, rfl⟩,
      hat.imp fun i' hi' => (hsum d hd i' (List.mem_of_getElem? hi')).mpr⟩

end Resolution

namespace Method

/-- **Branches are resolved exactly.**  Take a method whose code was decoded
from address zero; the code leaves room for a displacement in front of it.  An
address is looked up as index `j` exactly if instruction `j` starts at that
byte.  An instruction branches to index `j` exactly if it is a branch, a switch
or a leave whose first displacement, counted from its end, is where instruction
`j` starts; in front of the code, behind it and inside of an instruction there
is nothing to branch to.  Any lookup that is right on code in order answers
the same. -/
theorem branchTarget?_exact (m : Method) (bytes : List Byte) (hdecode : decode 0 bytes = .ok m.code)
    (hroom : bytes.length + 0x80000000 ≤ 0x10000000000000000) :
    (∀ address j, m.indexOf? address = some j ↔ m.At j (·.offset = address.toNat)) ∧
    (∀ k j, m.branchTarget? k = some j ↔
      ∃ i d, m.code[k]? = some i ∧ i.displacement? = some d ∧
        m.At j fun i' => (i'.offset : Int) = i.offset + i.size + d) ∧
    (∀ k i d, m.code[k]? = some i → i.displacement? = some d →
      ∀ target : Int, target = i.offset + i.size + d →
        target < 0 ∨ (bytes.length : Int) ≤ target ∨
          (∃ j, m.At j fun i' => (i'.offset : Int) < target ∧ target < i'.offset + i'.size) →
        m.branchTarget? k = none) ∧
    ∀ find, m.Finds find →
      (∀ address, find address = m.indexOf? address) ∧ ∀ k, m.targetBy? find k = m.branchTarget? k := by
  have hascending : m.Ascending := ascending_of_decode hdecode (by omega)
  have hindex := m.finds_indexOf? hascending
  have htarget : ∀ k j, m.branchTarget? k = some j ↔
      ∃ i d, m.code[k]? = some i ∧ i.displacement? = some d ∧
        m.At j fun i' => (i'.offset : Int) = i.offset + i.size + d := by
    intro k j
    simp only [branchTarget?, Option.bind_eq_bind, Option.bind_eq_some_iff, hindex]
    constructor
    · rintro ⟨i, hi, hleads⟩
      obtain ⟨d, hd, hat⟩ := (target_iff hdecode hroom hi j).mp hleads
      exact ⟨i, d, hi, hd, hat⟩
    · rintro ⟨i, d, hi, hd, hat⟩
      exact ⟨i, hi, (target_iff hdecode hroom hi j).mpr ⟨d, hd, hat⟩⟩
  refine ⟨fun address j => ?_, htarget, ?_, fun find hfind => ?_⟩
  · rw [hindex, at_address_iff hdecode (by omega)]
  · rintro k i d hi hd target rfl hmiss
    refine Option.eq_none_iff_forall_ne_some.mpr fun j hj => ?_
    obtain ⟨i₀, d₀, hi₀, hd₀, i', hi', hplace⟩ := (htarget k j).mp hj
    obtain rfl : i = i₀ := Option.some.inj (hi.symm.trans hi₀)
    obtain rfl : d = d₀ := Option.some.inj (hd.symm.trans hd₀)
    obtain ⟨-, hlt⟩ := address_eq_offset hdecode (List.mem_of_getElem? hi')
    rcases hmiss with hfront | hbehind | ⟨l, x, hx, hinside⟩
    · omega
    · omega
    · exact not_inside hdecode hx hi' (by omega)
  · have hsame : find = m.indexOf? := by
      funext address
      refine Option.ext fun j => ?_
      rw [hindex]
      exact hfind hascending address j
    subst hsame
    exact ⟨fun _ => rfl, fun _ => rfl⟩

/-- A branch over a constant to a jump table that leads back to it, a branch
into the table, and a leave that leads in front of the code. -/
def outAndBackIn : List Byte :=
  [0x2B, 0x05, 0x20, 0x00, 0x00, 0x00, 0x00,
   0x45, 0x01, 0x00, 0x00, 0x00, 0xF0, 0xFF, 0xFF, 0xFF, 0x2C, 0xFD, 0xDE, 0xEA]

theorem branchTarget?_exact_outAndBackIn :
    ∃ is, decode 0 outAndBackIn = .ok is ∧
      let m := ofInstructions ⟨0⟩ "" is [] [] false
      m.indexOf? 7 = some 2 ∧ m.indexOf? 9 = none ∧ m.branchTarget? 0 = some 2 ∧
        m.targetBy? m.scan? 2 = some 0 ∧ m.branchTarget? 3 = none ∧ m.branchTarget? 4 = none := by
  obtain ⟨is, hdecode, hlisting⟩ := exists_of_decodesTo outAndBackIn
    (fun is => is.map (fun i => (i.offset, i.size, i.displacement?)) ==
      [(0, 2, some 5), (2, 5, none), (7, 9, some (-16)), (16, 2, some (-3)), (18, 2, some (-22))])
    (by decide +kernel)
  refine ⟨is, hdecode, ?_⟩
  intro m
  obtain ⟨hindex, htarget, hmiss, hfind⟩ :=
    branchTarget?_exact m outAndBackIn hdecode (by decide)
  obtain _ | ⟨a, _ | ⟨b, _ | ⟨c, _ | ⟨d, _ | ⟨e, _ | _⟩⟩⟩⟩⟩ := is <;> simp at hlisting
  obtain ⟨⟨ha, hasize, had⟩, ⟨hb, hbsize, -⟩, ⟨hc, hcsize, hcd⟩, ⟨hd, hdsize, hdd⟩, he, hesize, hed⟩ :=
    hlisting
  refine ⟨(hindex 7 2).mpr ⟨c, rfl, hc⟩, ?_, (htarget 0 2).mpr ⟨a, 5, rfl, had, c, rfl, ?_⟩, ?_,
    hmiss 3 d (-3) rfl hdd 15 ?_ (.inr (.inr ⟨2, c, rfl, ?_⟩)), hmiss 4 e (-22) rfl hed (-2) ?_ (.inl ?_)⟩
  · refine Option.eq_none_iff_forall_ne_some.mpr fun j hj => ?_
    obtain ⟨i, hi, hplace⟩ := (hindex 9 j).mp hj
    have hnine : i.offset = 9 := hplace
    exact not_inside hdecode (j := 2) rfl hi (by omega)
  · omega
  · rw [(hfind m.scan? m.finds_scan?).2]
    exact (htarget 2 0).mpr ⟨c, -16, rfl, hcd, a, rfl, by omega⟩
  all_goals omega

end Method

end KeyLoop
