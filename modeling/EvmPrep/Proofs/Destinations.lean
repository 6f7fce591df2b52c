import EvmPrep.Proofs.Quickened
set_option autoImplicit false

/-!
# Which destinations are legal in prepared code

The table is made from the source and the dispatcher runs the prepared code, so two
things have to fit together.  The three questions that can be asked of a table have
the same answer, and it is told by membership alone (`JumpTable.verify_eq`).  And what
the table lists are the `JUMPDEST`s of the prepared code: quickening neither removes
nor makes one (`byte_replacement_eq_jumpdest_iff`).
-/

namespace EvmPrep

/-! ## Questions to a table -/

/-- In an increasing row the place of a number is how many are smaller. -/
theorem countP_lt_of_getElem?_eq_some {xs : List Nat} (increasing : xs.Pairwise (· < ·)) {k x : Nat}
    (h : xs[k]? = some x) : (xs.countP fun y => y < x) = k := by
  induction xs generalizing k with
  | nil => simp at h
  | cons y rest ih =>
    obtain ⟨before, increasing⟩ := List.pairwise_cons.mp increasing
    cases k with
    | zero =>
      obtain rfl : y = x := by simpa using h
      rw [List.countP_eq_zero]
      intro z hz
      have hle : y ≤ z := by
        rcases List.mem_cons.mp hz with rfl | hz
        · exact Nat.le_refl _
        · exact Nat.le_of_lt (before z hz)
      simpa using hle
    | succ k =>
      rw [List.getElem?_cons_succ] at h
      have hlt : y < x := before x (List.mem_of_getElem? h)
      rw [List.countP_cons_of_pos (by simpa using hlt), ih increasing h]

namespace JumpTable

variable {t : JumpTable} {dest : Word}

/-- A check lets a legal word pass as it is, and hands any other word back. -/
theorem verify_eq : t.verify dest
    = if t.isValid dest = true then .ok dest.toNat else .error (.invalidJump dest) := by
  unfold verify
  cases ho : dest.toOffset? with
  | none =>
    have hinvalid : ¬ t.isValid dest = true := by
      rw [isValid, position?, ho]
      exact Bool.false_ne_true
    rw [if_neg hinvalid]
  | some offset =>
    obtain ⟨rfl, -⟩ := Word.toOffset?_eq_some_iff.mp ho
    have hsame : t.isValid dest = t.isValidOffset dest.toNat := by
      rw [isValid, position?, ho]
      rfl
    rw [hsame]

theorem verify_eq_ok_iff {offset : Nat} :
    t.verify dest = .ok offset
      ↔ dest.toNat = offset ∧ offset < UInt64.size ∧ offset ∈ t.dests := by
  rw [verify_eq]
  by_cases hvalid : t.isValid dest = true
  · rw [if_pos hvalid, Except.ok.injEq]
    constructor
    · intro h
      subst h
      exact ⟨rfl, isValid_iff.mp hvalid⟩
    · intro h
      exact h.1
  · rw [if_neg hvalid]
    constructor
    · intro h
      cases h
    · intro ⟨hdest, hlt, hmem⟩
      subst hdest
      exact absurd (isValid_iff.mpr ⟨hlt, hmem⟩) hvalid

/-- Words of more than 64 bits are refused whatever their low bits are. -/
theorem verify_of_size_le (large : UInt64.size ≤ dest.toNat) :
    t.verify dest = .error (.invalidJump dest) := by
  rw [verify_eq, if_neg]
  intro hvalid
  have hlt := (isValid_iff.mp hvalid).1
  omega

theorem isOk_verify : (t.verify dest).isOk = t.isValid dest := by
  rw [verify_eq]
  cases t.isValid dest <;> rfl

theorem eq_countP_of_position? {k : Nat} (h : t.position? dest = some k) :
    k = t.dests.toList.countP fun y => y < dest.toNat := by
  have hat := (position?_eq_some_iff.mp h).2
  rw [← Array.getElem?_toList] at hat
  exact (countP_lt_of_getElem?_eq_some t.increasing hat).symm

theorem isValidOffset_eq_isValid (t : JumpTable) (o : UInt64) :
    t.isValidOffset o.toNat = t.isValid (BitVec.ofNat 256 o.toNat) := by
  have hword : (BitVec.ofNat 256 o.toNat).toNat = o.toNat := by
    rw [BitVec.toNat_ofNat, Nat.mod_eq_of_lt]
    exact Nat.lt_trans o.toNat_lt_size (by decide)
  rw [Bool.eq_iff_iff, isValidOffset_iff, isValid_iff, hword]
  exact (and_iff_right o.toNat_lt_size).symm

end JumpTable

/-! ## Destinations in prepared code -/

/-- The ways to prepared code: quickened under a configuration, or kept as it is. -/
def AnalyzedCode.finish (code : AnalyzedCode) : Option QuickenConfig → PreparedCode
  | none => code.keep
  | some config => code.quicken config

/-- The listing has a `JUMPDEST` at the offset. -/
def CodeBuffer.ListsJumpdest (b : CodeBuffer) (offset : Nat) : Prop :=
  ∃ i ∈ b.instructions, i.offset = offset ∧ i.opcode? = some .jumpdest

theorem opcode?_eq_some_iff {i : Instruction} {o : Opcode} :
    i.opcode? = some o ↔ i.byte = o.toByte := by
  rw [Instruction.opcode?, Opcode.ofByte?_eq_some_iff]
  exact eq_comm

/-- Quickening neither removes a `JUMPDEST` nor makes one. -/
theorem byte_replacement_eq_jumpdest_iff (ctx : QuickenContext) (final : ConstantPool)
    (pushed : Option Word) (i : Instruction) :
    (ctx.replacement final pushed i).byte = Opcode.jumpdest.toByte
      ↔ i.byte = Opcode.jumpdest.toByte := by
  rcases replacement_cases ctx final pushed i with
    ⟨w, -, -, hi, -, h⟩ | ⟨j, w, -, hj, -, -, h⟩ | h
  · rw [h]
    refine iff_of_false (by decide : Opcode.pushc.toByte ≠ Opcode.jumpdest.toByte) fun hbyte => ?_
    have hwide := two_le_pushWidth_of_isPoolable hi
    rw [hbyte] at hwide
    exact absurd hwide (by decide)
  · rw [h]
    rcases resolved?_eq_some_iff.mp hj with ⟨hop, rfl⟩ | ⟨hop, rfl⟩
    all_goals
      rw [opcode?_eq_some_iff] at hop
      rw [hop]
      dsimp only
      decide
  · rw [h]

section Sound

variable {code : AnalyzedCode} (sound : code.Sound)
include sound

/-- Whichever way code is prepared, the table lists the `JUMPDEST`s of its buffer. -/
theorem mem_dests_iff_layout_finish (last : Option QuickenConfig) (offset : Nat) :
    offset ∈ code.jumpTable.dests
      ↔ ∃ i ∈ (code.finish last).layout, i.offset = offset ∧ i.byte = Opcode.jumpdest.toByte := by
  cases last with
  | none => exact sound.mem_dests_iff offset
  | some config =>
    rw [sound.mem_dests_iff]
    constructor
    · intro ⟨i, hi, hoffset, hbyte⟩
      obtain ⟨k, hk⟩ := List.mem_iff_getElem?.mp hi
      have hnew := getElem?_layout_quicken sound config k
      rw [hk, Option.map_some] at hnew
      refine ⟨_, List.mem_of_getElem? hnew, ?_, ?_⟩
      · rw [← hoffset]
        exact offset_replacement (sound.whole i hi)
      · exact (byte_replacement_eq_jumpdest_iff ..).mpr hbyte
    · intro ⟨j, hj, hoffset, hbyte⟩
      obtain ⟨k, hk⟩ := List.mem_iff_getElem?.mp hj
      have hnew : (code.quicken config).layout[k]? = some j := hk
      rw [getElem?_layout_quicken sound config k] at hnew
      obtain ⟨i, hi, rfl⟩ := Option.map_eq_some_iff.mp hnew
      have hmem := List.mem_of_getElem? hi
      refine ⟨i, hmem, ?_, (byte_replacement_eq_jumpdest_iff ..).mp hbyte⟩
      rw [← hoffset]
      exact (offset_replacement (sound.whole i hmem)).symm

theorem lt_len_of_mem_dests {offset : Nat} (h : offset ∈ code.jumpTable.dests) :
    offset < code.len := by
  obtain ⟨i, hi, rfl, hbyte⟩ := (sound.mem_dests_iff offset).mp h
  refine Nat.lt_of_not_le fun hbehind => ?_
  rw [sound.padded i hi hbehind] at hbyte
  exact absurd hbyte (by decide)

theorem mem_dests_iff_listsJumpdest (last : Option QuickenConfig) (offset : Nat) :
    offset ∈ code.jumpTable.dests ↔ (code.finish last).ListsJumpdest offset := by
  have hlen : (code.finish last).len = code.len := by cases last <;> rfl
  unfold CodeBuffer.ListsJumpdest
  simp only [opcode?_eq_some_iff, CodeBuffer.mem_instructions_iff, hlen]
  constructor
  · intro h
    obtain ⟨i, hi, rfl, hbyte⟩ := (mem_dests_iff_layout_finish sound last offset).mp h
    exact ⟨i, ⟨hi, lt_len_of_mem_dests sound h⟩, rfl, hbyte⟩
  · intro ⟨i, ⟨hi, _⟩, hoffset, hbyte⟩
    exact (mem_dests_iff_layout_finish sound last offset).mpr ⟨i, hi, hoffset, hbyte⟩

end Sound

theorem CodeBuffer.ListsJumpdest.at_start {b : CodeBuffer} {offset : Nat}
    (h : b.ListsJumpdest offset) :
    b.program[offset]? = some Opcode.jumpdest.toByte ∧ IsStart preparedWidth b.bytes offset := by
  obtain ⟨i, hi, rfl, hop⟩ := h
  obtain ⟨hi, hlt⟩ := CodeBuffer.mem_instructions_iff.mp hi
  obtain ⟨hstart, hbyte, -⟩ := of_mem_cut hi
  refine ⟨?_, hstart⟩
  rw [CodeBuffer.program, List.getElem?_take_of_lt hlt, hbyte,
    opcode?_eq_some_iff.mp hop]

theorem mem_dests_analyze_iff_isDestination {program : List UInt8} {offset : Nat} :
    offset ∈ (RawCode.ofProgram program).analyze.jumpTable.dests
      ↔ IsDestination program offset := by
  have hbuffer : offset ∈ (RawCode.ofProgram program).analyze.jumpTable.dests
      ↔ IsDestination (program ++ List.replicate CodeBuffer.paddingSize 0) offset :=
    mem_dests_ofCode_iff
  rw [← isDestination_append_iff, ← hbuffer]
  exact (and_iff_left_of_imp fun h => lt_len_of_mem_dests (sound_analyze program) h).symm

theorem isDestination_of_mem_dests {program : List UInt8} {offset : Nat}
    (h : offset ∈ (RawCode.ofProgram program).analyze.jumpTable.dests) :
    IsDestination program offset := mem_dests_analyze_iff_isDestination.mp h

/-- The check of a destination in full.  It passes a word that names a `JUMPDEST` of the prepared
listing, which is also one of the program, and hands back every other word, a large one too
however its low bits look.  The questions to the table agree with the check, and the place of a
legal word is the number of smaller destinations. -/
theorem verifyJump_exact (program : List UInt8) (last : Option QuickenConfig) (dest : Word) :
    let code := (RawCode.ofProgram program).analyze.finish last
    (∀ o : UInt64, code.verifyJump dest = .ok o.toNat
        ↔ dest.toNat = o.toNat ∧ o.toNat < program.length ∧ code.ListsJumpdest o.toNat)
      ∧ ((∃ o : UInt64, code.verifyJump dest = .ok o.toNat)
        ∨ code.verifyJump dest = .error (.invalidJump dest))
      ∧ (∀ o, code.ListsJumpdest o →
        code.program[o]? = some 0x5b ∧ IsStart preparedWidth code.bytes o
          ∧ IsDestination program o)
      ∧ (UInt64.size ≤ dest.toNat → code.verifyJump dest = .error (.invalidJump dest))
      ∧ code.jumpTable.isValid dest = (code.jumpTable.position? dest).isSome
      ∧ code.jumpTable.isValid dest = (code.jumpTable.verify dest).isOk
      ∧ (∀ o : UInt64, code.jumpTable.isValidOffset o.toNat
        = code.jumpTable.isValid (BitVec.ofNat 256 o.toNat))
      ∧ (∀ k, code.jumpTable.position? dest = some k →
        k = code.jumpTable.dests.toList.countP fun d => d < dest.toNat) := by
  intro code
  have sound := sound_analyze program
  have htable : code.jumpTable = (RawCode.ofProgram program).analyze.jumpTable := by
    cases last <;> rfl
  have hlisted : ∀ o, o ∈ code.jumpTable.dests ↔ code.ListsJumpdest o := by
    rw [htable]
    exact mem_dests_iff_listsJumpdest sound last
  have hverify : code.verifyJump dest = code.jumpTable.verify dest := rfl
  rw [hverify]
  refine ⟨?_, ?_, ?_, JumpTable.verify_of_size_le, rfl, JumpTable.isOk_verify.symm,
    code.jumpTable.isValidOffset_eq_isValid, fun _ => JumpTable.eq_countP_of_position?⟩
  · intro o
    rw [JumpTable.verify_eq_ok_iff]
    constructor
    · intro ⟨hdest, _, hmem⟩
      refine ⟨hdest, ?_, (hlisted _).mp hmem⟩
      rw [htable] at hmem
      exact lt_len_of_mem_dests sound hmem
    · intro ⟨hdest, _, hlists⟩
      exact ⟨hdest, o.toNat_lt_size, (hlisted _).mpr hlists⟩
  · rw [JumpTable.verify_eq]
    split
    case isFalse => exact .inr rfl
    case isTrue hvalid =>
      have hlt := (JumpTable.isValid_iff.mp hvalid).1
      exact .inl ⟨UInt64.ofNat dest.toNat, by rw [UInt64.toNat_ofNat_of_lt' hlt]⟩
  · intro o hlists
    obtain ⟨hbyte, hstart⟩ := hlists.at_start
    have hmem := (hlisted o).mpr hlists
    rw [htable] at hmem
    exact ⟨hbyte, hstart, isDestination_of_mem_dests hmem⟩

end EvmPrep
