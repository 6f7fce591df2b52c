import EvmPrep.Proofs.Quickened
set_option autoImplicit false

/-!
# Decoding at a position

A dispatcher does not cut a buffer, it decodes the instruction at its position.  Where
an instruction starts the two agree (`decode?_of_mem_cut`), so in quickened code the
replacement is decoded where the old instruction stood (`decode?_quicken`), and what a
dispatcher charges for it is what the old instruction costs (`metric_replacement`).
-/

namespace EvmPrep

/-! ## Reading instructions -/

theorem decode?_of_mem_cut {code : List UInt8} {i : Instruction}
    (h : i ∈ cut preparedWidth 0 code) : Instruction.decode? code i.offset = some i := by
  obtain ⟨-, here, himmediate⟩ := of_mem_cut h
  rw [Instruction.decode?, drop_eq_cons_of_getElem? here]
  dsimp only
  rw [← himmediate]

theorem pushValue?_eq_some_iff {i : Instruction} {w : Word} :
    i.pushValue? = some w ↔ i.operand = .value w := by
  unfold Instruction.pushValue?
  cases i.operand <;> simp

theorem operand_ne_pooled {i : Instruction} (plain : i.byte ≠ Opcode.pushc.toByte) (index : UInt8) :
    i.operand ≠ .pooled index := by
  have hplain : i.isPooled = false := by simpa [Instruction.isPooled] using plain
  rw [Instruction.operand, hplain]
  cases i.isPush with
  | false => simp
  | true => cases Word.ofBytes? i.immediate <;> simp

theorem exists_push_of_pushWidth_pos {b : UInt8} (h : 0 < pushWidth b) :
    ∃ n, Opcode.ofByte? b = some (.push n) := by
  unfold pushWidth at h
  split at h
  case isFalse => exact absurd h (Nat.lt_irrefl 0)
  case isTrue hrange =>
    obtain ⟨hlo, hhi⟩ := hrange
    rw [UInt8.le_iff_toNat_le] at hlo hhi
    have hlo : 96 ≤ b.toNat := hlo
    have hhi : b.toNat ≤ 127 := hhi
    refine ⟨⟨b.toNat - 96, by omega⟩, Opcode.ofByte?_eq_some_iff.mpr (UInt8.toNat_inj.mp ?_)⟩
    show ((0x60 : UInt8) + UInt8.ofNat (b.toNat - 96)).toNat = b.toNat
    rw [UInt8.toNat_add, UInt8.toNat_ofNat']
    show (96 + (b.toNat - 96) % 256) % 256 = b.toNat
    omega

/-- All pushes cost the same and have the same effect, the pooled one too. -/
theorem metric_of_pushWidth_pos {b : UInt8} (h : 0 < pushWidth b) :
    Metric.ofByte b = Metric.ofByte Opcode.pushc.toByte := by
  obtain ⟨n, hn⟩ := exists_push_of_pushWidth_pos h
  rw [Metric.ofByte_eq, Metric.ofByte_eq, Info.ofByte, Info.ofByte, hn, Opcode.ofByte?_toByte]
  rfl

/-- A replacement costs what the instruction costs, and has the same effect on the stack. -/
theorem metric_replacement (ctx : QuickenContext) (final : ConstantPool) (pushed : Option Word)
    (i : Instruction) :
    Metric.ofByte (ctx.replacement final pushed i).byte = Metric.ofByte i.byte := by
  rcases replacement_cases ctx final pushed i with
    ⟨w, -, -, hi, -, h⟩ | ⟨j, w, -, hj, -, -, h⟩ | h
  · have hwide := two_le_pushWidth_of_isPoolable hi
    rw [h, metric_of_pushWidth_pos (by omega : 0 < pushWidth i.byte)]
    rfl
  · rw [h, Metric.ofByte_eq, Metric.ofByte_eq, Info.ofByte, Info.ofByte]
    rcases resolved?_eq_some_iff.mp hj with ⟨hop, rfl⟩ | ⟨hop, rfl⟩
    all_goals
      rw [Instruction.opcode?] at hop
      rw [hop, Opcode.ofByte?_toByte]
      rfl
  · rw [h]

/-! ## Kept and quickened buffers -/

theorem decode?_keep {code : AnalyzedCode} {k : Nat} {i : Instruction}
    (here : code.layout[k]? = some i) : Instruction.decode? code.keep.bytes i.offset = some i :=
  decode?_of_mem_cut (List.mem_of_getElem? here)

section Sound

variable {code : AnalyzedCode} (sound : code.Sound) (config : QuickenConfig)
include sound

/-- What replaces an instruction is decoded where the instruction stood. -/
theorem decode?_quicken {k : Nat} {i : Instruction} (here : code.layout[k]? = some i) :
    Instruction.decode? (code.quicken config).bytes i.offset
      = some ((code.quickenContext config).replacement (code.quicken config).pool
          (pushedBefore code.layout k) i) := by
  have hnew := getElem?_layout_quicken sound config k
  rw [here, Option.map_some] at hnew
  have hdecode := decode?_of_mem_cut (List.mem_of_getElem? hnew)
  rwa [offset_replacement (sound.whole i (List.mem_of_getElem? here))] at hdecode

theorem length_bytes_quicken : (code.quicken config).bytes.length = code.bytes.length := by
  have hplaces : (code.quicken config).layout.map Instruction.place
      = code.layout.map Instruction.place := by
    apply List.ext_getElem?
    intro k
    rw [List.getElem?_map, List.getElem?_map, getElem?_layout_quicken sound config]
    cases hi : code.layout[k]? with
    | none => rfl
    | some i =>
      simp only [Option.map_some]
      rw [place_replacement (sound.whole i (List.mem_of_getElem? hi))]
  have hlength : ∀ b : CodeBuffer,
      b.bytes.length = ((b.layout.map Instruction.place).map Prod.snd).sum := by
    intro b
    conv_lhs => rw [← flatMap_bytes_cut preparedWidth 0 b.bytes]
    rw [List.length_flatMap, List.map_map]
    rfl
  rw [hlength, hlength, hplaces]

theorem decode?_of_length_le {position : Nat} (behind : code.bytes.length ≤ position) :
    Instruction.decode? (code.quicken config).bytes position = none
      ∧ Instruction.decode? code.keep.bytes position = none := by
  rw [Instruction.decode?_eq_none_iff, Instruction.decode?_eq_none_iff,
    length_bytes_quicken sound]
  exact ⟨behind, behind⟩

end Sound

end EvmPrep
