import EvmPrep.Restore
import EvmPrep.Proofs.Padding
set_option autoImplicit false

/-!
# Quickening loses nothing

What a replacement stands for can be told from the replacement and the pool alone.  A
pooled push keeps the size of the push, its word is in the pool, and a word and a number
of bytes spell one immediate (`restored_toPooled`); an unchecked jump stands for one
jump (`restored_of_resolved?`).  So the listing of quickened code restores the listing
before it (`map_restored_instructions_quicken`), and since the padding was never touched
the quickened program and its pool determine the program before it.
-/

namespace EvmPrep

/-! ## One instruction -/

/-- A push is told by the width of its immediate. -/
theorem add_pushWidth {b : UInt8} (h : pushWidth b ≠ 0) :
    0x5f + UInt8.ofNat (pushWidth b) = b := by
  unfold pushWidth at h ⊢
  split at h
  case isFalse => exact absurd rfl h
  case isTrue hrange =>
    rw [if_pos hrange]
    apply UInt8.toNat_inj.mp
    rw [UInt8.toNat_add, UInt8.toNat_ofNat']
    show (95 + (b.toNat - 95) % 256) % 256 = b.toNat
    have hlt := b.toNat_lt_size
    have hlo : 96 ≤ b.toNat := UInt8.le_iff_toNat_le.mp hrange.1
    have hsize : UInt8.size = 256 := rfl
    omega

theorem ofBytes?_of_pushValue? {i : Instruction} {w : Word} (h : i.pushValue? = some w) :
    Word.ofBytes? i.immediate = some w := by
  have hoperand := pushValue?_eq_some_iff.mp h
  unfold Instruction.operand at hoperand
  split at hoperand
  · split at hoperand <;> cases hoperand
  · split at hoperand
    · split at hoperand
      · rename_i v hv
        cases hoperand
        exact hv
      · cases hoperand
    · cases hoperand

theorem poolIndex?_eq_none {i : Instruction} (plain : i.byte ≠ Opcode.pushc.toByte) :
    i.poolIndex? = none := by
  unfold Instruction.poolIndex?
  split
  · rename_i index h
    exact absurd h (operand_ne_pooled plain index)
  · rfl

section Restored

variable {i : Instruction} {pool : ConstantPool}

theorem restored_of_plain
    (plain : i.byte ≠ Opcode.pushc.toByte ∧ i.byte ≠ Opcode.jumpv.toByte
      ∧ i.byte ≠ Opcode.jumpvi.toByte) : i.restored pool = i := by
  obtain ⟨hpushc, hjumpv, hjumpvi⟩ := plain
  have hstatic : i.opcode?.bind Opcode.dynamic? = none := by
    cases hop : i.opcode? with
    | none => rfl
    | some o =>
      have hbyte := opcode?_eq_some_iff.mp hop
      cases o with
      | jumpv => exact absurd hbyte hjumpv
      | jumpvi => exact absurd hbyte hjumpvi
      | _ => rfl
  rw [Instruction.restored, poolIndex?_eq_none hpushc]
  dsimp only
  rw [hstatic]

theorem restored_of_resolved? {j : Instruction} (h : i.resolved? = some j) :
    j.restored pool = i := by
  obtain ⟨-, -, -, hplain, -⟩ := plain_of_resolved? h
  rw [Instruction.restored, poolIndex?_eq_none hplain]
  dsimp only
  rcases resolved?_eq_some_iff.mp h with ⟨hop, rfl⟩ | ⟨hop, rfl⟩
  · have hj : Instruction.opcode? { i with byte := Opcode.jumpv.toByte } = some .jumpv :=
      Opcode.ofByte?_toByte .jumpv
    rw [hj]
    show { i with byte := Opcode.jump.toByte } = i
    rw [← opcode?_eq_some_iff.mp hop]
  · have hj : Instruction.opcode? { i with byte := Opcode.jumpvi.toByte } = some .jumpvi :=
      Opcode.ofByte?_toByte .jumpvi
    rw [hj]
    show { i with byte := Opcode.jumpi.toByte } = i
    rw [← opcode?_eq_some_iff.mp hop]

theorem poolIndex?_toPooled (i : Instruction) (index : UInt8) :
    (i.toPooled index).poolIndex? = some index := rfl

/-- A pooled push stands for the push of its constant that is as wide as itself. -/
theorem restored_toPooled {w : Word} (pooled : w ∈ pool.entries) (pushed : i.pushValue? = some w)
    (wide : 2 ≤ pushWidth i.byte) (whole : i.immediate.length = pushWidth i.byte) :
    (i.toPooled (UInt8.ofNat (pool.entries.idxOf w))).restored pool = i := by
  have hlength : (i.toPooled (UInt8.ofNat (pool.entries.idxOf w))).immediate.length
      = pushWidth i.byte := by
    have hsize := size_toPooled (UInt8.ofNat (pool.entries.idxOf w)) wide whole
    rw [Instruction.size, Instruction.size, whole] at hsize
    exact Nat.succ.inj hsize
  have hspelled : bytesOfNat (pushWidth i.byte) w.toNat = i.immediate := by
    rw [Word.toNat_of_ofBytes? (ofBytes?_of_pushValue? pushed), ← whole, bytesOfNat_natOfBytes]
  rw [Instruction.restored, poolIndex?_toPooled]
  dsimp only
  rw [ConstantPool.get_idxOf pooled]
  dsimp only
  rw [hlength, add_pushWidth (by omega), hspelled]
  rfl

/-- A replacement stands for the instruction that it replaced. -/
theorem restored_replacement {ctx : QuickenContext} {pushed : Option Word}
    (plain : i.byte ≠ Opcode.pushc.toByte ∧ i.byte ≠ Opcode.jumpv.toByte
      ∧ i.byte ≠ Opcode.jumpvi.toByte)
    (whole : i.immediate.length = pushWidth i.byte) :
    (ctx.replacement pool pushed i).restored pool = i := by
  rcases replacement_cases ctx pool pushed i with
    ⟨w, hw, -, hi, hpush, h⟩ | ⟨j, w, -, hj, -, -, h⟩ | h
  · rw [h]
    exact restored_toPooled hw hpush (two_le_pushWidth_of_isPoolable hi) whole
  · rw [h]
    exact restored_of_resolved? hj
  · rw [h]
    exact restored_of_plain plain

/-- The only pooled pushes are those that the walk puts in, and the pool has their constants. -/
theorem constant_of_replacement {ctx : QuickenContext} {pushed : Option Word}
    (plain : i.byte ≠ Opcode.pushc.toByte)
    (hop : (ctx.replacement pool pushed i).opcode? = some .pushc) :
    ∃ index w, (ctx.replacement pool pushed i).poolIndex? = some index
      ∧ pool.get index = .ok w := by
  rcases replacement_cases ctx pool pushed i with
    ⟨w, hw, -, -, -, h⟩ | ⟨j, w, -, hj, -, -, h⟩ | h
  · exact ⟨_, w, by rw [h, poolIndex?_toPooled], ConstantPool.get_idxOf hw⟩
  · obtain ⟨-, -, -, hplain, -⟩ := plain_of_resolved? hj
    rw [h, opcode?_eq_some_iff] at hop
    exact absurd hop hplain
  · rw [h, opcode?_eq_some_iff] at hop
    exact absurd hop plain

end Restored

/-! ## Where a listing ends -/

namespace CodeBuffer

/-- Where the last listed instruction ends. -/
def listingEnd (b : CodeBuffer) : Nat :=
  match b.instructions.getLast? with
  | some i => i.offset + i.size
  | none => 0

theorem chained_instructions (b : CodeBuffer) : Chained 0 b.instructions := by
  obtain ⟨tail, hlayout, -⟩ := b.layout_eq_append
  have hchained := b.chained_layout
  rw [hlayout, chained_append] at hchained
  exact hchained.1

theorem listingEnd_eq (b : CodeBuffer) :
    b.listingEnd = (b.instructions.flatMap Instruction.bytes).length := by
  unfold listingEnd
  split
  · rename_i i hlast
    rw [List.getLast?_eq_getElem?] at hlast
    have hpos : 0 < b.instructions.length := by
      have := (List.getElem?_eq_some_iff.mp hlast).1
      omega
    have hend := b.chained_instructions.length_flatMap_of_last hlast
      (List.getElem?_eq_none (by omega))
    omega
  · rename_i hnone
    rw [List.getLast?_eq_none_iff.mp hnone]
    rfl

theorem flatMap_bytes_instructions (b : CodeBuffer) :
    b.instructions.flatMap Instruction.bytes = b.bytes.take b.listingEnd := by
  obtain ⟨tail, hlayout, -⟩ := b.layout_eq_append
  have hbytes : b.bytes
      = b.instructions.flatMap Instruction.bytes ++ tail.flatMap Instruction.bytes := by
    rw [← List.flatMap_append, ← hlayout, b.flatMap_bytes_layout]
  rw [listingEnd_eq, hbytes, List.take_left]

theorem len_le_listingEnd {b : CodeBuffer} (fits : b.len ≤ b.bytes.length) :
    b.len ≤ b.listingEnd := by
  obtain ⟨tail, hlayout, hbehind⟩ := b.layout_eq_append
  rw [listingEnd_eq]
  cases tail with
  | nil =>
    rw [List.append_nil] at hlayout
    rwa [← hlayout, b.flatMap_bytes_layout]
  | cons i more =>
    have hchained := b.chained_layout
    rw [hlayout, chained_append, Nat.zero_add] at hchained
    rw [← hchained.2.1]
    exact hbehind i (List.mem_cons_self ..)

end CodeBuffer

/-! ## The listing -/

section Sound

variable {code : AnalyzedCode} (sound : code.Sound) (config : QuickenConfig)
include sound

/-- Restoring the listing of quickened code gives the listing before it. -/
theorem map_restored_instructions_quicken :
    (code.quicken config).instructions.map (Instruction.restored (code.quicken config).pool)
      = code.instructions := by
  apply List.ext_getElem?
  intro k
  rw [List.getElem?_map, getElem?_instructions_quicken sound, Option.map_map]
  cases hi : code.instructions[k]? with
  | none => rfl
  | some i =>
    have hmem := mem_layout_of_mem_instructions (List.mem_of_getElem? hi)
    exact congrArg some (restored_replacement (sound.plain i hmem) (sound.whole i hmem))

theorem restoredBytes_quicken :
    (code.quicken config).restoredBytes = code.instructions.flatMap Instruction.bytes := by
  rw [← map_restored_instructions_quicken sound config, List.flatMap_map]
  rfl

theorem constant_of_mem_instructions_quicken {r : Instruction}
    (h : r ∈ (code.quicken config).instructions) (hop : r.opcode? = some .pushc) :
    ∃ index w, r.poolIndex? = some index ∧ (code.quicken config).constant index = .ok w := by
  obtain ⟨k, hk⟩ := List.mem_iff_getElem?.mp h
  rw [getElem?_instructions_quicken sound] at hk
  obtain ⟨i, hi, rfl⟩ := Option.map_eq_some_iff.mp hk
  have hmem := mem_layout_of_mem_instructions (List.mem_of_getElem? hi)
  exact constant_of_replacement (sound.plain i hmem).1 hop

theorem listingEnd_quicken : (code.quicken config).listingEnd = code.listingEnd := by
  rw [CodeBuffer.listingEnd_eq, CodeBuffer.listingEnd_eq, instructions_quicken sound]
  exact length_flatMap_bytes_of_map_place_eq (map_place_quickened sound config)

end Sound

/-- Restoration looks at the program and at the pool alone if the padding is whole. -/
theorem restoredProgram_congr {c d : PreparedCode} (hc : c.padding = List.replicate 33 0)
    (hd : d.padding = List.replicate 33 0) (program : c.program = d.program)
    (pool : c.pool.entries = d.pool.entries) : c.restoredProgram = d.restoredProgram := by
  have hbytes : c.bytes = d.bytes := by
    rw [CodeBuffer.bytes_eq_program_append hc, CodeBuffer.bytes_eq_program_append hd, program]
  have hlen : c.len = d.len := by
    rw [← CodeBuffer.length_program hc, ← CodeBuffer.length_program hd, program]
  have hpool : c.pool = d.pool := ConstantPool.eq_of_entries_eq pool
  unfold PreparedCode.restoredProgram PreparedCode.restoredBytes CodeBuffer.instructions
  rw [hbytes, hlen, hpool]

/-! ## Programs -/

theorem len_le_length_bytes_analyze (program : List UInt8) :
    (RawCode.ofProgram program).analyze.len ≤ (RawCode.ofProgram program).analyze.bytes.length := by
  rw [length_bytes_analyze]
  exact Nat.le_add_right ..

theorem restoredProgram_quicken (program : List UInt8) (config : QuickenConfig) :
    ((RawCode.ofProgram program).analyze.quicken config).restoredProgram
      = (RawCode.ofProgram program).analyze.program := by
  have hcovers := CodeBuffer.len_le_listingEnd (len_le_length_bytes_analyze program)
  rw [PreparedCode.restoredProgram, restoredBytes_quicken (sound_analyze program),
    CodeBuffer.flatMap_bytes_instructions, List.take_take, CodeBuffer.program]
  congr 1
  exact Nat.min_eq_left hcovers

/-- Quickening loses nothing.  Every listed pooled push has a constant, and the restored listing is
the listing of the analyzed program; its bytes in a row are the analyzed buffer up to the end
of the last instruction and, cut to the length of the program, the analyzed program.  So whatever
was replaced in either of them, two programs that are quickened to the same bytes with the same
constants were the same after their analysis. -/
theorem quicken_lossless (program : List UInt8) (config : QuickenConfig) :
    let analyzed := (RawCode.ofProgram program).analyze
    let prepared := analyzed.quicken config
    (∀ r ∈ prepared.instructions, r.opcode? = some .pushc →
        ∃ index w, r.poolIndex? = some index ∧ prepared.constant index = .ok w)
      ∧ prepared.instructions.map (Instruction.restored prepared.pool) = analyzed.instructions
      ∧ prepared.restoredBytes = analyzed.bytes.take prepared.listingEnd
      ∧ prepared.restoredProgram = analyzed.program
      ∧ ∀ (program' : List UInt8) (config' : QuickenConfig),
        let analyzed' := (RawCode.ofProgram program').analyze
        let prepared' := analyzed'.quicken config'
        prepared.program = prepared'.program → prepared.pool.entries = prepared'.pool.entries →
          analyzed.program = analyzed'.program := by
  intro analyzed prepared
  have sound : analyzed.Sound := sound_analyze program
  refine ⟨fun _ => constant_of_mem_instructions_quicken sound config,
    map_restored_instructions_quicken sound config, ?_, restoredProgram_quicken program config, ?_⟩
  · rw [restoredBytes_quicken sound, CodeBuffer.flatMap_bytes_instructions,
      listingEnd_quicken sound]
  · intro program' config' analyzed' prepared' hprogram hpool
    calc analyzed.program
        = prepared.restoredProgram := (restoredProgram_quicken program config).symm
      _ = prepared'.restoredProgram :=
        restoredProgram_congr (padding_finish program (some config))
          (padding_finish program' (some config')) hprogram hpool
      _ = analyzed'.program := restoredProgram_quicken program' config'

/-- A trapped byte and the trap itself, under different configurations: the same quickened program
and constants, so the same analyzed program. -/
theorem quicken_lossless_trap :
    let prepared := ((RawCode.ofProgram [0x61, 0x12, 0x34, 0x56, 0xac]).analyze.quicken {})
    let prepared' := (RawCode.ofProgram [0x61, 0x12, 0x34, 0x56, 0xaf]).analyze.quicken
      { resolveJumps := false }
    (prepared.program = prepared'.program ∧ prepared.pool.entries = prepared'.pool.entries)
      ∧ (RawCode.ofProgram [0x61, 0x12, 0x34, 0x56, 0xac]).analyze.program
        = (RawCode.ofProgram [0x61, 0x12, 0x34, 0x56, 0xaf]).analyze.program :=
  have hprogram : ((RawCode.ofProgram [0x61, 0x12, 0x34, 0x56, 0xac]).analyze.quicken {}).program
      = ((RawCode.ofProgram [0x61, 0x12, 0x34, 0x56, 0xaf]).analyze.quicken
        { resolveJumps := false }).program := by decide
  have hpool : ((RawCode.ofProgram [0x61, 0x12, 0x34, 0x56, 0xac]).analyze.quicken {}).pool.entries
      = ((RawCode.ofProgram [0x61, 0x12, 0x34, 0x56, 0xaf]).analyze.quicken
        { resolveJumps := false }).pool.entries := by decide
  ⟨⟨hprogram, hpool⟩, (quicken_lossless _ _).2.2.2.2 _ _ hprogram hpool⟩

end EvmPrep
