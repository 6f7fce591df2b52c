import EvmPrep.Proofs.QuickenInPlace
import EvmPrep.Proofs.ScanInPlace
set_option autoImplicit false

/-!
# Safe accesses

The widest push may start at the last byte of a program.  Its immediate then takes 32
bytes of the padding, and one byte more is looked at to see whether a jump follows; so
33 bytes are what the passes need, and with them no access of any pass is a misstep
(`accesses_safe`).  What is written stays inside the program: the padding is the same
in every phase.
-/

namespace EvmPrep

/-- The buffer holds a program of `n` bytes and its padding. -/
structure CodeBuffer.IsPadded (b : CodeBuffer) (n : Nat) : Prop where
  len : b.len = n
  paddedLen : b.paddedLen = n + 33
  padding : b.padding = List.replicate 33 0

/-- Nothing is lost of the instruction `a` in the instruction `r` that stands for it: no immediate
is cut short, and each byte of a pooled push holds its number in full. -/
structure StandsInFull (pool : ConstantPool) (a r : Instruction) : Prop where
  width : r.immediate.length = pushNumber a.byte
  plain : r.opcode? ≠ some .pushc → r.immediate.length = pushNumber r.byte
  pooled : r.opcode? = some .pushc → ∃ w ∈ pool.entries, a.pushValue? = some w
    ∧ ∃ index last more, r.immediate = index :: last :: more
      ∧ index.toNat = pool.entries.idxOf w ∧ last.toNat + 1 = pushNumber a.byte

/-! ## Single instructions -/

section Instruction

variable {ctx : QuickenContext} {final : ConstantPool} {pushed : Option Word} {i : Instruction}

theorem standsInFull_self (plain : i.byte ≠ Opcode.pushc.toByte)
    (whole : i.immediate.length = pushWidth i.byte) : StandsInFull final i i where
  width := whole.trans (pushNumber_eq _).symm
  plain := fun _ => whole.trans (pushNumber_eq _).symm
  pooled := fun h => absurd (opcode?_eq_some_iff.mp h) plain

theorem standsInFull_replacement (plain : i.byte ≠ Opcode.pushc.toByte)
    (whole : i.immediate.length = pushWidth i.byte) :
    StandsInFull final i (ctx.replacement final pushed i) := by
  have hnumber := pushNumber_eq i.byte
  rcases replacement_cases ctx final pushed i with
    ⟨w, hmem, -, hi, hw, h⟩ | ⟨j, w, -, hj, -, -, h⟩ | h
  · have hwide := two_le_pushWidth_of_isPoolable hi
    have hnarrow := pushWidth_le i.byte
    have hsize := size_toPooled (UInt8.ofNat (final.entries.idxOf w)) hwide whole
    rw [Instruction.size, Instruction.size, whole] at hsize
    have hop : (i.toPooled (UInt8.ofNat (final.entries.idxOf w))).opcode? = some .pushc :=
      opcode?_eq_some_iff.mpr rfl
    rw [h]
    refine ⟨by omega, fun hne => absurd hop hne, fun _ => ⟨w, hmem, hw, _, _, _, rfl, ?_, ?_⟩⟩
    · exact ConstantPool.toNat_idxOf hmem
    · rw [UInt8.toNat_ofNat', Nat.mod_eq_of_lt (by omega)]
      omega
  · obtain ⟨hnone, -, hnone', hplain, hsame⟩ := plain_of_resolved? hj
    rw [h]
    refine ⟨by rw [hsame, whole, hnumber],
      fun _ => by rw [hsame, whole, hnone, pushNumber_eq, hnone'], fun hop => ?_⟩
    exact absurd (opcode?_eq_some_iff.mp hop) hplain
  · rw [h]
    exact standsInFull_self plain whole

end Instruction

/-- The width of what stands in full is told by its own bytes. -/
theorem StandsInFull.fills {pool : ConstantPool} {a r : Instruction} (h : StandsInFull pool a r) :
    r.Fills preparedWidth := by
  by_cases hop : r.opcode? = some .pushc
  · obtain ⟨_, -, -, _, _, _, himmediate, -, hlast⟩ := h.pooled hop
    intro behind
    rw [preparedWidth, if_pos (opcode?_eq_some_iff.mp hop), h.width, himmediate]
    exact hlast
  · exact fills_preparedWidth_of_ne (fun hr => hop (opcode?_eq_some_iff.mpr hr))
      ((h.plain hop).trans (pushNumber_eq _))

/-! ## Programs -/

section Program

variable (program : List UInt8)

theorem offset_lt_of_isSynthetic {i : Instruction}
    (h : i ∈ cut sourceWidth 0 (CodeBuffer.ofProgram program).bytes)
    (synthetic : isSynthetic i.byte = true) : i.offset < program.length := by
  obtain ⟨hstart, hbyte, -⟩ := of_mem_cut h
  refine Nat.lt_of_not_le fun hle => not_isTrapped_of_le hle (isTrapped_iff.mpr ⟨hstart, ?_⟩)
  rw [hbyte]
  exact synthetic

theorem end_lt_paddedLen_analyze {i : Instruction}
    (h : i ∈ (RawCode.ofProgram program).analyze.instructions) :
    i.offset + i.size < (RawCode.ofProgram program).analyze.paddedLen := by
  obtain ⟨hmem, hlt⟩ := CodeBuffer.mem_instructions_iff.mp h
  have hlt : i.offset < program.length := hlt
  have hwhole := length_immediate_of_mem_layout_analyze hmem
  have hnarrow := pushWidth_le i.byte
  rw [CodeBuffer.paddedLen, length_bytes_analyze, Instruction.size, hwhole]
  omega

end Program

/-! ## Every phase -/

section Finish

variable (program : List UInt8) (last : Option QuickenConfig)

theorem isPadded_ofProgram : (CodeBuffer.ofProgram program).IsPadded program.length where
  len := rfl
  paddedLen := CodeBuffer.paddedLen_ofProgram program
  padding := CodeBuffer.padding_ofProgram program

theorem isPadded_analyze : (RawCode.ofProgram program).analyze.IsPadded program.length where
  len := rfl
  paddedLen := length_bytes_analyze program
  padding := padding_analyze program

theorem isPadded_finish :
    ((RawCode.ofProgram program).analyze.finish last).IsPadded program.length where
  len := by cases last <;> rfl
  paddedLen := by
    cases last with
    | none => exact length_bytes_analyze program
    | some config =>
      exact (length_bytes_quicken (sound_analyze program) config).trans
        (length_bytes_analyze program)
  padding := padding_finish program last

theorem length_instructions_finish :
    ((RawCode.ofProgram program).analyze.finish last).instructions.length
      = (RawCode.ofProgram program).analyze.instructions.length := by
  cases last with
  | none => rfl
  | some config => exact length_instructions_quicken (sound_analyze program) config

theorem standsInFull_finish {k : Nat} {a r : Instruction}
    (before : (RawCode.ofProgram program).analyze.instructions[k]? = some a)
    (now : ((RawCode.ofProgram program).analyze.finish last).instructions[k]? = some r) :
    StandsInFull ((RawCode.ofProgram program).analyze.finish last).pool a r := by
  have sound := sound_analyze program
  have hmem := mem_layout_of_mem_instructions (List.mem_of_getElem? before)
  cases last with
  | none =>
    obtain rfl : a = r := Option.some.inj (before.symm.trans now)
    exact standsInFull_self (sound.plain a hmem).1 (sound.whole a hmem)
  | some config =>
    rw [AnalyzedCode.finish, getElem?_instructions_quicken sound, before] at now
    obtain rfl := Option.some.inj now
    exact standsInFull_replacement (sound.plain a hmem).1 (sound.whole a hmem)

theorem fills_of_mem_instructions_finish {r : Instruction}
    (h : r ∈ ((RawCode.ofProgram program).analyze.finish last).instructions) :
    r.Fills preparedWidth := by
  obtain ⟨k, hk⟩ := List.mem_iff_getElem?.mp h
  obtain ⟨a, ha⟩ : ∃ a, (RawCode.ofProgram program).analyze.instructions[k]? = some a := by
    have hlt := (List.getElem?_eq_some_iff.mp hk).1
    rw [length_instructions_finish] at hlt
    exact ⟨_, List.getElem?_eq_getElem hlt⟩
  exact (standsInFull_finish program last ha hk).fills

end Finish

/-- Along every way a program can be prepared, no access is a misstep.  The scan, the quickening and
the two listings have a result when they are made in one buffer with all accesses checked: nothing
is read behind the buffer, nothing is written behind the program, and each number that is put into
a byte fits.  So every immediate is there in full, behind every instruction there is one byte more
to look at, the buffer keeps its length and its 33 zeros from phase to phase, and the table is the
one that the analysis built. -/
theorem accesses_safe (program : List UInt8) :
    let raw := RawCode.ofProgram program
    let analyzed := raw.analyze
    InPlace.scan raw.len raw.bytes
        = .ok ⟨analyzed.bytes, analyzed.jumpTable.dests, analyzed.jumpTable.trapped⟩
      ∧ InPlace.list analyzed.bytes analyzed.len = .ok analyzed.instructions.toArray
      ∧ (∀ i ∈ analyzed.instructions, i.immediate.length = pushNumber i.byte
        ∧ i.offset + i.size < analyzed.paddedLen)
      ∧ (∀ config, InPlace.quicken (analyzed.quickenContext config) analyzed.bytes
        = .ok ⟨(analyzed.quicken config).bytes, (analyzed.quicken config).pool,
          (analyzed.quicken config).stats⟩)
      ∧ raw.IsPadded program.length ∧ analyzed.IsPadded program.length
      ∧ ∀ last, let prepared := analyzed.finish last
        InPlace.list prepared.bytes prepared.len = .ok prepared.instructions.toArray
          ∧ prepared.instructions.length = analyzed.instructions.length
          ∧ (∀ (k : Nat) (a r : Instruction), analyzed.instructions[k]? = some a →
            prepared.instructions[k]? = some r → StandsInFull prepared.pool a r)
          ∧ prepared.IsPadded program.length
          ∧ prepared.jumpTable = analyzed.jumpTable := by
  intro raw analyzed
  have sound : analyzed.Sound := sound_analyze program
  refine ⟨?_, ?_, ?_, fun config => ?_, isPadded_ofProgram program, isPadded_analyze program,
    fun last => ⟨?_, length_instructions_finish program last, fun k a r => ?_,
      isPadded_finish program last, ?_⟩⟩
  · exact InPlace.scan_eq fun _ => offset_lt_of_isSynthetic program
  · exact InPlace.list_eq (len_le_length_bytes_analyze program) fun _ hi =>
      sound.fills (mem_layout_of_mem_instructions hi)
  · intro i hi
    rw [pushNumber_eq]
    exact ⟨sound.whole i (mem_layout_of_mem_instructions hi), end_lt_paddedLen_analyze program hi⟩
  · exact InPlace.quicken_eq sound (length_bytes_analyze program) config
  · have hpadded := isPadded_finish program last
    refine InPlace.list_eq ?_ fun _ => fills_of_mem_instructions_finish program last
    rw [hpadded.len, ← CodeBuffer.paddedLen, hpadded.paddedLen]
    exact Nat.le_add_right ..
  · exact standsInFull_finish program last
  · cases last <;> rfl

end EvmPrep
