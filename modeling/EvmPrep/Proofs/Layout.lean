import EvmPrep.Proofs.Scan
set_option autoImplicit false

/-!
# Instructions laid out in a buffer

Instructions that stand one behind the other (`Chained`), each with as long an
immediate as its byte asks for (`Fills`), are cut again out of the bytes that they
make (`cut_flatMap_bytes`).  So to know how a buffer is cut after some of its
instructions were replaced, it is enough that each replacement stands where the old
instruction stood, has its size, and fills it.

In the buffer of an analyzed program every instruction has its whole immediate: the
last one of the program may reach into the padding but not beyond it, and in the
padding there are only `STOP`s (`AnalyzedCode.Sound`, `sound_analyze`).
-/

namespace EvmPrep

/-! ## Laying out -/

/-- The instructions stand one behind the other, the first of them at the offset. -/
def Chained : Nat → List Instruction → Prop
  | _, [] => True
  | offset, i :: rest => i.offset = offset ∧ Chained (offset + i.size) rest

/-- The immediate is as long as the rule asks, whatever bytes stand behind it. -/
def Instruction.Fills (rule : WidthRule) (i : Instruction) : Prop :=
  ∀ behind, rule i.byte (i.immediate ++ behind) = i.immediate.length

/-- Where an instruction stands and how many bytes it takes. -/
def Instruction.place (i : Instruction) : Nat × Nat := (i.offset, i.size)

variable {rule : WidthRule}

theorem chained_cut (rule : WidthRule) (offset : Nat) (code : List UInt8) :
    Chained offset (cut rule offset code) := by
  induction code using cutInduction rule generalizing offset with
  | nil => trivial
  | cons b rest ih =>
    rw [cut_cons]
    refine ⟨rfl, ?_⟩
    rcases Nat.le_total (rule b rest) rest.length with h | h
    · have hsize : offset + Instruction.size ⟨offset, b, rest.take (rule b rest)⟩
          = offset + 1 + rule b rest := by
        simp only [Instruction.size, List.length_take]
        omega
      rw [hsize]
      exact ih _
    · rw [List.drop_eq_nil_of_le h]
      trivial

theorem CodeBuffer.chained_layout (b : CodeBuffer) : Chained 0 b.layout := chained_cut ..

theorem CodeBuffer.flatMap_bytes_layout (b : CodeBuffer) :
    b.layout.flatMap Instruction.bytes = b.bytes := flatMap_bytes_cut ..

theorem Chained.of_map_place_eq {offset : Nat} {is js : List Instruction}
    (same : js.map Instruction.place = is.map Instruction.place) (h : Chained offset is) :
    Chained offset js := by
  induction is generalizing offset js with
  | nil =>
    obtain rfl : js = [] := List.map_eq_nil_iff.mp same
    trivial
  | cons i rest ih =>
    cases js with
    | nil => simp at same
    | cons j more =>
      obtain ⟨hhead, hrest⟩ := List.cons.inj same
      obtain ⟨hoffset, hsize⟩ := Prod.mk.inj hhead
      obtain ⟨hi, htail⟩ := h
      refine ⟨hoffset.trans hi, ?_⟩
      rw [hsize]
      exact ih hrest htail

theorem length_flatMap_bytes_of_map_place_eq {is js : List Instruction}
    (same : js.map Instruction.place = is.map Instruction.place) :
    (js.flatMap Instruction.bytes).length = (is.flatMap Instruction.bytes).length := by
  have hsizes := congrArg (List.map Prod.snd) same
  rw [List.map_map, List.map_map] at hsizes
  rw [List.length_flatMap, List.length_flatMap]
  exact congrArg List.sum hsizes

/-- Two rows of instructions stand one behind the other if each does and the second starts where the
first ends. -/
theorem chained_append {offset : Nat} {is js : List Instruction} :
    Chained offset (is ++ js)
      ↔ Chained offset is ∧ Chained (offset + (is.flatMap Instruction.bytes).length) js := by
  induction is generalizing offset with
  | nil => simp [Chained]
  | cons i rest ih =>
    rw [List.cons_append, Chained, Chained, ih, and_assoc, List.flatMap_cons, List.length_append,
      Instruction.length_bytes, Nat.add_assoc]

/-- Instructions that are laid out properly are found again in front of whatever stands behind
them. -/
theorem cut_flatMap_bytes_append {offset : Nat} {is : List Instruction}
    (chained : Chained offset is) (fills : ∀ i ∈ is, i.Fills rule) (behind : List UInt8) :
    cut rule offset (is.flatMap Instruction.bytes ++ behind)
      = is ++ cut rule (offset + (is.flatMap Instruction.bytes).length) behind := by
  induction is generalizing offset with
  | nil => rfl
  | cons i rest ih =>
    obtain ⟨hi, htail⟩ := chained
    have hwidth := fills i (List.mem_cons_self ..) (rest.flatMap Instruction.bytes ++ behind)
    rw [List.flatMap_cons, Instruction.bytes, List.cons_append, List.cons_append,
      List.append_assoc, cut_cons, hwidth, List.take_left, List.drop_left]
    have hnext : offset + 1 + i.immediate.length = offset + i.size := by
      simp only [Instruction.size]
      omega
    have hend : offset + (i.byte :: (i.immediate ++ rest.flatMap Instruction.bytes)).length
        = offset + i.size + (rest.flatMap Instruction.bytes).length := by
      simp only [Instruction.size, List.length_cons, List.length_append]
      omega
    rw [hnext, hend, ih htail fun j hj => fills j (List.mem_cons_of_mem _ hj), ← hi]
    rfl

/-- Instructions that are laid out properly are found again in the bytes that they make. -/
theorem cut_flatMap_bytes {offset : Nat} {is : List Instruction} (chained : Chained offset is)
    (fills : ∀ i ∈ is, i.Fills rule) : cut rule offset (is.flatMap Instruction.bytes) = is := by
  have h := cut_flatMap_bytes_append chained fills []
  rwa [List.append_nil, cut_nil, List.append_nil] at h

/-- One instruction behind another starts where the other ends. -/
theorem Chained.offset_succ {offset k : Nat} {is : List Instruction} {i j : Instruction}
    (h : Chained offset is) (hi : is[k]? = some i) (hj : is[k + 1]? = some j) :
    j.offset = i.offset + i.size := by
  induction is generalizing offset k with
  | nil => simp at hi
  | cons first rest ih =>
    obtain ⟨hfirst, hrest⟩ := h
    cases k with
    | succ k => exact ih hrest (by simpa using hi) (by simpa using hj)
    | zero =>
      obtain rfl : first = i := by simpa using hi
      cases rest with
      | nil => simp at hj
      | cons second more =>
        obtain rfl : second = j := by simpa using hj
        rw [hfirst]
        exact hrest.1

theorem Chained.length_flatMap_of_last {offset k : Nat} {is : List Instruction} {i : Instruction}
    (h : Chained offset is) (hi : is[k]? = some i) (hlast : is[k + 1]? = none) :
    offset + (is.flatMap Instruction.bytes).length = i.offset + i.size := by
  induction is generalizing offset k with
  | nil => simp at hi
  | cons first rest ih =>
    obtain ⟨hfirst, hrest⟩ := h
    rw [List.flatMap_cons, List.length_append, Instruction.length_bytes, ← Nat.add_assoc]
    cases k with
    | succ k => exact ih hrest (by simpa using hi) (by simpa using hlast)
    | zero =>
      obtain rfl : first = i := by simpa using hi
      obtain rfl : rest = [] := by simpa using hlast
      simp [hfirst]

/-! ## Analyzed code -/

theorem fills_preparedWidth_of_ne {i : Instruction} (plain : i.byte ≠ Opcode.pushc.toByte)
    (whole : i.immediate.length = pushWidth i.byte) : i.Fills preparedWidth := by
  intro behind
  rw [preparedWidth, if_neg plain, whole]

/-- What the analysis of a program leaves behind. -/
structure AnalyzedCode.Sound (code : AnalyzedCode) : Prop where
  /-- no instruction is one that quickening puts in -/
  plain : ∀ i ∈ code.layout, i.byte ≠ Opcode.pushc.toByte ∧ i.byte ≠ Opcode.jumpv.toByte
    ∧ i.byte ≠ Opcode.jumpvi.toByte
  /-- no immediate is cut short -/
  whole : ∀ i ∈ code.layout, i.immediate.length = pushWidth i.byte
  /-- in the padding there are only `STOP`s -/
  padded : ∀ i ∈ code.layout, code.len ≤ i.offset → i.byte = 0
  /-- the table lists the `JUMPDEST`s -/
  mem_dests_iff : ∀ d, d ∈ code.jumpTable.dests
    ↔ ∃ i ∈ code.layout, i.offset = d ∧ i.byte = Opcode.jumpdest.toByte

section Analysis

variable {program : List UInt8}

theorem byte_eq_zero_of_mem_layout_analyze {i : Instruction}
    (h : i ∈ (RawCode.ofProgram program).analyze.layout) (behind : program.length ≤ i.offset) :
    i.byte = 0 := by
  rw [layout_analyze] at h
  have hbyte := (of_mem_cut h).2.1
  have hlt := (of_mem_cut h).1.lt_length
  have hbytes : (RawCode.ofProgram program).analyze.bytes
      = disarm (program ++ List.replicate CodeBuffer.paddingSize 0) := rfl
  rw [hbytes, length_disarm, List.length_append] at hlt
  have hzero : (program ++ List.replicate CodeBuffer.paddingSize 0)[i.offset]? = some 0 := by
    rw [List.getElem?_append_right behind, List.getElem?_replicate_of_lt]
    rw [List.length_replicate] at hlt
    omega
  rw [hbytes, getElem?_disarm, if_neg, hzero] at hbyte
  · exact (Option.some.inj hbyte).symm
  · intro htrapped
    have hsynthetic := (isTrapped_iff.mp htrapped).2
    rw [hzero] at hsynthetic
    exact absurd hsynthetic (by decide)

theorem length_bytes_analyze (program : List UInt8) :
    (RawCode.ofProgram program).analyze.bytes.length = program.length + 33 :=
  (length_disarm _).trans (CodeBuffer.paddedLen_ofProgram program)

theorem length_immediate_of_mem_layout_analyze {i : Instruction}
    (h : i ∈ (RawCode.ofProgram program).analyze.layout) :
    i.immediate.length = pushWidth i.byte := by
  rcases Nat.lt_or_ge i.offset program.length with hin | hbehind
  · -- the widest immediate that starts in the program ends in the padding
    rw [layout_analyze] at h
    have hwidth := pushWidth_le i.byte
    rw [length_immediate_of_mem_cut h, length_bytes_analyze]
    show min (pushWidth i.byte) _ = pushWidth i.byte
    omega
  · have hbyte := byte_eq_zero_of_mem_layout_analyze h hbehind
    rw [layout_analyze] at h
    rw [length_immediate_of_mem_cut h, hbyte]
    exact Nat.zero_min _

theorem mem_dests_analyze_iff {d : Nat} :
    d ∈ (RawCode.ofProgram program).analyze.jumpTable.dests
      ↔ ∃ i ∈ (RawCode.ofProgram program).analyze.layout,
        i.offset = d ∧ i.byte = Opcode.jumpdest.toByte := by
  have hdisarmed : ∀ j : Instruction,
      j.disarmed.byte = Opcode.jumpdest.toByte ↔ j.byte = Opcode.jumpdest.toByte := by
    intro j
    unfold Instruction.disarmed
    split
    · rename_i hsynthetic
      have htrap : Opcode.bad.toByte ≠ Opcode.jumpdest.toByte := by decide
      refine ⟨fun h => absurd h htrap, fun h => ?_⟩
      rw [h] at hsynthetic
      exact absurd hsynthetic (by decide)
    · exact Iff.rfl
  have htable : (RawCode.ofProgram program).analyze.jumpTable
      = JumpTable.ofCode (CodeBuffer.ofProgram program).bytes := rfl
  rw [layout_analyze_eq_map, htable, ← Array.mem_toList_iff]
  simp only [JumpTable.ofCode, List.mem_map, List.mem_filter, Instruction.isTarget, beq_iff_eq]
  constructor
  · rintro ⟨j, ⟨hj, htarget⟩, rfl⟩
    exact ⟨j.disarmed, ⟨j, hj, rfl⟩, offset_disarmed j, (hdisarmed j).mpr htarget⟩
  · rintro ⟨-, ⟨j, hj, rfl⟩, rfl, htarget⟩
    exact ⟨j, ⟨hj, (hdisarmed j).mp htarget⟩, (offset_disarmed j).symm⟩

/-- Analysis leaves sound code. -/
theorem sound_analyze (program : List UInt8) : (RawCode.ofProgram program).analyze.Sound where
  plain := fun i hi => by
    rw [layout_analyze] at hi
    exact byte_of_mem_cut_disarm hi
  whole := fun _ hi => length_immediate_of_mem_layout_analyze hi
  padded := fun _ hi hbehind => byte_eq_zero_of_mem_layout_analyze hi hbehind
  mem_dests_iff := fun _ => mem_dests_analyze_iff

end Analysis

namespace AnalyzedCode.Sound

variable {code : AnalyzedCode} {i : Instruction}

theorem fills (sound : code.Sound) (h : i ∈ code.layout) : i.Fills preparedWidth :=
  fills_preparedWidth_of_ne (sound.plain i h).1 (sound.whole i h)

theorem pushValue?_eq (sound : code.Sound) (h : i ∈ code.layout) (hpush : pushWidth i.byte ≠ 0) :
    i.pushValue? = some (BitVec.ofNat 256 (natOfBytes i.immediate)) := by
  have hplain : i.isPooled = false := by
    simpa [Instruction.isPooled] using (sound.plain i h).1
  have hispush : i.isPush = true := by simpa [Instruction.isPush] using hpush
  have hshort : i.immediate.length ≤ Word.maxBytes := by
    rw [sound.whole i h]
    exact pushWidth_le i.byte
  simp [Instruction.pushValue?, Instruction.operand, hplain, hispush, Word.ofBytes?, hshort]

end AnalyzedCode.Sound

end EvmPrep
