import EvmPrep.Proofs.Layout
import EvmPrep.Proofs.Walk
set_option autoImplicit false

/-!
# Quickened code

Quickening replaces instructions in a buffer and the buffer is then cut again, by the
width rule for prepared code.  A replacement stands where the old instruction stood and
takes as many bytes, so the new buffer is cut into the replacements
(`getElem?_layout_quicken`); each of them is told by the old instruction, the word
pushed right before it and the final pool (`QuickenContext.replacement`).  What a
replacement can be is said once, in `replacement_cases`.
-/

namespace EvmPrep

/-! ## Replacements -/

/-- What stands for an instruction behind the walk that leaves `final`. -/
def QuickenContext.replacement (ctx : QuickenContext) (final : ConstantPool)
    (pushed : Option Word) (i : Instruction) : Instruction :=
  i.after (ctx.outcomeIn final pushed i)

/-- The word pushed right before the `k`-th instruction. -/
def pushedBefore (is : List Instruction) : Nat → Option Word
  | 0 => none
  | k + 1 => is[k]?.bind Instruction.pushValue?

theorem pushedBefore_append {is : List Instruction} {k : Nat} (le : k ≤ is.length)
    (more : List Instruction) : pushedBefore (is ++ more) k = pushedBefore is k := by
  cases k with
  | zero => rfl
  | succ k => rw [pushedBefore, pushedBefore, List.getElem?_append_left (by omega)]

theorem resolved?_eq_some_iff {i j : Instruction} :
    i.resolved? = some j
      ↔ (i.opcode? = some .jump ∧ j = { i with byte := Opcode.jumpv.toByte })
        ∨ (i.opcode? = some .jumpi ∧ j = { i with byte := Opcode.jumpvi.toByte }) := by
  unfold Instruction.resolved?
  cases hop : i.opcode? with
  | none => simp
  | some o => cases o <;> simp [Opcode.resolved?, eq_comm]

/-- Neither a jump nor the one that replaces it has an immediate or a word to push. -/
theorem plain_of_resolved? {i j : Instruction} (h : i.resolved? = some j) :
    pushWidth i.byte = 0 ∧ i.byte ≠ Opcode.pushc.toByte
      ∧ pushWidth j.byte = 0 ∧ j.byte ≠ Opcode.pushc.toByte ∧ j.immediate = i.immediate := by
  have hplain : ∀ o ∈ [Opcode.jump, .jumpi, .jumpv, .jumpvi],
      pushWidth o.toByte = 0 ∧ o.toByte ≠ Opcode.pushc.toByte := by decide
  rcases resolved?_eq_some_iff.mp h with ⟨hop, rfl⟩ | ⟨hop, rfl⟩
  · obtain ⟨hnone, hne⟩ := hplain .jump (by simp)
    obtain ⟨hnone', hne'⟩ := hplain .jumpv (by simp)
    rw [← Opcode.ofByte?_eq_some_iff.mp hop]
    exact ⟨hnone, hne, hnone', hne', rfl⟩
  · obtain ⟨hnone, hne⟩ := hplain .jumpi (by simp)
    obtain ⟨hnone', hne'⟩ := hplain .jumpvi (by simp)
    rw [← Opcode.ofByte?_eq_some_iff.mp hop]
    exact ⟨hnone, hne, hnone', hne', rfl⟩

theorem operand_eq_absent {i : Instruction} (plain : i.byte ≠ Opcode.pushc.toByte)
    (narrow : pushWidth i.byte = 0) : i.operand = .absent := by
  simp [Instruction.operand, Instruction.isPooled, Instruction.isPush, plain, narrow]

section Replacement

variable {ctx : QuickenContext} {final : ConstantPool} {pushed : Option Word} {i : Instruction}

/-- What a replacement can be: the pooled push, the jump that checks no more, or the instruction
itself. -/
theorem replacement_cases (ctx : QuickenContext) (final : ConstantPool) (pushed : Option Word)
    (i : Instruction) :
    (∃ w ∈ final.entries, ctx.config.usePool = true ∧ ctx.isPoolable i = true
        ∧ i.pushValue? = some w
        ∧ ctx.replacement final pushed i = i.toPooled (UInt8.ofNat (final.entries.idxOf w)))
      ∨ (∃ j w, ctx.config.resolveJumps = true ∧ i.resolved? = some j ∧ pushed = some w
        ∧ ctx.jumpTable.isValid w = true ∧ ctx.replacement final pushed i = j)
      ∨ ctx.replacement final pushed i = i := by
  unfold QuickenContext.replacement
  cases ho : ctx.outcomeIn final pushed i with
  | pooled index =>
    obtain ⟨hpool, hi, w, hmem, hw, rfl⟩ := QuickenContext.outcomeIn_eq_pooled_iff.mp ho
    exact .inl ⟨w, hmem, hpool, hi, hw, rfl⟩
  | resolved =>
    obtain ⟨hon, -, hj, w, hpushed, hvalid⟩ := QuickenContext.outcomeIn_eq_resolved_iff.mp ho
    obtain ⟨j, hj⟩ := Option.isSome_iff_exists.mp hj
    exact .inr (.inl ⟨j, w, hon, hj, hpushed, hvalid, by rw [Instruction.after, hj]; rfl⟩)
  | kept => exact .inr (.inr rfl)
  | exhausted => exact .inr (.inr rfl)
  | leftDynamic => exact .inr (.inr rfl)

theorem place_of_resolved? {j : Instruction} (h : i.resolved? = some j) : j.place = i.place := by
  rcases resolved?_eq_some_iff.mp h with ⟨-, rfl⟩ | ⟨-, rfl⟩ <;> rfl

theorem two_le_pushWidth_of_isPoolable (h : ctx.isPoolable i = true) : 2 ≤ pushWidth i.byte := by
  simp only [QuickenContext.isPoolable, Bool.and_eq_true, decide_eq_true_eq] at h
  exact h.1

theorem size_toPooled (index : UInt8) (wide : 2 ≤ pushWidth i.byte)
    (whole : i.immediate.length = pushWidth i.byte) : (i.toPooled index).size = i.size := by
  simp only [Instruction.toPooled, Instruction.size, List.length_cons, List.length_drop]
  omega

/-- A pooled push says itself how long it is. -/
theorem fills_toPooled (index : UInt8) (wide : 2 ≤ pushWidth i.byte)
    (whole : i.immediate.length = pushWidth i.byte) :
    (i.toPooled index).Fills preparedWidth := by
  intro behind
  have hnarrow := pushWidth_le i.byte
  have hbyte : (UInt8.ofNat (pushWidth i.byte - 1)).toNat = pushWidth i.byte - 1 := by
    rw [UInt8.toNat_ofNat', Nat.mod_eq_of_lt (by omega)]
  simp only [Instruction.toPooled, preparedWidth, if_true, List.cons_append,
    List.getElem?_cons_succ, List.getElem?_cons_zero, hbyte, List.length_cons, List.length_drop]
  omega

theorem place_replacement (whole : i.immediate.length = pushWidth i.byte) :
    (ctx.replacement final pushed i).place = i.place := by
  rcases replacement_cases ctx final pushed i with
    ⟨w, -, -, hi, -, h⟩ | ⟨j, w, -, hj, -, -, h⟩ | h
  · rw [h, Instruction.place, size_toPooled _ (two_le_pushWidth_of_isPoolable hi) whole]
    rfl
  · rw [h, place_of_resolved? hj]
  · rw [h]

theorem offset_replacement (whole : i.immediate.length = pushWidth i.byte) :
    (ctx.replacement final pushed i).offset = i.offset :=
  congrArg Prod.fst (place_replacement whole)

theorem fills_replacement (plain : i.byte ≠ Opcode.pushc.toByte)
    (whole : i.immediate.length = pushWidth i.byte) :
    (ctx.replacement final pushed i).Fills preparedWidth := by
  rcases replacement_cases ctx final pushed i with
    ⟨w, -, -, hi, -, h⟩ | ⟨j, w, -, hj, -, -, h⟩ | h
  · rw [h]
    exact fills_toPooled _ (two_le_pushWidth_of_isPoolable hi) whole
  · obtain ⟨hnone, -, hnone', hplain, hsame⟩ := plain_of_resolved? hj
    rw [h]
    refine fills_preparedWidth_of_ne hplain ?_
    rw [hsame, whole, hnone, hnone']
  · rw [h]
    exact fills_preparedWidth_of_ne plain whole

theorem place_after_step (pool : ConstantPool) (whole : i.immediate.length = pushWidth i.byte) :
    (i.after (ctx.step pool pushed i).1).place = i.place := by
  rw [QuickenContext.step_fst_eq_outcomeIn ctx pushed i List.prefix_rfl]
  exact place_replacement whole

theorem map_place_zipWith_after (pool : ConstantPool) (pushed : Option Word)
    (is : List Instruction) (whole : ∀ i ∈ is, i.immediate.length = pushWidth i.byte) :
    (List.zipWith Instruction.after is (ctx.quickenAll pool pushed is).1).map Instruction.place
      = is.map Instruction.place := by
  induction is generalizing pool pushed with
  | nil => rfl
  | cons i rest ih =>
    rw [QuickenContext.quickenAll_cons, List.zipWith_cons_cons, List.map_cons, List.map_cons,
      place_after_step pool (whole i (List.mem_cons_self ..)),
      ih _ _ fun j hj => whole j (List.mem_cons_of_mem _ hj)]

/-- What is neither a wide push nor a jump is never replaced. -/
theorem replacement_of_narrow (narrow : pushWidth i.byte < 2) (still : i.resolved? = none) :
    ctx.replacement final pushed i = i := by
  rcases replacement_cases ctx final pushed i with
    ⟨w, -, -, hi, -, -⟩ | ⟨j, w, -, hj, -, -, -⟩ | hsame
  · have hwide := two_le_pushWidth_of_isPoolable hi
    omega
  · rw [still] at hj
    cases hj
  · exact hsame

theorem resolved?_of_byte_eq_zero (h : i.byte = 0) : i.resolved? = none := by
  rw [Instruction.resolved?, Instruction.opcode?, h]
  rfl

theorem replacement_of_byte_eq_zero (h : i.byte = 0) : ctx.replacement final pushed i = i := by
  refine replacement_of_narrow ?_ (resolved?_of_byte_eq_zero h)
  rw [h]
  decide

theorem replacement_of_byte_eq_bad (h : i.byte = Opcode.bad.toByte) :
    ctx.replacement final pushed i = i := by
  refine replacement_of_narrow ?_ ?_
  · rw [h]
    decide
  · rw [Instruction.resolved?, Instruction.opcode?, h]
    rfl

end Replacement

/-! ## The buffer -/

theorem CodeBuffer.layout_eq_append (b : CodeBuffer) :
    ∃ tail, b.layout = b.instructions ++ tail ∧ ∀ i ∈ tail, b.len ≤ i.offset := by
  have hsplit : b.layout
      = b.instructions ++ b.layout.dropWhile fun i => decide (i.offset < b.len) :=
    List.takeWhile_append_dropWhile.symm
  refine ⟨_, hsplit, fun i hi => ?_⟩
  -- all that starts in the program is listed already
  have hlisted := b.instructions_eq_filter
  have hinside : b.instructions.filter (fun i => decide (i.offset < b.len)) = b.instructions := by
    rw [hlisted, List.filter_filter]
    simp only [Bool.and_self]
  rw [hsplit, List.filter_append, hinside, List.self_eq_append_right, List.filter_eq_nil_iff]
    at hlisted
  exact Nat.le_of_not_lt fun hlt => hlisted i hi (decide_eq_true hlt)

/-- The walk over sound code in closed form. -/
theorem outcomesUnder_eq (code : AnalyzedCode) (config : QuickenConfig) :
    code.outcomesUnder config
      = (List.zipWith ((code.quickenContext config).outcomeIn (code.quicken config).pool)
          (none :: code.instructions.map Instruction.pushValue?) code.instructions,
        (code.quicken config).pool) := by
  have hwalk := (code.quickenContext config).quickenAll_eq .empty none code.instructions
  have hpool : (code.quicken config).pool
      = ((code.quickenContext config).quickenAll .empty none code.instructions).2 := rfl
  rw [hpool, hwalk]
  exact hwalk

theorem pool_quicken_eq (code : AnalyzedCode) (config : QuickenConfig) :
    (code.quicken config).pool
      = .ofWords ((code.quickenContext config).offered code.instructions) :=
  congrArg Prod.snd ((code.quickenContext config).quickenAll_eq .empty none code.instructions)

/-- The pool of quickened code holds the first 256 distinct words that the walk offered. -/
theorem entries_pool_quicken (code : AnalyzedCode) (config : QuickenConfig) :
    (code.quicken config).pool.entries
      = ((code.quickenContext config).offered code.instructions).eraseDups.take 256 := by
  rw [pool_quicken_eq, ConstantPool.ofWords, ConstantPool.entries_internAll]
  rfl

theorem getElem?_outcomesUnder (code : AnalyzedCode) (config : QuickenConfig) (k : Nat) :
    (code.outcomesUnder config).1[k]?
      = code.instructions[k]?.map
        ((code.quickenContext config).outcomeIn (code.quicken config).pool
          (pushedBefore code.instructions k)) := by
  rw [outcomesUnder_eq]
  dsimp only
  rw [List.getElem?_zipWith]
  cases hi : code.instructions[k]? with
  | none => simp
  | some i =>
    cases k with
    | zero => simp [pushedBefore]
    | succ k =>
      have hk : k < code.instructions.length := by
        have := (List.getElem?_eq_some_iff.mp hi).1
        omega
      simp [pushedBefore, hk]

theorem getElem?_outcomes_quicken (code : AnalyzedCode) (config : QuickenConfig) (k : Nat) :
    (code.quicken config).outcomes[k]?
      = code.instructions[k]?.map
        ((code.quickenContext config).outcomeIn (code.quicken config).pool
          (pushedBefore code.instructions k)) := getElem?_outcomesUnder code config k

/-- The listing of quickened code before it is written into the buffer. -/
theorem getElem?_quickened (code : AnalyzedCode) (config : QuickenConfig) (k : Nat) :
    (code.quickened (code.outcomesUnder config).1)[k]?
      = code.instructions[k]?.map
        ((code.quickenContext config).replacement (code.quicken config).pool
          (pushedBefore code.instructions k)) := by
  rw [AnalyzedCode.quickened, List.getElem?_zipWith, getElem?_outcomesUnder]
  cases code.instructions[k]? <;> rfl

theorem mem_layout_of_mem_instructions {b : CodeBuffer} {i : Instruction}
    (h : i ∈ b.instructions) : i ∈ b.layout :=
  (CodeBuffer.mem_instructions_iff.mp h).1

/-- What is listed has its place in the layout, and the same word is pushed before it. -/
theorem getElem?_layout_of_instructions {b : CodeBuffer} {k : Nat} {i : Instruction}
    (h : b.instructions[k]? = some i) :
    b.layout[k]? = some i ∧ pushedBefore b.layout k = pushedBefore b.instructions k := by
  obtain ⟨tail, hlayout, -⟩ := b.layout_eq_append
  have hk := (List.getElem?_eq_some_iff.mp h).1
  rw [hlayout, List.getElem?_append_left hk, pushedBefore_append (Nat.le_of_lt hk)]
  exact ⟨h, rfl⟩

section Sound

variable {code : AnalyzedCode} (sound : code.Sound) (config : QuickenConfig)
include sound

theorem map_place_quickened :
    (code.quickened (code.outcomesUnder config).1).map Instruction.place
      = code.instructions.map Instruction.place :=
  map_place_zipWith_after _ _ _ fun i hi => sound.whole i (mem_layout_of_mem_instructions hi)

theorem length_quickened :
    (code.quickened (code.outcomesUnder config).1).length = code.instructions.length := by
  have hplaces := congrArg List.length (map_place_quickened sound config)
  rwa [List.length_map, List.length_map] at hplaces

/-- The new buffer is the replacements and, behind the program, what was there before. -/
theorem bytes_quicken {tail : List Instruction}
    (hlayout : code.layout = code.instructions ++ tail) :
    (code.quicken config).bytes
      = (code.quickened (code.outcomesUnder config).1 ++ tail).flatMap Instruction.bytes := by
  have hbytes : code.bytes
      = code.instructions.flatMap Instruction.bytes ++ tail.flatMap Instruction.bytes := by
    rw [← List.flatMap_append, ← hlayout, code.flatMap_bytes_layout]
  have hlength := length_flatMap_bytes_of_map_place_eq (map_place_quickened sound config)
  have hquicken : (code.quicken config).bytes
      = (code.quickened (code.outcomesUnder config).1).flatMap Instruction.bytes
        ++ code.bytes.drop
          ((code.quickened (code.outcomesUnder config).1).flatMap Instruction.bytes).length := rfl
  rw [hquicken, hlength, hbytes, List.drop_left, List.flatMap_append]

/-- Quickened code is cut into the replacements and the padding. -/
theorem layout_quicken_eq_append {tail : List Instruction}
    (hlayout : code.layout = code.instructions ++ tail) :
    (code.quicken config).layout = code.quickened (code.outcomesUnder config).1 ++ tail := by
  have hplaces : (code.quickened (code.outcomesUnder config).1 ++ tail).map Instruction.place
      = code.layout.map Instruction.place := by
    rw [hlayout, List.map_append, List.map_append, map_place_quickened sound config]
  rw [CodeBuffer.layout, bytes_quicken sound config hlayout]
  refine cut_flatMap_bytes (Chained.of_map_place_eq hplaces code.chained_layout) fun j hj => ?_
  rcases List.mem_append.mp hj with hj | hj
  · obtain ⟨k, hk⟩ := List.mem_iff_getElem?.mp hj
    rw [getElem?_quickened] at hk
    obtain ⟨i, hi, rfl⟩ := Option.map_eq_some_iff.mp hk
    have hmem := mem_layout_of_mem_instructions (List.mem_of_getElem? hi)
    exact fills_replacement (sound.plain i hmem).1 (sound.whole i hmem)
  · exact sound.fills (by rw [hlayout]; exact List.mem_append_right _ hj)

theorem instructions_quicken :
    (code.quicken config).instructions = code.quickened (code.outcomesUnder config).1 := by
  obtain ⟨tail, hlayout, hbehind⟩ := code.layout_eq_append
  have hstays : ∀ j ∈ code.quickened (code.outcomesUnder config).1, j.offset < code.len := by
    intro j hj
    have hplace : j.place ∈ code.instructions.map Instruction.place := by
      rw [← map_place_quickened sound config]
      exact List.mem_map_of_mem hj
    obtain ⟨i, hi, hij⟩ := List.mem_map.mp hplace
    have hoffset : i.offset = j.offset := congrArg Prod.fst hij
    rw [← hoffset]
    exact (CodeBuffer.mem_instructions_iff.mp hi).2
  have hlen : (code.quicken config).len = code.len := rfl
  rw [CodeBuffer.instructions_eq_filter, hlen, layout_quicken_eq_append sound config hlayout,
    List.filter_append, List.filter_eq_self.mpr fun j hj => decide_eq_true (hstays j hj),
    List.filter_eq_nil_iff.mpr fun j hj => ?_, List.append_nil]
  simpa using hbehind j hj

theorem length_instructions_quicken :
    (code.quicken config).instructions.length = code.instructions.length := by
  rw [instructions_quicken sound, length_quickened sound]

/-- Each listed instruction, told by the old one and the word pushed before it. -/
theorem getElem?_instructions_quicken (k : Nat) :
    (code.quicken config).instructions[k]?
      = code.instructions[k]?.map
        ((code.quickenContext config).replacement (code.quicken config).pool
          (pushedBefore code.instructions k)) := by
  rw [instructions_quicken sound, getElem?_quickened]

theorem getElem?_layout_quicken (k : Nat) :
    (code.quicken config).layout[k]?
      = code.layout[k]?.map
        ((code.quickenContext config).replacement (code.quicken config).pool
          (pushedBefore code.layout k)) := by
  obtain ⟨tail, hlayout, hbehind⟩ := code.layout_eq_append
  have hlength := length_quickened sound config
  rw [layout_quicken_eq_append sound config hlayout]
  rcases Nat.lt_or_ge k code.instructions.length with hk | hk
  · rw [hlayout, pushedBefore_append (Nat.le_of_lt hk), List.getElem?_append_left (by omega),
      List.getElem?_append_left hk, getElem?_quickened]
  · rw [List.getElem?_append_right (by omega), hlength, hlayout, List.getElem?_append_right hk]
    cases hi : tail[k - code.instructions.length]? with
    | none => rfl
    | some i =>
      have hmem := List.mem_of_getElem? hi
      have hzero := sound.padded i (by rw [hlayout]; exact List.mem_append_right _ hmem)
        (hbehind i hmem)
      rw [Option.map_some, replacement_of_byte_eq_zero hzero]

theorem byte_eq_zero_of_mem_layout_quicken {r : Instruction}
    (h : r ∈ (code.quicken config).layout) (behind : code.len ≤ r.offset) : r.byte = 0 := by
  obtain ⟨k, hk⟩ := List.mem_iff_getElem?.mp h
  rw [getElem?_layout_quicken sound] at hk
  obtain ⟨i, hi, rfl⟩ := Option.map_eq_some_iff.mp hk
  have hmem := List.mem_of_getElem? hi
  rw [offset_replacement (sound.whole i hmem)] at behind
  have hzero := sound.padded i hmem behind
  rw [replacement_of_byte_eq_zero hzero, hzero]

end Sound

end EvmPrep
