import EvmPrep.Proofs.Accounting
import EvmPrep.Proofs.Heads
set_option autoImplicit false

/-!
# Preparing twice without the pool

Without the pool, the only instructions that quickening puts in are the unchecked jumps,
and like the jumps that they stand for they have no immediate.  So the rule for source
code cuts the prepared buffer into the prepared instructions, and the second analysis
meets each of them: it traps the unchecked jumps and takes all others as they are
(`instructions_analyze_prepareWith`).

The second walk then finds the same words pushed in front of the same jumps, and a table
with the same destinations.  So it decides as the first one did, except about the jumps
that are traps by now (`outcomes_prepareWith_twice`).
-/

namespace EvmPrep

/-! ## One instruction -/

/-- The instruction is a jump that checks no more. -/
def Instruction.IsUnchecked (i : Instruction) : Prop :=
  i.opcode? = some .jumpv ∨ i.opcode? = some .jumpvi

instance (i : Instruction) : Decidable i.IsUnchecked := inferInstanceAs (Decidable (_ ∨ _))

theorem isSynthetic_iff {b : UInt8} :
    isSynthetic b = true
      ↔ b = Opcode.pushc.toByte ∨ b = Opcode.jumpv.toByte ∨ b = Opcode.jumpvi.toByte
        ∨ b = Opcode.bad.toByte := by
  rw [isSynthetic_iff_toNat]
  simp only [← UInt8.toNat_inj]
  show 172 ≤ b.toNat ∧ b.toNat ≤ 175
    ↔ b.toNat = 172 ∨ b.toNat = 173 ∨ b.toNat = 174 ∨ b.toNat = 175
  omega

theorem isUnchecked_iff {i : Instruction} :
    i.IsUnchecked ↔ i.byte = Opcode.jumpv.toByte ∨ i.byte = Opcode.jumpvi.toByte := by
  rw [Instruction.IsUnchecked, opcode?_eq_some_iff, opcode?_eq_some_iff]

theorem isSynthetic_iff_isUnchecked {i : Instruction} (plain : i.byte ≠ Opcode.pushc.toByte) :
    isSynthetic i.byte = true ↔ i.IsUnchecked ∨ i.byte = Opcode.bad.toByte := by
  rw [isSynthetic_iff, isUnchecked_iff, or_assoc]
  exact or_iff_right plain

theorem isSynthetic_of_isUnchecked {i : Instruction} (h : i.IsUnchecked) :
    isSynthetic i.byte = true :=
  isSynthetic_iff.mpr (.inr (or_assoc.mp (.inl (isUnchecked_iff.mp h))))

theorem byte_eq_bad_iff {i : Instruction} (plain : i.byte ≠ Opcode.pushc.toByte) :
    i.byte = Opcode.bad.toByte ↔ isSynthetic i.byte = true ∧ ¬ i.IsUnchecked := by
  have hnone : i.byte = Opcode.bad.toByte → ¬ i.IsUnchecked := fun h => by
    rw [isUnchecked_iff, h]
    decide
  rw [isSynthetic_iff_isUnchecked plain, or_and_right, and_not_self_iff, false_or]
  exact (and_iff_left_of_imp hnone).symm

theorem disarmed_of_plain {i : Instruction}
    (plain : i.byte ≠ Opcode.pushc.toByte ∧ i.byte ≠ Opcode.jumpv.toByte
      ∧ i.byte ≠ Opcode.jumpvi.toByte) : i.disarmed = i := by
  unfold Instruction.disarmed
  split
  case isFalse => rfl
  case isTrue hsynthetic =>
    obtain ⟨hpushc, hjumpv, hjumpvi⟩ := plain
    have hbad : i.byte = Opcode.bad.toByte := by
      simpa [hpushc, hjumpv, hjumpvi] using isSynthetic_iff.mp hsynthetic
    rw [← hbad]

theorem isSynthetic_byte_disarmed (i : Instruction) :
    isSynthetic i.disarmed.byte = isSynthetic i.byte := by
  unfold Instruction.disarmed
  split
  case isTrue hsynthetic =>
    rw [hsynthetic]
    exact (by decide : isSynthetic Opcode.bad.toByte = true)
  case isFalse => rfl

theorem byte_disarmed_of_isUnchecked {i : Instruction} (h : i.IsUnchecked) :
    i.disarmed.byte = Opcode.bad.toByte := by
  rw [Instruction.disarmed, if_pos (isSynthetic_of_isUnchecked h)]

section Replacement

variable {ctx : QuickenContext} {final : ConstantPool} {pushed : Option Word} {i : Instruction}
  (off : ctx.config.usePool = false)
include off

/-- Without the pool, an instruction is resolved, or it stays. -/
theorem outcomeIn_cases_unpooled :
    (∃ j, ctx.outcomeIn final pushed i = .resolved ∧ i.resolved? = some j
        ∧ ctx.replacement final pushed i = j)
      ∨ (¬ (ctx.outcomeIn final pushed i).IsReplacement ∧ ctx.replacement final pushed i = i) := by
  rcases outcomeIn_replacement_cases ctx final pushed i with ⟨index, ho, -⟩ | h | h
  · have hon := (QuickenContext.outcomeIn_eq_pooled_iff.mp ho).1
    rw [off] at hon
    cases hon
  · exact .inl h
  · exact .inr h

theorem plain_replacement_unpooled (plain : i.byte ≠ Opcode.pushc.toByte)
    (whole : i.immediate.length = pushWidth i.byte) :
    (ctx.replacement final pushed i).byte ≠ Opcode.pushc.toByte
      ∧ (ctx.replacement final pushed i).immediate.length
        = pushWidth (ctx.replacement final pushed i).byte := by
  rcases outcomeIn_cases_unpooled off with ⟨j, -, hj, h⟩ | ⟨-, h⟩
  · obtain ⟨hnone, -, hnone', hplain, hsame⟩ := plain_of_resolved? hj
    rw [h]
    exact ⟨hplain, by rw [hsame, whole, hnone, hnone']⟩
  · rw [h]
    exact ⟨plain, whole⟩

/-- Disarmed, it is a trap if it was resolved, and the old instruction if not. -/
theorem disarmed_replacement_cases_unpooled
    (plain : i.byte ≠ Opcode.pushc.toByte ∧ i.byte ≠ Opcode.jumpv.toByte
      ∧ i.byte ≠ Opcode.jumpvi.toByte) :
    (ctx.outcomeIn final pushed i = .resolved ∧ i.pushValue? = none
        ∧ (ctx.replacement final pushed i).disarmed.byte = Opcode.bad.toByte)
      ∨ (¬ (ctx.outcomeIn final pushed i).IsReplacement
        ∧ (ctx.replacement final pushed i).disarmed = i) := by
  rcases outcomeIn_cases_unpooled off with ⟨j, ho, hj, h⟩ | ⟨ho, h⟩
  · obtain ⟨hnone, hplain, -⟩ := plain_of_resolved? hj
    refine .inl ⟨ho, by rw [Instruction.pushValue?, operand_eq_absent hplain hnone], ?_⟩
    rw [h]
    exact byte_disarmed_of_isUnchecked (opcode?_of_resolved? hj)
  · rw [h]
    exact .inr ⟨ho, disarmed_of_plain plain⟩

end Replacement

theorem of_byte_eq_bad {i : Instruction} (h : i.byte = Opcode.bad.toByte) :
    i.pushValue? = none ∧ i.resolved? = none := by
  constructor
  · rw [Instruction.pushValue?, operand_eq_absent]
    · rw [h]
      decide
    · rw [h]
      decide
  · rw [Instruction.resolved?, Instruction.opcode?, h]
    rfl

/-- What is left of an outcome when it is decided again: a resolved jump is a trap by then. -/
def Outcome.again : Outcome → Outcome
  | .resolved => .kept
  | o => o

theorem again_of_not_isReplacement {o : Outcome} (h : ¬ o.IsReplacement) : o.again = o := by
  cases o with
  | resolved => exact absurd (.inr rfl) h
  | _ => rfl

/-- Of what is decided again, no jump is resolved, and as many as before are left. -/
theorem stats_of_outcomes_eq_map_again {code code' : PreparedCode}
    (h : code'.outcomes = code.outcomes.map Outcome.again) :
    code'.stats.jumpsResolved = 0 ∧ code'.stats.jumpsLeftDynamic = code.stats.jumpsLeftDynamic := by
  simp only [PreparedCode.stats, QuickenStats.ofOutcomes, h]
  constructor
  · rw [List.count_eq_zero, List.mem_map]
    rintro ⟨o, -, ho⟩
    cases o <;> cases ho
  · rw [List.count, List.countP_map]
    refine List.countP_congr fun o _ => ?_
    cases o <;> simp [Outcome.again]

/-! ## The prepared buffer -/

theorem unpooled_quickenContext (code : AnalyzedCode) {config : QuickenConfig}
    (off : config.usePool = false) : (code.quickenContext config).config.usePool = false := off

section Sound

variable {code : AnalyzedCode} (sound : code.Sound) (config : QuickenConfig)
include sound

theorem map_layout_quicken {β : Type} {f g : Instruction → β}
    (same : ∀ i ∈ code.layout, ∀ pushed,
      f ((code.quickenContext config).replacement (code.quicken config).pool pushed i) = g i) :
    (code.quicken config).layout.map f = code.layout.map g := by
  apply List.ext_getElem?
  intro k
  rw [List.getElem?_map, List.getElem?_map, getElem?_layout_quicken sound]
  cases hi : code.layout[k]? with
  | none => rfl
  | some i => exact congrArg some (same i (List.mem_of_getElem? hi) _)

theorem countP_isUnchecked_layout_quicken :
    (code.quicken config).layout.countP (fun i => i.IsUnchecked)
      = (code.quicken config).stats.jumpsResolved := by
  obtain ⟨tail, hlayout, hbehind⟩ := (code.quicken config).layout_eq_append
  have htail : tail.countP (fun i => i.IsUnchecked) = 0 := by
    refine List.countP_eq_zero.mpr fun i hi => ?_
    have hmem : i ∈ (code.quicken config).layout := by
      rw [hlayout]
      exact List.mem_append_right _ hi
    have hzero := byte_eq_zero_of_mem_layout_quicken sound config hmem (hbehind i hi)
    rw [decide_eq_true_eq, isUnchecked_iff, hzero]
    decide
  rw [hlayout, List.countP_append, htail, jumpsResolved_quicken sound config]
  rfl

variable (off : config.usePool = false)
include off

theorem plain_of_mem_layout_quicken {r : Instruction} (h : r ∈ (code.quicken config).layout) :
    r.byte ≠ Opcode.pushc.toByte ∧ r.immediate.length = pushWidth r.byte := by
  obtain ⟨k, hk⟩ := List.mem_iff_getElem?.mp h
  rw [getElem?_layout_quicken sound] at hk
  obtain ⟨i, hi, rfl⟩ := Option.map_eq_some_iff.mp hk
  have hmem := List.mem_of_getElem? hi
  exact plain_replacement_unpooled (unpooled_quickenContext code off) (sound.plain i hmem).1
    (sound.whole i hmem)

/-- Without the pool, prepared code is cut as source code is. -/
theorem cut_sourceWidth_bytes_quicken :
    cut sourceWidth 0 (code.quicken config).bytes = (code.quicken config).layout := by
  have hfills : ∀ r ∈ (code.quicken config).layout, r.Fills sourceWidth := fun r hr _ =>
    (plain_of_mem_layout_quicken sound config off hr).2.symm
  have hcut := cut_flatMap_bytes (code.quicken config).chained_layout hfills
  rwa [CodeBuffer.flatMap_bytes_layout] at hcut

theorem countP_bad_layout_quicken :
    (code.quicken config).layout.countP (fun i => i.byte == Opcode.bad.toByte)
      = code.layout.countP fun i => isSynthetic i.byte := by
  refine countP_eq_of_map_eq (map_layout_quicken sound config fun i hi pushed => ?_)
  obtain ⟨hpushc, hjumpv, hjumpvi⟩ := sound.plain i hi
  rw [Bool.eq_iff_iff, beq_iff_eq]
  rcases outcomeIn_cases_unpooled (unpooled_quickenContext code off) with ⟨j, -, hj, h⟩ | ⟨-, h⟩
  · -- the unchecked jump is no trap, and the jump was not synthetic
    rw [h]
    rcases resolved?_eq_some_iff.mp hj with ⟨hop, rfl⟩ | ⟨hop, rfl⟩
    all_goals
      rw [opcode?_eq_some_iff.mp hop]
      dsimp only
      decide
  · rw [h, isSynthetic_iff]
    simp only [hpushc, hjumpv, hjumpvi, false_or]

/-- The synthetic bytes of the layout are the traps that there were, and the unchecked jumps that
were put in. -/
theorem countP_isSynthetic_layout_quicken :
    (code.quicken config).layout.countP (fun i => isSynthetic i.byte)
      = code.layout.countP (fun i => isSynthetic i.byte)
        + (code.quicken config).stats.jumpsResolved := by
  have hunchecked : ∀ r ∈ (code.quicken config).layout,
      (isSynthetic r.byte && decide r.IsUnchecked) = true ↔ decide r.IsUnchecked = true := by
    intro r _
    rw [Bool.and_eq_true, decide_eq_true_eq]
    exact and_iff_right_of_imp isSynthetic_of_isUnchecked
  have hbad : ∀ r ∈ (code.quicken config).layout,
      (isSynthetic r.byte && !decide r.IsUnchecked) = true
        ↔ (r.byte == Opcode.bad.toByte) = true := by
    intro r hr
    rw [Bool.and_eq_true, Bool.not_eq_true', decide_eq_false_iff_not, beq_iff_eq]
    exact (byte_eq_bad_iff (plain_of_mem_layout_quicken sound config off hr).1).symm
  calc (code.quicken config).layout.countP (fun i => isSynthetic i.byte)
      = (code.quicken config).layout.countP (fun i => isSynthetic i.byte && decide i.IsUnchecked)
        + (code.quicken config).layout.countP
          (fun i => isSynthetic i.byte && !decide i.IsUnchecked) := by
        rw [List.countP_eq_countP_filter_add _ _ fun i => decide i.IsUnchecked,
          List.countP_filter, List.countP_filter]
    _ = (code.quicken config).layout.countP (fun i => i.IsUnchecked)
        + (code.quicken config).layout.countP (fun i => i.byte == Opcode.bad.toByte) := by
        rw [List.countP_congr hunchecked, List.countP_congr hbad]
    _ = _ := by
        rw [countP_isUnchecked_layout_quicken sound config,
          countP_bad_layout_quicken sound config off, Nat.add_comm]

end Sound

/-! ## The second walk -/

section Again

variable {code code' : AnalyzedCode} {config : QuickenConfig} (sound : code.Sound)
  (off : config.usePool = false)
  (dests : code'.jumpTable.dests = code.jumpTable.dests)
  (listed : code'.instructions = (code.quicken config).instructions.map Instruction.disarmed)

include off dests in
/-- A walk that uses no pool and has the same destinations decides the same. -/
theorem outcomeIn_again (final final' : ConstantPool) (pushed : Option Word) (i : Instruction) :
    (code'.quickenContext config).outcomeIn final' pushed i
      = (code.quickenContext config).outcomeIn final pushed i := by
  cases hw : i.pushValue? with
  | some w =>
    rw [QuickenContext.outcomeIn_of_pushValue? hw, QuickenContext.outcomeIn_of_pushValue? hw,
      unpooled_quickenContext code off, unpooled_quickenContext code' off]
    rfl
  | none =>
    rw [QuickenContext.outcomeIn_of_pushValue?_eq_none hw,
      QuickenContext.outcomeIn_of_pushValue?_eq_none hw]
    have hvalid : ∀ w, code'.jumpTable.isValid w = code.jumpTable.isValid w := fun w => by
      rw [Bool.eq_iff_iff, JumpTable.isValid_iff, JumpTable.isValid_iff, dests]
    have hconfig : (code'.quickenContext config).config = (code.quickenContext config).config := rfl
    exact QuickenContext.jumpOutcome_congr hconfig (fun w _ => hvalid w) i

include sound listed

theorem getElem?_instructions_again (k : Nat) :
    code'.instructions[k]?
      = code.instructions[k]?.map fun i =>
        ((code.quickenContext config).replacement (code.quicken config).pool
          (pushedBefore code.instructions k) i).disarmed := by
  rw [listed, List.getElem?_map, getElem?_instructions_quicken sound, Option.map_map]
  rfl

include off

/-- A resolved jump is a trap afterwards, and all else is as it was before. -/
theorem instruction_again_cases (k : Nat) {i : Instruction}
    (here : code.instructions[k]? = some i) :
    ∃ j, code'.instructions[k]? = some j
      ∧ (((code.quicken config).outcomes[k]? = some .resolved
          ∧ i.pushValue? = none ∧ j.byte = Opcode.bad.toByte)
        ∨ ∃ o, (code.quicken config).outcomes[k]? = some o ∧ ¬ o.IsReplacement ∧ j = i) := by
  have hmem := mem_layout_of_mem_instructions (List.mem_of_getElem? here)
  rw [getElem?_instructions_again sound listed, getElem?_outcomes_quicken, here,
    Option.map_some, Option.map_some]
  refine ⟨_, rfl, ?_⟩
  rcases disarmed_replacement_cases_unpooled (unpooled_quickenContext code off)
    (sound.plain i hmem) with ⟨ho, hnone, hbad⟩ | ⟨ho, hsame⟩
  · exact .inl ⟨congrArg some ho, hnone, hbad⟩
  · exact .inr ⟨_, rfl, ho, hsame⟩

theorem pushedBefore_again (k : Nat) :
    pushedBefore code'.instructions k = pushedBefore code.instructions k := by
  cases k with
  | zero => rfl
  | succ k =>
    rw [pushedBefore, pushedBefore]
    cases hi : code.instructions[k]? with
    | none => rw [getElem?_instructions_again sound listed, hi]; rfl
    | some i =>
      obtain ⟨j, hj, ⟨-, hnone, hbad⟩ | ⟨-, -, -, rfl⟩⟩ :=
        instruction_again_cases sound off listed k hi
      · rw [hj, Option.bind_some, Option.bind_some, hnone, (of_byte_eq_bad hbad).1]
      · rw [hj]

include dests

/-- A second walk decides as the first one did, where the instruction is still there. -/
theorem outcomes_again :
    (code'.quicken config).outcomes = (code.quicken config).outcomes.map Outcome.again := by
  apply List.ext_getElem?
  intro k
  rw [getElem?_outcomes_quicken, pushedBefore_again sound off listed, List.getElem?_map]
  cases hi : code.instructions[k]? with
  | none =>
    rw [getElem?_instructions_again sound listed, getElem?_outcomes_quicken, hi]
    rfl
  | some i =>
    obtain ⟨j, hj, ⟨ho, -, hbad⟩ | ⟨o, ho, hkept, rfl⟩⟩ :=
      instruction_again_cases sound off listed k hi
    · obtain ⟨hnone, hstill⟩ := of_byte_eq_bad hbad
      rw [hj, ho, Option.map_some, QuickenContext.outcomeIn_of_pushValue?_eq_none hnone,
        QuickenContext.jumpOutcome_of_resolved?_eq_none _ _ hstill]
      rfl
    · rw [hj, ho, Option.map_some, Option.map_some, again_of_not_isReplacement hkept]
      rw [getElem?_outcomes_quicken, hi, Option.map_some] at ho
      rw [← ho]
      exact congrArg some (outcomeIn_again off dests _ _ _ j)

theorem not_isReplacement_of_mem_outcomes_again {o : Outcome}
    (h : o ∈ (code'.quicken config).outcomes) : ¬ o.IsReplacement := by
  rw [outcomes_again sound off dests listed, List.mem_map] at h
  obtain ⟨o, ho, rfl⟩ := h
  obtain ⟨k, hk⟩ := List.mem_iff_getElem?.mp ho
  rw [getElem?_outcomes_quicken, Option.map_eq_some_iff] at hk
  obtain ⟨i, -, rfl⟩ := hk
  rcases outcomeIn_cases_unpooled (unpooled_quickenContext code off) with ⟨j, ho, -⟩ | ⟨ho, -⟩
  · rw [ho]
    rintro (h | h) <;> cases h
  · rwa [again_of_not_isReplacement ho]

end Again

/-! ## The second analysis -/

section Twice

variable (program : List UInt8) (config : QuickenConfig)

theorem jumpTable_prepareWith :
    (prepareWith config program).jumpTable = (RawCode.ofProgram program).analyze.jumpTable := rfl

theorem bytes_ofProgram_program_prepareWith :
    (CodeBuffer.ofProgram (prepareWith config program).program).bytes
      = (prepareWith config program).bytes :=
  (CodeBuffer.bytes_eq_program_append (padding_finish program (some config))).symm

theorem len_analyze_program_prepareWith :
    (RawCode.ofProgram (prepareWith config program).program).analyze.len = program.length :=
  CodeBuffer.length_program (padding_finish program (some config))

theorem jumpTable_analyze_program_prepareWith :
    (RawCode.ofProgram (prepareWith config program).program).analyze.jumpTable
      = JumpTable.ofCode (prepareWith config program).bytes := by
  rw [← bytes_ofProgram_program_prepareWith]
  rfl

theorem bytes_analyze_program_prepareWith :
    (RawCode.ofProgram (prepareWith config program).program).analyze.bytes
      = disarm (prepareWith config program).bytes := by
  rw [← bytes_ofProgram_program_prepareWith]
  rfl

variable (off : config.usePool = false)
include off

theorem cut_bytes_prepareWith :
    cut sourceWidth 0 (prepareWith config program).bytes = (prepareWith config program).layout :=
  cut_sourceWidth_bytes_quicken (sound_analyze program) config off

theorem mem_heads_prepareWith_iff {s : Nat} {b : UInt8} :
    (s, b) ∈ heads (prepareWith config program).bytes
      ↔ ∃ r ∈ (prepareWith config program).layout, r.offset = s ∧ r.byte = b := by
  rw [heads, cut_bytes_prepareWith program config off, List.mem_map]
  simp only [Instruction.head, Prod.mk.injEq]

/-- The second analysis lists the prepared instructions, disarmed. -/
theorem instructions_analyze_prepareWith :
    (RawCode.ofProgram (prepareWith config program).program).analyze.instructions
      = (prepareWith config program).instructions.map Instruction.disarmed := by
  rw [CodeBuffer.instructions_eq_filter, len_analyze_program_prepareWith, layout_analyze_eq_map,
    bytes_ofProgram_program_prepareWith, cut_bytes_prepareWith program config off,
    CodeBuffer.instructions_eq_filter, List.filter_map]
  simp only [Function.comp_def, offset_disarmed]
  rfl

theorem dests_analyze_prepareWith :
    (RawCode.ofProgram (prepareWith config program).program).analyze.jumpTable.dests
      = (RawCode.ofProgram program).analyze.jumpTable.dests := by
  rw [jumpTable_analyze_program_prepareWith]
  apply Array.toList_inj.mp
  apply List.Pairwise.eq_of_mem_iff (r := (· < ·))
  · exact JumpTable.increasing _
  · exact JumpTable.increasing _
  · intro d
    rw [Array.mem_toList_iff, Array.mem_toList_iff, mem_dests_ofCode_iff, isDestination_iff,
      ← mem_heads_iff, mem_heads_prepareWith_iff program config off]
    exact (mem_dests_iff_layout_finish (sound_analyze program) (some config) d).symm

/-- The second analysis counts the traps that there were, and the unchecked jumps. -/
theorem trapped_analyze_prepareWith :
    (RawCode.ofProgram (prepareWith config program).program).analyze.jumpTable.trapped
      = (RawCode.ofProgram program).analyze.jumpTable.trapped
        + (prepareWith config program).stats.jumpsResolved := by
  have htraps : (RawCode.ofProgram program).analyze.layout.countP (fun i => isSynthetic i.byte)
      = (RawCode.ofProgram program).analyze.jumpTable.trapped := by
    rw [layout_analyze_eq_map, List.countP_map]
    refine List.countP_congr fun i _ => ?_
    rw [Function.comp_apply, isSynthetic_byte_disarmed]
  rw [jumpTable_analyze_program_prepareWith, JumpTable.ofCode]
  dsimp only
  rw [cut_bytes_prepareWith program config off, ← htraps]
  exact countP_isSynthetic_layout_quicken (sound_analyze program) config off

theorem outcomes_prepareWith_twice :
    (prepareWith config (prepareWith config program).program).outcomes
      = (prepareWith config program).outcomes.map Outcome.again :=
  outcomes_again (sound_analyze program) off (dests_analyze_prepareWith program config off)
    (instructions_analyze_prepareWith program config off)

theorem instructions_prepareWith_twice :
    (prepareWith config (prepareWith config program).program).instructions
      = (prepareWith config program).instructions.map Instruction.disarmed := by
  rw [← instructions_analyze_prepareWith program config off]
  exact instructions_quicken_of_forall_not (sound_analyze _) config fun _ =>
    not_isReplacement_of_mem_outcomes_again (sound_analyze program) off
      (dests_analyze_prepareWith program config off)
      (instructions_analyze_prepareWith program config off)

theorem program_prepareWith_twice :
    (prepareWith config (prepareWith config program).program).program
      = (disarm (prepareWith config program).bytes).take program.length := by
  have hlisted : (prepareWith config (prepareWith config program).program).instructions
      = (RawCode.ofProgram (prepareWith config program).program).analyze.instructions := by
    rw [instructions_prepareWith_twice program config off,
      instructions_analyze_prepareWith program config off]
  refine (program_quicken_of_instructions_eq (sound_analyze _) config hlisted).trans ?_
  rw [← len_analyze_program_prepareWith program config, ← bytes_analyze_program_prepareWith]
  rfl

/-- Where the prepared buffer is trapped again there is an unchecked jump, or a trap from before. -/
theorem isTrapped_prepareWith_iff {s : Nat} (inside : s < program.length) :
    IsTrapped (prepareWith config program).bytes s
      ↔ (∃ r ∈ (prepareWith config program).instructions, r.offset = s ∧ r.IsUnchecked)
        ∨ ∃ r ∈ (prepareWith config program).instructions,
          r.offset = s ∧ r.byte = Opcode.bad.toByte := by
  have hlisted : ∀ r, r.offset = s → (r ∈ (prepareWith config program).instructions
      ↔ r ∈ (prepareWith config program).layout) := fun r hr =>
    CodeBuffer.mem_instructions_iff.trans (and_iff_left (by rw [hr]; exact inside))
  rw [isTrapped_iff_mem_heads]
  simp only [mem_heads_prepareWith_iff program config off]
  constructor
  · rintro ⟨b, ⟨r, hr, hoffset, rfl⟩, hsynthetic⟩
    have hplain := plain_of_mem_layout_quicken (sound_analyze program) config off hr
    rcases (isSynthetic_iff_isUnchecked hplain.1).mp hsynthetic with h | h
    · exact .inl ⟨r, (hlisted r hoffset).mpr hr, hoffset, h⟩
    · exact .inr ⟨r, (hlisted r hoffset).mpr hr, hoffset, h⟩
  · rintro (⟨r, hr, hoffset, h⟩ | ⟨r, hr, hoffset, h⟩)
    all_goals
      have hmem := mem_layout_of_mem_instructions hr
      have hplain := plain_of_mem_layout_quicken (sound_analyze program) config off hmem
      refine ⟨r.byte, ⟨r, hmem, hoffset, rfl⟩, (isSynthetic_iff_isUnchecked hplain.1).mpr ?_⟩
    · exact .inl h
    · exact .inr h

/-- The second preparation changes the bytes of the unchecked jumps and no others. -/
theorem getElem?_program_prepareWith_twice_unpooled (s : Nat) :
    (prepareWith config (prepareWith config program).program).program[s]?
      = if ∃ r ∈ (prepareWith config program).instructions, r.offset = s ∧ r.IsUnchecked then
          some Opcode.bad.toByte
        else (prepareWith config program).program[s]? := by
  have hlen : (prepareWith config program).len = program.length := rfl
  rw [program_prepareWith_twice program config off, CodeBuffer.program, hlen]
  rcases Nat.lt_or_ge s program.length with hs | hs
  · have htrapped := isTrapped_prepareWith_iff program config off hs
    rw [List.getElem?_take_of_lt hs, List.getElem?_take_of_lt hs, getElem?_disarm]
    by_cases hunchecked :
      ∃ r ∈ (prepareWith config program).instructions, r.offset = s ∧ r.IsUnchecked
    · rw [if_pos hunchecked, if_pos (htrapped.mpr (.inl hunchecked))]
    · rw [if_neg hunchecked]
      split
      case isFalse => rfl
      case isTrue h =>
        -- a trap from before is still there
        obtain ⟨r, hr, rfl, hbad⟩ := (htrapped.mp h).resolve_left hunchecked
        rw [← hbad]
        exact (of_mem_cut (mem_layout_of_mem_instructions hr)).2.1.symm
  · have hnone : ¬ ∃ r ∈ (prepareWith config program).instructions,
        r.offset = s ∧ r.IsUnchecked := by
      rintro ⟨r, hr, rfl, -⟩
      exact absurd (CodeBuffer.mem_instructions_iff.mp hr).2 (Nat.not_lt_of_le hs)
    rw [if_neg hnone, List.getElem?_take_eq_none hs, List.getElem?_take_eq_none hs]

end Twice

/-- Preparing the bytes of prepared code again, without the pool.  The second preparation finds the
same destinations, and one trap more for each jump that the first one resolved.  It lists the same
instructions but for these jumps, in whose places there are traps, and no other byte of the program
changes.  No jump is resolved again, and as many as before are left dynamic. -/
theorem prepareWith_twice_unpooled (config : QuickenConfig) (off : config.usePool = false)
    (program : List UInt8) :
    let first := prepareWith config program
    let second := prepareWith config first.program
    second.jumpTable.dests = first.jumpTable.dests
      ∧ second.jumpTable.trapped = first.jumpTable.trapped + first.stats.jumpsResolved
      ∧ second.instructions.map Instruction.offset = first.instructions.map Instruction.offset
      ∧ (∀ s : Nat, second.program[s]?
        = if ∃ r ∈ first.instructions, r.offset = s ∧ r.IsUnchecked then some Opcode.bad.toByte
          else first.program[s]?)
      ∧ second.stats.jumpsResolved = 0
      ∧ second.stats.jumpsLeftDynamic = first.stats.jumpsLeftDynamic := by
  have houtcomes := outcomes_prepareWith_twice program config off
  refine ⟨?_, ?_, ?_, getElem?_program_prepareWith_twice_unpooled program config off,
    stats_of_outcomes_eq_map_again houtcomes⟩
  · rw [jumpTable_prepareWith, jumpTable_prepareWith, dests_analyze_prepareWith program config off]
  · rw [jumpTable_prepareWith, jumpTable_prepareWith,
      trapped_analyze_prepareWith program config off]
  · rw [instructions_prepareWith_twice program config off, List.map_map]
    exact List.map_congr_left fun r _ => offset_disarmed r

/-- A jump that is resolved and one that is left, with the bytes of an unchecked jump in an
immediate and as a trap. -/
theorem prepareWith_twice_unpooled_jumps :
    let program : List UInt8 := [0x5b, 0x60, 0x00, 0x56, 0x61, 0xad, 0xad, 0x56, 0xad]
    let first := prepareWith { usePool := false } program
    let second := prepareWith { usePool := false } first.program
    first.stats.jumpsResolved = 1 ∧ first.stats.jumpsLeftDynamic = 1
      ∧ first.jumpTable.trapped = 1
      ∧ second.jumpTable.trapped = 2 ∧ second.stats.jumpsLeftDynamic = 1 := by
  intro program first second
  have hresolved : first.stats.jumpsResolved = 1 := by decide +kernel
  have hleft : first.stats.jumpsLeftDynamic = 1 := by decide +kernel
  have htrapped : first.jumpTable.trapped = 1 := by decide +kernel
  obtain ⟨-, htrapped', -, -, -, hleft'⟩ :=
    prepareWith_twice_unpooled { usePool := false } rfl program
  exact ⟨hresolved, hleft, htrapped, by rw [htrapped', htrapped, hresolved], by rw [hleft', hleft]⟩

end EvmPrep
