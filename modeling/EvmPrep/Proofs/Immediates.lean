import EvmPrep.Proofs.Accounting
import EvmPrep.Proofs.Concatenated
set_option autoImplicit false

/-!
# Immediate bytes are data

Two programs of one length that hold the same byte wherever an instruction of the first
starts may differ in all their immediates.  To a scan they are one program, since their
heads are the same, and so are the heads of their listings
(`map_head_instructions_analyze_eq`).

Quickening does look at immediates: at the words that are pushed.  But which pushes it
offers to the pool, and which jumps it tries, it reads off heads alone
(`isOfPush_outcomeIn`, `isOfJump_outcomeIn`).  The words only decide the answers.
-/

namespace EvmPrep

/-! ## Attempts -/

namespace Outcome

/-- The pool was asked for a place. -/
def isOfPush : Outcome → Bool
  | .pooled _ | .exhausted => true
  | .kept | .resolved | .leftDynamic => false

/-- The table was asked about a destination. -/
def isOfJump : Outcome → Bool
  | .resolved | .leftDynamic => true
  | .kept | .pooled _ | .exhausted => false

end Outcome

theorem pushesPooled_add_poolExhausted (os : List Outcome) :
    (QuickenStats.ofOutcomes os).pushesPooled + (QuickenStats.ofOutcomes os).poolExhausted
      = os.countP Outcome.isOfPush := by
  simp only [QuickenStats.ofOutcomes]
  induction os with
  | nil => rfl
  | cons o rest ih =>
    cases o <;> simp [List.countP_cons, Outcome.isOfPush, Outcome.isPooled] <;> omega

theorem jumpsResolved_add_jumpsLeftDynamic (os : List Outcome) :
    (QuickenStats.ofOutcomes os).jumpsResolved + (QuickenStats.ofOutcomes os).jumpsLeftDynamic
      = os.countP Outcome.isOfJump := by
  simp only [QuickenStats.ofOutcomes]
  induction os with
  | nil => rfl
  | cons o rest ih => cases o <;> simp [List.countP_cons, Outcome.isOfJump] <;> omega

section Attempts

variable {ctx : QuickenContext} {final : ConstantPool} {pushed : Option Word} {i : Instruction}

/-- The pool is asked about a push that may be pooled, whatever its word is. -/
theorem isOfPush_outcomeIn :
    (ctx.outcomeIn final pushed i).isOfPush
      = (i.pushValue?.isSome && (ctx.config.usePool && ctx.isPoolable i)) := by
  cases hw : i.pushValue? with
  | none =>
    rw [QuickenContext.outcomeIn_of_pushValue?_eq_none hw]
    rcases ctx.jumpOutcome_cases pushed i with h | h | h <;> rw [h] <;> rfl
  | some w =>
    rw [QuickenContext.outcomeIn_of_pushValue? hw, Option.isSome_some, Bool.true_and]
    cases ctx.config.usePool && ctx.isPoolable i with
    | false => rfl
    | true =>
      rw [if_pos rfl]
      split <;> rfl

/-- The table is asked about a jump behind a push, whatever the word is. -/
theorem isOfJump_outcomeIn :
    (ctx.outcomeIn final pushed i).isOfJump
      = (!i.pushValue?.isSome
        && (ctx.config.resolveJumps && (i.resolved?.isSome && pushed.isSome))) := by
  cases hw : i.pushValue? with
  | some w =>
    rw [QuickenContext.outcomeIn_of_pushValue? hw]
    split
    · split <;> rfl
    · rfl
  | none =>
    rw [QuickenContext.outcomeIn_of_pushValue?_eq_none hw]
    by_cases hon : ctx.config.resolveJumps = true
    · cases pushed with
      | none => simp [QuickenContext.jumpOutcome, Outcome.isOfJump]
      | some w =>
        cases hj : i.resolved? with
        | none => simp [QuickenContext.jumpOutcome, hj, Outcome.isOfJump]
        | some j => cases hvalid : ctx.jumpTable.isValid w <;>
            simp [QuickenContext.jumpOutcome, hj, hon, hvalid, Outcome.isOfJump]
    · rw [QuickenContext.jumpOutcome_of_not_resolveJumps _ _ hon, Bool.eq_false_iff.mpr hon,
        Bool.false_and, Bool.and_false]
      rfl

end Attempts

/-! ## Listings with the same heads -/

theorem head_eq_iff {i j : Instruction} :
    j.head = i.head ↔ j.offset = i.offset ∧ j.byte = i.byte := Prod.mk.injEq .. ▸ Iff.rfl

theorem getElem?_of_map_head_eq {is js : List Instruction}
    (same : js.map Instruction.head = is.map Instruction.head) (k : Nat) :
    (is[k]? = none ∧ js[k]? = none)
      ∨ ∃ i j, is[k]? = some i ∧ js[k]? = some j ∧ j.offset = i.offset ∧ j.byte = i.byte := by
  have hat := congrArg (fun hs => hs[k]?) same
  simp only [List.getElem?_map] at hat
  cases hi : is[k]? with
  | none =>
    rw [hi, Option.map_none, Option.map_eq_none_iff] at hat
    exact .inl ⟨rfl, hat⟩
  | some i =>
    rw [hi, Option.map_some, Option.map_eq_some_iff] at hat
    obtain ⟨j, hj, hhead⟩ := hat
    exact .inr ⟨i, j, rfl, hj, head_eq_iff.mp hhead⟩

theorem isSome_resolved?_of_byte_eq {i j : Instruction} (same : j.byte = i.byte) :
    j.resolved?.isSome = i.resolved?.isSome := by
  rw [Bool.eq_iff_iff, resolved?_isSome_iff, resolved?_isSome_iff, Instruction.opcode?,
    Instruction.opcode?, same]

theorem isSome_pushValue?_eq_isPush {code : AnalyzedCode} (sound : code.Sound) {i : Instruction}
    (h : i ∈ code.instructions) : i.pushValue?.isSome = i.isPush := by
  have hmem := mem_layout_of_mem_instructions h
  by_cases hwidth : pushWidth i.byte = 0
  · rw [Instruction.pushValue?, operand_eq_absent (sound.plain i hmem).1 hwidth,
      Instruction.isPush, hwidth]
    rfl
  · rw [pushValue?_isSome sound hmem hwidth]
    exact (bne_iff_ne.mpr hwidth).symm

section SameHeads

variable {code code' : AnalyzedCode} (sound : code.Sound) (sound' : code'.Sound)
  (config : QuickenConfig) (len_eq : code'.len = code.len)
  (same : code'.instructions.map Instruction.head = code.instructions.map Instruction.head)
include sound sound' same

theorem isSome_pushedBefore_of_map_head_eq (k : Nat) :
    (pushedBefore code'.instructions k).isSome = (pushedBefore code.instructions k).isSome := by
  cases k with
  | zero => rfl
  | succ k =>
    rw [pushedBefore, pushedBefore]
    rcases getElem?_of_map_head_eq same k with ⟨hi, hj⟩ | ⟨i, j, hi, hj, -, hbyte⟩
    · rw [hi, hj]
    · rw [hi, hj, Option.bind_some, Option.bind_some,
        isSome_pushValue?_eq_isPush sound (List.mem_of_getElem? hi),
        isSome_pushValue?_eq_isPush sound' (List.mem_of_getElem? hj), Instruction.isPush, hbyte]
      rfl

/-- What is told of an outcome by the heads is the same for both. -/
theorem map_outcomes_quicken_of_map_head_eq {f : Outcome → Bool}
    (told : ∀ (pushed pushed' : Option Word), pushed'.isSome = pushed.isSome →
      ∀ i j : Instruction, j.offset = i.offset → j.byte = i.byte →
      j.pushValue?.isSome = i.pushValue?.isSome →
      f ((code'.quickenContext config).outcomeIn (code'.quicken config).pool pushed' j)
        = f ((code.quickenContext config).outcomeIn (code.quicken config).pool pushed i)) :
    (code'.quicken config).outcomes.map f = (code.quicken config).outcomes.map f := by
  apply List.ext_getElem?
  intro k
  rw [List.getElem?_map, List.getElem?_map, getElem?_outcomes_quicken, getElem?_outcomes_quicken]
  rcases getElem?_of_map_head_eq same k with ⟨hi, hj⟩ | ⟨i, j, hi, hj, hoffset, hbyte⟩
  · rw [hi, hj]
    rfl
  · have hpushes : j.pushValue?.isSome = i.pushValue?.isSome := by
      rw [isSome_pushValue?_eq_isPush sound (List.mem_of_getElem? hi),
        isSome_pushValue?_eq_isPush sound' (List.mem_of_getElem? hj), Instruction.isPush, hbyte]
      rfl
    rw [hi, hj]
    exact congrArg some
      (told _ _ (isSome_pushedBefore_of_map_head_eq sound sound' same k) i j hoffset hbyte hpushes)

include len_eq in
theorem map_isOfPush_outcomes_quicken :
    (code'.quicken config).outcomes.map Outcome.isOfPush
      = (code.quicken config).outcomes.map Outcome.isOfPush := by
  refine map_outcomes_quicken_of_map_head_eq sound sound' config same
    fun pushed pushed' _ i j hoffset hbyte hpushes => ?_
  rw [isOfPush_outcomeIn, isOfPush_outcomeIn, hpushes]
  simp only [QuickenContext.isPoolable, AnalyzedCode.quickenContext, hoffset, hbyte, len_eq]
  rfl

theorem map_isOfJump_outcomes_quicken :
    (code'.quicken config).outcomes.map Outcome.isOfJump
      = (code.quicken config).outcomes.map Outcome.isOfJump := by
  refine map_outcomes_quicken_of_map_head_eq sound sound' config same
    fun pushed pushed' hpushed i j _ hbyte hpushes => ?_
  rw [isOfJump_outcomeIn, isOfJump_outcomeIn, hpushes, hpushed, isSome_resolved?_of_byte_eq hbyte]
  rfl

end SameHeads

/-! ## Programs that agree where instructions start -/

/-- Disarming an instruction, seen from its head. -/
def disarmHead (h : Nat × UInt8) : Nat × UInt8 :=
  (h.1, if isSynthetic h.2 then Opcode.bad.toByte else h.2)

theorem head_disarmed (i : Instruction) : i.disarmed.head = disarmHead i.head := by
  unfold Instruction.disarmed Instruction.head disarmHead
  split <;> rfl

/-- The heads of a listing are those of the buffer, disarmed, as far as the program goes. -/
theorem map_head_instructions_analyze (program : List UInt8) :
    (RawCode.ofProgram program).analyze.instructions.map Instruction.head
      = ((heads (CodeBuffer.ofProgram program).bytes).map disarmHead).filter
        fun h => h.1 < program.length := by
  have hhead : Instruction.head ∘ Instruction.disarmed = disarmHead ∘ Instruction.head :=
    funext head_disarmed
  rw [CodeBuffer.instructions_eq_filter, heads, List.map_map, ← hhead, ← List.map_map,
    ← layout_analyze_eq_map, List.filter_map]
  rfl

theorem getElem?_bytes_analyze_of_isTrapped {program : List UInt8} {s : Nat}
    (h : IsTrapped program s) :
    (RawCode.ofProgram program).analyze.bytes[s]? = some Opcode.bad.toByte := by
  have hs : s < (disarm program).length := by
    rw [length_disarm]
    exact h.1.lt_length
  rw [bytes_analyze, List.getElem?_append_left hs, getElem?_disarm, if_pos h]

section Agree

variable {program program' : List UInt8} (length_eq : program'.length = program.length)
  (agree : ∀ s, IsStart sourceWidth program s → program'[s]? = program[s]?)
include length_eq agree

theorem map_head_instructions_analyze_eq :
    (RawCode.ofProgram program').analyze.instructions.map Instruction.head
      = (RawCode.ofProgram program).analyze.instructions.map Instruction.head := by
  have hpadded : heads (CodeBuffer.ofProgram program').bytes
      = heads (CodeBuffer.ofProgram program).bytes :=
    heads_append_congr (heads_eq_of_agree length_eq agree) length_eq _
  rw [map_head_instructions_analyze, map_head_instructions_analyze, hpadded, length_eq]

theorem getElem?_bytes_analyze_of_agree {s : Nat} (same : program'[s]? = program[s]?) :
    (RawCode.ofProgram program').analyze.bytes[s]?
      = (RawCode.ofProgram program).analyze.bytes[s]? := by
  have htrapped : IsTrapped program' s ↔ IsTrapped program s :=
    isTrapped_iff_of_heads_eq (heads_eq_of_agree length_eq agree)
  rw [bytes_analyze, bytes_analyze]
  rcases Nat.lt_or_ge s program.length with hs | hs
  · have hs' : s < (disarm program).length := by rwa [length_disarm]
    have hs'' : s < (disarm program').length := by rwa [length_disarm, length_eq]
    rw [List.getElem?_append_left hs', List.getElem?_append_left hs'', getElem?_disarm,
      getElem?_disarm, same]
    simp only [htrapped]
  · rw [List.getElem?_append_right (by rwa [length_disarm, length_eq]),
      List.getElem?_append_right (by rwa [length_disarm]), length_disarm, length_disarm, length_eq]

end Agree

theorem map_offset_instructions_quicken {code : AnalyzedCode} (sound : code.Sound)
    (config : QuickenConfig) :
    (code.quicken config).instructions.map Instruction.offset
      = code.instructions.map Instruction.offset := by
  have hplaces := congrArg (List.map Prod.fst) (map_place_quickened sound config)
  rw [List.map_map, List.map_map] at hplaces
  rw [instructions_quicken sound]
  exact hplaces

/-- What is found in a program does not depend on its immediates.  If another program of the same
length holds the same byte wherever an instruction of the first one starts, the two have the same
table, are trapped at the same offsets, and differ after their analysis only where they differed
before.  They are listed from the same offsets, analyzed and prepared.  The same number of pushes is
offered to the pool and the same number of jumps is tried, though the answers can be others. -/
theorem prepareWith_ignores_immediates (config : QuickenConfig) {program program' : List UInt8}
    (length_eq : program'.length = program.length)
    (agree : ∀ s, IsStart numberedWidth program s → program'[s]? = program[s]?) :
    let analyzed := (RawCode.ofProgram program).analyze
    let analyzed' := (RawCode.ofProgram program').analyze
    let prepared := prepareWith config program
    let prepared' := prepareWith config program'
    (analyzed'.jumpTable = analyzed.jumpTable ∧ prepared'.jumpTable = prepared.jumpTable)
      ∧ (∀ s, (IsTrapped program' s ↔ IsTrapped program s)
        ∧ (IsTrapped program s → analyzed.bytes[s]? = some Opcode.bad.toByte
          ∧ analyzed'.bytes[s]? = some Opcode.bad.toByte))
      ∧ (∀ s : Nat, analyzed'.bytes[s]? ≠ analyzed.bytes[s]? → program'[s]? ≠ program[s]?)
      ∧ (analyzed'.instructions.map Instruction.offset
          = analyzed.instructions.map Instruction.offset
        ∧ prepared'.instructions.map Instruction.offset
          = prepared.instructions.map Instruction.offset)
      ∧ prepared'.stats.pushesPooled + prepared'.stats.poolExhausted
        = prepared.stats.pushesPooled + prepared.stats.poolExhausted
      ∧ prepared'.stats.jumpsResolved + prepared'.stats.jumpsLeftDynamic
        = prepared.stats.jumpsResolved + prepared.stats.jumpsLeftDynamic := by
  intro analyzed analyzed' prepared prepared'
  rw [numberedWidth_eq] at agree
  have sound : analyzed.Sound := sound_analyze program
  have sound' : analyzed'.Sound := sound_analyze program'
  have hheads : heads program' = heads program := heads_eq_of_agree length_eq agree
  have hlisted : analyzed'.instructions.map Instruction.head
      = analyzed.instructions.map Instruction.head :=
    map_head_instructions_analyze_eq length_eq agree
  have hoffsets : analyzed'.instructions.map Instruction.offset
      = analyzed.instructions.map Instruction.offset := by
    have hfirst := congrArg (List.map Prod.fst) hlisted
    rwa [List.map_map, List.map_map] at hfirst
  have htable : analyzed'.jumpTable = analyzed.jumpTable := by
    rw [jumpTable_analyze, jumpTable_analyze, ofCode_eq_of_heads_eq hheads]
  have htrapped : ∀ s, IsTrapped program' s ↔ IsTrapped program s := fun s =>
    isTrapped_iff_of_heads_eq hheads
  refine ⟨⟨htable, htable⟩, fun s => ⟨htrapped s, fun h => ⟨?_, ?_⟩⟩, fun s hne hsame => hne ?_,
    ⟨hoffsets, ?_⟩, ?_, ?_⟩
  · exact getElem?_bytes_analyze_of_isTrapped h
  · exact getElem?_bytes_analyze_of_isTrapped ((htrapped s).mpr h)
  · exact getElem?_bytes_analyze_of_agree length_eq agree hsame
  · exact (map_offset_instructions_quicken sound' config).trans
      (hoffsets.trans (map_offset_instructions_quicken sound config).symm)
  · show (QuickenStats.ofOutcomes _).pushesPooled + (QuickenStats.ofOutcomes _).poolExhausted
      = (QuickenStats.ofOutcomes _).pushesPooled + (QuickenStats.ofOutcomes _).poolExhausted
    rw [pushesPooled_add_poolExhausted, pushesPooled_add_poolExhausted]
    exact countP_eq_of_map_eq
      (map_isOfPush_outcomes_quicken sound sound' config length_eq hlisted)
  · show (QuickenStats.ofOutcomes _).jumpsResolved + (QuickenStats.ofOutcomes _).jumpsLeftDynamic
      = (QuickenStats.ofOutcomes _).jumpsResolved + (QuickenStats.ofOutcomes _).jumpsLeftDynamic
    rw [jumpsResolved_add_jumpsLeftDynamic, jumpsResolved_add_jumpsLeftDynamic]
    exact countP_eq_of_map_eq (map_isOfJump_outcomes_quicken sound sound' config hlisted)

/-- A word that is no legal destination, and one that is: the jump behind it is left or resolved,
but it is tried. -/
theorem prepareWith_ignores_immediates_pushed :
    let program : List UInt8 := [0x5b, 0x61, 0x5b, 0xac, 0x56, 0xad]
    let program' : List UInt8 := [0x5b, 0x61, 0x00, 0x00, 0x56, 0xad]
    program'.length = program.length
      ∧ (∀ s, IsStart numberedWidth program s → program'[s]? = program[s]?)
      ∧ (prepareWith {} program').stats.jumpsResolved
          + (prepareWith {} program').stats.jumpsLeftDynamic
        = (prepareWith {} program).stats.jumpsResolved
          + (prepareWith {} program).stats.jumpsLeftDynamic
      ∧ (prepareWith {} program').stats.jumpsResolved
        ≠ (prepareWith {} program).stats.jumpsResolved := by
  intro program program'
  have hlength : program'.length = program.length := rfl
  have hbelow : ∀ s < program.length, IsStart numberedWidth program s →
      program'[s]? = program[s]? := by decide
  have hagree : ∀ s, IsStart numberedWidth program s → program'[s]? = program[s]? := fun s hs =>
    hbelow s hs.lt_length hs
  exact ⟨hlength, hagree, (prepareWith_ignores_immediates {} hlength hagree).2.2.2.2.2,
    by decide +kernel⟩

end EvmPrep
