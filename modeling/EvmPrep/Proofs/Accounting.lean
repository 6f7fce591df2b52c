import EvmPrep.Telemetry
import EvmPrep.Proofs.PoolHistory
import EvmPrep.Proofs.Restored
import EvmPrep.Proofs.SecondPreparation
import EvmPrep.Proofs.QuickenExact
set_option autoImplicit false

/-!
# Figures and what they count

The figures of a walk are read off its outcomes, and the outcome of an instruction can
be read off the instruction that stands in its place: by its byte alone if something was
replaced (`isPooled_replacement`, `outcomeIn_eq_resolved_iff_opcode?`), and with what
stands in front of it if not (`outcomeIn_eq_exhausted_iff_isEligible`,
`outcomeIn_eq_leftDynamic_iff_opcode?`).  So each figure is a number of instructions in
the prepared listing.

The walk asks the pool for one word after the other, so the listing uses the places of
the pool in their order and leaves none unused (`eraseDups_poolIndex?_instructions`).
And as an increment is sent with every outcome that counts, the counters report the
figures (`total?_preparationIncrements`).
-/

namespace EvmPrep

/-! ## One instruction -/

theorem opcode?_toPooled (i : Instruction) (index : UInt8) :
    (i.toPooled index).opcode? = some .pushc := Opcode.ofByte?_toByte .pushc

theorem opcode?_of_resolved? {i j : Instruction} (h : i.resolved? = some j) :
    j.opcode? = some .jumpv ∨ j.opcode? = some .jumpvi := by
  rcases resolved?_eq_some_iff.mp h with ⟨-, rfl⟩ | ⟨-, rfl⟩
  · exact .inl (Opcode.ofByte?_toByte .jumpv)
  · exact .inr (Opcode.ofByte?_toByte .jumpvi)

section Replacement

variable {ctx : QuickenContext} {final : ConstantPool} {pushed : Option Word} {i : Instruction}

/-- What stands for an instruction, beside its outcome. -/
theorem outcomeIn_replacement_cases (ctx : QuickenContext) (final : ConstantPool)
    (pushed : Option Word) (i : Instruction) :
    (∃ index, ctx.outcomeIn final pushed i = .pooled index
        ∧ ctx.replacement final pushed i = i.toPooled index)
      ∨ (∃ j, ctx.outcomeIn final pushed i = .resolved ∧ i.resolved? = some j
        ∧ ctx.replacement final pushed i = j)
      ∨ (¬ (ctx.outcomeIn final pushed i).IsReplacement ∧ ctx.replacement final pushed i = i) := by
  unfold QuickenContext.replacement
  cases ho : ctx.outcomeIn final pushed i with
  | pooled index => exact .inl ⟨index, rfl, rfl⟩
  | resolved =>
    obtain ⟨-, -, hj, -⟩ := QuickenContext.outcomeIn_eq_resolved_iff.mp ho
    obtain ⟨j, hj⟩ := Option.isSome_iff_exists.mp hj
    exact .inr (.inl ⟨j, rfl, hj, by rw [Instruction.after, hj]; rfl⟩)
  | kept | exhausted | leftDynamic =>
    refine .inr (.inr ⟨?_, rfl⟩)
    rintro (h | h) <;> cases h

/-- A pooled push names the place that the walk was given, and no other instruction names any. -/
theorem poolIndex?_replacement (plain : i.byte ≠ Opcode.pushc.toByte) :
    (ctx.replacement final pushed i).poolIndex? = (ctx.outcomeIn final pushed i).index? := by
  rcases outcomeIn_replacement_cases ctx final pushed i with
    ⟨index, ho, h⟩ | ⟨j, ho, hj, h⟩ | ⟨ho, h⟩
  · rw [ho, h, poolIndex?_toPooled]
    rfl
  · obtain ⟨-, -, -, hplain, -⟩ := plain_of_resolved? hj
    rw [ho, h, poolIndex?_eq_none hplain]
    rfl
  · rw [h, poolIndex?_eq_none plain]
    cases hout : ctx.outcomeIn final pushed i with
    | pooled index => exact absurd (.inl (by rw [hout]; rfl)) ho
    | _ => rfl

theorem isPooled_replacement (plain : i.byte ≠ Opcode.pushc.toByte) :
    (ctx.replacement final pushed i).isPooled = (ctx.outcomeIn final pushed i).isPooled := by
  rcases outcomeIn_replacement_cases ctx final pushed i with
    ⟨index, ho, h⟩ | ⟨j, ho, hj, h⟩ | ⟨ho, h⟩
  · rw [ho, h]
    exact beq_self_eq_true Opcode.pushc.toByte
  · obtain ⟨-, -, -, hplain, -⟩ := plain_of_resolved? hj
    rw [ho, h]
    exact beq_eq_false_iff_ne.mpr hplain
  · rw [h, Bool.eq_false_iff.mpr fun hpooled => ho (.inl hpooled)]
    exact beq_eq_false_iff_ne.mpr plain

theorem outcomeIn_eq_resolved_iff_opcode?
    (plain : i.byte ≠ Opcode.jumpv.toByte ∧ i.byte ≠ Opcode.jumpvi.toByte) :
    ctx.outcomeIn final pushed i = .resolved
      ↔ (ctx.replacement final pushed i).opcode? = some .jumpv
        ∨ (ctx.replacement final pushed i).opcode? = some .jumpvi := by
  rcases outcomeIn_replacement_cases ctx final pushed i with
    ⟨index, ho, h⟩ | ⟨j, ho, hj, h⟩ | ⟨ho, h⟩
  · rw [ho, h, opcode?_toPooled]
    simp
  · rw [ho, h]
    exact iff_of_true rfl (opcode?_of_resolved? hj)
  · rw [h, opcode?_eq_some_iff, opcode?_eq_some_iff]
    exact iff_of_false (fun hresolved => ho (.inr hresolved)) (not_or.mpr plain)

/-- Of the instructions that a pooled push could stand for, those are left that the pool refused. -/
theorem outcomeIn_eq_exhausted_iff_isEligible
    (word : 2 ≤ pushWidth i.byte → i.pushValue?.isSome = true) :
    ctx.outcomeIn final pushed i = .exhausted
      ↔ ctx.config.usePool = true
        ∧ (ctx.replacement final pushed i).IsEligible ctx.programLen := by
  rcases outcomeIn_replacement_cases ctx final pushed i with
    ⟨index, ho, h⟩ | ⟨j, ho, hj, h⟩ | ⟨ho, h⟩
  · rw [ho, h]
    refine iff_of_false nofun fun heligible => ?_
    exact absurd heligible.2.1 (by decide : ¬ 2 ≤ pushNumber Opcode.pushc.toByte)
  · obtain ⟨-, -, hnone, -, -⟩ := plain_of_resolved? hj
    rw [ho, h]
    refine iff_of_false nofun fun heligible => ?_
    have hwide := heligible.2.1
    rw [pushNumber_eq] at hwide
    omega
  · rw [h, QuickenContext.outcomeIn_eq_exhausted_iff, isPoolable_iff]
    refine and_congr_right fun hon => ⟨fun hexhausted => hexhausted.1, fun heligible => ?_⟩
    obtain ⟨w, hw⟩ := Option.isSome_iff_exists.mp (word (pushNumber_eq i.byte ▸ heligible.1))
    refine ⟨heligible, w, hw, fun hmem => ho (.inl ?_)⟩
    -- were its word in the pool, it would have been pooled
    rw [QuickenContext.outcomeIn_eq_pooled_iff.mpr
      ⟨hon, isPoolable_iff.mpr heligible, w, hmem, hw, rfl⟩]
    rfl

theorem outcomeIn_eq_leftDynamic_iff_opcode? :
    ctx.outcomeIn final pushed i = .leftDynamic
      ↔ ctx.config.resolveJumps = true ∧ pushed.isSome = true
        ∧ ((ctx.replacement final pushed i).opcode? = some .jump
          ∨ (ctx.replacement final pushed i).opcode? = some .jumpi) := by
  rcases outcomeIn_replacement_cases ctx final pushed i with
    ⟨index, ho, h⟩ | ⟨j, ho, hj, h⟩ | ⟨ho, h⟩
  · rw [ho, h, opcode?_toPooled]
    simp
  · rw [ho, h]
    rcases opcode?_of_resolved? hj with hop | hop <;> simp [hop]
  · rw [h, ← resolved?_isSome_iff, QuickenContext.outcomeIn_eq_leftDynamic_iff]
    refine and_congr_right fun hon => ⟨?_, ?_⟩
    · rintro ⟨-, hjump, w, hpushed, -⟩
      exact ⟨by rw [hpushed]; rfl, hjump⟩
    · rintro ⟨hpushed, hjump⟩
      obtain ⟨w, hw⟩ := Option.isSome_iff_exists.mp hpushed
      obtain ⟨j, hj⟩ := Option.isSome_iff_exists.mp hjump
      obtain ⟨hnone, hplain, -⟩ := plain_of_resolved? hj
      have hsilent : i.pushValue? = none := by
        rw [Instruction.pushValue?, operand_eq_absent hplain hnone]
      refine ⟨hsilent, hjump, w, hw, Bool.eq_false_iff.mpr fun hvalid => ho (.inr ?_)⟩
      -- were its destination legal, it would have been resolved
      exact QuickenContext.outcomeIn_eq_resolved_iff.mpr ⟨hon, hsilent, hjump, w, hw, hvalid⟩

/-- Pushes stay pushes, pooled or not, and nothing else becomes one. -/
theorem isPush_or_isPooled_replacement
    (plain : i.byte ≠ Opcode.pushc.toByte)
    (word : pushWidth i.byte ≠ 0 → i.pushValue?.isSome = true) :
    ((ctx.replacement final pushed i).isPush || (ctx.replacement final pushed i).isPooled)
      = i.pushValue?.isSome := by
  have hself : i.isPush = i.pushValue?.isSome := by
    by_cases hwidth : pushWidth i.byte = 0
    · rw [Instruction.pushValue?, operand_eq_absent plain hwidth, Instruction.isPush, hwidth]
      rfl
    · rw [word hwidth]
      exact bne_iff_ne.mpr hwidth
  rcases outcomeIn_replacement_cases ctx final pushed i with
    ⟨index, ho, h⟩ | ⟨j, ho, hj, h⟩ | ⟨ho, h⟩
  · obtain ⟨-, -, w, -, hw, -⟩ := QuickenContext.outcomeIn_eq_pooled_iff.mp ho
    rw [isPooled_replacement plain, ho, hw, Option.isSome_some]
    exact Bool.or_true _
  · obtain ⟨hnone, hplain, hnone', hplain', -⟩ := plain_of_resolved? hj
    rw [isPooled_replacement plain, ho, h, ← hself, Instruction.isPush, Instruction.isPush, hnone,
      hnone']
    rfl
  · rw [isPooled_replacement plain, Bool.eq_false_iff.mpr fun hpooled => ho (.inl hpooled),
      Bool.or_false, h, hself]

end Replacement

/-! ## The listing -/

theorem countP_eq_of_map_eq {α β : Type} {xs : List α} {ys : List β} {f : α → Bool} {g : β → Bool}
    (h : xs.map f = ys.map g) : xs.countP f = ys.countP g := by
  calc xs.countP f
      = (xs.map f).countP id := by rw [List.countP_map]; rfl
    _ = (ys.map g).countP id := by rw [h]
    _ = ys.countP g := by rw [List.countP_map]; rfl

theorem head?_outcomes_quicken_ne (code : AnalyzedCode) (config : QuickenConfig) :
    (code.quicken config).outcomes.head? ≠ some .leftDynamic := by
  intro h
  rw [List.head?_eq_getElem?, getElem?_outcomes_quicken] at h
  obtain ⟨i, -, ho⟩ := Option.map_eq_some_iff.mp h
  obtain ⟨-, -, -, w, hw, -⟩ := QuickenContext.outcomeIn_eq_leftDynamic_iff.mp ho
  cases hw

section Sound

variable {code : AnalyzedCode} (sound : code.Sound) (config : QuickenConfig)
include sound

/-- What can be read off an outcome and off the instruction in its place can be read off the whole
listing. -/
theorem map_instructions_quicken {β : Type} {f : Instruction → β} {g : Outcome → β}
    (same : ∀ i ∈ code.layout, ∀ pushed,
      f ((code.quickenContext config).replacement (code.quicken config).pool pushed i)
        = g ((code.quickenContext config).outcomeIn (code.quicken config).pool pushed i)) :
    (code.quicken config).instructions.map f = (code.quicken config).outcomes.map g := by
  apply List.ext_getElem?
  intro k
  rw [List.getElem?_map, List.getElem?_map, getElem?_instructions_quicken sound,
    getElem?_outcomes_quicken]
  cases hi : code.instructions[k]? with
  | none => rfl
  | some i =>
    have hmem := mem_layout_of_mem_instructions (List.mem_of_getElem? hi)
    exact congrArg some (same i hmem _)

theorem pushesPooled_quicken :
    (code.quicken config).stats.pushesPooled
      = (code.quicken config).instructions.countP Instruction.isPooled :=
  (countP_eq_of_map_eq (map_instructions_quicken sound config fun i hi _ =>
    isPooled_replacement (sound.plain i hi).1)).symm

theorem jumpsResolved_quicken :
    (code.quicken config).stats.jumpsResolved
      = (code.quicken config).instructions.countP fun r =>
        r.opcode? = some .jumpv ∨ r.opcode? = some .jumpvi := by
  refine (countP_eq_of_map_eq (map_instructions_quicken sound config fun i hi _ => ?_)).symm
  rw [beq_eq_decide, decide_eq_decide]
  exact (outcomeIn_eq_resolved_iff_opcode? (sound.plain i hi).2).symm

theorem pushValue?_isSome {i : Instruction} (h : i ∈ code.layout) (hpush : pushWidth i.byte ≠ 0) :
    i.pushValue?.isSome = true := by
  rw [sound.pushValue?_eq h hpush]
  rfl

theorem poolExhausted_quicken :
    (code.quicken config).stats.poolExhausted
      = if config.usePool then
          (code.quicken config).instructions.countP fun r => r.IsEligible code.len
        else 0 := by
  have hcount : (code.quicken config).stats.poolExhausted
      = (code.quicken config).instructions.countP fun r =>
        config.usePool = true ∧ r.IsEligible code.len := by
    refine (countP_eq_of_map_eq (map_instructions_quicken sound config fun i hi _ => ?_)).symm
    rw [beq_eq_decide, decide_eq_decide]
    refine Iff.symm ?_
    exact outcomeIn_eq_exhausted_iff_isEligible fun hwide => pushValue?_isSome sound hi (by omega)
  rw [hcount]
  cases config.usePool <;> simp

theorem map_zip_tail_instructions_quicken :
    ((code.quicken config).instructions.zip (code.quicken config).instructions.tail).map
        (fun (b, r) => decide (config.resolveJumps = true ∧ (b.isPush || b.isPooled) = true
          ∧ (r.opcode? = some .jump ∨ r.opcode? = some .jumpi)))
      = (code.quicken config).outcomes.tail.map (· == .leftDynamic) := by
  apply List.ext_getElem?
  intro k
  rw [List.getElem?_map, List.getElem?_map, List.getElem?_tail, getElem?_outcomes_quicken,
    List.zip, List.getElem?_zipWith, List.getElem?_tail, getElem?_instructions_quicken sound,
    getElem?_instructions_quicken sound]
  cases hi : code.instructions[k + 1]? with
  | none => cases code.instructions[k]? <;> rfl
  | some i =>
    obtain ⟨b, hb⟩ : ∃ b, code.instructions[k]? = some b := by
      have hlt := (List.getElem?_eq_some_iff.mp hi).1
      exact ⟨_, List.getElem?_eq_getElem (by omega)⟩
    have hmem := mem_layout_of_mem_instructions (List.mem_of_getElem? hb)
    rw [hb]
    refine congrArg some ?_
    dsimp only
    rw [isPush_or_isPooled_replacement (sound.plain b hmem).1 (pushValue?_isSome sound hmem),
      beq_eq_decide, decide_eq_decide, pushedBefore, hb]
    refine Iff.symm ?_
    exact outcomeIn_eq_leftDynamic_iff_opcode?

theorem jumpsLeftDynamic_quicken :
    (code.quicken config).stats.jumpsLeftDynamic
      = if config.resolveJumps then
          ((code.quicken config).instructions.zip (code.quicken config).instructions.tail).countP
            fun (b, r) => (pushNumber b.byte ≠ 0 ∨ b.opcode? = some .pushc)
              ∧ (r.opcode? = some .jump ∨ r.opcode? = some .jumpi)
        else 0 := by
  have htail : (code.quicken config).stats.jumpsLeftDynamic
      = (code.quicken config).outcomes.tail.count .leftDynamic := by
    have hhead := head?_outcomes_quicken_ne code config
    show (code.quicken config).outcomes.count .leftDynamic = _
    cases ho : (code.quicken config).outcomes with
    | nil => rfl
    | cons o rest =>
      rw [ho, List.head?_cons] at hhead
      rw [List.count_cons_of_ne (fun h => hhead (congrArg some h)), List.tail_cons]
  rw [htail, List.count, ← countP_eq_of_map_eq (map_zip_tail_instructions_quicken sound config)]
  cases config.resolveJumps <;>
    simp [Instruction.isPush, Instruction.isPooled, pushNumber_eq, opcode?_eq_some_iff]

end Sound

/-! ## The pool -/

/-- The walk hands out the places that the pool gives to the words offered. -/
theorem places_quickenAll (ctx : QuickenContext) (pool : ConstantPool) (pushed : Option Word)
    (code : List Instruction) :
    ConstantPool.places ((ctx.quickenAll pool pushed code).1.map Outcome.index?)
      = ConstantPool.places (pool.internAll (ctx.offered code)).1 := by
  induction code generalizing pool pushed with
  | nil => simp [QuickenContext.offered]
  | cons i rest ih =>
    rw [QuickenContext.quickenAll_cons, List.map_cons]
    rcases ctx.step_cases pool pushed i rest with
      ⟨w, hoffered, hindex, hpool⟩ | ⟨hoffered, hindex, hpool⟩
    · rw [hoffered, ConstantPool.internAll_cons, hindex, hpool]
      cases (pool.intern w).1 with
      | none => exact ih _ _
      | some index => exact congrArg (index.toNat :: ·) (ih _ _)
    · rw [hoffered, hindex, hpool, ConstantPool.places_cons_none]
      exact ih _ _

section Sound

variable {code : AnalyzedCode} (sound : code.Sound) (config : QuickenConfig)
include sound

/-- The listing uses the places of the pool, the first uses in their order, and none is left out. -/
theorem eraseDups_poolIndex?_instructions :
    (((code.quicken config).instructions.filterMap Instruction.poolIndex?).map
        UInt8.toNat).eraseDups
      = List.range (code.quicken config).pool.size := by
  have hlisted : (code.quicken config).instructions.map Instruction.poolIndex?
      = (code.quicken config).outcomes.map Outcome.index? :=
    map_instructions_quicken sound config fun i hi _ => poolIndex?_replacement (sound.plain i hi).1
  have hplaces : ((code.quicken config).instructions.filterMap Instruction.poolIndex?).map
        UInt8.toNat
      = ConstantPool.places
        (ConstantPool.empty.internAll
          ((code.quickenContext config).offered code.instructions)).1 := by
    rw [← places_quickenAll _ _ none, ConstantPool.places]
    show _ = List.map _ (List.filterMap id ((code.quicken config).outcomes.map Outcome.index?))
    rw [← hlisted, List.filterMap_map]
    rfl
  have hall := ConstantPool.eraseDups_places_internAll .empty
    ((code.quickenContext config).offered code.instructions)
  rw [hplaces, pool_quicken_eq]
  exact hall

theorem length_poolIndex?_instructions :
    ((code.quicken config).instructions.filterMap Instruction.poolIndex?).length
      = (code.quicken config).stats.pushesPooled := by
  rw [List.length_filterMap_eq_countP]
  refine countP_eq_of_map_eq (map_instructions_quicken sound config fun i hi _ => ?_)
  rw [poolIndex?_replacement (sound.plain i hi).1, Outcome.isSome_index?]

end Sound

theorem size_pool_quicken_of_exhausted {code : AnalyzedCode} {config : QuickenConfig}
    (h : 0 < (code.quicken config).stats.poolExhausted) : (code.quicken config).pool.size = 256 := by
  obtain ⟨k, hk⟩ := List.mem_iff_getElem?.mp (List.count_pos_iff.mp h)
  rw [getElem?_outcomes_quicken] at hk
  obtain ⟨i, hi, ho⟩ := Option.map_eq_some_iff.mp hk
  obtain ⟨hon, hpoolable, w, hw, hrefused⟩ := QuickenContext.outcomeIn_eq_exhausted_iff.mp ho
  have hoffered : w ∈ (code.quickenContext config).offered code.instructions :=
    QuickenContext.mem_offered_iff.mpr ⟨hon, i, List.mem_of_getElem? hi, hpoolable, hw⟩
  rw [pool_quicken_eq] at hrefused ⊢
  exact ConstantPool.length_entries_internAll_of_not_mem hoffered hrefused

/-! ## Counters -/

/-- What is reported of a counter that was sent `n` in all. -/
def reported (n : Nat) : Option Nat := if n = 0 then none else some n

theorem foldl_amount_replicate (c : Counter) (n start : Nat) :
    (List.replicate n (⟨c, 1⟩ : Increment)).foldl (fun n i => n + i.amount) start = start + n := by
  induction n generalizing start with
  | zero => rfl
  | succ n ih => rw [List.replicate_succ, List.foldl_cons, ih, Nat.add_assoc, Nat.add_comm 1]

theorem total?_eq_of_filter_eq {sent : List Increment} {c : Counter} {n : Nat}
    (h : sent.filter (fun i => i.counter == c) = List.replicate n ⟨c, 1⟩) :
    total? sent c = reported n := by
  unfold total?
  rw [h]
  cases n with
  | zero => rfl
  | succ n =>
    have hsum := foldl_amount_replicate c (n + 1) 0
    rw [Nat.zero_add] at hsum
    exact congrArg some hsum

/-- A counter that is sent one for each outcome of a kind is sent as many as there are such
outcomes. -/
theorem filter_flatMap_increments {c : Counter} (test : Outcome → Bool)
    (each : ∀ o : Outcome, o.increments.filter (fun i => i.counter == c)
      = if test o then [⟨c, 1⟩] else []) (outcomes : List Outcome) :
    (outcomes.flatMap Outcome.increments).filter (fun i => i.counter == c)
      = List.replicate (outcomes.countP test) ⟨c, 1⟩ := by
  induction outcomes with
  | nil => rfl
  | cons o rest ih =>
    rw [List.flatMap_cons, List.filter_append, ih, each]
    cases ho : test o with
    | false => rw [List.countP_cons_of_neg (by rw [ho]; nofun)]; rfl
    | true => rw [List.countP_cons_of_pos ho]; rfl

theorem filter_flatMap_increments_eq_nil {c : Counter}
    (each : ∀ o : Outcome, o.increments.filter (fun i => i.counter == c) = [])
    (outcomes : List Outcome) :
    (outcomes.flatMap Outcome.increments).filter (fun i => i.counter == c) = [] := by
  rw [filter_flatMap_increments (fun _ => false) each, List.countP_false]
  rfl

theorem filter_jumpTable_increments {c : Counter} (t : JumpTable) :
    t.increments.filter (fun i => i.counter == c)
      = if c = .trappedBytes then t.increments else [] := by
  unfold JumpTable.increments
  cases c <;> split <;> rfl

theorem filter_preparationIncrements (config : QuickenConfig) (program : List UInt8)
    (c : Counter) :
    (preparationIncrements config program).filter (fun i => i.counter == c)
      = (if c = .trappedBytes then (prepareWith config program).jumpTable.increments else [])
        ++ ((prepareWith config program).outcomes.flatMap Outcome.increments).filter
          (fun i => i.counter == c)
        ++ if c = .programsPrepared then [⟨.programsPrepared, 1⟩] else [] := by
  rw [preparationIncrements, PreparedCode.increments, List.filter_append, List.filter_append,
    filter_jumpTable_increments]
  cases c <;> rfl

theorem total?_trappedBytes (config : QuickenConfig) (program : List UInt8) :
    total? (preparationIncrements config program) .trappedBytes
      = reported (prepareWith config program).jumpTable.trapped := by
  rw [total?, filter_preparationIncrements, if_pos rfl,
    filter_flatMap_increments_eq_nil (fun o => by cases o <;> rfl), if_neg (by decide),
    List.append_nil, List.append_nil]
  unfold JumpTable.increments
  cases (prepareWith config program).jumpTable.trapped with
  | zero => rfl
  | succ n => exact congrArg some (Nat.zero_add _)

theorem total?_programsPrepared (config : QuickenConfig) (program : List UInt8) :
    total? (preparationIncrements config program) .programsPrepared = some 1 := by
  rw [total?, filter_preparationIncrements, if_neg (by decide),
    filter_flatMap_increments_eq_nil (fun o => by cases o <;> rfl), if_pos rfl]
  rfl

theorem total?_eq_countP_outcomes {c : Counter} (test : Outcome → Bool)
    (each : ∀ o : Outcome, o.increments.filter (fun i => i.counter == c)
      = if test o then [⟨c, 1⟩] else [])
    (scan : c ≠ .trappedBytes) (whole : c ≠ .programsPrepared) (config : QuickenConfig)
    (program : List UInt8) :
    total? (preparationIncrements config program) c
      = reported ((prepareWith config program).outcomes.countP test) := by
  refine total?_eq_of_filter_eq ?_
  rw [filter_preparationIncrements, if_neg scan, if_neg whole,
    filter_flatMap_increments test each, List.nil_append, List.append_nil]

/-- The counters report the figures of the prepared code. -/
theorem total?_preparationIncrements (config : QuickenConfig) (program : List UInt8) :
    let prepared := prepareWith config program
    let sent := preparationIncrements config program
    total? sent .trappedBytes = reported prepared.jumpTable.trapped
      ∧ total? sent .constantsPooled = reported prepared.stats.pushesPooled
      ∧ total? sent .poolExhausted = reported prepared.stats.poolExhausted
      ∧ total? sent .jumpsResolved = reported prepared.stats.jumpsResolved
      ∧ total? sent .programsPrepared = some 1 := by
  intro prepared sent
  have hpooled := total?_eq_countP_outcomes (c := .constantsPooled) Outcome.isPooled
    (fun o => by cases o <;> rfl) (by decide) (by decide) config program
  have hexhausted := total?_eq_countP_outcomes (c := .poolExhausted) (· == .exhausted)
    (fun o => by cases o <;> rfl) (by decide) (by decide) config program
  have hresolved := total?_eq_countP_outcomes (c := .jumpsResolved) (· == .resolved)
    (fun o => by cases o <;> rfl) (by decide) (by decide) config program
  exact ⟨total?_trappedBytes config program, hpooled, hexhausted, hresolved,
    total?_programsPrepared config program⟩

/-! ## All of it -/

/-- Figures and counters in full.  Every figure of prepared code can be counted in its listing: the
pooled pushes, the wide pushes that were left and have their two bytes in the program, the unchecked
jumps, and the jumps that were left right behind a push.  Only a full pool refuses a push.  The
pooled pushes use every place of the pool, and for the first time in the order of the places.  And
the counters that are touched on the way are those of the figures that are not zero, and are sent
just these. -/
theorem prepareWith_accounts (config : QuickenConfig) (program : List UInt8) :
    let prepared := prepareWith config program
    let listed := prepared.instructions
    let used := (listed.filterMap Instruction.poolIndex?).map UInt8.toNat
    let sent := preparationIncrements config program
    (prepared.stats.pushesPooled = listed.countP Instruction.isPooled
      ∧ prepared.stats.poolExhausted
        = (if config.usePool then listed.countP fun i => i.IsEligible program.length else 0)
      ∧ (0 < prepared.stats.poolExhausted → prepared.pool.size = 256)
      ∧ prepared.stats.jumpsResolved
        = (listed.countP fun i => i.opcode? = some .jumpv ∨ i.opcode? = some .jumpvi)
      ∧ prepared.stats.jumpsLeftDynamic
        = if config.resolveJumps then
            (listed.zip listed.tail).countP fun (before, i) =>
              (pushNumber before.byte ≠ 0 ∨ before.opcode? = some .pushc)
                ∧ (i.opcode? = some .jump ∨ i.opcode? = some .jumpi)
          else 0)
      ∧ (used.length = prepared.stats.pushesPooled
        ∧ used.eraseDups = List.range prepared.pool.size)
      ∧ (total? sent .trappedBytes = reported prepared.jumpTable.trapped
        ∧ total? sent .constantsPooled = reported prepared.stats.pushesPooled
        ∧ total? sent .poolExhausted = reported prepared.stats.poolExhausted
        ∧ total? sent .jumpsResolved = reported prepared.stats.jumpsResolved
        ∧ total? sent .programsPrepared = some 1) := by
  intro prepared listed used sent
  have sound : (RawCode.ofProgram program).analyze.Sound := sound_analyze program
  have hlisted : used.length = prepared.stats.pushesPooled := by
    rw [List.length_map]
    exact length_poolIndex?_instructions sound config
  refine ⟨⟨pushesPooled_quicken sound config, poolExhausted_quicken sound config,
    size_pool_quicken_of_exhausted, jumpsResolved_quicken sound config,
    jumpsLeftDynamic_quicken sound config⟩, ⟨hlisted, ?_⟩,
    total?_preparationIncrements config program⟩
  exact eraseDups_poolIndex?_instructions sound config

end EvmPrep
