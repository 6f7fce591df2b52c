import EvmPrep.Quicken
import EvmPrep.Proofs.Pool
set_option autoImplicit false

/-!
# The walk, seen from its end

The walk decides about one instruction after the other while the pool grows.  Its
answers do not depend on when they were given: each is decided by the instruction, the
word pushed right before it and the pool that the whole walk leaves (`outcomeIn`), and
that pool is what a row of words leaves, the words of the wide pushes
(`quickenAll_eq`).
-/

namespace EvmPrep

/-- The index that a pooled push was given. -/
def Outcome.index? : Outcome → Option UInt8
  | .pooled index => some index
  | .kept | .exhausted | .resolved | .leftDynamic => none

theorem Outcome.isSome_index? (o : Outcome) : o.index?.isSome = o.isPooled := by
  cases o <;> rfl

namespace QuickenContext

/-- What becomes of an instruction when `final` is the pool behind the whole walk and `pushed` the
word pushed right before the instruction. -/
def outcomeIn (ctx : QuickenContext) (final : ConstantPool) (pushed : Option Word)
    (i : Instruction) : Outcome :=
  match i.pushValue? with
  | some w =>
    if ctx.config.usePool && ctx.isPoolable i then
      match final.index? w with
      | some index => .pooled index
      | none => .exhausted
    else .kept
  | none => ctx.jumpOutcome pushed i

/-- The words that a walk over the instructions offers to the pool. -/
def offered (ctx : QuickenContext) (code : List Instruction) : List Word :=
  if ctx.config.usePool then (code.filter ctx.isPoolable).filterMap Instruction.pushValue? else []

theorem mem_offered_iff {ctx : QuickenContext} {code : List Instruction} {w : Word} :
    w ∈ ctx.offered code
      ↔ ctx.config.usePool = true
        ∧ ∃ i ∈ code, ctx.isPoolable i = true ∧ i.pushValue? = some w := by
  unfold offered
  cases ctx.config.usePool <;> simp [and_assoc]

theorem offered_append (ctx : QuickenContext) (code more : List Instruction) :
    ctx.offered (code ++ more) = ctx.offered code ++ ctx.offered more := by
  unfold offered
  split
  · rw [List.filter_append, List.filterMap_append]
  · rfl

/-! ## Jumps -/

section Jumps

variable (ctx : QuickenContext)

/-- What can become of an instruction that is no push. -/
theorem jumpOutcome_cases (pushed : Option Word) (i : Instruction) :
    ctx.jumpOutcome pushed i = .kept ∨ ctx.jumpOutcome pushed i = .resolved
      ∨ ctx.jumpOutcome pushed i = .leftDynamic := by
  unfold jumpOutcome
  split
  · split
    · split
      · exact .inr (.inl rfl)
      · exact .inr (.inr rfl)
    · exact .inl rfl
  · exact .inl rfl

theorem jumpOutcome_of_resolved?_eq_none {i : Instruction} (pushed : Option Word)
    (h : i.resolved? = none) : ctx.jumpOutcome pushed i = .kept := by
  unfold jumpOutcome
  split
  · rename_i hj
    rw [h] at hj
    cases hj
  · rfl

theorem jumpOutcome_of_not_resolveJumps {i : Instruction} (pushed : Option Word)
    (h : ¬ ctx.config.resolveJumps = true) : ctx.jumpOutcome pushed i = .kept := by
  unfold jumpOutcome
  split
  · rw [if_neg h]
  · rfl

/-- What becomes of a jump depends on the table in the word pushed before it alone. -/
theorem jumpOutcome_congr {ctx ctx' : QuickenContext} (config : ctx'.config = ctx.config)
    {pushed : Option Word} (valid : ∀ w, pushed = some w →
      ctx'.jumpTable.isValid w = ctx.jumpTable.isValid w) (i : Instruction) :
    ctx'.jumpOutcome pushed i = ctx.jumpOutcome pushed i := by
  unfold jumpOutcome
  cases pushed with
  | none => rfl
  | some w =>
    cases i.resolved? with
    | none => rfl
    | some j =>
      dsimp only
      rw [config, valid w rfl]

theorem jumpOutcome_eq_resolved_iff {pushed : Option Word} {i : Instruction} :
    ctx.jumpOutcome pushed i = .resolved
      ↔ ctx.config.resolveJumps = true ∧ i.resolved?.isSome = true
        ∧ ∃ w, pushed = some w ∧ ctx.jumpTable.isValid w = true := by
  by_cases hon : ctx.config.resolveJumps = true
  · cases pushed with
    | none => simp [jumpOutcome]
    | some w => cases hj : i.resolved? <;> simp [jumpOutcome, hj, hon]
  · simp [ctx.jumpOutcome_of_not_resolveJumps pushed hon, hon]

theorem jumpOutcome_eq_leftDynamic_iff {pushed : Option Word} {i : Instruction} :
    ctx.jumpOutcome pushed i = .leftDynamic
      ↔ ctx.config.resolveJumps = true ∧ i.resolved?.isSome = true
        ∧ ∃ w, pushed = some w ∧ ctx.jumpTable.isValid w = false := by
  by_cases hon : ctx.config.resolveJumps = true
  · cases pushed with
    | none => simp [jumpOutcome]
    | some w => cases hj : i.resolved? <;> simp [jumpOutcome, hj, hon]
  · simp [ctx.jumpOutcome_of_not_resolveJumps pushed hon, hon]

end Jumps

/-! ## One step -/

/-- What a step does about the pool: it offers a word and has the pool's answer, or it offers
none. -/
theorem step_cases (ctx : QuickenContext) (pool : ConstantPool) (pushed : Option Word)
    (i : Instruction) (rest : List Instruction) :
    (∃ w, ctx.offered (i :: rest) = w :: ctx.offered rest
        ∧ (ctx.step pool pushed i).1.index? = (pool.intern w).1
        ∧ (ctx.step pool pushed i).2 = (pool.intern w).2)
      ∨ (ctx.offered (i :: rest) = ctx.offered rest
        ∧ (ctx.step pool pushed i).1.index? = none ∧ (ctx.step pool pushed i).2 = pool) := by
  cases hw : i.pushValue? with
  | none =>
    right
    have hoffered : ctx.offered (i :: rest) = ctx.offered rest := by
      cases hp : ctx.isPoolable i <;> simp [offered, hp, hw]
    have hstep : ctx.step pool pushed i = (ctx.jumpOutcome pushed i, pool) := by
      simp only [step, hw]
    have hindex : (ctx.jumpOutcome pushed i).index? = none := by
      rcases ctx.jumpOutcome_cases pushed i with h | h | h <;> rw [h] <;> rfl
    rw [hstep]
    exact ⟨hoffered, hindex, rfl⟩
  | some w =>
    have hstep : ctx.step pool pushed i = ctx.pushOutcome pool i w := by simp only [step, hw]
    rw [hstep, pushOutcome]
    by_cases htaken : (ctx.config.usePool && ctx.isPoolable i) = true
    · obtain ⟨hpool, hi⟩ := Bool.and_eq_true_iff.mp htaken
      refine .inl ⟨w, by simp [offered, hpool, hi, hw], ?_⟩
      rw [if_pos htaken]
      cases hanswer : pool.intern w with
      | mk answer pool' => cases answer <;> exact ⟨rfl, rfl⟩
    · refine .inr ⟨?_, ?_⟩
      · cases hpool : ctx.config.usePool with
        | false => simp [offered, hpool]
        | true =>
          have hi : ctx.isPoolable i = false := by simpa [hpool] using htaken
          simp [offered, hpool, hi]
      · rw [if_neg htaken]
        exact ⟨rfl, rfl⟩

theorem offered_cons_of_step (ctx : QuickenContext) (pool : ConstantPool) (pushed : Option Word)
    (i : Instruction) (rest : List Instruction) :
    (pool.internAll (ctx.offered (i :: rest))).2
      = ((ctx.step pool pushed i).2.internAll (ctx.offered rest)).2 := by
  rcases ctx.step_cases pool pushed i rest with ⟨w, hoffered, -, hpool⟩ | ⟨hoffered, -, hpool⟩
  · rw [hoffered, ConstantPool.internAll_cons, hpool]
  · rw [hoffered, hpool]

theorem step_fst_eq_outcomeIn (ctx : QuickenContext) {pool final : ConstantPool}
    (pushed : Option Word) (i : Instruction)
    (grown : (ctx.step pool pushed i).2.entries <+: final.entries) :
    (ctx.step pool pushed i).1 = ctx.outcomeIn final pushed i := by
  cases hw : i.pushValue? with
  | none => simp only [step, outcomeIn, hw]
  | some w =>
    simp only [step, outcomeIn, hw, pushOutcome] at grown ⊢
    by_cases htaken : (ctx.config.usePool && ctx.isPoolable i) = true
    · rw [if_pos htaken] at grown ⊢
      rw [if_pos htaken]
      have hgrown : (pool.intern w).2.entries <+: final.entries := by
        cases hanswer : pool.intern w with
        | mk answer pool' =>
          rw [hanswer] at grown
          cases answer <;> exact grown
      have hanswer := ConstantPool.intern_fst_of_isPrefix hgrown
      rw [← hanswer]
      cases hpair : pool.intern w with
      | mk answer pool' => cases answer <;> rfl
    · rw [if_neg htaken, if_neg htaken]

/-! ## The whole walk -/

/-- The walk in closed form: the pool is that of the words offered, and every outcome is decided by
it. -/
theorem quickenAll_eq (ctx : QuickenContext) (pool : ConstantPool) (pushed : Option Word)
    (code : List Instruction) :
    ctx.quickenAll pool pushed code
      = (List.zipWith (ctx.outcomeIn (pool.internAll (ctx.offered code)).2)
          (pushed :: code.map Instruction.pushValue?) code,
        (pool.internAll (ctx.offered code)).2) := by
  induction code generalizing pool pushed with
  | nil => simp [offered]
  | cons i rest ih =>
    rw [quickenAll_cons, ih, offered_cons_of_step ctx pool pushed, List.map_cons,
      List.zipWith_cons_cons,
      step_fst_eq_outcomeIn ctx pushed i (ConstantPool.entries_isPrefix_internAll _ _)]

/-! ## Single outcomes -/

section Outcomes

variable {ctx : QuickenContext} {final : ConstantPool} {pushed : Option Word} {i : Instruction}

theorem outcomeIn_of_pushValue? {w : Word} (h : i.pushValue? = some w) :
    ctx.outcomeIn final pushed i
      = if ctx.config.usePool && ctx.isPoolable i then
          match final.index? w with
          | some index => .pooled index
          | none => .exhausted
        else .kept := by
  simp only [outcomeIn, h]

theorem outcomeIn_of_pushValue?_eq_none (h : i.pushValue? = none) :
    ctx.outcomeIn final pushed i = ctx.jumpOutcome pushed i := by
  simp only [outcomeIn, h]

theorem outcomeIn_ne_of_pushValue? {w : Word} (h : i.pushValue? = some w) :
    ctx.outcomeIn final pushed i ≠ .resolved ∧ ctx.outcomeIn final pushed i ≠ .leftDynamic := by
  rw [outcomeIn_of_pushValue? h]
  split
  · split <;> exact ⟨nofun, nofun⟩
  · exact ⟨nofun, nofun⟩

theorem outcomeIn_ne_of_pushValue?_eq_none (h : i.pushValue? = none) :
    (∀ index, ctx.outcomeIn final pushed i ≠ .pooled index)
      ∧ ctx.outcomeIn final pushed i ≠ .exhausted := by
  rw [outcomeIn_of_pushValue?_eq_none h]
  rcases ctx.jumpOutcome_cases pushed i with h | h | h <;> rw [h] <;> exact ⟨nofun, nofun⟩

/-- A push is pooled exactly if it may be and the pool has its word. -/
theorem outcomeIn_eq_pooled_iff {index : UInt8} :
    ctx.outcomeIn final pushed i = .pooled index
      ↔ ctx.config.usePool = true ∧ ctx.isPoolable i = true ∧ ∃ w ∈ final.entries,
        i.pushValue? = some w ∧ index = UInt8.ofNat (final.entries.idxOf w) := by
  cases hw : i.pushValue? with
  | none =>
    refine iff_of_false ((outcomeIn_ne_of_pushValue?_eq_none hw).1 index) ?_
    rintro ⟨-, -, w, -, h, -⟩
    cases h
  | some w =>
    simp only [outcomeIn_of_pushValue? hw, Option.some.injEq]
    constructor
    · intro h
      split at h
      · rename_i htaken
        obtain ⟨hpool, hi⟩ := Bool.and_eq_true_iff.mp htaken
        split at h
        · rename_i index' hindex
          cases h
          obtain ⟨hmem, hplace⟩ := ConstantPool.index?_eq_some_iff.mp hindex
          exact ⟨hpool, hi, w, hmem, rfl, hplace⟩
        · cases h
      · cases h
    · rintro ⟨hpool, hi, v, hmem, rfl, rfl⟩
      rw [if_pos (by rw [hpool, hi]; rfl), ConstantPool.index?_of_mem hmem]

theorem outcomeIn_eq_exhausted_iff :
    ctx.outcomeIn final pushed i = .exhausted
      ↔ ctx.config.usePool = true ∧ ctx.isPoolable i = true
        ∧ ∃ w, i.pushValue? = some w ∧ w ∉ final.entries := by
  cases hw : i.pushValue? with
  | none =>
    refine iff_of_false (outcomeIn_ne_of_pushValue?_eq_none hw).2 ?_
    rintro ⟨-, -, w, h, -⟩
    cases h
  | some w =>
    simp only [outcomeIn_of_pushValue? hw, Option.some.injEq, exists_eq_left']
    constructor
    · intro h
      split at h
      · rename_i htaken
        obtain ⟨hpool, hi⟩ := Bool.and_eq_true_iff.mp htaken
        refine ⟨hpool, hi, fun hmem => ?_⟩
        rw [ConstantPool.index?_of_mem hmem] at h
        cases h
      · cases h
    · rintro ⟨hpool, hi, hmem⟩
      rw [if_pos (by rw [hpool, hi]; rfl), ConstantPool.index?_of_not_mem hmem]

/-- A jump is resolved exactly if the word pushed before it is a legal destination. -/
theorem outcomeIn_eq_resolved_iff :
    ctx.outcomeIn final pushed i = .resolved
      ↔ ctx.config.resolveJumps = true ∧ i.pushValue? = none ∧ i.resolved?.isSome = true
        ∧ ∃ w, pushed = some w ∧ ctx.jumpTable.isValid w = true := by
  cases hw : i.pushValue? with
  | some w => exact iff_of_false (outcomeIn_ne_of_pushValue? hw).1 nofun
  | none =>
    rw [outcomeIn_of_pushValue?_eq_none hw, jumpOutcome_eq_resolved_iff]
    exact and_congr_right fun _ => (and_iff_right rfl).symm

theorem outcomeIn_eq_leftDynamic_iff :
    ctx.outcomeIn final pushed i = .leftDynamic
      ↔ ctx.config.resolveJumps = true ∧ i.pushValue? = none ∧ i.resolved?.isSome = true
        ∧ ∃ w, pushed = some w ∧ ctx.jumpTable.isValid w = false := by
  cases hw : i.pushValue? with
  | some w => exact iff_of_false (outcomeIn_ne_of_pushValue? hw).2 nofun
  | none =>
    rw [outcomeIn_of_pushValue?_eq_none hw, jumpOutcome_eq_leftDynamic_iff]
    exact and_congr_right fun _ => (and_iff_right rfl).symm

end Outcomes

end QuickenContext

end EvmPrep
