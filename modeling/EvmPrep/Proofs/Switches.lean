import EvmPrep.Proofs.Padding
set_option autoImplicit false

/-!
# Two switches that do not meet

Every outcome other than `kept` is either about a push or about a jump
(`Outcome.ofPush`, `Outcome.ofJump`), and each switch governs one of the two kinds.  An
instruction is a push or it is none, so a walk without the one switch has the outcomes
of the full walk that are of the other kind (`outcomes_quicken_withoutJumps`,
`outcomes_quicken_withoutPool`).

For the bytes this says that each of them is changed by one of the walks with a single
switch at most, and that the full walk does the same to it
(`getElem?_bytes_quicken_switches`).  Everything else follows.
-/

namespace EvmPrep

/-! ## Kinds of outcomes -/

namespace Outcome

/-- What is left of an outcome if jumps are not looked at. -/
def ofPush : Outcome → Outcome
  | .pooled index => .pooled index
  | .exhausted => .exhausted
  | .kept | .resolved | .leftDynamic => .kept

/-- What is left of an outcome if the pool is not used. -/
def ofJump : Outcome → Outcome
  | .resolved => .resolved
  | .leftDynamic => .leftDynamic
  | .kept | .pooled _ | .exhausted => .kept

theorem eq_kept_of_ofPush_of_ofJump {o : Outcome} (push : o = o.ofPush) (jump : o = o.ofJump) :
    o = .kept := by
  cases o with
  | kept => rfl
  | pooled index => exact jump
  | exhausted => exact jump
  | resolved => exact push
  | leftDynamic => exact push

end Outcome

/-- What an outcome does to an instruction is done by one of its parts; the other does nothing. -/
theorem after_ofPush_or_after_ofJump (i : Instruction) (o : Outcome) :
    (i.after o.ofPush = i.after o ∧ i.after o.ofJump = i)
      ∨ (i.after o.ofPush = i ∧ i.after o.ofJump = i.after o) := by
  cases o with
  | pooled index => exact .inl ⟨rfl, rfl⟩
  | resolved => exact .inr ⟨rfl, rfl⟩
  | kept => exact .inl ⟨rfl, rfl⟩
  | exhausted => exact .inl ⟨rfl, rfl⟩
  | leftDynamic => exact .inl ⟨rfl, rfl⟩

/-- The figures of the outcomes about pushes are the first two. -/
theorem ofOutcomes_map_ofPush (os : List Outcome) :
    QuickenStats.ofOutcomes (os.map Outcome.ofPush)
      = { QuickenStats.ofOutcomes os with jumpsResolved := 0, jumpsLeftDynamic := 0 } := by
  induction os with
  | nil => rfl
  | cons o rest ih =>
    simp only [QuickenStats.ofOutcomes, QuickenStats.mk.injEq, List.map_cons] at ih ⊢
    obtain ⟨hpooled, hexhausted, hresolved, hleft⟩ := ih
    cases o <;> simp [Outcome.ofPush, Outcome.isPooled, List.countP_cons, hpooled, hexhausted,
      hresolved, hleft]

theorem ofOutcomes_map_ofJump (os : List Outcome) :
    QuickenStats.ofOutcomes (os.map Outcome.ofJump)
      = { QuickenStats.ofOutcomes os with pushesPooled := 0, poolExhausted := 0 } := by
  induction os with
  | nil => rfl
  | cons o rest ih =>
    simp only [QuickenStats.ofOutcomes, QuickenStats.mk.injEq, List.map_cons] at ih ⊢
    obtain ⟨hpooled, hexhausted, hresolved, hleft⟩ := ih
    cases o <;> simp [Outcome.ofJump, Outcome.isPooled, hpooled, hexhausted, hresolved, hleft]

/-! ## One switch off -/

namespace QuickenConfig

/-- The same with jumps left as they are. -/
def withoutJumps (config : QuickenConfig) : QuickenConfig := { config with resolveJumps := false }

/-- The same with pushes left as they are. -/
def withoutPool (config : QuickenConfig) : QuickenConfig := { config with usePool := false }

end QuickenConfig

theorem ofPush_jumpOutcome (ctx : QuickenContext) (pushed : Option Word) (i : Instruction) :
    (ctx.jumpOutcome pushed i).ofPush = .kept := by
  rcases ctx.jumpOutcome_cases pushed i with h | h | h <;> rw [h] <;> rfl

theorem ofJump_jumpOutcome (ctx : QuickenContext) (pushed : Option Word) (i : Instruction) :
    (ctx.jumpOutcome pushed i).ofJump = ctx.jumpOutcome pushed i := by
  rcases ctx.jumpOutcome_cases pushed i with h | h | h <;> rw [h] <;> rfl

section Walk

variable (code : AnalyzedCode) (config : QuickenConfig)

theorem outcomeIn_withoutJumps (final : ConstantPool) (pushed : Option Word) (i : Instruction) :
    (code.quickenContext config.withoutJumps).outcomeIn final pushed i
      = ((code.quickenContext config).outcomeIn final pushed i).ofPush := by
  cases hw : i.pushValue? with
  | some w =>
    -- both walks ask the same of a push
    simp only [QuickenContext.outcomeIn, hw]
    show (if config.usePool && (code.quickenContext config).isPoolable i then _ else _)
      = Outcome.ofPush (if config.usePool && (code.quickenContext config).isPoolable i then _ else _)
    split
    · split <;> rfl
    · rfl
  | none =>
    simp only [QuickenContext.outcomeIn, hw]
    rw [ofPush_jumpOutcome, QuickenContext.jumpOutcome_of_not_resolveJumps _ _ Bool.false_ne_true]

theorem outcomeIn_withoutPool (final final' : ConstantPool) (pushed : Option Word)
    (i : Instruction) :
    (code.quickenContext config.withoutPool).outcomeIn final' pushed i
      = ((code.quickenContext config).outcomeIn final pushed i).ofJump := by
  cases hw : i.pushValue? with
  | some w =>
    simp only [QuickenContext.outcomeIn, hw]
    show (if false && (code.quickenContext config).isPoolable i then _ else _) = _
    rw [Bool.false_and, if_neg Bool.false_ne_true]
    split
    · split <;> rfl
    · rfl
  | none =>
    simp only [QuickenContext.outcomeIn, hw]
    rw [ofJump_jumpOutcome]
    rfl

/-- The pool does not depend on what is done about jumps. -/
theorem pool_quicken_withoutJumps :
    (code.quicken config.withoutJumps).pool = (code.quicken config).pool := by
  apply ConstantPool.eq_of_entries_eq
  rw [entries_pool_quicken, entries_pool_quicken]
  rfl

theorem pool_quicken_withoutPool : (code.quicken config.withoutPool).pool = .empty := by
  apply ConstantPool.eq_of_entries_eq
  rw [entries_pool_quicken]
  rfl

theorem stats_keep : code.keep.stats = ⟨0, 0, 0, 0⟩ := by
  simp [PreparedCode.stats, AnalyzedCode.keep, QuickenStats.ofOutcomes, Outcome.isPooled,
    List.count_eq_zero]

theorem outcomes_quicken_withoutJumps :
    (code.quicken config.withoutJumps).outcomes
      = (code.quicken config).outcomes.map Outcome.ofPush := by
  apply List.ext_getElem?
  intro k
  rw [List.getElem?_map, getElem?_outcomes_quicken, getElem?_outcomes_quicken, Option.map_map,
    pool_quicken_withoutJumps]
  congr 1
  funext i
  exact outcomeIn_withoutJumps ..

theorem stats_quicken_withoutJumps :
    (code.quicken config.withoutJumps).stats
      = { (code.quicken config).stats with jumpsResolved := 0, jumpsLeftDynamic := 0 } := by
  rw [PreparedCode.stats, outcomes_quicken_withoutJumps, ofOutcomes_map_ofPush]
  rfl

theorem outcomes_quicken_withoutPool :
    (code.quicken config.withoutPool).outcomes
      = (code.quicken config).outcomes.map Outcome.ofJump := by
  apply List.ext_getElem?
  intro k
  rw [List.getElem?_map, getElem?_outcomes_quicken, getElem?_outcomes_quicken, Option.map_map]
  congr 1
  funext i
  exact outcomeIn_withoutPool ..

theorem stats_quicken_withoutPool :
    (code.quicken config.withoutPool).stats
      = { (code.quicken config).stats with pushesPooled := 0, poolExhausted := 0 } := by
  rw [PreparedCode.stats, outcomes_quicken_withoutPool, ofOutcomes_map_ofJump]
  rfl

end Walk

/-! ## Bytes -/

section Sound

variable {code : AnalyzedCode} (sound : code.Sound)
include sound

/-- What a walk does to a byte is done by the walk without the one switch, and the walk without the
other leaves the byte as it was. -/
theorem getElem?_bytes_quicken_switches (config : QuickenConfig) (p : Nat) :
    ((code.quicken config.withoutJumps).bytes[p]? = (code.quicken config).bytes[p]?
        ∧ (code.quicken config.withoutPool).bytes[p]? = code.bytes[p]?)
      ∨ ((code.quicken config.withoutJumps).bytes[p]? = code.bytes[p]?
        ∧ (code.quicken config.withoutPool).bytes[p]? = (code.quicken config).bytes[p]?) := by
  rcases Nat.lt_or_ge p code.bytes.length with hlt | hge
  · obtain ⟨k, i, here, hle, hinside⟩ := exists_mem_cut_of_lt preparedWidth hlt
    obtain ⟨n, rfl⟩ := Nat.exists_eq_add_of_le hle
    have hn : n < i.size := by omega
    rw [getElem?_bytes_quicken sound config here hn, getElem?_bytes_quicken sound _ here hn,
      getElem?_bytes_quicken sound _ here hn,
      getElem?_of_mem_cut (List.mem_of_getElem? here) hn]
    simp only [QuickenContext.replacement, pool_quicken_withoutJumps, outcomeIn_withoutJumps,
      outcomeIn_withoutPool code config (code.quicken config).pool]
    rcases after_ofPush_or_after_ofJump i ((code.quickenContext config).outcomeIn
      (code.quicken config).pool (pushedBefore code.layout k) i) with ⟨hpush, hjump⟩ | ⟨hpush, hjump⟩
    · exact .inl ⟨by rw [hpush], by rw [hjump]⟩
    · exact .inr ⟨by rw [hpush], by rw [hjump]⟩
  · -- behind the buffers there is nothing to compare
    have hend : ∀ config' : QuickenConfig, (code.quicken config').bytes[p]? = none := fun config' =>
      List.getElem?_eq_none (by rw [length_bytes_quicken sound]; exact hge)
    rw [hend, hend, hend, List.getElem?_eq_none hge]
    exact .inl ⟨rfl, rfl⟩

theorem quicken_disabled : code.quicken .disabled = code.keep := by
  have hbytes : (code.quicken .disabled).bytes = code.bytes := by
    apply List.ext_getElem?
    intro p
    rcases getElem?_bytes_quicken_switches sound .disabled p with ⟨-, h⟩ | ⟨h, -⟩ <;> exact h
  have houtcomes : (code.quicken .disabled).outcomes = code.keep.outcomes := by
    apply List.ext_getElem?
    intro k
    rw [getElem?_outcomes_quicken, AnalyzedCode.keep, List.getElem?_map]
    congr 1
    funext i
    exact Outcome.eq_kept_of_ofPush_of_ofJump (outcomeIn_withoutJumps code .disabled ..)
      (outcomeIn_withoutPool code .disabled ..)
  have hpool : (code.quicken .disabled).pool = .empty := pool_quicken_withoutPool code .disabled
  show PreparedCode.mk ⟨(code.quicken .disabled).bytes, code.len⟩ code.jumpTable
    (code.quicken .disabled).pool (code.quicken .disabled).outcomes = _
  rw [hbytes, hpool, houtcomes]
  rfl

end Sound

/-! ## Independence -/

/-- The two switches are independent.  With no switch on, a program is prepared as if it were kept,
and nothing is counted.  The table is the same in any case.  With both switches on, the constants
and the figures of pushes are those with the pool alone, and the figures of jumps are those with
jumps alone; the other switch adds nothing to them.  No byte is changed under both of the single
switches, and under both together it is what the one that changes it makes of it.  So what becomes
of a jump does not depend on the pool. -/
theorem prepareWith_switches_independent (program : List UInt8) :
    let off := prepareWith .disabled program
    let pooling := prepareWith { resolveJumps := false } program
    let resolving := prepareWith { usePool := false } program
    let both := prepareWith {} program
    (off = (RawCode.ofProgram program).analyze.keep ∧ off.stats = ⟨0, 0, 0, 0⟩)
      ∧ (pooling.jumpTable = off.jumpTable ∧ resolving.jumpTable = off.jumpTable
        ∧ both.jumpTable = off.jumpTable)
      ∧ (both.pool = pooling.pool ∧ both.stats.pushesPooled = pooling.stats.pushesPooled
        ∧ both.stats.poolExhausted = pooling.stats.poolExhausted)
      ∧ (both.stats.jumpsResolved = resolving.stats.jumpsResolved
        ∧ both.stats.jumpsLeftDynamic = resolving.stats.jumpsLeftDynamic)
      ∧ (pooling.stats.jumpsResolved = 0 ∧ pooling.stats.jumpsLeftDynamic = 0)
      ∧ (resolving.stats.pushesPooled = 0 ∧ resolving.stats.poolExhausted = 0
        ∧ resolving.pool = .empty)
      ∧ (∀ p : Nat, (pooling.bytes[p]? = off.bytes[p]? ∨ resolving.bytes[p]? = off.bytes[p]?)
        ∧ both.bytes[p]?
          = if pooling.bytes[p]? = off.bytes[p]? then resolving.bytes[p]? else pooling.bytes[p]?)
      ∧ ∀ (k : Nat) (o : Outcome), o = .resolved ∨ o = .leftDynamic →
        (both.outcomes[k]? = some o ↔ resolving.outcomes[k]? = some o) := by
  intro off pooling resolving both
  have sound : (RawCode.ofProgram program).analyze.Sound := sound_analyze program
  have hoff : off = (RawCode.ofProgram program).analyze.keep := quicken_disabled sound
  have hpooling : pooling.stats = { both.stats with jumpsResolved := 0, jumpsLeftDynamic := 0 } :=
    stats_quicken_withoutJumps _ {}
  have hresolving : resolving.stats = { both.stats with pushesPooled := 0, poolExhausted := 0 } :=
    stats_quicken_withoutPool _ {}
  refine ⟨⟨hoff, ?_⟩, ⟨rfl, rfl, rfl⟩, ⟨?_, by rw [hpooling], by rw [hpooling]⟩,
    ⟨by rw [hresolving], by rw [hresolving]⟩, ⟨by rw [hpooling], by rw [hpooling]⟩,
    ⟨by rw [hresolving], by rw [hresolving], pool_quicken_withoutPool _ {}⟩, fun p => ?_,
    fun k o ho => ?_⟩
  · rw [hoff, stats_keep]
  · exact (pool_quicken_withoutJumps _ {}).symm
  · have hbytes : off.bytes = (RawCode.ofProgram program).analyze.bytes := by rw [hoff]; rfl
    rw [hbytes]
    rcases getElem?_bytes_quicken_switches sound {} p with ⟨hpool, hjump⟩ | ⟨hpool, hjump⟩
    · -- the byte is part of a push
      have hpool : pooling.bytes[p]? = both.bytes[p]? := hpool
      have hjump : resolving.bytes[p]? = (RawCode.ofProgram program).analyze.bytes[p]? := hjump
      refine ⟨.inr hjump, ?_⟩
      split
      · rename_i hsame
        rw [hjump, ← hsame, hpool]
      · exact hpool.symm
    · have hpool : pooling.bytes[p]? = (RawCode.ofProgram program).analyze.bytes[p]? := hpool
      have hjump : resolving.bytes[p]? = both.bytes[p]? := hjump
      exact ⟨.inl hpool, by rw [if_pos hpool, hjump]⟩
  · have houtcomes : resolving.outcomes = both.outcomes.map Outcome.ofJump :=
      outcomes_quicken_withoutPool _ {}
    rw [houtcomes, List.getElem?_map]
    cases both.outcomes[k]? with
    | none => simp
    | some o' =>
      rcases ho with rfl | rfl <;> cases o' <;> simp [Outcome.ofJump]

end EvmPrep
