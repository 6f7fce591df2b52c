import EvmPrep.Proofs.Quickened
set_option autoImplicit false

/-!
# What quickening does, said without its walk

Quickening is described here by the instructions before it, the pool and the table
behind it, and nothing that happens in between.  A wide push inside the program whose
word is in the pool becomes a pooled push; a jump right behind a push of a legal
destination becomes the jump that checks no more; every other instruction stays
(`QuickenedTo`).  The pool holds the first 256 distinct words of the wide pushes.
-/

namespace EvmPrep

/-- A pooled push has room for its two operand bytes in a program of that length. -/
def Instruction.IsEligible (programLen : Nat) (a : Instruction) : Prop :=
  2 ≤ pushNumber a.byte ∧ a.offset + 2 < programLen

instance (programLen : Nat) (a : Instruction) : Decidable (a.IsEligible programLen) :=
  inferInstanceAs (Decidable (_ ∧ _))

/-- The push gets its word `w` from the pool. -/
def Instruction.TakesConstant (config : QuickenConfig) (programLen : Nat) (pool : ConstantPool)
    (a : Instruction) (w : Word) : Prop :=
  config.usePool = true ∧ a.IsEligible programLen ∧ a.pushValue? = some w ∧ w ∈ pool.entries

/-- A jump behind the instruction `before?`, if there is one, is told a destination of the table. -/
def KnowsDestination (config : QuickenConfig) (table : JumpTable) (before? : Option Instruction) :
    Prop :=
  config.resolveJumps = true
    ∧ ∃ b w, before? = some b ∧ b.pushValue? = some w
      ∧ w.toNat < UInt64.size ∧ w.toNat ∈ table.dests

/-- The instruction `r` is what quickening makes of `a`, which stands right behind `before?`. -/
structure QuickenedTo (config : QuickenConfig) (programLen : Nat) (table : JumpTable)
    (pool : ConstantPool) (before? : Option Instruction) (a r : Instruction) : Prop where
  offset_eq : r.offset = a.offset
  size_eq : r.size = a.size
  /-- pooled pushes stand for the pushes that take a constant, and for nothing else -/
  pushc_iff : r.opcode? = some .pushc ↔ ∃ w, a.TakesConstant config programLen pool w
  /-- a pooled push has the place of its word, the old width less one, and what is left of the
  immediate -/
  pushc_eq : ∀ w, a.TakesConstant config programLen pool w → ∃ index width : UInt8,
    index.toNat = pool.entries.idxOf w ∧ width.toNat + 1 = pushNumber a.byte
      ∧ r = ⟨a.offset, Opcode.pushc.toByte, index :: width :: a.immediate.drop 2⟩
  jumpv_iff : r.opcode? = some .jumpv
    ↔ a.opcode? = some .jump ∧ KnowsDestination config table before?
  jumpv_eq : r.opcode? = some .jumpv → r = { a with byte := Opcode.jumpv.toByte }
  jumpvi_iff : r.opcode? = some .jumpvi
    ↔ a.opcode? = some .jumpi ∧ KnowsDestination config table before?
  jumpvi_eq : r.opcode? = some .jumpvi → r = { a with byte := Opcode.jumpvi.toByte }
  kept : (¬ ∃ w, a.TakesConstant config programLen pool w) →
    ¬ ((a.opcode? = some .jump ∨ a.opcode? = some .jumpi)
      ∧ KnowsDestination config table before?) → r = a

theorem isPoolable_iff {ctx : QuickenContext} {a : Instruction} :
    ctx.isPoolable a = true ↔ a.IsEligible ctx.programLen := by
  simp only [QuickenContext.isPoolable, Instruction.IsEligible, pushNumber_eq, Bool.and_eq_true,
    decide_eq_true_eq]

section Replacement

variable {ctx : QuickenContext} {final : ConstantPool} {before? : Option Instruction}
  {a : Instruction}

theorem replacement_of_takesConstant {pushed : Option Word} {w : Word}
    (h : a.TakesConstant ctx.config ctx.programLen final w) :
    ctx.replacement final pushed a = a.toPooled (UInt8.ofNat (final.entries.idxOf w)) := by
  obtain ⟨hon, heligible, hw, hmem⟩ := h
  rw [QuickenContext.replacement, QuickenContext.outcomeIn_eq_pooled_iff.mpr
    ⟨hon, isPoolable_iff.mpr heligible, w, hmem, hw, rfl⟩]
  rfl

theorem replacement_of_knowsDestination {j : Instruction} (hj : a.resolved? = some j)
    (h : KnowsDestination ctx.config ctx.jumpTable before?) :
    ctx.replacement final (before?.bind Instruction.pushValue?) a = j := by
  obtain ⟨hon, b, w, rfl, hw, hlisted⟩ := h
  obtain ⟨hnone, hplain, -⟩ := plain_of_resolved? hj
  have hsilent : a.pushValue? = none := by
    rw [Instruction.pushValue?, operand_eq_absent hplain hnone]
  have houtcome : ctx.outcomeIn final ((some b).bind Instruction.pushValue?) a = .resolved :=
    QuickenContext.outcomeIn_eq_resolved_iff.mpr
      ⟨hon, hsilent, by rw [hj]; rfl, w, hw, JumpTable.isValid_iff.mpr hlisted⟩
  rw [QuickenContext.replacement, houtcome, Instruction.after, hj]
  rfl

/-- What is neither a push that takes a constant nor a jump that knows its destination stays. -/
theorem replacement_eq_self (hconst : ¬ ∃ w, a.TakesConstant ctx.config ctx.programLen final w)
    (hjump : ¬ (a.resolved?.isSome = true
      ∧ KnowsDestination ctx.config ctx.jumpTable before?)) :
    ctx.replacement final (before?.bind Instruction.pushValue?) a = a := by
  rcases replacement_cases ctx final (before?.bind Instruction.pushValue?) a with
    ⟨w, hmem, hon, hi, hw, -⟩ | ⟨j, w, hon, hj, hpushed, hvalid, -⟩ | h
  · exact absurd ⟨w, hon, isPoolable_iff.mp hi, hw, hmem⟩ hconst
  · obtain ⟨b, hb, hw⟩ := Option.bind_eq_some_iff.mp hpushed
    exact absurd ⟨by rw [hj]; rfl, hon, b, w, hb, hw, JumpTable.isValid_iff.mp hvalid⟩ hjump
  · exact h

end Replacement

/-! ## The three kinds of result -/

section Results

variable {config : QuickenConfig} {programLen : Nat} {table : JumpTable} {pool : ConstantPool}
  {before? : Option Instruction} {a : Instruction}

theorem resolved?_isSome_iff :
    a.resolved?.isSome = true ↔ a.opcode? = some .jump ∨ a.opcode? = some .jumpi := by
  constructor
  · intro h
    obtain ⟨j, hj⟩ := Option.isSome_iff_exists.mp h
    rcases resolved?_eq_some_iff.mp hj with ⟨hop, -⟩ | ⟨hop, -⟩
    · exact .inl hop
    · exact .inr hop
  · rintro (hop | hop)
    · exact Option.isSome_iff_exists.mpr ⟨_, resolved?_eq_some_iff.mpr (.inl ⟨hop, rfl⟩)⟩
    · exact Option.isSome_iff_exists.mpr ⟨_, resolved?_eq_some_iff.mpr (.inr ⟨hop, rfl⟩)⟩

theorem not_takesConstant_of_resolved? {w : Word} (h : a.resolved?.isSome = true) :
    ¬ a.TakesConstant config programLen pool w := by
  rintro ⟨-, ⟨hwide, -⟩, -, -⟩
  obtain ⟨j, hj⟩ := Option.isSome_iff_exists.mp h
  have hnone := (plain_of_resolved? hj).1
  rw [pushNumber_eq] at hwide
  omega

theorem quickenedTo_pooled {w : Word} (whole : a.immediate.length = pushWidth a.byte)
    (h : a.TakesConstant config programLen pool w) :
    QuickenedTo config programLen table pool before? a
      (a.toPooled (UInt8.ofNat (pool.entries.idxOf w))) := by
  obtain ⟨hon, ⟨hwide, hroom⟩, hw, hmem⟩ := h
  have hpushc : (a.toPooled (UInt8.ofNat (pool.entries.idxOf w))).opcode? = some .pushc :=
    Opcode.ofByte?_toByte .pushc
  have hnojump : ¬ (a.opcode? = some .jump ∨ a.opcode? = some .jumpi) := fun hop =>
    not_takesConstant_of_resolved? (resolved?_isSome_iff.mpr hop)
      ⟨hon, ⟨hwide, hroom⟩, hw, hmem⟩
  have hnarrow := pushWidth_le a.byte
  have hnumber := pushNumber_eq a.byte
  constructor
  case offset_eq => rfl
  case size_eq => exact size_toPooled _ (hnumber ▸ hwide) whole
  case pushc_iff => exact iff_of_true hpushc ⟨w, hon, ⟨hwide, hroom⟩, hw, hmem⟩
  case pushc_eq =>
    rintro v ⟨-, -, hv, -⟩
    obtain rfl : w = v := Option.some.inj (hw.symm.trans hv)
    refine ⟨_, UInt8.ofNat (pushWidth a.byte - 1), ConstantPool.toNat_idxOf hmem, ?_, rfl⟩
    rw [UInt8.toNat_ofNat', Nat.mod_eq_of_lt (by omega)]
    omega
  case jumpv_iff =>
    rw [hpushc]
    exact iff_of_false (by simp) fun h => hnojump (.inl h.1)
  case jumpv_eq =>
    rw [hpushc]
    exact fun h => absurd h (by simp)
  case jumpvi_iff =>
    rw [hpushc]
    exact iff_of_false (by simp) fun h => hnojump (.inr h.1)
  case jumpvi_eq =>
    rw [hpushc]
    exact fun h => absurd h (by simp)
  case kept => exact fun h => absurd ⟨w, hon, ⟨hwide, hroom⟩, hw, hmem⟩ h

theorem quickenedTo_resolved {j : Instruction} (hj : a.resolved? = some j)
    (h : KnowsDestination config table before?) :
    QuickenedTo config programLen table pool before? a j := by
  have hconst : ¬ ∃ w, a.TakesConstant config programLen pool w := by
    rintro ⟨w, hw⟩
    exact not_takesConstant_of_resolved? (by rw [hj]; rfl) hw
  have hjump : a.opcode? = some .jump ∨ a.opcode? = some .jumpi :=
    resolved?_isSome_iff.mp (by rw [hj]; rfl)
  have hplace := place_of_resolved? hj
  have hcases : (a.opcode? = some .jump ∧ j.opcode? = some .jumpv
        ∧ j = { a with byte := Opcode.jumpv.toByte })
      ∨ (a.opcode? = some .jumpi ∧ j.opcode? = some .jumpvi
        ∧ j = { a with byte := Opcode.jumpvi.toByte }) := by
    rcases resolved?_eq_some_iff.mp hj with ⟨hop, rfl⟩ | ⟨hop, rfl⟩
    · exact .inl ⟨hop, Opcode.ofByte?_toByte .jumpv, rfl⟩
    · exact .inr ⟨hop, Opcode.ofByte?_toByte .jumpvi, rfl⟩
  constructor
  case offset_eq => exact congrArg Prod.fst hplace
  case size_eq => exact congrArg Prod.snd hplace
  case pushc_iff =>
    refine iff_of_false ?_ hconst
    rcases hcases with ⟨-, hop, -⟩ | ⟨-, hop, -⟩ <;> simp [hop]
  case pushc_eq => exact fun w hw => absurd ⟨w, hw⟩ hconst
  case jumpv_iff =>
    rcases hcases with ⟨hop, hop', -⟩ | ⟨hop, hop', -⟩
    · exact iff_of_true hop' ⟨hop, h⟩
    · simp [hop, hop']
  case jumpv_eq =>
    rcases hcases with ⟨-, -, heq⟩ | ⟨-, hop', -⟩
    · exact fun _ => heq
    · simp [hop']
  case jumpvi_iff =>
    rcases hcases with ⟨hop, hop', -⟩ | ⟨hop, hop', -⟩
    · simp [hop, hop']
    · exact iff_of_true hop' ⟨hop, h⟩
  case jumpvi_eq =>
    rcases hcases with ⟨-, hop', -⟩ | ⟨-, -, heq⟩
    · simp [hop']
    · exact fun _ => heq
  case kept => exact fun _ hnot => absurd ⟨hjump, h⟩ hnot

theorem quickenedTo_self
    (plain : a.byte ≠ Opcode.pushc.toByte ∧ a.byte ≠ Opcode.jumpv.toByte
      ∧ a.byte ≠ Opcode.jumpvi.toByte)
    (hconst : ¬ ∃ w, a.TakesConstant config programLen pool w)
    (hjump : ¬ (a.resolved?.isSome = true ∧ KnowsDestination config table before?)) :
    QuickenedTo config programLen table pool before? a a := by
  rw [resolved?_isSome_iff] at hjump
  obtain ⟨hpushc, hjumpv, hjumpvi⟩ := plain
  have hne : ∀ o : Opcode, a.byte ≠ o.toByte → a.opcode? ≠ some o := fun o hbyte hop =>
    hbyte (Opcode.ofByte?_eq_some_iff.mp hop).symm
  constructor
  case offset_eq => rfl
  case size_eq => rfl
  case pushc_iff => exact iff_of_false (hne _ hpushc) hconst
  case pushc_eq => exact fun w hw => absurd ⟨w, hw⟩ hconst
  case jumpv_iff => exact iff_of_false (hne _ hjumpv) fun h => hjump ⟨.inl h.1, h.2⟩
  case jumpv_eq => exact fun h => absurd h (hne _ hjumpv)
  case jumpvi_iff => exact iff_of_false (hne _ hjumpvi) fun h => hjump ⟨.inr h.1, h.2⟩
  case jumpvi_eq => exact fun h => absurd h (hne _ hjumpvi)
  case kept => exact fun _ _ => rfl

end Results

/-- The walk's replacements are those of the description. -/
theorem quickenedTo_replacement (ctx : QuickenContext) (final : ConstantPool)
    (before? : Option Instruction) {a : Instruction}
    (plain : a.byte ≠ Opcode.pushc.toByte ∧ a.byte ≠ Opcode.jumpv.toByte
      ∧ a.byte ≠ Opcode.jumpvi.toByte)
    (whole : a.immediate.length = pushWidth a.byte) :
    QuickenedTo ctx.config ctx.programLen ctx.jumpTable final before? a
      (ctx.replacement final (before?.bind Instruction.pushValue?) a) := by
  by_cases hconst : ∃ w, a.TakesConstant ctx.config ctx.programLen final w
  · obtain ⟨w, hw⟩ := hconst
    rw [replacement_of_takesConstant hw]
    exact quickenedTo_pooled whole hw
  · by_cases hjump : a.resolved?.isSome = true ∧ KnowsDestination ctx.config ctx.jumpTable before?
    · obtain ⟨hresolved, hknows⟩ := hjump
      obtain ⟨j, hj⟩ := Option.isSome_iff_exists.mp hresolved
      rw [replacement_of_knowsDestination hj hknows]
      exact quickenedTo_resolved hj hknows
    · rw [replacement_eq_self hconst hjump]
      exact quickenedTo_self plain hconst hjump

/-! ## The pass -/

theorem pushedBefore_eq (is : List Instruction) (k : Nat) :
    pushedBefore is k
      = (if k = 0 then none else is[k - 1]?).bind Instruction.pushValue? := by
  cases k <;> simp [pushedBefore]

theorem offered_eq (ctx : QuickenContext) (is : List Instruction) :
    ctx.offered is
      = if ctx.config.usePool
        then (is.filter fun a => a.IsEligible ctx.programLen).filterMap Instruction.pushValue?
        else [] := by
  have htest : ctx.isPoolable = fun a => decide (a.IsEligible ctx.programLen) := by
    funext a
    rw [Bool.eq_iff_iff, isPoolable_iff, decide_eq_true_eq]
  rw [QuickenContext.offered, htest]

/-- Quickening in full.  The pool holds the first 256 distinct words of the eligible pushes, in the
order in which they come, and the word of a push is the number that its immediate spells; the
listing is as long as before, and each of its instructions is what the description says.  Behind
the program there is still nothing but `STOP`s. -/
theorem quicken_exact (program : List UInt8) (config : QuickenConfig) :
    let analyzed := (RawCode.ofProgram program).analyze
    let prepared := analyzed.quicken config
    (prepared.pool.entries
        = if config.usePool
          then ((analyzed.instructions.filter fun a => a.IsEligible program.length).filterMap
            Instruction.pushValue?).eraseDups.take 256
          else [])
      ∧ (∀ a ∈ analyzed.instructions, a.pushValue?
        = if pushNumber a.byte = 0 then none else some (BitVec.ofNat 256 (natOfBytes a.immediate)))
      ∧ prepared.instructions.length = analyzed.instructions.length
      ∧ (∀ (k : Nat) (a r : Instruction), analyzed.instructions[k]? = some a →
        prepared.instructions[k]? = some r →
        QuickenedTo config program.length analyzed.jumpTable prepared.pool
          (if k = 0 then none else analyzed.instructions[k - 1]?) a r)
      ∧ ∀ r ∈ prepared.layout, program.length ≤ r.offset → r.byte = 0 := by
  intro analyzed prepared
  have sound : analyzed.Sound := sound_analyze program
  refine ⟨?_, ?_, ?_, ?_, ?_⟩
  · rw [entries_pool_quicken, offered_eq]
    show (if config.usePool then _ else _ : List Word).eraseDups.take 256 = _
    split <;> rfl
  · intro a ha
    have hmem := mem_layout_of_mem_instructions ha
    rw [pushNumber_eq]
    split
    case isTrue hnone =>
      rw [Instruction.pushValue?, operand_eq_absent (sound.plain a hmem).1 hnone]
    case isFalse hpush => exact sound.pushValue?_eq hmem hpush
  · rw [instructions_quicken sound]
    have hplaces := congrArg List.length (map_place_quickened sound config)
    rwa [List.length_map, List.length_map] at hplaces
  · intro k a r ha hr
    rw [instructions_quicken sound, getElem?_quickened, ha, Option.map_some, pushedBefore_eq] at hr
    obtain rfl := Option.some.inj hr
    have hmem := mem_layout_of_mem_instructions (List.mem_of_getElem? ha)
    exact quickenedTo_replacement (analyzed.quickenContext config) prepared.pool _
      (sound.plain a hmem) (sound.whole a hmem)
  · intro r hr hbehind
    exact byte_eq_zero_of_mem_layout_quicken sound config hr hbehind

end EvmPrep
