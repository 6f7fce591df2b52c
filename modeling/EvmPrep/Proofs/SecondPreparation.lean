import Mathlib.Order.Nat
import EvmPrep.Proofs.Traps
set_option autoImplicit false

/-!
# Prepared bytes are no source code

What quickening puts in bears synthetic bytes, and source code is disarmed.  So when
prepared bytes are prepared again, the first instruction that quickening had put in is
trapped: in front of it nothing was changed, the second scan cuts the code there as the
first one did and still finds its start (`isStart_of_cut_eq_append`), and a trap is never
replaced (`getElem?_program_prepareWith_of_isTrapped`).  Behind it nothing can be said,
because the scan takes the operand of a pooled push for instructions.

If nothing was put in, the prepared program is the analyzed one, and preparing that is
preparing the program.
-/

namespace EvmPrep

/-! ## What was replaced -/

/-- The instruction is one that only quickening puts in. -/
def Instruction.IsQuick (i : Instruction) : Prop :=
  i.opcode? = some .pushc ∨ i.opcode? = some .jumpv ∨ i.opcode? = some .jumpvi

/-- The outcome is that of a replacement. -/
def Outcome.IsReplacement (o : Outcome) : Prop := o.isPooled = true ∨ o = .resolved

theorem isSynthetic_of_isQuick {i : Instruction} (h : i.IsQuick) :
    isSynthetic i.byte = true ∧ i.byte ≠ Opcode.bad.toByte := by
  rcases h with hop | hop | hop
  all_goals
    rw [opcode?_eq_some_iff.mp hop]
    decide

theorem after_of_not_isReplacement {i : Instruction} {o : Outcome} (h : ¬ o.IsReplacement) :
    i.after o = i := by
  cases o with
  | pooled index => exact absurd (.inl rfl) h
  | resolved => exact absurd (.inr rfl) h
  | kept => rfl
  | exhausted => rfl
  | leftDynamic => rfl

theorem isQuick_replacement {ctx : QuickenContext} {final : ConstantPool} {pushed : Option Word}
    {i : Instruction} (h : (ctx.outcomeIn final pushed i).IsReplacement) :
    (ctx.replacement final pushed i).IsQuick := by
  unfold QuickenContext.replacement
  rcases h with hpooled | hresolved
  · cases ho : ctx.outcomeIn final pushed i with
    | pooled index => exact .inl (Opcode.ofByte?_toByte .pushc)
    | _ =>
      rw [ho] at hpooled
      cases hpooled
  · obtain ⟨-, -, hj, -⟩ := QuickenContext.outcomeIn_eq_resolved_iff.mp hresolved
    obtain ⟨j, hj⟩ := Option.isSome_iff_exists.mp hj
    rw [hresolved, Instruction.after, hj, Option.getD_some]
    rcases resolved?_eq_some_iff.mp hj with ⟨-, rfl⟩ | ⟨-, rfl⟩
    · exact .inr (.inl (Opcode.ofByte?_toByte .jumpv))
    · exact .inr (.inr (Opcode.ofByte?_toByte .jumpvi))

theorem ofOutcomes_eq_zero_iff {os : List Outcome} :
    (QuickenStats.ofOutcomes os).pushesPooled = 0 ∧ (QuickenStats.ofOutcomes os).jumpsResolved = 0
      ↔ ∀ o ∈ os, ¬ o.IsReplacement := by
  simp only [QuickenStats.ofOutcomes, List.countP_eq_zero, List.count_eq_zero]
  constructor
  · rintro ⟨hpooled, hresolved⟩ o ho (h | rfl)
    · exact hpooled o ho h
    · exact hresolved ho
  · intro h
    exact ⟨fun o ho hpooled => h o ho (.inl hpooled), fun ho => h _ ho (.inr rfl)⟩

/-- The rows differ for the first time in their `k`-th instructions `i` and `j`. -/
structure FirstDifference (is js : List Instruction) (k : Nat) (i j : Instruction) : Prop where
  before : ∀ n < k, js[n]? = is[n]?
  left : is[k]? = some i
  right : js[k]? = some j
  ne : i ≠ j

section Sound

variable {code : AnalyzedCode} (sound : code.Sound) (config : QuickenConfig)
include sound

theorem instructions_quicken_of_forall_not
    (h : ∀ o ∈ (code.quicken config).outcomes, ¬ o.IsReplacement) :
    (code.quicken config).instructions = code.instructions := by
  apply List.ext_getElem?
  intro k
  rw [getElem?_instructions_quicken sound]
  cases hi : code.instructions[k]? with
  | none => rfl
  | some i =>
    have ho := getElem?_outcomes_quicken code config k
    rw [hi, Option.map_some] at ho
    rw [Option.map_some, QuickenContext.replacement,
      after_of_not_isReplacement (h _ (List.mem_of_getElem? ho))]

theorem program_quicken_of_instructions_eq
    (h : (code.quicken config).instructions = code.instructions) :
    (code.quicken config).program = code.program := by
  obtain ⟨tail, hlayout, -⟩ := code.layout_eq_append
  have hbytes : (code.quicken config).bytes = code.bytes := by
    rw [bytes_quicken sound config hlayout, ← instructions_quicken sound, h, ← hlayout,
      code.flatMap_bytes_layout]
  rw [CodeBuffer.program, hbytes]
  rfl

/-- If something was replaced, the listings differ for a first time, and there stands an instruction
that only quickening puts in. -/
theorem exists_firstDifference_of_isReplacement
    (h : ∃ o ∈ (code.quicken config).outcomes, o.IsReplacement) :
    ∃ k a r, FirstDifference code.instructions (code.quicken config).instructions k a r
      ∧ r.IsQuick := by
  have hsome : ∃ k a, code.instructions[k]? = some a
      ∧ ((code.quickenContext config).outcomeIn (code.quicken config).pool
        (pushedBefore code.instructions k) a).IsReplacement := by
    obtain ⟨o, ho, hreplaced⟩ := h
    obtain ⟨k, hk⟩ := List.mem_iff_getElem?.mp ho
    rw [getElem?_outcomes_quicken] at hk
    obtain ⟨a, ha, rfl⟩ := Option.map_eq_some_iff.mp hk
    exact ⟨k, a, ha, hreplaced⟩
  classical
  obtain ⟨a, ha, hreplaced⟩ := Nat.find_spec hsome
  have hquick := isQuick_replacement hreplaced
  refine ⟨Nat.find hsome, a, _, ⟨fun n hn => ?_, ha, ?_, fun hsame => ?_⟩, hquick⟩
  · rw [getElem?_instructions_quicken sound]
    cases hi : code.instructions[n]? with
    | none => rfl
    | some i =>
      have hkept : ¬ ((code.quickenContext config).outcomeIn (code.quicken config).pool
          (pushedBefore code.instructions n) i).IsReplacement :=
        fun hi' => Nat.find_min hsome hn ⟨i, hi, hi'⟩
      rw [Option.map_some, QuickenContext.replacement, after_of_not_isReplacement hkept]
  · rw [getElem?_instructions_quicken sound, ha, Option.map_some]
  · have hplain := sound.plain a (mem_layout_of_mem_instructions (List.mem_of_getElem? ha))
    rw [← hsame] at hquick
    rcases hquick with hop | hop | hop
    · exact hplain.1 (opcode?_eq_some_iff.mp hop)
    · exact hplain.2.1 (opcode?_eq_some_iff.mp hop)
    · exact hplain.2.2 (opcode?_eq_some_iff.mp hop)

end Sound

/-! ## What the second scan meets -/

/-- Where instructions fill their places under either rule, what follows them starts under either
rule. -/
theorem isStart_of_cut_eq_append {rule rule' : WidthRule} {code : List UInt8}
    {front rest : List Instruction} {r : Instruction}
    (layout : cut rule' 0 code = front ++ r :: rest) (fills : ∀ i ∈ front, i.Fills rule) :
    IsStart rule code r.offset := by
  have hchained : Chained 0 (front ++ r :: rest) := by
    rw [← layout]
    exact chained_cut ..
  obtain ⟨hfront, hoffset, -⟩ := chained_append.mp hchained
  have hcode : code = front.flatMap Instruction.bytes
      ++ r.byte :: (r.immediate ++ rest.flatMap Instruction.bytes) := by
    rw [← flatMap_bytes_cut rule' 0 code, layout, List.flatMap_append, List.flatMap_cons,
      Instruction.bytes, List.cons_append]
  have hcut := cut_flatMap_bytes_append hfront fills
    (r.byte :: (r.immediate ++ rest.flatMap Instruction.bytes))
  rw [← hcode, cut_cons, ← hoffset] at hcut
  rw [isStart_iff_mem_cut, hcut]
  exact ⟨_, List.mem_append_right _ (List.mem_cons_self ..), rfl⟩

/-- Up to the first difference the new listing starts where the old one does, also for the scan of
source code. -/
theorem isStart_of_firstDifference {code : AnalyzedCode} (sound : code.Sound)
    (config : QuickenConfig) {k : Nat} {a r : Instruction}
    (h : FirstDifference code.instructions (code.quicken config).instructions k a r) :
    IsStart sourceWidth (code.quicken config).bytes r.offset := by
  obtain ⟨tail, hlayout, -⟩ := (code.quicken config).layout_eq_append
  have hsplit : (code.quicken config).instructions
      = (code.quicken config).instructions.take k
        ++ r :: (code.quicken config).instructions.drop (k + 1) := by
    obtain ⟨hk, hr⟩ := List.getElem?_eq_some_iff.mp h.right
    rw [← hr, ← List.drop_eq_getElem_cons hk, List.take_append_drop]
  rw [hsplit, List.append_assoc, List.cons_append] at hlayout
  refine isStart_of_cut_eq_append hlayout fun i hi behind => ?_
  obtain ⟨n, hn⟩ := List.mem_iff_getElem?.mp hi
  have hnk : n < k := by
    have := (List.getElem?_eq_some_iff.mp hn).1
    rw [List.length_take] at this
    omega
  rw [List.getElem?_take_of_lt hnk, h.before n hnk] at hn
  exact (sound.whole i (mem_layout_of_mem_instructions (List.mem_of_getElem? hn))).symm

theorem getElem?_program_prepareWith_of_isTrapped {program : List UInt8} {s : Nat}
    (config : QuickenConfig) (h : IsTrapped program s) :
    (prepareWith config program).program[s]? = some Opcode.bad.toByte := by
  have sound := sound_analyze program
  have hs := h.1.lt_length
  have hpadded : IsTrapped (CodeBuffer.ofProgram program).bytes s :=
    (isTrapped_append_iff hs).mpr h
  have hstart : IsStart sourceWidth (RawCode.ofProgram program).analyze.bytes s :=
    isStart_disarm_iff.mpr (isTrapped_iff.mp hpadded).1
  rw [isStart_iff_mem_cut, ← layout_analyze] at hstart
  obtain ⟨i, hi, rfl⟩ := hstart
  obtain ⟨k, hk⟩ := List.mem_iff_getElem?.mp hi
  have hbyte : i.byte = Opcode.bad.toByte := by
    have hdisarmed : (disarm (CodeBuffer.ofProgram program).bytes)[i.offset]?
        = some Opcode.bad.toByte := by
      rw [getElem?_disarm, if_pos hpadded]
    exact Option.some.inj ((of_mem_cut hi).2.1.symm.trans hdisarmed)
  have hnew := getElem?_bytes_quicken sound config hk i.size_pos
  rw [replacement_of_byte_eq_bad hbyte] at hnew
  have hlt : i.offset < (prepareWith config program).len := hs
  rw [CodeBuffer.program, List.getElem?_take_of_lt hlt, ← hbyte]
  exact hnew

/-! ## Preparing twice -/

section Twice

variable {program : List UInt8} {config : QuickenConfig}

/-- The first instruction that was replaced is trapped by the next preparation, and had another
byte. -/
theorem getElem?_program_prepareWith_twice {k : Nat} {a r : Instruction}
    (h : FirstDifference (RawCode.ofProgram program).analyze.instructions
      (prepareWith config program).instructions k a r) (quick : r.IsQuick) :
    (prepareWith config program).program[r.offset]? = some r.byte
      ∧ (prepareWith config (prepareWith config program).program).program[r.offset]?
        = some Opcode.bad.toByte := by
  have hstart := isStart_of_firstDifference (sound_analyze program) config h
  obtain ⟨hmem, hlt⟩ := CodeBuffer.mem_instructions_iff.mp (List.mem_of_getElem? h.right)
  have hbyte : (prepareWith config program).program[r.offset]? = some r.byte := by
    rw [CodeBuffer.program, List.getElem?_take_of_lt hlt]
    exact (of_mem_cut hmem).2.1
  refine ⟨hbyte, getElem?_program_prepareWith_of_isTrapped config (isTrapped_iff.mpr ⟨?_, ?_⟩)⟩
  · have hpadding := padding_finish program (some config)
    have hbytes := CodeBuffer.bytes_eq_program_append hpadding
    have hlength := CodeBuffer.length_program hpadding
    have hstart' : IsStart sourceWidth
        ((prepareWith config program).program ++ List.replicate 33 0) r.offset := hbytes ▸ hstart
    exact isStart_append_iff.mp ⟨hstart', hlength.symm ▸ hlt⟩
  · rw [hbyte]
    exact (isSynthetic_of_isQuick quick).1

theorem prepareWith_twice_of_forall_not
    (h : ∀ o ∈ (prepareWith config program).outcomes, ¬ o.IsReplacement) :
    prepareWith config (prepareWith config program).program = prepareWith config program := by
  have sound := sound_analyze program
  have hprogram : (prepareWith config program).program
      = (RawCode.ofProgram program).analyze.program :=
    program_quicken_of_instructions_eq sound config
      (instructions_quicken_of_forall_not sound config h)
  rw [hprogram]
  exact (eqUpToTraps_program_analyze program).prepareWith_eq config

end Twice

/-- Preparing the bytes of prepared code is harmless exactly when nothing was replaced in them.
Then the second preparation has the same bytes, table, constants and figures as the first.
Otherwise the listing differs somewhere from the analyzed one for the first time, an instruction
stands there that only quickening puts in, and the second preparation has a trap in its
place. -/
theorem prepareWith_twice_program_eq_iff (program : List UInt8) (config : QuickenConfig) :
    let analyzed := (RawCode.ofProgram program).analyze
    let first := prepareWith config program
    let second := prepareWith config first.program
    (second.program = first.program
        ↔ first.stats.pushesPooled = 0 ∧ first.stats.jumpsResolved = 0)
      ∧ (first.stats.pushesPooled = 0 ∧ first.stats.jumpsResolved = 0 →
        second.jumpTable = first.jumpTable ∧ second.pool = first.pool
          ∧ second.stats = first.stats)
      ∧ (¬ (first.stats.pushesPooled = 0 ∧ first.stats.jumpsResolved = 0) →
        ∃ k a r, FirstDifference analyzed.instructions first.instructions k a r ∧ r.IsQuick
          ∧ first.program[r.offset]? = some r.byte
          ∧ second.program[r.offset]? = some Opcode.bad.toByte) := by
  intro analyzed first second
  have hsame : first.stats.pushesPooled = 0 ∧ first.stats.jumpsResolved = 0 → second = first :=
    fun h => prepareWith_twice_of_forall_not (ofOutcomes_eq_zero_iff.mp h)
  have htrap : ¬ (first.stats.pushesPooled = 0 ∧ first.stats.jumpsResolved = 0) →
      ∃ k a r, FirstDifference analyzed.instructions first.instructions k a r ∧ r.IsQuick
        ∧ first.program[r.offset]? = some r.byte
        ∧ second.program[r.offset]? = some Opcode.bad.toByte := by
    intro h
    have hreplaced : ∃ o ∈ first.outcomes, o.IsReplacement := by
      by_contra hnone
      exact h (ofOutcomes_eq_zero_iff.mpr fun o ho hr => hnone ⟨o, ho, hr⟩)
    obtain ⟨k, a, r, hfirst, hquick⟩ :=
      exists_firstDifference_of_isReplacement (sound_analyze program) config hreplaced
    exact ⟨k, a, r, hfirst, hquick, getElem?_program_prepareWith_twice hfirst hquick⟩
  refine ⟨⟨fun hprogram => ?_, fun h => by rw [hsame h]⟩, fun h => ?_, htrap⟩
  · by_contra hreplaced
    obtain ⟨k, a, r, -, hquick, hbyte, hbad⟩ := htrap hreplaced
    rw [hprogram, hbyte] at hbad
    exact (isSynthetic_of_isQuick hquick).2 (Option.some.inj hbad)
  · rw [hsame h]
    exact ⟨rfl, rfl, rfl⟩

/-- A push that was pooled is a trap after the second preparation. -/
theorem prepareWith_twice_pooled :
    let first := prepareWith {} [0x61, 0x12, 0x34]
    ¬ (first.stats.pushesPooled = 0 ∧ first.stats.jumpsResolved = 0)
      ∧ (prepareWith {} first.program).program ≠ first.program :=
  have hreplaced : ¬ ((prepareWith {} [0x61, 0x12, 0x34]).stats.pushesPooled = 0
      ∧ (prepareWith {} [0x61, 0x12, 0x34]).stats.jumpsResolved = 0) := by decide
  ⟨hreplaced, fun h => hreplaced ((prepareWith_twice_program_eq_iff _ {}).1.mp h)⟩

end EvmPrep
