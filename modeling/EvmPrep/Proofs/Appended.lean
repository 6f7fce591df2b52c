import EvmPrep.Proofs.PoolHistory
import EvmPrep.Proofs.QuickenExact
import EvmPrep.Proofs.Restored
set_option autoImplicit false

/-!
# Bytes behind a program

Bytes are put behind a program whose last instruction is whole, so that a scan stops at
its end (`scanEnd_eq_length_iff`).  Then the longer program begins with the instructions
of the shorter one, each with the room it had, and has the shorter one's destinations
(`AnalyzedCode.Continues`).  Quickening offers the pool the same words first, which keep
their places, and the only answers that can differ are those about jumps: what was no
destination can be one now, if it is behind the shorter program
(`outcomeIn_cases_of_continues`).  So nothing that was replaced comes back.
-/

namespace EvmPrep

/-! ## Where a scan ends -/

/-- Where a scan of the code ends: it goes over every instruction with as many immediate bytes as the
byte asks for, also if there are fewer. -/
def scanEnd (code : List UInt8) : Nat :=
  (cut sourceWidth 0 code).foldr (fun i behind => 1 + pushWidth i.byte + behind) 0

theorem scanEnd_cons (b : UInt8) (rest : List UInt8) :
    scanEnd (b :: rest) = 1 + pushWidth b + scanEnd (rest.drop (pushWidth b)) := by
  have hmoved := cut_add sourceWidth 0 (1 + pushWidth b) (rest.drop (pushWidth b))
  rw [← Nat.add_assoc] at hmoved
  rw [scanEnd, cut_cons, List.foldr_cons]
  simp only [sourceWidth] at hmoved ⊢
  rw [hmoved, List.foldr_map]
  rfl

/-- The scan ends with the code if no push is cut off there. -/
theorem scanEnd_eq_length_iff {code : List UInt8} (offset : Nat) :
    scanEnd code = code.length
      ↔ ∀ i ∈ cut sourceWidth offset code, i.immediate.length = pushWidth i.byte := by
  induction code using cutInduction sourceWidth generalizing offset with
  | nil => simp [scanEnd]
  | cons b rest ih =>
    replace ih := ih (offset + 1 + pushWidth b)
    rw [scanEnd_cons, cut_cons, List.forall_mem_cons, List.length_take, List.length_cons]
    simp only [sourceWidth, List.length_drop] at ih ⊢
    rcases Nat.le_total (pushWidth b) rest.length with h | h
    · rw [← ih, Nat.min_eq_left h]
      omega
    · rw [List.drop_eq_nil_of_le h, Nat.min_eq_right h]
      have hnil : scanEnd [] = 0 := rfl
      rw [hnil, cut_nil]
      simp only [List.not_mem_nil, false_implies, implies_true, and_true]
      omega

/-! ## Analyzed code that goes on -/

/-- The longer code begins with the shorter one. -/
structure AnalyzedCode.Continues (long short : AnalyzedCode) : Prop where
  /-- the instructions of the shorter code come first -/
  instructions : ∃ more, long.instructions = short.instructions ++ more
  /-- a pooled push has as much room as it had -/
  isEligible_iff : ∀ i ∈ short.instructions, i.IsEligible long.len ↔ i.IsEligible short.len
  /-- the shorter code has the destinations that are inside it -/
  mem_dests_iff : ∀ d, d ∈ short.jumpTable.dests ↔ d ∈ long.jumpTable.dests ∧ d < short.len

section Analysis

variable {program : List UInt8}
  (whole : ∀ i ∈ cut sourceWidth 0 program, i.immediate.length = pushWidth i.byte)
include whole

/-- A program whose last instruction is whole is cut as before when bytes are put behind it. -/
theorem cut_append (more : List UInt8) :
    cut sourceWidth 0 (program ++ more)
      = cut sourceWidth 0 program ++ cut sourceWidth program.length more := by
  have hfills : ∀ i ∈ cut sourceWidth 0 program, i.Fills sourceWidth := fun i hi _ =>
    (whole i hi).symm
  have h := cut_flatMap_bytes_append (chained_cut sourceWidth 0 program) hfills more
  rwa [flatMap_bytes_cut, Nat.zero_add] at h

theorem instructions_analyze_append (more : List UInt8) :
    (RawCode.ofProgram (program ++ more)).analyze.instructions
      = (cut sourceWidth 0 program).map Instruction.disarmed
        ++ ((cut sourceWidth program.length
            (more ++ List.replicate CodeBuffer.paddingSize 0)).map Instruction.disarmed).filter
          fun i => i.offset < (program ++ more).length := by
  have hbytes : (CodeBuffer.ofProgram (program ++ more)).bytes
      = program ++ (more ++ List.replicate CodeBuffer.paddingSize 0) := List.append_assoc ..
  have hlen : (RawCode.ofProgram (program ++ more)).analyze.len = (program ++ more).length := rfl
  rw [CodeBuffer.instructions_eq_filter, layout_analyze_eq_map, hbytes, cut_append whole,
    List.map_append, List.filter_append, hlen, List.filter_eq_self.mpr]
  intro i hi
  obtain ⟨j, hj, rfl⟩ := List.mem_map.mp hi
  have hinside := (of_mem_cut hj).1.lt_length
  rw [offset_disarmed, decide_eq_true_eq, List.length_append]
  omega

theorem instructions_analyze_eq :
    (RawCode.ofProgram program).analyze.instructions
      = (cut sourceWidth 0 program).map Instruction.disarmed := by
  have h := instructions_analyze_append whole []
  rwa [List.append_nil, List.filter_eq_nil_iff.mpr, List.append_nil] at h
  intro i hi
  obtain ⟨j, hj, rfl⟩ := List.mem_map.mp hi
  have hbehind := le_offset_of_mem_cut hj
  rw [offset_disarmed, decide_eq_true_eq]
  omega

theorem continues_analyze (more : List UInt8) :
    (RawCode.ofProgram (program ++ more)).analyze.Continues
      (RawCode.ofProgram program).analyze where
  instructions := by
    rw [instructions_analyze_append whole, instructions_analyze_eq whole]
    exact ⟨_, rfl⟩
  isEligible_iff := fun i hi => by
    have hlen : (RawCode.ofProgram program).analyze.len = program.length := rfl
    have hlong : (RawCode.ofProgram (program ++ more)).analyze.len
        = program.length + more.length := List.length_append
    rw [hlen, hlong]
    refine and_congr_right fun hwide => ?_
    -- a wide push that is whole has its first bytes inside the program
    rw [instructions_analyze_eq whole] at hi
    obtain ⟨j, hj, rfl⟩ := List.mem_map.mp hi
    have hroom := whole j hj
    rw [length_immediate_of_mem_cut hj] at hroom
    rw [pushNumber_eq, pushWidth_byte_disarmed] at hwide
    rw [offset_disarmed]
    simp only [sourceWidth] at hroom
    omega
  mem_dests_iff := fun d => by
    rw [mem_dests_analyze_iff_isDestination, mem_dests_analyze_iff_isDestination]
    exact isDestination_append_iff.symm

end Analysis

/-! ## Quickened code that goes on -/

theorem countP_le_countP_of_getElem? {α : Type} {test : α → Bool} {xs ys : List α}
    (h : ∀ (k : Nat) (x : α), xs[k]? = some x →
      ∃ y, ys[k]? = some y ∧ (test x = true → test y = true)) :
    xs.countP test ≤ ys.countP test := by
  induction xs generalizing ys with
  | nil => exact Nat.zero_le _
  | cons x rest ih =>
    obtain ⟨y, hy, hkept⟩ := h 0 x rfl
    cases ys with
    | nil => cases hy
    | cons y' more =>
      obtain rfl : y' = y := Option.some.inj hy
      have hrest : rest.countP test ≤ more.countP test := ih fun k z hz => h (k + 1) z hz
      rw [List.countP_cons, List.countP_cons]
      by_cases hx : test x = true
      · rw [if_pos hx, if_pos (hkept hx)]
        omega
      · rw [if_neg hx]
        omega

/-- The jump behind the `k`-th instruction is left dynamic in the shorter program and unchecked in
the longer one, since what `push` pushes is a destination behind the shorter one. -/
structure ResolvedLater (short long : PreparedCode) (k : Nat) (push jump : Instruction) :
    Prop where
  listed : short.instructions[k + 1]? = some jump
  outcome : short.outcomes[k + 1]? = some .leftDynamic
  resolved : (jump.opcode? = some .jump
      ∧ long.instructions[k + 1]? = some { jump with byte := Opcode.jumpv.toByte })
    ∨ (jump.opcode? = some .jumpi
      ∧ long.instructions[k + 1]? = some { jump with byte := Opcode.jumpvi.toByte })
  behind : ∃ w, push.pushValue? = some w ∧ w.toNat ∈ long.jumpTable.dests ∧ short.len ≤ w.toNat

section Continued

variable {short long : AnalyzedCode} (continued : long.Continues short) (config : QuickenConfig)
include continued

theorem getElem?_instructions_of_continues {k : Nat} {i : Instruction}
    (here : short.instructions[k]? = some i) :
    long.instructions[k]? = some i
      ∧ pushedBefore long.instructions k = pushedBefore short.instructions k := by
  obtain ⟨more, hlisted⟩ := continued.instructions
  have hk := (List.getElem?_eq_some_iff.mp here).1
  rw [hlisted, List.getElem?_append_left hk, pushedBefore_append (Nat.le_of_lt hk)]
  exact ⟨here, rfl⟩

theorem isPoolable_eq_of_continues {i : Instruction} (hi : i ∈ short.instructions) :
    (long.quickenContext config).isPoolable i = (short.quickenContext config).isPoolable i := by
  rw [Bool.eq_iff_iff, isPoolable_iff, isPoolable_iff]
  exact continued.isEligible_iff i hi

theorem exists_offered_eq_append :
    ∃ more, (long.quickenContext config).offered long.instructions
      = (short.quickenContext config).offered short.instructions ++ more := by
  obtain ⟨more, hlisted⟩ := continued.instructions
  refine ⟨(long.quickenContext config).offered more, ?_⟩
  have hsame : (long.quickenContext config).offered short.instructions
      = (short.quickenContext config).offered short.instructions := by
    unfold QuickenContext.offered
    rw [List.filter_congr fun i hi => isPoolable_eq_of_continues continued config hi]
    rfl
  rw [hlisted, QuickenContext.offered_append, hsame]

theorem entries_pool_isPrefix_of_continues :
    (short.quicken config).pool.entries <+: (long.quicken config).pool.entries := by
  obtain ⟨more, hoffered⟩ := exists_offered_eq_append continued config
  rw [pool_quicken_eq, pool_quicken_eq, hoffered]
  exact ConstantPool.entries_ofWords_isPrefix_append _ _

/-- What was offered for the shorter code has the same index, or is refused as well. -/
theorem index?_pool_eq_of_continues {w : Word}
    (hw : w ∈ (short.quickenContext config).offered short.instructions) :
    (long.quicken config).pool.index? w = (short.quicken config).pool.index? w := by
  refine ConstantPool.index?_of_isPrefix (entries_pool_isPrefix_of_continues continued config) ?_
  by_cases hmem : w ∈ (short.quicken config).pool.entries
  · exact .inl hmem
  · right
    rw [pool_quicken_eq] at hmem ⊢
    exact Nat.le_of_eq (ConstantPool.length_entries_internAll_of_not_mem hw hmem).symm

theorem isValid_cases_of_continues (w : Word) :
    long.jumpTable.isValid w = short.jumpTable.isValid w
      ∨ (short.jumpTable.isValid w = false ∧ long.jumpTable.isValid w = true
        ∧ w.toNat ∈ long.jumpTable.dests ∧ short.len ≤ w.toNat) := by
  rcases Nat.lt_or_ge w.toNat short.len with hin | hbehind
  · left
    rw [Bool.eq_iff_iff, JumpTable.isValid_iff, JumpTable.isValid_iff, continued.mem_dests_iff,
      and_iff_left hin]
  · have hshort : short.jumpTable.isValid w = false := by
      refine Bool.eq_false_iff.mpr fun hvalid => ?_
      have hinside := ((continued.mem_dests_iff _).mp (JumpTable.isValid_iff.mp hvalid).2).2
      omega
    cases hlong : long.jumpTable.isValid w with
    | false => exact .inl hshort.symm
    | true => exact .inr ⟨hshort, rfl, (JumpTable.isValid_iff.mp hlong).2, hbehind⟩

theorem jumpOutcome_cases_of_continues (pushed : Option Word) (i : Instruction) :
    (long.quickenContext config).jumpOutcome pushed i
        = (short.quickenContext config).jumpOutcome pushed i
      ∨ ((short.quickenContext config).jumpOutcome pushed i = .leftDynamic
        ∧ (long.quickenContext config).jumpOutcome pushed i = .resolved
        ∧ ∃ w, pushed = some w ∧ w.toNat ∈ long.jumpTable.dests ∧ short.len ≤ w.toNat) := by
  cases pushed with
  | none => exact .inl rfl
  | some w =>
    rcases isValid_cases_of_continues continued w with hsame | ⟨hshort, hlong, hmem, hbehind⟩
    · left
      have hconfig : (long.quickenContext config).config = (short.quickenContext config).config :=
        rfl
      refine QuickenContext.jumpOutcome_congr hconfig (fun v hv => ?_) i
      cases hv
      exact hsame
    · by_cases hon : config.resolveJumps = true
      · cases hj : i.resolved? with
        | none =>
          left
          rw [QuickenContext.jumpOutcome_of_resolved?_eq_none _ _ hj,
            QuickenContext.jumpOutcome_of_resolved?_eq_none _ _ hj]
        | some j =>
          have hjump : i.resolved?.isSome = true := by rw [hj]; rfl
          right
          exact ⟨(QuickenContext.jumpOutcome_eq_leftDynamic_iff _).mpr ⟨hon, hjump, w, rfl, hshort⟩,
            (QuickenContext.jumpOutcome_eq_resolved_iff _).mpr ⟨hon, hjump, w, rfl, hlong⟩,
            w, rfl, hmem, hbehind⟩
      · left
        rw [QuickenContext.jumpOutcome_of_not_resolveJumps _ _ hon,
          QuickenContext.jumpOutcome_of_not_resolveJumps _ _ hon]

/-- What can differ about an instruction of the shorter code: a jump that was left dynamic can be
unchecked. -/
theorem outcomeIn_cases_of_continues {i : Instruction} (hi : i ∈ short.instructions)
    (pushed : Option Word) :
    let outcome := (short.quickenContext config).outcomeIn (short.quicken config).pool pushed i
    let outcome' := (long.quickenContext config).outcomeIn (long.quicken config).pool pushed i
    outcome' = outcome
      ∨ (outcome = .leftDynamic ∧ outcome' = .resolved
        ∧ ∃ w, pushed = some w ∧ w.toNat ∈ long.jumpTable.dests ∧ short.len ≤ w.toNat) := by
  intro outcome outcome'
  cases hw : i.pushValue? with
  | none =>
    have hshort : outcome = (short.quickenContext config).jumpOutcome pushed i :=
      QuickenContext.outcomeIn_of_pushValue?_eq_none hw
    have hlong : outcome' = (long.quickenContext config).jumpOutcome pushed i :=
      QuickenContext.outcomeIn_of_pushValue?_eq_none hw
    rw [hshort, hlong]
    exact jumpOutcome_cases_of_continues continued config pushed i
  | some w =>
    left
    show QuickenContext.outcomeIn _ _ _ _ = QuickenContext.outcomeIn _ _ _ _
    rw [QuickenContext.outcomeIn_of_pushValue? hw, QuickenContext.outcomeIn_of_pushValue? hw,
      isPoolable_eq_of_continues continued config hi]
    show (if config.usePool && (short.quickenContext config).isPoolable i then _ else _)
      = if config.usePool && (short.quickenContext config).isPoolable i then _ else _
    split
    · rename_i htaken
      obtain ⟨hon, hpoolable⟩ := Bool.and_eq_true_iff.mp htaken
      rw [index?_pool_eq_of_continues continued config
        (QuickenContext.mem_offered_iff.mpr ⟨hon, i, hi, hpoolable, hw⟩)]
    · rfl

/-- The outcomes of the longer code begin with those of the shorter one, up to jumps that are now
resolved. -/
theorem getElem?_outcomes_of_continues {k : Nat} {o : Outcome}
    (h : (short.quicken config).outcomes[k]? = some o) :
    ∃ o', (long.quicken config).outcomes[k]? = some o'
      ∧ (o' = o ∨ o = .leftDynamic ∧ o' = .resolved) := by
  rw [getElem?_outcomes_quicken] at h
  obtain ⟨i, hi, rfl⟩ := Option.map_eq_some_iff.mp h
  obtain ⟨hi', hpushed⟩ := getElem?_instructions_of_continues continued hi
  rw [getElem?_outcomes_quicken, hi', Option.map_some, hpushed]
  refine ⟨_, rfl, ?_⟩
  rcases outcomeIn_cases_of_continues continued config (List.mem_of_getElem? hi)
    (pushedBefore short.instructions k) with hsame | ⟨hleft, hresolved, -⟩
  · exact .inl hsame
  · exact .inr ⟨hleft, hresolved⟩

theorem countP_outcomes_le_of_continues {test : Outcome → Bool} (left : test .leftDynamic = false) :
    (short.quicken config).outcomes.countP test ≤ (long.quicken config).outcomes.countP test := by
  refine countP_le_countP_of_getElem? fun k o ho => ?_
  obtain ⟨o', ho', hcases⟩ := getElem?_outcomes_of_continues continued config ho
  refine ⟨o', ho', fun htest => ?_⟩
  rcases hcases with rfl | ⟨rfl, -⟩
  · exact htest
  · rw [left] at htest
    cases htest

section Sound

variable (soundShort : short.Sound) (soundLong : long.Sound)
include soundShort soundLong

theorem resolvedLater_of_outcomeIn {k : Nat} {push i : Instruction} {w : Word}
    (hpush : short.instructions[k]? = some push) (here : short.instructions[k + 1]? = some i)
    (hw : push.pushValue? = some w) (destination : w.toNat ∈ long.jumpTable.dests)
    (behind : short.len ≤ w.toNat)
    (left : (short.quickenContext config).outcomeIn (short.quicken config).pool (some w) i
      = .leftDynamic)
    (resolved : (long.quickenContext config).outcomeIn (long.quicken config).pool (some w) i
      = .resolved) :
    ResolvedLater (short.quicken config) (long.quicken config) k push i := by
  obtain ⟨here', hsame⟩ := getElem?_instructions_of_continues continued here
  have hpushed : pushedBefore short.instructions (k + 1) = some w := by
    rw [pushedBefore, hpush]
    exact hw
  obtain ⟨-, -, hj, -⟩ := QuickenContext.outcomeIn_eq_resolved_iff.mp resolved
  obtain ⟨j, hj⟩ := Option.isSome_iff_exists.mp hj
  have hlong : (long.quicken config).instructions[k + 1]? = some j := by
    rw [getElem?_instructions_quicken soundLong, here', Option.map_some, hsame, hpushed,
      QuickenContext.replacement, resolved, Instruction.after, hj]
    rfl
  refine ⟨?_, ?_, ?_, w, hw, destination, behind⟩
  · rw [getElem?_instructions_quicken soundShort, here, Option.map_some, hpushed,
      QuickenContext.replacement, left]
    rfl
  · rw [getElem?_outcomes_quicken, here, Option.map_some, hpushed, left]
  · rcases resolved?_eq_some_iff.mp hj with ⟨hop, rfl⟩ | ⟨hop, rfl⟩
    · exact .inl ⟨hop, hlong⟩
    · exact .inr ⟨hop, hlong⟩

theorem getElem?_bytes_quicken_of_continues {k : Nat} {i : Instruction}
    (here : short.instructions[k]? = some i) {n : Nat} (inside : n < i.size) :
    (long.quicken config).bytes[i.offset + n]? = (short.quicken config).bytes[i.offset + n]?
      ∨ (n = 0 ∧ ∃ before push, k = before + 1 ∧ short.instructions[before]? = some push
        ∧ ResolvedLater (short.quicken config) (long.quicken config) before push i) := by
  obtain ⟨here', hpushed⟩ := getElem?_instructions_of_continues continued here
  have hshort := getElem?_bytes_quicken_of_instructions soundShort config here inside
  have hlong := getElem?_bytes_quicken_of_instructions soundLong config here' inside
  rw [hpushed] at hlong
  rcases outcomeIn_cases_of_continues continued config (List.mem_of_getElem? here)
    (pushedBefore short.instructions k) with hsame | ⟨hleft, hresolved, w, hw, hmem, hbehind⟩
  · left
    rw [hlong, hshort, QuickenContext.replacement, QuickenContext.replacement, hsame]
  · right
    -- a jump is its byte alone
    obtain ⟨-, -, hj, -⟩ := QuickenContext.outcomeIn_eq_resolved_iff.mp hresolved
    obtain ⟨j, hj⟩ := Option.isSome_iff_exists.mp hj
    have hnarrow : i.size = 1 := by
      rw [Instruction.size, soundShort.whole i
        (mem_layout_of_mem_instructions (List.mem_of_getElem? here)), (plain_of_resolved? hj).1]
    rw [hw] at hleft hresolved
    cases k with
    | zero => cases hw
    | succ before =>
      obtain ⟨push, hpush, hw⟩ := Option.bind_eq_some_iff.mp hw
      exact ⟨by omega, before, push, rfl, hpush, resolvedLater_of_outcomeIn continued config
        soundShort soundLong hpush here hw hmem hbehind hleft hresolved⟩

end Sound

end Continued

/-! ## Programs -/

theorem CodeBuffer.exists_getElem?_instructions_of_lt {b : CodeBuffer}
    (fits : b.len ≤ b.bytes.length) {p : Nat} (lt : p < b.len) :
    ∃ (k : Nat) (i : Instruction),
      b.instructions[k]? = some i ∧ i.offset ≤ p ∧ p < i.offset + i.size := by
  have hcovers := CodeBuffer.len_le_listingEnd fits
  rw [CodeBuffer.listingEnd_eq] at hcovers
  exact b.chained_instructions.exists_getElem?_of_lt (Nat.zero_le p) (by omega)

/-- Bytes behind a program in full.  If a scan of the program stops at its end, then whatever is put
behind it, the destinations inside the program are those that it has, its constants come first in
the pool, and no replacement and no refusal of the pool is made less often.  Every byte of the
program is prepared in the same way, but for jumps that were left dynamic: such a jump can be
unchecked now, if what is pushed before it is a destination behind the program. -/
theorem prepareWith_append (config : QuickenConfig) (program more : List UInt8)
    (whole : scanEnd program = program.length) :
    let short := prepareWith config program
    let long := prepareWith config (program ++ more)
    short.jumpTable.dests.toList
        = long.jumpTable.dests.toList.filter (fun d => d < program.length)
      ∧ short.pool.entries <+: long.pool.entries
      ∧ (short.stats.pushesPooled ≤ long.stats.pushesPooled
        ∧ short.stats.poolExhausted ≤ long.stats.poolExhausted
        ∧ short.stats.jumpsResolved ≤ long.stats.jumpsResolved)
      ∧ ∀ p, p < program.length → long.program[p]? = short.program[p]?
        ∨ ∃ k push jump, (RawCode.ofProgram program).analyze.instructions[k]? = some push
          ∧ jump.offset = p ∧ ResolvedLater short long k push jump := by
  intro short long
  have continued := continues_analyze ((scanEnd_eq_length_iff 0).mp whole) more
  refine ⟨?_, entries_pool_isPrefix_of_continues continued config,
    ⟨countP_outcomes_le_of_continues continued config rfl,
      countP_outcomes_le_of_continues continued config rfl,
      countP_outcomes_le_of_continues continued config rfl⟩, fun p hp => ?_⟩
  · apply List.Pairwise.eq_of_mem_iff (r := (· < ·))
    · exact short.jumpTable.increasing
    · exact long.jumpTable.increasing.filter _
    · intro d
      rw [List.mem_filter, Array.mem_toList_iff, Array.mem_toList_iff, decide_eq_true_eq]
      exact continued.mem_dests_iff d
  · obtain ⟨k, i, here, hle, hlt⟩ :=
      CodeBuffer.exists_getElem?_instructions_of_lt (len_le_length_bytes_analyze program) hp
    obtain ⟨n, rfl⟩ := Nat.exists_eq_add_of_le hle
    have hn : n < i.size := by omega
    have hshort : short.program[i.offset + n]? = short.bytes[i.offset + n]? :=
      List.getElem?_take_of_lt hp
    have hlong : long.program[i.offset + n]? = long.bytes[i.offset + n]? := by
      refine List.getElem?_take_of_lt ?_
      show _ < (program ++ more).length
      rw [List.length_append]
      omega
    rw [hshort, hlong]
    rcases getElem?_bytes_quicken_of_continues continued config (sound_analyze program)
      (sound_analyze (program ++ more)) here hn with
      hsame | ⟨rfl, before, push, -, hpush, hlater⟩
    · exact .inl hsame
    · exact .inr ⟨before, push, i, hpush, rfl, hlater⟩

/-- A push of three and a jump, with a destination put behind them. -/
theorem prepareWith_append_jumpdest :
    scanEnd [0x60, 0x03, 0x56] = 3
      ∧ ∃ k push jump,
        (RawCode.ofProgram [0x60, 0x03, 0x56]).analyze.instructions[k]? = some push
          ∧ jump.offset = 2
          ∧ ResolvedLater (prepareWith {} [0x60, 0x03, 0x56])
            (prepareWith {} ([0x60, 0x03, 0x56] ++ [0x5b])) k push jump := by
  have hend : scanEnd [0x60, 0x03, 0x56] = 3 := by decide
  refine ⟨hend, ?_⟩
  have hbytes := (prepareWith_append {} [0x60, 0x03, 0x56] [0x5b] hend).2.2.2 2 (by decide)
  exact hbytes.resolve_left (by decide +kernel)

end EvmPrep
