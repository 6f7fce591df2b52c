import EvmPrep.Proofs.Padding
set_option autoImplicit false

/-!
# Analysis sees traps, not what they replace

Which synthetic byte stands where an instruction starts makes no difference: none of
them has an immediate, so instructions start at the same offsets, none of them is a
destination, and all of them become the trap.  Two programs that differ in nothing else
(`EqUpToTraps`) are one program to the analysis (`EqUpToTraps.analyze_eq`).

An analyzed program differs from the program in its traps alone, and the trap is a
synthetic byte itself.  Hence analysis is idempotent, and preparation depends on a
program only through what analysis leaves of it.
-/

namespace EvmPrep

/-- The byte strings differ at most in which synthetic byte stands where an instruction starts. -/
structure EqUpToTraps (code code' : List UInt8) : Prop where
  length_eq : code'.length = code.length
  agree : ∀ s, code'[s]? = code[s]? ∨ IsTrapped code s ∧ code'[s]?.any isSynthetic = true

theorem eqUpToTraps_iff {code code' : List UInt8} :
    EqUpToTraps code code' ↔ code'.length = code.length
      ∧ ∀ s < code.length, code'[s]? = code[s]?
        ∨ IsTrapped code s ∧ code'[s]?.any isSynthetic = true := by
  constructor
  · intro h
    exact ⟨h.length_eq, fun s _ => h.agree s⟩
  · intro h
    refine ⟨h.1, fun s => ?_⟩
    rcases Nat.lt_or_ge s code.length with hs | hs
    · exact h.2 s hs
    · left
      rw [List.getElem?_eq_none hs, List.getElem?_eq_none (by rw [h.1]; exact hs)]

instance (code code' : List UInt8) : Decidable (EqUpToTraps code code') :=
  decidable_of_iff _ eqUpToTraps_iff.symm

/-! ## Starts -/

/-- Where instructions start is told by the widths of the bytes that stand at the starts. -/
theorem isStart_congr {code code' : List UInt8} (length_eq : code'.length = code.length)
    (widths : ∀ s, IsStart sourceWidth code s → code'[s]?.map pushWidth = code[s]?.map pushWidth)
    {s : Nat} : IsStart sourceWidth code' s ↔ IsStart sourceWidth code s := by
  constructor
  · intro h
    induction h with
    | first inside =>
      rw [length_eq] at inside
      exact .first inside
    | @next s b _ here inside ih =>
      have hwidth := widths s ih
      rw [here, Option.map_some, eq_comm, Option.map_eq_some_iff] at hwidth
      obtain ⟨c, hc, hsame⟩ := hwidth
      have hnext : s + 1 + pushWidth b < code.length := by rwa [← length_eq]
      show IsStart sourceWidth code (s + 1 + pushWidth b)
      rw [← hsame] at hnext ⊢
      exact .next ih hc hnext
  · intro h
    induction h with
    | first inside =>
      rw [← length_eq] at inside
      exact .first inside
    | @next s b start here inside ih =>
      have hwidth := widths s start
      rw [here, Option.map_some, Option.map_eq_some_iff] at hwidth
      obtain ⟨c, hc, hsame⟩ := hwidth
      have hnext : s + 1 + pushWidth b < code'.length := by rwa [length_eq]
      show IsStart sourceWidth code' (s + 1 + pushWidth b)
      rw [← hsame] at hnext ⊢
      exact .next ih hc hnext

/-! ## Analysis -/

theorem JumpTable.eq_of_toList_dests_eq {t u : JumpTable} (dests : t.dests.toList = u.dests.toList)
    (trapped : t.trapped = u.trapped) : t = u := by
  cases t
  cases u
  cases Array.toList_inj.mp dests
  cases trapped
  rfl

namespace EqUpToTraps

variable {code code' program program' : List UInt8} {s : Nat}

theorem isStart_iff (h : EqUpToTraps code code') :
    IsStart sourceWidth code' s ↔ IsStart sourceWidth code s := by
  refine isStart_congr h.length_eq fun s _ => ?_
  rcases h.agree s with hsame | ⟨hold, hnew⟩
  · rw [hsame]
  · obtain ⟨b, hb, hsynthetic⟩ := (Option.any_eq_true _ _).mp (EvmPrep.isTrapped_iff.mp hold).2
    obtain ⟨c, hc, hsynthetic'⟩ := (Option.any_eq_true _ _).mp hnew
    rw [hb, hc, Option.map_some, Option.map_some, pushWidth_of_isSynthetic hsynthetic,
      pushWidth_of_isSynthetic hsynthetic']

theorem isTrapped_iff (h : EqUpToTraps code code') : IsTrapped code' s ↔ IsTrapped code s := by
  rw [EvmPrep.isTrapped_iff, EvmPrep.isTrapped_iff, h.isStart_iff]
  rcases h.agree s with hsame | ⟨hold, hnew⟩
  · rw [hsame]
  · rw [(EvmPrep.isTrapped_iff.mp hold).2, hnew]

theorem isDestination_iff (h : EqUpToTraps code code') :
    IsDestination code' s ↔ IsDestination code s := by
  have hnone : ∀ b? : Option UInt8, b?.any isSynthetic = true →
      b? ≠ some Opcode.jumpdest.toByte := by
    rintro b? hany rfl
    exact absurd hany (by decide)
  rw [EvmPrep.isDestination_iff, EvmPrep.isDestination_iff, h.isStart_iff]
  rcases h.agree s with hsame | ⟨hold, hnew⟩
  · rw [hsame]
  · have hold := (EvmPrep.isTrapped_iff.mp hold).2
    exact and_congr_right fun _ => iff_of_false (hnone _ hnew) (hnone _ hold)

theorem disarm_eq (h : EqUpToTraps code code') : disarm code' = disarm code := by
  apply List.ext_getElem?
  intro s
  rw [getElem?_disarm, getElem?_disarm]
  by_cases htrapped : IsTrapped code s
  · rw [if_pos htrapped, if_pos (h.isTrapped_iff.mpr htrapped)]
  · rw [if_neg htrapped, if_neg (mt h.isTrapped_iff.mp htrapped)]
    rcases h.agree s with hsame | ⟨hold, -⟩
    · exact hsame
    · exact absurd hold htrapped

theorem ofCode_eq (h : EqUpToTraps code code') :
    JumpTable.ofCode code' = JumpTable.ofCode code := by
  apply JumpTable.eq_of_toList_dests_eq
  · rw [toList_dests_ofCode, toList_dests_ofCode, h.length_eq]
    exact List.filter_congr fun s _ => decide_eq_decide.mpr h.isDestination_iff
  · rw [trapped_ofCode, trapped_ofCode, h.length_eq]
    refine List.countP_congr fun s _ => ?_
    rw [decide_eq_true_iff, decide_eq_true_iff]
    exact h.isTrapped_iff

theorem append (h : EqUpToTraps program program') (more : List UInt8) :
    EqUpToTraps (program ++ more) (program' ++ more) := by
  refine ⟨by rw [List.length_append, List.length_append, h.length_eq], fun s => ?_⟩
  rcases Nat.lt_or_ge s program.length with hs | hs
  · rw [List.getElem?_append_left hs, List.getElem?_append_left (by rw [h.length_eq]; exact hs),
      isTrapped_append_iff hs]
    exact h.agree s
  · left
    rw [List.getElem?_append_right hs, List.getElem?_append_right (by rw [h.length_eq]; exact hs),
      h.length_eq]

/-- Programs that differ in their traps alone are one program to the analysis. -/
theorem analyze_eq (h : EqUpToTraps program program') :
    (RawCode.ofProgram program').analyze = (RawCode.ofProgram program).analyze := by
  have hpadded := h.append (List.replicate CodeBuffer.paddingSize 0)
  unfold RawCode.analyze RawCode.ofProgram CodeBuffer.ofProgram
  simp only [hpadded.disarm_eq, hpadded.ofCode_eq, h.length_eq]

theorem prepareWith_eq (h : EqUpToTraps program program') (config : QuickenConfig) :
    prepareWith config program' = prepareWith config program := by
  rw [prepareWith, prepareWith, h.analyze_eq]

end EqUpToTraps

/-- An analyzed program differs from the program in its traps alone. -/
theorem eqUpToTraps_program_analyze (program : List UInt8) :
    EqUpToTraps program (RawCode.ofProgram program).analyze.program := by
  have hprogram : (RawCode.ofProgram program).analyze.program
      = (disarm (program ++ List.replicate CodeBuffer.paddingSize 0)).take program.length := rfl
  refine eqUpToTraps_iff.mpr ⟨?_, fun s hs => ?_⟩
  · rw [CodeBuffer.length_program (padding_analyze program)]
    rfl
  · rw [hprogram, List.getElem?_take_of_lt hs, getElem?_disarm]
    by_cases htrapped : IsTrapped program s
    · right
      rw [if_pos ((isTrapped_append_iff hs).mpr htrapped)]
      exact ⟨htrapped, by decide⟩
    · left
      rw [if_neg (mt (isTrapped_append_iff hs).mp htrapped), List.getElem?_append_left hs]

/-- Preparation factors through analysis.  To analyze an analyzed program again changes no byte
of it and makes the same table, and preparing it gives the same code, table, constants and
outcomes as preparing the program.  So programs that differ only in the synthetic bytes at
their starts are prepared to the same code. -/
theorem prepareWith_program_analyze (program : List UInt8) (config : QuickenConfig) :
    let analyzed := (RawCode.ofProgram program).analyze
    let again := (RawCode.ofProgram analyzed.program).analyze
    again.bytes = (RawCode.ofProgram analyzed.program).bytes
      ∧ again.jumpTable = analyzed.jumpTable
      ∧ prepareWith config analyzed.program = prepareWith config program
      ∧ (prepareWith config analyzed.program).stats = (prepareWith config program).stats
      ∧ ∀ program', EqUpToTraps program program' →
        prepareWith config program' = prepareWith config program := by
  intro analyzed again
  have hsame := eqUpToTraps_program_analyze program
  have hagain : again = analyzed := hsame.analyze_eq
  have hprepared := hsame.prepareWith_eq config
  refine ⟨?_, by rw [hagain], hprepared, by rw [hprepared], fun _ h => h.prepareWith_eq config⟩
  rw [hagain, CodeBuffer.bytes_eq_program_append (padding_analyze program)]
  rfl

/-- Pooled push and trap at the same start, in front of a push and a jump. -/
theorem prepareWith_program_analyze_pushc :
    EqUpToTraps [0xac, 0x61, 0xac, 0x05, 0x56] [0xaf, 0x61, 0xac, 0x05, 0x56]
      ∧ prepareWith {} [0xaf, 0x61, 0xac, 0x05, 0x56]
        = prepareWith {} [0xac, 0x61, 0xac, 0x05, 0x56] :=
  have h : EqUpToTraps [0xac, 0x61, 0xac, 0x05, 0x56] [0xaf, 0x61, 0xac, 0x05, 0x56] := by decide
  ⟨h, (prepareWith_program_analyze _ {}).2.2.2.2 _ h⟩

end EvmPrep
