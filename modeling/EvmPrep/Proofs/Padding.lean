import EvmPrep.Proofs.Decoding
import EvmPrep.Proofs.Destinations
set_option autoImplicit false

/-!
# Bytes and the instructions that have them

Every byte of a buffer belongs to one of the instructions that the buffer is cut into
(`exists_mem_cut_of_lt`) and is read off that instruction (`getElem?_of_mem_cut`).  So
what a pass does to a single byte can be told from what it does to one instruction.

Here this is done for the padding.  Disarming finds nothing to disarm in it, and of a
push that reaches into it quickening replaces the bytes inside the program alone: it is
made of zeros before and after either pass, and a buffer is its program followed by 33
zeros (`bytes_eq_program_append`).
-/

namespace EvmPrep

/-! ## Bytes by instruction -/

section Cut

variable {rule : WidthRule} {code : List UInt8}

theorem getElem?_of_mem_cut {i : Instruction} (h : i ∈ cut rule 0 code) {k : Nat}
    (inside : k < i.size) : code[i.offset + k]? = i.bytes[k]? := by
  obtain ⟨-, hbyte, himmediate⟩ := of_mem_cut h
  cases k with
  | zero => exact hbyte
  | succ k =>
    have hk : k < i.immediate.length := Nat.lt_of_succ_lt_succ inside
    have htaken : k < rule i.byte (code.drop (i.offset + 1)) := by
      rw [himmediate, List.length_take] at hk
      omega
    rw [Instruction.bytes, List.getElem?_cons_succ, himmediate, List.getElem?_take_of_lt htaken,
      List.getElem?_drop, Nat.add_right_comm, Nat.add_assoc]

/-- Among instructions laid out one behind the other every offset is inside one. -/
theorem Chained.exists_getElem?_of_lt {offset p : Nat} {is : List Instruction}
    (h : Chained offset is) (le : offset ≤ p)
    (lt : p < offset + (is.flatMap Instruction.bytes).length) :
    ∃ (k : Nat) (i : Instruction), is[k]? = some i ∧ i.offset ≤ p ∧ p < i.offset + i.size := by
  induction is generalizing offset with
  | nil =>
    rw [List.flatMap_nil, List.length_nil] at lt
    omega
  | cons first rest ih =>
    obtain ⟨hfirst, hrest⟩ := h
    rw [List.flatMap_cons, List.length_append, Instruction.length_bytes] at lt
    rcases Nat.lt_or_ge p (offset + first.size) with hp | hp
    · exact ⟨0, first, rfl, by omega, by omega⟩
    · obtain ⟨k, i, hk, hi⟩ := ih hrest hp (by omega)
      exact ⟨k + 1, i, hk, hi⟩

theorem exists_mem_cut_of_lt (rule : WidthRule) {p : Nat} (h : p < code.length) :
    ∃ (k : Nat) (i : Instruction),
      (cut rule 0 code)[k]? = some i ∧ i.offset ≤ p ∧ p < i.offset + i.size := by
  refine (chained_cut rule 0 code).exists_getElem?_of_lt (Nat.zero_le p) ?_
  rwa [flatMap_bytes_cut, Nat.zero_add]

end Cut

/-! ## The padding of a program -/

theorem CodeBuffer.program_append_padding (b : CodeBuffer) : b.program ++ b.padding = b.bytes :=
  List.take_append_drop b.len b.bytes

theorem CodeBuffer.padding_eq_of_getElem? {b c : CodeBuffer} (len : c.len = b.len)
    (same : ∀ p, b.len ≤ p → c.bytes[p]? = b.bytes[p]?) : c.padding = b.padding := by
  apply List.ext_getElem?
  intro p
  rw [CodeBuffer.padding, CodeBuffer.padding, List.getElem?_drop, List.getElem?_drop, len]
  exact same _ (Nat.le_add_right ..)

section Analysis

variable {program : List UInt8}

theorem getElem?_ofProgram_of_le {p : Nat} (behind : program.length ≤ p)
    (inside : p < program.length + 33) :
    (CodeBuffer.ofProgram program).bytes[p]? = some 0 := by
  rw [CodeBuffer.ofProgram, List.getElem?_append_right behind, List.getElem?_replicate_of_lt]
  show p - program.length < 33
  omega

theorem not_isTrapped_of_le {p : Nat} (behind : program.length ≤ p) :
    ¬ IsTrapped (CodeBuffer.ofProgram program).bytes p := by
  intro htrapped
  obtain ⟨hstart, hsynthetic⟩ := isTrapped_iff.mp htrapped
  have hlt : p < program.length + 33 := by
    have := hstart.lt_length
    rwa [← CodeBuffer.paddedLen_ofProgram]
  rw [getElem?_ofProgram_of_le behind hlt] at hsynthetic
  exact absurd hsynthetic (by decide)

theorem padding_analyze (program : List UInt8) :
    (RawCode.ofProgram program).analyze.padding = List.replicate 33 0 := by
  have hsame : (RawCode.ofProgram program).analyze.padding
      = (CodeBuffer.ofProgram program).padding := by
    refine CodeBuffer.padding_eq_of_getElem? rfl fun p hp => ?_
    show (disarm (CodeBuffer.ofProgram program).bytes)[p]? = _
    rw [getElem?_disarm, if_neg (not_isTrapped_of_le hp)]
  rw [hsame, CodeBuffer.padding_ofProgram]
  rfl

end Analysis

/-! ## The padding of quickened code -/

section Replacement

variable {ctx : QuickenContext} {final : ConstantPool} {pushed : Option Word} {i : Instruction}

/-- Replacing an instruction changes none of its bytes behind the program. -/
theorem getElem?_bytes_replacement {k : Nat} (behind : ctx.programLen ≤ i.offset + k)
    (padded : ctx.programLen ≤ i.offset → i.byte = 0) :
    (ctx.replacement final pushed i).bytes[k]? = i.bytes[k]? := by
  rcases replacement_cases ctx final pushed i with
    ⟨w, -, -, hi, -, h⟩ | ⟨j, w, -, hj, -, -, h⟩ | h
  · -- opcode byte, index and width are written inside the program
    have hroom : i.offset + 2 < ctx.programLen := by
      simp only [QuickenContext.isPoolable, Bool.and_eq_true, decide_eq_true_eq] at hi
      exact hi.2
    obtain ⟨k, rfl⟩ := Nat.exists_eq_add_of_le' (show 3 ≤ k by omega)
    rw [h]
    simp only [Instruction.bytes, Instruction.toPooled, List.getElem?_cons_succ,
      List.getElem?_drop]
    rw [Nat.add_comm]
  · obtain ⟨-, -, -, -, hsame⟩ := plain_of_resolved? hj
    cases k with
    | zero => rw [replacement_of_byte_eq_zero (padded behind)]
    | succ k =>
      rw [h, Instruction.bytes, Instruction.bytes, List.getElem?_cons_succ,
        List.getElem?_cons_succ, hsame]
  · rw [h]

end Replacement

section Sound

variable {code : AnalyzedCode} (sound : code.Sound) (config : QuickenConfig)
include sound

/-- A byte of the quickened buffer is read off the replacement of the instruction that had it. -/
theorem getElem?_bytes_quicken {k : Nat} {i : Instruction} (here : code.layout[k]? = some i)
    {n : Nat} (inside : n < i.size) :
    (code.quicken config).bytes[i.offset + n]?
      = ((code.quickenContext config).replacement (code.quicken config).pool
          (pushedBefore code.layout k) i).bytes[n]? := by
  have hwhole := sound.whole i (List.mem_of_getElem? here)
  have hnew := getElem?_layout_quicken sound config k
  rw [here, Option.map_some] at hnew
  have hplace : ((code.quickenContext config).replacement (code.quicken config).pool
      (pushedBefore code.layout k) i).place = i.place := place_replacement hwhole
  obtain ⟨hoffset, hsize⟩ := Prod.mk.inj hplace
  rw [← hsize] at inside
  have hread := getElem?_of_mem_cut (List.mem_of_getElem? hnew) inside
  rwa [hoffset] at hread

theorem getElem?_bytes_quicken_of_instructions {k : Nat} {i : Instruction}
    (here : code.instructions[k]? = some i) {n : Nat} (inside : n < i.size) :
    (code.quicken config).bytes[i.offset + n]?
      = ((code.quickenContext config).replacement (code.quicken config).pool
          (pushedBefore code.instructions k) i).bytes[n]? := by
  obtain ⟨hlayout, hpushed⟩ := getElem?_layout_of_instructions here
  rw [getElem?_bytes_quicken sound config hlayout inside, hpushed]

/-- Quickening leaves the padding as it is. -/
theorem padding_quicken : (code.quicken config).padding = code.padding := by
  refine CodeBuffer.padding_eq_of_getElem? rfl fun p hp => ?_
  rcases Nat.lt_or_ge p code.bytes.length with hlt | hge
  · obtain ⟨k, i, here, hle, hinside⟩ := exists_mem_cut_of_lt preparedWidth hlt
    obtain ⟨n, rfl⟩ := Nat.exists_eq_add_of_le hle
    have hn : n < i.size := by omega
    rw [getElem?_bytes_quicken sound config here hn,
      getElem?_of_mem_cut (List.mem_of_getElem? here) hn]
    exact getElem?_bytes_replacement hp (sound.padded i (List.mem_of_getElem? here))
  · rw [List.getElem?_eq_none hge,
      List.getElem?_eq_none (by rw [length_bytes_quicken sound]; exact hge)]

end Sound

/-! ## Every phase -/

theorem CodeBuffer.length_program {b : CodeBuffer} (padding : b.padding = List.replicate 33 0) :
    b.program.length = b.len := by
  have hlength := congrArg List.length padding
  rw [CodeBuffer.padding, List.length_drop, List.length_replicate] at hlength
  rw [CodeBuffer.program, List.length_take]
  omega

theorem CodeBuffer.bytes_eq_program_append {b : CodeBuffer}
    (padding : b.padding = List.replicate 33 0) :
    b.bytes = b.program ++ List.replicate 33 0 := by
  rw [← padding, b.program_append_padding]

/-- However a program is prepared, 33 zeros stay behind it. -/
theorem padding_finish (program : List UInt8) (last : Option QuickenConfig) :
    ((RawCode.ofProgram program).analyze.finish last).padding = List.replicate 33 0 := by
  cases last with
  | none => exact padding_analyze program
  | some config =>
    rw [← padding_analyze program]
    exact padding_quicken (sound_analyze program) config

end EvmPrep
