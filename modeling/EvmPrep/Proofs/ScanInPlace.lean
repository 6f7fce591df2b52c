import EvmPrep.Proofs.InPlace
set_option autoImplicit false

/-!
# The scan in one buffer

The scan walks over the code and writes the trap over what it disarms, and what it has
written so far it never reads again.  So when it is at an instruction, the buffer has the
disarmed instructions in front of it and the source behind it (`scanned`), and at the end
it has the disarmed code (`scan_eq`).

A push that is cut off by the end of the code moves the cursor beyond that end.  No
instruction is left there, so this needs no condition on the code.
-/

namespace EvmPrep

namespace InPlace

/-- What the scan has made of the code when it has treated the instructions `done`. -/
def scanned (done rest : List Instruction) : Scan where
  code := (done.map Instruction.disarmed ++ rest).flatMap Instruction.bytes
  dests := ((done.filter Instruction.isTarget).map Instruction.offset).toArray
  trapped := done.countP fun i => isSynthetic i.byte

theorem length_flatMap_bytes_disarmed (is : List Instruction) :
    ((is.map Instruction.disarmed).flatMap Instruction.bytes).length
      = (is.flatMap Instruction.bytes).length := by
  have same : ∀ i : Instruction, i.disarmed.bytes.length = i.bytes.length := fun i => by
    rw [bytes_disarmed]
    rfl
  rw [List.flatMap_map, List.length_flatMap, List.length_flatMap]
  exact congrArg List.sum (List.map_congr_left fun i _ => same i)

theorem scanStep_scanned {programLen : Nat} {done rest : List Instruction} {i : Instruction}
    (chained : Chained 0 (done ++ i :: rest))
    (synthetic : isSynthetic i.byte = true → i.offset < programLen) :
    scanStep programLen i.offset (scanned done (i :: rest))
      = .ok (pushWidth i.byte, scanned (done ++ [i]) rest) := by
  have hhere : ((done.map Instruction.disarmed).flatMap Instruction.bytes).length = i.offset := by
    obtain ⟨-, hoffset, -⟩ := chained_append.mp chained
    rw [length_flatMap_bytes_disarmed, hoffset, Nat.zero_add]
  have hcode : (scanned done (i :: rest)).code
      = (done.map Instruction.disarmed).flatMap Instruction.bytes
        ++ i.byte :: (i.immediate ++ rest.flatMap Instruction.bytes) := by
    rw [scanned, List.flatMap_append, List.flatMap_cons, Instruction.bytes, List.cons_append]
  have hcode' : (scanned (done ++ [i]) rest).code
      = (done.map Instruction.disarmed).flatMap Instruction.bytes
        ++ (if isSynthetic i.byte then Opcode.bad.toByte else i.byte)
          :: (i.immediate ++ rest.flatMap Instruction.bytes) := by
    rw [scanned, List.map_append, List.append_assoc, List.flatMap_append, List.map_singleton,
      List.singleton_append, List.flatMap_cons, bytes_disarmed, List.cons_append]
  have hread : readAt (scanned done (i :: rest)).code i.offset = .ok i.byte := by
    rw [hcode]
    exact readAt_append hhere ..
  have hwrite : disarmAt programLen i.offset i.byte (scanned done (i :: rest)).code
      = .ok (scanned (done ++ [i]) rest).code := by
    rw [hcode, hcode', disarmAt]
    split
    · rename_i hs
      exact writeAt_append hhere (synthetic hs) ..
    · rfl
  have hdests : (if i.byte == Opcode.jumpdest.toByte then
        (scanned done (i :: rest)).dests.push i.offset else (scanned done (i :: rest)).dests)
      = (scanned (done ++ [i]) rest).dests := by
    cases htarget : i.byte == Opcode.jumpdest.toByte <;>
      simp [scanned, Instruction.isTarget, htarget]
  have htrapped : (if isSynthetic i.byte then (scanned done (i :: rest)).trapped + 1
        else (scanned done (i :: rest)).trapped)
      = (scanned (done ++ [i]) rest).trapped := by
    cases hs : isSynthetic i.byte <;> simp [scanned, hs]
  rw [scanStep, hread]
  simp only [bind, Except.bind, hwrite, hdests, htrapped]

/-- The scan of any bytes has the disarmed code and its table for a result, if what is disarmed is
in the program. -/
theorem scan_eq {programLen : Nat} {code : List UInt8}
    (synthetic : ∀ i ∈ cut sourceWidth 0 code, isSynthetic i.byte = true → i.offset < programLen) :
    scan programLen code
      = .ok ⟨disarm code, (JumpTable.ofCode code).dests, (JumpTable.ofCode code).trapped⟩ := by
  have hchained : Chained 0 (cut sourceWidth 0 code) := chained_cut ..
  have hmoves : ∀ i ∈ cut sourceWidth 0 code, i.immediate.length ≤ pushWidth i.byte
      ∧ (i.offset + i.size < code.length → pushWidth i.byte = i.immediate.length) := by
    intro i hi
    have hlength : i.immediate.length
        = min (pushWidth i.byte) (code.length - (i.offset + 1)) := length_immediate_of_mem_cut hi
    rw [Instruction.size]
    omega
  have hwalk := walk_eq_of_forall_step (scanStep programLen) (fun i => pushWidth i.byte) scanned
    hchained (fun i hi => (of_mem_cut hi).1.lt_length) (by rw [flatMap_bytes_cut]) hmoves
    fun done i rest split => by
      have hi : i ∈ cut sourceWidth 0 code := by
        rw [split]
        exact List.mem_append_cons_self
      exact scanStep_scanned (split ▸ hchained) (synthetic i hi)
  have hstart : scanned [] (cut sourceWidth 0 code) = ⟨code, #[], 0⟩ := by
    simp [scanned, flatMap_bytes_cut]
  have hend : scanned (cut sourceWidth 0 code) []
      = ⟨disarm code, (JumpTable.ofCode code).dests, (JumpTable.ofCode code).trapped⟩ := by
    simp [scanned, disarm, JumpTable.ofCode, List.flatMap_map]
  rw [hstart, hend] at hwalk
  exact hwalk

end InPlace

/-! ## All of it -/

/-- The scan in full, of any bytes.  It makes no misstep.  The table lists the destinations in
order; the buffer keeps its length and every byte but the trapped ones, which become the trap and
are counted; an offset at which no instruction starts is neither changed nor listed.  Hence an
analyzed program is listed from start to start of the program itself, and without an instruction
that only quickening puts in. -/
theorem scan_exact (code program : List UInt8) :
    InPlace.scan code.length code
        = .ok ⟨disarm code, (JumpTable.ofCode code).dests, (JumpTable.ofCode code).trapped⟩
      ∧ ((JumpTable.ofCode code).dests.toList
        = (List.range code.length).filter fun s => IsDestination code s)
      ∧ (JumpTable.ofCode code).dests.toList.Pairwise (· < ·)
      ∧ (∀ d ∈ (JumpTable.ofCode code).dests, d < code.length)
      ∧ (disarm code).length = code.length
      ∧ (∀ s, (disarm code)[s]? = if IsTrapped code s then some 0xaf else code[s]?)
      ∧ ((JumpTable.ofCode code).trapped
        = (List.range code.length).countP fun s => IsTrapped code s)
      ∧ (∀ s, ¬ IsStart numberedWidth code s →
        (disarm code)[s]? = code[s]? ∧ s ∉ (JumpTable.ofCode code).dests)
      ∧ ((RawCode.ofProgram program).analyze.instructions.map Instruction.offset
        = (List.range program.length).filter fun s => IsStart numberedWidth program s)
      ∧ (∀ i ∈ (RawCode.ofProgram program).analyze.instructions,
        i.opcode? ≠ some .pushc ∧ i.opcode? ≠ some .jumpv ∧ i.opcode? ≠ some .jumpvi) := by
  have hdests := toList_dests_ofCode code
  refine ⟨InPlace.scan_eq fun i hi _ => (of_mem_cut hi).1.lt_length, hdests, ?_, ?_,
    length_disarm code, getElem?_disarm code, trapped_ofCode code, ?_, ?_, ?_⟩
  · rw [hdests]
    exact List.pairwise_lt_range.filter _
  · intro d hd
    rw [← Array.mem_toList_iff, hdests, List.mem_filter, List.mem_range] at hd
    exact hd.1
  · intro s hs
    refine ⟨?_, fun hd => ?_⟩
    · rw [getElem?_disarm, if_neg fun h => hs h.1]
    · rw [← Array.mem_toList_iff, hdests, List.mem_filter, decide_eq_true_eq] at hd
      exact hs hd.2.1
  · rw [numberedWidth_eq]
    exact map_offset_instructions_analyze program
  · intro i hi
    rw [CodeBuffer.instructions_eq_filter, layout_analyze] at hi
    obtain ⟨hpushc, hjumpv, hjumpvi⟩ := byte_of_mem_cut_disarm (List.mem_filter.mp hi).1
    simp only [Instruction.opcode?, ne_eq, Opcode.ofByte?_eq_some_iff]
    exact ⟨Ne.symm hpushc, Ne.symm hjumpv, Ne.symm hjumpvi⟩

end EvmPrep
