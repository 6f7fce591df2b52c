import EvmPrep.Cursor
import EvmPrep.Proofs.InPlace
set_option autoImplicit false

/-!
# Any bytes, instruction by instruction

A cursor over any byte string meets the instructions that the byte string is cut into, as
far as they start before the end that was asked for.  So it comes to an end, it makes no
misstep, and what it meets is a partition of the code: in a row the instructions are the
code up to some place at or behind that end (`instructionsBefore_partition`).

Two limits meet here.  The cursor stops at the end that was asked for, an immediate at the
end of the code.  Only the last instruction can reach either of them: behind one that
reaches beyond the first limit the cursor stops, and behind one that is cut short by the
second there is no byte left to stand at.
-/

namespace EvmPrep

/-! ## Where a listing stops -/

/-- Behind the code nothing is listed, so an end behind the code is as good as the end of the
code. -/
theorem instructionsBefore_min (code : List UInt8) (stop : Nat) :
    instructionsBefore code (min stop code.length) = instructionsBefore code stop := by
  rw [instructionsBefore, instructionsBefore, takeWhile_offset_lt _ (pairwise_offset_cut ..),
    takeWhile_offset_lt _ (pairwise_offset_cut ..)]
  refine List.filter_congr fun i hi => ?_
  have hlt := (of_mem_cut hi).1.lt_length
  rw [Bool.eq_iff_iff, decide_eq_true_eq, decide_eq_true_eq]
  omega

theorem mem_instructionsBefore_iff {code : List UInt8} {stop : Nat} {i : Instruction} :
    i ∈ instructionsBefore code stop
      ↔ i ∈ cut preparedWidth 0 code ∧ i.offset < min stop code.length := by
  rw [← instructionsBefore_min]
  exact CodeBuffer.mem_instructions_iff (b := ⟨code, min stop code.length⟩)

theorem Chained.offset_first {offset : Nat} {is : List Instruction} {i : Instruction}
    (h : Chained offset is) (hi : is[0]? = some i) : i.offset = offset := by
  cases is with
  | nil => cases hi
  | cons first rest =>
    obtain rfl : first = i := Option.some.inj hi
    exact h.1

theorem chained_instructionsBefore (code : List UInt8) (stop : Nat) :
    Chained 0 (instructionsBefore code stop) :=
  CodeBuffer.chained_instructions ⟨code, stop⟩

/-- Behind an instruction that reaches the end none is listed. -/
theorem succ_eq_length_of_le_end {code : List UInt8} {stop k : Nat} {i : Instruction}
    (hi : (instructionsBefore code stop)[k]? = some i)
    (reaches : min stop code.length ≤ i.offset + i.size) :
    k + 1 = (instructionsBefore code stop).length := by
  have hk := (List.getElem?_eq_some_iff.mp hi).1
  rcases Nat.lt_or_ge (k + 1) (instructionsBefore code stop).length with hmore | hend
  · have hj := List.getElem?_eq_getElem hmore
    have hoffset := (chained_instructionsBefore code stop).offset_succ hi hj
    have hlt := (mem_instructionsBefore_iff.mp (List.mem_of_getElem? hj)).2
    omega
  · omega

/-- The listed instructions in a row are the code up to a place at or behind the end that was asked
for. -/
theorem exists_flatMap_bytes_instructionsBefore (code : List UInt8) (stop : Nat) :
    ∃ e, min stop code.length ≤ e ∧ e ≤ code.length ∧ (min stop code.length = 0 → e = 0)
      ∧ (instructionsBefore code stop).flatMap Instruction.bytes = code.take e := by
  let b : CodeBuffer := ⟨code, min stop code.length⟩
  have hlisted : b.instructions = instructionsBefore code stop := instructionsBefore_min code stop
  have hbytes := b.flatMap_bytes_instructions
  have hcovers : b.len ≤ b.listingEnd := CodeBuffer.len_le_listingEnd (Nat.min_le_right ..)
  rw [hlisted] at hbytes
  refine ⟨b.listingEnd, hcovers, ?_, fun hzero => ?_, hbytes⟩
  · have hend := b.listingEnd_eq
    rw [hlisted, hbytes, List.length_take] at hend
    show b.listingEnd ≤ b.bytes.length
    omega
  · have hnone : b.instructions = [] := by
      rw [List.eq_nil_iff_forall_not_mem]
      intro i hi
      have hlt : i.offset < min stop code.length := (CodeBuffer.mem_instructions_iff.mp hi).2
      omega
    rw [b.listingEnd_eq, hnone]
    rfl

/-! ## One instruction -/

/-- How many immediate bytes the instruction should have in the code: `n` after the byte `PUSHn`;
after that of the pooled push one more than its second operand byte says, or both operand bytes
where the code ends before that one. -/
def Instruction.fullWidth (code : List UInt8) (i : Instruction) : Nat :=
  if i.byte.toNat = 0xac then
    match code[i.offset + 2]? with
    | some last => last.toNat + 1
    | none => 2
  else pushNumber i.byte

namespace InPlace

section Instruction

variable {code : List UInt8} {i : Instruction}

theorem asked_eq (code : List UInt8) (offset : Nat) (b : UInt8) :
    asked code offset b = preparedWidth b (code.drop (offset + 1)) := by
  have hat : (code.drop (offset + 1))[1]? = code[offset + 2]? := List.getElem?_drop
  rw [preparedWidth, hat]
  rfl

theorem asked_eq_fullWidth (code : List UInt8) (i : Instruction) :
    asked code i.offset i.byte = i.fullWidth code := by
  have hpushc : i.byte = Opcode.pushc.toByte ↔ i.byte.toNat = 0xac := UInt8.toNat_inj.symm
  by_cases h : i.byte.toNat = 0xac
  · exact (if_pos (hpushc.mpr h)).trans (if_pos h).symm
  · exact ((if_neg (mt hpushc.mp h)).trans (pushNumber_eq i.byte).symm).trans (if_neg h).symm

theorem asked_le (code : List UInt8) (offset : Nat) (b : UInt8) : asked code offset b ≤ 256 := by
  unfold asked
  split
  · split
    · rename_i last _
      exact last.toNat_lt_size
    · decide
  · have := pushWidth_le b
    omega

theorem length_immediate_eq_min_asked (h : i ∈ cut preparedWidth 0 code) :
    i.immediate.length = min (asked code i.offset i.byte) (code.length - (i.offset + 1)) := by
  rw [length_immediate_of_mem_cut h, asked_eq]

theorem decodeClipped_of_mem_cut (h : i ∈ cut preparedWidth 0 code) :
    decodeClipped code i.offset = .ok i := by
  obtain ⟨hstart, here, himmediate⟩ := of_mem_cut h
  have hinside := hstart.lt_length
  have hread : readAt code i.offset = .ok i.byte := by rw [readAt, here]
  have hrange : readRange code (i.offset + 1)
      (min (i.offset + 1 + asked code i.offset i.byte) code.length) = .ok i.immediate := by
    have hlength := length_immediate_eq_min_asked h
    have hbehind : min (i.offset + 1 + asked code i.offset i.byte) code.length
        = i.offset + 1 + i.immediate.length := by omega
    rw [hbehind, readRange, if_pos (by omega), List.drop_take, Nat.add_sub_cancel_left,
      himmediate, List.length_take, ← List.take_take, List.take_length]
  rw [decodeClipped, hread]
  simp only [bind, Except.bind, hrange]

/-- An instruction that has not all that it asks for ends with the code. -/
theorem end_eq_of_length_immediate_lt (h : i ∈ cut preparedWidth 0 code)
    (short : i.immediate.length < asked code i.offset i.byte) :
    i.offset + i.size = code.length := by
  have hlength := length_immediate_eq_min_asked h
  have hinside := (of_mem_cut h).1.lt_length
  rw [Instruction.size]
  omega

theorem ne_pushc_of_pushWidth_ne_zero {b : UInt8} (push : pushWidth b ≠ 0) :
    b ≠ Opcode.pushc.toByte := by
  rintro rfl
  exact push (by decide)

theorem length_immediate_le_of_mem_cut (h : i ∈ cut preparedWidth 0 code)
    (push : pushWidth i.byte ≠ 0) : i.immediate.length ≤ 32 := by
  have hlength := length_immediate_eq_min_asked h
  have hwidth := pushWidth_le i.byte
  rw [asked, if_neg (ne_pushc_of_pushWidth_ne_zero push)] at hlength
  omega

theorem poolIndex_eq (i : Instruction) : poolIndex i = i.poolIndex? := by
  unfold poolIndex
  split
  case isTrue hpushc =>
    rw [Instruction.poolIndex?, Instruction.operand, Instruction.isPooled, hpushc]
    cases i.immediate <;> rfl
  case isFalse hplain => exact (poolIndex?_eq_none hplain).symm

/-- A push says its word without a misstep if its immediate is not too long for one. -/
theorem pushValue_eq (narrow : pushWidth i.byte ≠ 0 → i.immediate.length ≤ 32) :
    pushValue i = .ok i.pushValue? := by
  unfold pushValue
  split
  case isTrue hnone =>
    have hoperand : ∀ w, i.operand ≠ .value w := by
      intro w
      unfold Instruction.operand
      split
      · split <;> nofun
      · rw [if_neg (by simp [Instruction.isPush, hnone])]
        nofun
    cases hw : i.pushValue? with
    | none => rfl
    | some w => exact absurd (pushValue?_eq_some_iff.mp hw) (hoperand w)
  case isFalse hpush =>
    have hplain : i.isPooled = false :=
      beq_eq_false_iff_ne.mpr (ne_pushc_of_pushWidth_ne_zero hpush)
    have hispush : i.isPush = true := by simpa [Instruction.isPush] using hpush
    have hword : Word.ofBytes? i.immediate
        = some (BitVec.ofNat 256 (natOfBytes i.immediate)) := if_pos (narrow hpush)
    simp [Instruction.pushValue?, Instruction.operand, hplain, hispush, hword]

theorem text_eq (narrow : pushWidth i.byte ≠ 0 → i.immediate.length ≤ 32) :
    text i = .ok i.text := by
  rw [text, poolIndex_eq, pushValue_eq narrow]
  unfold Instruction.text Instruction.poolIndex? Instruction.pushValue?
  cases i.operand <;> rfl

end Instruction

/-! ## The cursor -/

theorem Cursor.next_of_mem_cut {code : List UInt8} {stop : Nat} {i : Instruction}
    (h : i ∈ cut preparedWidth 0 code) (inside : i.offset < stop) :
    Cursor.next ⟨code, stop, i.offset⟩ = .ok (some i, ⟨code, stop, i.offset + i.size⟩) := by
  rw [Cursor.next, if_neg (Nat.not_le_of_lt inside)]
  simp only [bind, Except.bind, decodeClipped_of_mem_cut h]

/-- A cursor meets the instructions that are laid out from its position on and cover the code up to
its end. -/
theorem Cursor.meets_of_chained {code : List UInt8} {stop position : Nat} {is : List Instruction}
    (chained : Chained position is)
    (listed : ∀ i ∈ is, i ∈ cut preparedWidth 0 code ∧ i.offset < stop)
    (covers : stop ≤ position + (is.flatMap Instruction.bytes).length) :
    Cursor.Meets ⟨code, stop, position⟩ is := by
  induction is generalizing position with
  | nil => exact .done (if_pos covers)
  | cons i rest ih =>
    obtain ⟨rfl, hrest⟩ := chained
    obtain ⟨hi, hinside⟩ := listed i (List.mem_cons_self ..)
    rw [List.flatMap_cons, List.length_append, Instruction.length_bytes, ← Nat.add_assoc]
      at covers
    exact .step (next_of_mem_cut hi hinside)
      (ih hrest (fun j hj => listed j (List.mem_cons_of_mem _ hj)) covers)

theorem Cursor.meets_start (code : List UInt8) (stop : Nat) :
    (Cursor.start code stop).Meets (instructionsBefore code stop) := by
  obtain ⟨e, hcovers, hinside, -, hbytes⟩ := exists_flatMap_bytes_instructionsBefore code stop
  refine meets_of_chained (chained_instructionsBefore code stop)
    (fun i hi => mem_instructionsBefore_iff.mp hi) ?_
  rw [hbytes, List.length_take, Nat.zero_add, Nat.min_eq_left hinside]
  exact hcovers

end InPlace

/-- The instructions of any code are a partition of it.  A cursor meets them and no others, so it
comes to its end and makes no misstep.  The first stands at the front, each other one right behind
the one before it, and all before the end that was asked for; in a row they are the code up to a
place behind that end or at it, which only the last of them can reach beyond.  An immediate that
is shorter than it should be is that of the last instruction, and ends with the code.  No offset
that is looked at is more than 256 bytes behind the code, no immediate of a push is too long for a
word, and each instruction says its word, its index and its text without a misstep. -/
theorem instructionsBefore_partition (code : List UInt8) (stop : Nat) :
    (∀ is, (InPlace.Cursor.start code stop).Meets is ↔ is = instructionsBefore code stop)
      ∧ let is := instructionsBefore code stop
        let last := min stop code.length
        (∀ i, is[0]? = some i → i.offset = 0)
          ∧ (∀ (k : Nat) (i j : Instruction), is[k]? = some i → is[k + 1]? = some j →
            j.offset = i.offset + i.size)
          ∧ (∀ i ∈ is, i.offset < last)
          ∧ (∃ e, last ≤ e ∧ e ≤ code.length ∧ (last = 0 → e = 0)
            ∧ is.flatMap Instruction.bytes = code.take e)
          ∧ (∀ (k : Nat) (i : Instruction), is[k]? = some i → last < i.offset + i.size →
            k + 1 = is.length)
          ∧ (∀ (k : Nat) (i : Instruction), is[k]? = some i →
            i.immediate.length ≤ i.fullWidth code
              ∧ (i.immediate.length < i.fullWidth code →
                k + 1 = is.length ∧ i.offset + i.size = code.length))
          ∧ ∀ i ∈ is, i.offset + 1 + i.fullWidth code ≤ code.length + 256
            ∧ (pushNumber i.byte ≠ 0 → i.immediate.length ≤ 32)
            ∧ InPlace.pushValue i = .ok i.pushValue? ∧ InPlace.poolIndex i = i.poolIndex?
            ∧ InPlace.text i = .ok i.text := by
  have hmeets := InPlace.Cursor.meets_start code stop
  refine ⟨fun is => ⟨fun h => h.unique hmeets, fun h => h ▸ hmeets⟩, ?_⟩
  intro is last
  simp only [← InPlace.asked_eq_fullWidth, pushNumber_eq]
  have hchained : Chained 0 is := chained_instructionsBefore code stop
  refine ⟨fun i => hchained.offset_first, fun k i j => hchained.offset_succ,
    fun i hi => (mem_instructionsBefore_iff.mp hi).2,
    exists_flatMap_bytes_instructionsBefore code stop,
    fun k i hi hreach => succ_eq_length_of_le_end hi (Nat.le_of_lt hreach),
    fun k i hi => ?_, fun i hi => ?_⟩
  · obtain ⟨hcut, -⟩ := mem_instructionsBefore_iff.mp (List.mem_of_getElem? hi)
    have hlength := InPlace.length_immediate_eq_min_asked hcut
    refine ⟨by omega, fun hshort => ?_⟩
    have hend := InPlace.end_eq_of_length_immediate_lt hcut hshort
    exact ⟨succ_eq_length_of_le_end hi (hend ▸ Nat.min_le_right ..), hend⟩
  · obtain ⟨hcut, -⟩ := mem_instructionsBefore_iff.mp hi
    have hnarrow := InPlace.length_immediate_le_of_mem_cut hcut
    have hasked := InPlace.asked_le code i.offset i.byte
    have hlt := (of_mem_cut hcut).1.lt_length
    exact ⟨by omega, hnarrow, InPlace.pushValue_eq hnarrow, InPlace.poolIndex_eq i,
      InPlace.text_eq hnarrow⟩

end EvmPrep
