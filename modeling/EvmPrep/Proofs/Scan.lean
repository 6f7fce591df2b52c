import EvmPrep.Code
import EvmPrep.Proofs.Starts
set_option autoImplicit false

/-!
# What the scan of source code does

The scan is described by the starts of the code and the numbers of the bytes that stand
there, without cutting it.  A start with a `JUMPDEST` byte is a destination, a start with a
synthetic byte is trapped, and what stands at other offsets neither counts nor changes.
This holds of arbitrary bytes, also of code that ends in the middle of an immediate.

In disarmed code no instruction is a pooled push, so both width rules cut it alike
(`cut_preparedWidth_of_forall_ne`), and since padding starts only `STOP`s the listing
of an analyzed program has the starts of the program itself (`map_offset_instructions_analyze`).
-/

namespace EvmPrep

/-- A jump may go to the offset: an instruction starts there, and it is a `JUMPDEST`. -/
def IsDestination (code : List UInt8) (s : Nat) : Prop :=
  IsStart numberedWidth code s ∧ code[s]? = some 0x5b

/-- The scan disarms the offset: an instruction starts there, and its byte is one of the four that
name synthetic instructions. -/
def IsTrapped (code : List UInt8) (s : Nat) : Prop :=
  IsStart numberedWidth code s ∧ ∃ b, code[s]? = some b ∧ 0xac ≤ b.toNat ∧ b.toNat ≤ 0xaf

theorem isDestination_iff {code : List UInt8} {s : Nat} :
    IsDestination code s
      ↔ IsStart sourceWidth code s ∧ code[s]? = some Opcode.jumpdest.toByte := by
  rw [IsDestination, numberedWidth_eq]
  rfl

theorem isTrapped_iff {code : List UInt8} {s : Nat} :
    IsTrapped code s ↔ IsStart sourceWidth code s ∧ code[s]?.any isSynthetic = true := by
  simp only [IsTrapped, numberedWidth_eq, Option.any_eq_true, isSynthetic_iff_toNat]

instance (code : List UInt8) (s : Nat) : Decidable (IsDestination code s) :=
  decidable_of_iff _ isDestination_iff.symm

instance (code : List UInt8) (s : Nat) : Decidable (IsTrapped code s) :=
  decidable_of_iff _ isTrapped_iff.symm

theorem isDestination_append_iff {program more : List UInt8} {s : Nat} :
    IsDestination (program ++ more) s ∧ s < program.length ↔ IsDestination program s := by
  rw [isDestination_iff, isDestination_iff, and_right_comm, isStart_append_iff]
  refine and_congr_right fun hstart => ?_
  rw [List.getElem?_append_left hstart.lt_length]

theorem isTrapped_append_iff {program more : List UInt8} {s : Nat} (inside : s < program.length) :
    IsTrapped (program ++ more) s ↔ IsTrapped program s := by
  have hstart : IsStart sourceWidth (program ++ more) s ↔ IsStart sourceWidth program s :=
    (and_iff_left inside).symm.trans isStart_append_iff
  rw [isTrapped_iff, isTrapped_iff, List.getElem?_append_left inside, hstart]

/-! ## The buffer -/

theorem bytes_disarmed (i : Instruction) :
    i.disarmed.bytes
      = (if isSynthetic i.byte then Opcode.bad.toByte else i.byte) :: i.immediate := by
  unfold Instruction.disarmed
  split <;> rfl

theorem isTrapped_cons_zero {b : UInt8} {rest : List UInt8} :
    IsTrapped (b :: rest) 0 ↔ isSynthetic b = true := by
  simp [isTrapped_iff, isStart_cons]

/-- Behind the first instruction, the offsets of the remaining code are moved on. -/
theorem isTrapped_cons_add {b : UInt8} {rest : List UInt8} {t : Nat} :
    IsTrapped (b :: rest) (t + (1 + pushWidth b)) ↔ IsTrapped (rest.drop (pushWidth b)) t := by
  have hat : (b :: rest)[t + (1 + pushWidth b)]? = (rest.drop (pushWidth b))[t]? := by
    rw [show t + (1 + pushWidth b) = pushWidth b + t + 1 by omega, List.getElem?_cons_succ,
      List.getElem?_drop]
  rw [isTrapped_iff, isTrapped_iff, hat, isStart_cons]
  refine and_congr_left fun _ => ?_
  constructor
  · rintro (h | ⟨u, hu, h⟩)
    · omega
    · have hut : u = t := by
        have : t + (1 + pushWidth b) = u + (1 + pushWidth b) := h
        omega
      exact hut ▸ hu
  · intro h
    exact .inr ⟨t, h, rfl⟩

theorem not_isTrapped_immediate {b : UInt8} {rest : List UInt8} {k : Nat}
    (inside : k < pushWidth b) : ¬ IsTrapped (b :: rest) (k + 1) := by
  intro htrapped
  rcases isStart_cons.mp (isTrapped_iff.mp htrapped).1 with h | ⟨t, -, h⟩
  · omega
  · have : k + 1 = t + (1 + pushWidth b) := h
    omega

/-- Each byte of disarmed code: the trap where the code is disarmed, and what was there before
everywhere else. -/
theorem getElem?_disarm (code : List UInt8) (s : Nat) :
    (disarm code)[s]? = if IsTrapped code s then some Opcode.bad.toByte else code[s]? := by
  induction code using cutInduction sourceWidth generalizing s with
  | nil => simp [disarm, isTrapped_iff]
  | cons b rest ih =>
    replace ih : ∀ t, (disarm (rest.drop (pushWidth b)))[t]?
        = if IsTrapped (rest.drop (pushWidth b)) t then some Opcode.bad.toByte
          else (rest.drop (pushWidth b))[t]? := ih
    rw [disarm_cons, bytes_disarmed]
    cases s with
    | zero =>
      simp only [isTrapped_cons_zero, List.cons_append, List.getElem?_cons_zero]
      split <;> rfl
    | succ k =>
      rw [List.cons_append, List.getElem?_cons_succ, List.getElem?_cons_succ]
      rcases Nat.lt_or_ge k (pushWidth b) with hk | hk
      · -- inside the first immediate, unless the code ends before
        rw [if_neg (not_isTrapped_immediate hk)]
        rcases Nat.lt_or_ge k rest.length with hlen | hlen
        · rw [List.getElem?_append_left (by rw [List.length_take]; omega),
            List.getElem?_take_of_lt hk]
        · have hbehind : rest.drop (pushWidth b) = [] := List.drop_eq_nil_of_le (by omega)
          rw [hbehind, List.take_of_length_le (by omega)]
          simp [disarm]
      · obtain ⟨t, rfl⟩ := Nat.exists_eq_add_of_le hk
        have htrap : IsTrapped (b :: rest) (pushWidth b + t + 1)
            ↔ IsTrapped (rest.drop (pushWidth b)) t := by
          rw [← isTrapped_cons_add, show pushWidth b + t + 1 = t + (1 + pushWidth b) by omega]
        have hbehind : (rest.take (pushWidth b) ++ disarm (rest.drop (pushWidth b)))[pushWidth b + t]?
            = (disarm (rest.drop (pushWidth b)))[t]? := by
          rcases Nat.lt_or_ge (pushWidth b) rest.length with hlen | hlen
          · rw [List.getElem?_append_right (by rw [List.length_take]; omega), List.length_take,
              Nat.min_eq_left (by omega), Nat.add_sub_cancel_left]
          · have hnil : rest.drop (pushWidth b) = [] := List.drop_eq_nil_of_le hlen
            rw [hnil, List.take_of_length_le hlen]
            simp only [disarm, cut_nil, List.flatMap_nil, List.append_nil, List.getElem?_nil]
            exact List.getElem?_eq_none (by omega)
        rw [hbehind, ih, List.getElem?_drop]
        by_cases h : IsTrapped (rest.drop (pushWidth b)) t
        · rw [if_pos h, if_pos (htrap.mpr h)]
        · rw [if_neg h, if_neg (mt htrap.mp h)]

/-! ## The table -/

/-- Instructions picked by a test of their byte, which their offset in the code decides. -/
theorem isTarget_of_mem_cut {code : List UInt8} {i : Instruction}
    (h : i ∈ cut sourceWidth 0 code) :
    i.isTarget = decide (code[i.offset]? = some Opcode.jumpdest.toByte) := by
  rw [(of_mem_cut h).2.1, Bool.eq_iff_iff]
  simp only [Instruction.isTarget, beq_iff_eq, decide_eq_true_eq, Option.some.injEq]

theorem toList_dests_ofCode (code : List UInt8) :
    (JumpTable.ofCode code).dests.toList
      = (List.range code.length).filter fun s => IsDestination code s := by
  calc (JumpTable.ofCode code).dests.toList
      = ((cut sourceWidth 0 code).filter Instruction.isTarget).map Instruction.offset := rfl
    _ = ((cut sourceWidth 0 code).filter
          ((fun s => decide (code[s]? = some Opcode.jumpdest.toByte)) ∘ Instruction.offset)).map
            Instruction.offset := by
        rw [List.filter_congr fun i hi => isTarget_of_mem_cut hi]
        rfl
    _ = ((cut sourceWidth 0 code).map Instruction.offset).filter
          fun s => decide (code[s]? = some Opcode.jumpdest.toByte) := List.filter_map.symm
    _ = (List.range code.length).filter fun s => IsDestination code s := by
        rw [map_offset_cut, List.filter_filter]
        refine List.filter_congr fun s _ => ?_
        rw [Bool.eq_iff_iff]
        simp only [Bool.and_eq_true, decide_eq_true_eq, isDestination_iff]
        exact and_comm

theorem mem_dests_ofCode_iff {code : List UInt8} {s : Nat} :
    s ∈ (JumpTable.ofCode code).dests ↔ IsDestination code s := by
  rw [← Array.mem_toList_iff, toList_dests_ofCode, List.mem_filter, List.mem_range,
    decide_eq_true_eq]
  exact and_iff_right_of_imp fun h => h.1.lt_length

theorem trapped_ofCode (code : List UInt8) :
    (JumpTable.ofCode code).trapped
      = (List.range code.length).countP fun s => IsTrapped code s := by
  calc (JumpTable.ofCode code).trapped
      = (cut sourceWidth 0 code).countP fun i => isSynthetic i.byte := rfl
    _ = (cut sourceWidth 0 code).countP
          ((fun s => code[s]?.any isSynthetic) ∘ Instruction.offset) := by
        refine List.countP_congr fun i hi => ?_
        simp [(of_mem_cut hi).2.1]
    _ = ((cut sourceWidth 0 code).map Instruction.offset).countP
          fun s => code[s]?.any isSynthetic := List.countP_map.symm
    _ = (List.range code.length).countP fun s => IsTrapped code s := by
        rw [map_offset_cut, List.countP_filter]
        refine List.countP_congr fun s _ => ?_
        simp only [Bool.and_eq_true, decide_eq_true_eq, isTrapped_iff]
        exact and_comm

/-! ## The listing of analyzed code -/

theorem isStart_disarm_iff {code : List UInt8} {s : Nat} :
    IsStart sourceWidth (disarm code) s ↔ IsStart sourceWidth code s := by
  rw [isStart_iff_mem_cut, isStart_iff_mem_cut, cut_disarm]
  simp only [List.mem_map, exists_exists_and_eq_and, offset_disarmed]

theorem byte_disarmed_eq_bad {i : Instruction} (h : isSynthetic i.disarmed.byte = true) :
    i.disarmed.byte = Opcode.bad.toByte := by
  unfold Instruction.disarmed at h ⊢
  split
  · rfl
  · rename_i hnot
    rw [if_neg hnot] at h
    exact absurd h hnot

/-- Where no instruction is a pooled push, both width rules cut code alike. -/
theorem cut_preparedWidth_of_forall_ne {offset : Nat} {code : List UInt8}
    (plain : ∀ i ∈ cut sourceWidth offset code, i.byte ≠ Opcode.pushc.toByte) :
    cut preparedWidth offset code = cut sourceWidth offset code := by
  induction code using cutInduction sourceWidth generalizing offset with
  | nil => rfl
  | cons b rest ih =>
    rw [cut_cons] at plain
    have hb : b ≠ Opcode.pushc.toByte := plain _ (List.mem_cons_self ..)
    have hwidth : preparedWidth b rest = sourceWidth b rest := if_neg hb
    rw [cut_cons, cut_cons, hwidth, ih fun i hi => plain i (List.mem_cons_of_mem _ hi)]

/-- No instruction of disarmed code is one that quickening puts in. -/
theorem byte_of_mem_cut_disarm {code : List UInt8} {i : Instruction}
    (h : i ∈ cut sourceWidth 0 (disarm code)) :
    i.byte ≠ Opcode.pushc.toByte ∧ i.byte ≠ Opcode.jumpv.toByte ∧ i.byte ≠ Opcode.jumpvi.toByte := by
  rw [cut_disarm, List.mem_map] at h
  obtain ⟨j, -, rfl⟩ := h
  refine ⟨?_, ?_, ?_⟩
  all_goals
    intro hbyte
    have hbad := byte_disarmed_eq_bad (i := j) (by rw [hbyte]; decide)
    rw [hbyte] at hbad
    exact absurd hbad (by decide)

theorem cut_preparedWidth_disarm (code : List UInt8) :
    cut preparedWidth 0 (disarm code) = cut sourceWidth 0 (disarm code) :=
  cut_preparedWidth_of_forall_ne fun _ hi => (byte_of_mem_cut_disarm hi).1

/-- The instructions of the program and of its padding. -/
def CodeBuffer.layout (b : CodeBuffer) : List Instruction := cut preparedWidth 0 b.bytes

/-- What starts in the program is listed. -/
theorem CodeBuffer.instructions_eq_filter (b : CodeBuffer) :
    b.instructions = b.layout.filter fun i => i.offset < b.len :=
  takeWhile_offset_lt b.len (pairwise_offset_cut ..)

theorem CodeBuffer.mem_instructions_iff {b : CodeBuffer} {i : Instruction} :
    i ∈ b.instructions ↔ i ∈ b.layout ∧ i.offset < b.len := by
  rw [b.instructions_eq_filter, List.mem_filter, decide_eq_true_eq]

theorem layout_analyze (program : List UInt8) :
    (RawCode.ofProgram program).analyze.layout
      = cut sourceWidth 0 (RawCode.ofProgram program).analyze.bytes :=
  cut_preparedWidth_disarm (CodeBuffer.ofProgram program).bytes

theorem layout_analyze_eq_map (program : List UInt8) :
    (RawCode.ofProgram program).analyze.layout
      = (cut sourceWidth 0 (CodeBuffer.ofProgram program).bytes).map Instruction.disarmed := by
  rw [layout_analyze]
  exact cut_disarm 0 _

/-- The instructions of an analyzed program start where those of the program do. -/
theorem map_offset_instructions_analyze (program : List UInt8) :
    (RawCode.ofProgram program).analyze.instructions.map Instruction.offset
      = (List.range program.length).filter fun s => IsStart sourceWidth program s := by
  rw [CodeBuffer.instructions_eq_filter, layout_analyze]
  apply List.Pairwise.eq_of_mem_iff (r := (· < ·))
  · exact List.pairwise_map.mpr ((pairwise_offset_cut ..).filter _)
  · exact List.pairwise_lt_range.filter _
  · intro s
    have hstarts : IsStart sourceWidth (RawCode.ofProgram program).analyze.bytes s
        ∧ s < program.length ↔ IsStart sourceWidth program s := by
      rw [show (RawCode.ofProgram program).analyze.bytes
        = disarm (program ++ List.replicate CodeBuffer.paddingSize 0) from rfl, isStart_disarm_iff,
        isStart_append_iff]
    rw [List.mem_map, List.mem_filter, List.mem_range, decide_eq_true_eq]
    constructor
    · rintro ⟨i, hi, rfl⟩
      obtain ⟨hi, hlt⟩ := List.mem_filter.mp hi
      have hlt : i.offset < program.length := of_decide_eq_true hlt
      exact ⟨hlt, hstarts.mp ⟨(of_mem_cut hi).1, hlt⟩⟩
    · rintro ⟨hlt, hstart⟩
      obtain ⟨i, hi, rfl⟩ := isStart_iff_mem_cut.mp (hstarts.mpr hstart).1
      exact ⟨i, List.mem_filter.mpr ⟨hi, decide_eq_true hlt⟩, rfl⟩

end EvmPrep
