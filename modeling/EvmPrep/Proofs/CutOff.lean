import Mathlib.Algebra.Group.Nat.Defs
import EvmPrep.Proofs.Accounting
import EvmPrep.Proofs.Concatenated
set_option autoImplicit false

/-!
# A push that is cut off

If the last push of a program has not all of its immediate, it reads the padding, as if
the program were filled up with the zeros that it is short of (`filledUp`).  The listing
is that of the program filled up, and as long as no zero too many is put behind the
program, it stays (`instructions_analyze_append_of_le`).  The zeros are the low digits of
the word.

Whether the push is pooled depends on how many of its bytes are inside the program, and
so on the zeros.  But pooled or not, a push supplies the word that it pushed before
(`exists_supplies_of_getElem?`).
-/

namespace EvmPrep

/-! ## Zeros for low digits -/

theorem natOfBytes_replicate_zero (n : Nat) : natOfBytes (List.replicate n 0) = 0 := by
  induction n with
  | zero => rfl
  | succ n ih =>
    rw [List.replicate_succ, natOfBytes, ih, UInt8.toNat_zero, Nat.zero_mul]

theorem natOfBytes_append_replicate_zero (bs : List UInt8) (n : Nat) :
    natOfBytes (bs ++ List.replicate n 0) = natOfBytes bs * 256 ^ n := by
  rw [natOfBytes_append, natOfBytes_replicate_zero, List.length_replicate, Nat.add_zero]
  rfl

/-! ## The program filled up -/

/-- The program with the zeros that its last push is short of. -/
def filledUp (program : List UInt8) : List UInt8 :=
  program ++ List.replicate (scanEnd program - program.length) 0

section FilledUp

variable {program : List UInt8}

theorem length_filledUp (program : List UInt8) : (filledUp program).length = scanEnd program := by
  have hend := length_le_scanEnd program
  rw [filledUp, List.length_append, List.length_replicate]
  omega

theorem add_length_filling_le (program : List UInt8) :
    program.length + (List.replicate (scanEnd program - program.length) (0 : UInt8)).length
      ≤ scanEnd program := by
  rw [← List.length_append]
  exact Nat.le_of_eq (length_filledUp program)

theorem length_immediate_of_mem_cut_filledUp {i : Instruction}
    (h : i ∈ cut sourceWidth 0 (filledUp program)) : i.immediate.length = pushWidth i.byte := by
  have hend : scanEnd (filledUp program) = (filledUp program).length := by
    rw [length_filledUp]
    exact scanEnd_append_of_le (add_length_filling_le program)
  exact (scanEnd_eq_length_iff 0).mp hend i h

theorem offset_lt_of_mem_cut_filledUp {i : Instruction}
    (h : i ∈ cut sourceWidth 0 (filledUp program)) : i.offset < program.length := by
  have hmem : i.head ∈ heads (filledUp program) := List.mem_map_of_mem h
  rw [filledUp, heads_append_of_le (add_length_filling_le program)] at hmem
  exact (mem_heads_iff.mp hmem).1.lt_length

/-- A program is listed as if it were filled up, also if some of the zeros are there already. -/
theorem instructions_analyze_append_of_le {k : Nat} (le : program.length + k ≤ scanEnd program) :
    (RawCode.ofProgram (program ++ List.replicate k 0)).analyze.instructions
      = (cut sourceWidth 0 (filledUp program)).map Instruction.disarmed := by
  have hend := scanEnd_le program
  have hsplit : k + CodeBuffer.paddingSize = (scanEnd program - program.length)
      + (k + CodeBuffer.paddingSize - (scanEnd program - program.length)) := by
    rw [show CodeBuffer.paddingSize = 33 from rfl]
    omega
  have hbytes : (CodeBuffer.ofProgram (program ++ List.replicate k 0)).bytes
      = filledUp program ++ List.replicate
        (k + CodeBuffer.paddingSize - (scanEnd program - program.length)) 0 := by
    rw [CodeBuffer.ofProgram, filledUp, List.append_assoc, List.append_assoc,
      List.replicate_append_replicate, List.replicate_append_replicate, ← hsplit]
  have hlen : (RawCode.ofProgram (program ++ List.replicate k 0)).analyze.len
      = program.length + k := by
    show (program ++ List.replicate k 0).length = _
    rw [List.length_append, List.length_replicate]
  rw [CodeBuffer.instructions_eq_filter, layout_analyze_eq_map, hbytes, hlen,
    cut_append fun i => length_immediate_of_mem_cut_filledUp, List.map_append, List.filter_append,
    List.filter_eq_self.mpr, List.filter_eq_nil_iff.mpr, List.append_nil]
  · intro i hi
    obtain ⟨j, hj, rfl⟩ := List.mem_map.mp hi
    have hbehind := le_offset_of_mem_cut hj
    rw [length_filledUp] at hbehind
    rw [offset_disarmed, decide_eq_true_eq]
    omega
  · intro i hi
    obtain ⟨j, hj, rfl⟩ := List.mem_map.mp hi
    have hinside := offset_lt_of_mem_cut_filledUp hj
    rw [offset_disarmed, decide_eq_true_eq]
    omega

/-- What reaches to the end of the program is the last instruction, and has zeros for what it is
short of. -/
theorem exists_cut_filledUp_eq {s : Nat} {b : UInt8} (start : IsStart sourceWidth program s)
    (here : program[s]? = some b) (last : program.length ≤ s + 1 + pushWidth b) :
    ∃ front, cut sourceWidth 0 (filledUp program)
      = front ++ [⟨s, b, program.drop (s + 1)
        ++ List.replicate (pushWidth b - (program.drop (s + 1)).length) 0⟩] := by
  have hs := start.lt_length
  have hmissing : scanEnd program - program.length
      = pushWidth b - (program.drop (s + 1)).length := by
    rw [scanEnd_eq_of_isStart start here last, List.length_drop]
    omega
  have hstart : IsStart sourceWidth (filledUp program) s := (isStart_append_iff.mpr start).1
  have hhere : (filledUp program)[s]? = some b := by
    rw [filledUp, List.getElem?_append_left hs, here]
  have hbehind : (filledUp program).drop (s + 1) = program.drop (s + 1)
      ++ List.replicate (pushWidth b - (program.drop (s + 1)).length) 0 := by
    rw [filledUp, hmissing, List.drop_append_of_le_length hs]
  have hwhole : (program.drop (s + 1)
      ++ List.replicate (pushWidth b - (program.drop (s + 1)).length) 0).length
        = pushWidth b := by
    rw [List.length_append, List.length_replicate, List.length_drop]
    omega
  obtain ⟨front, hcut, -⟩ := cut_eq_append_of_isStart hstart
  refine ⟨front, ?_⟩
  rw [hcut, drop_eq_cons_of_getElem? hhere, cut_cons, hbehind]
  simp only [sourceWidth]
  rw [List.take_of_length_le (Nat.le_of_eq hwhole), List.drop_eq_nil_of_le (Nat.le_of_eq hwhole),
    cut_nil]

end FilledUp

/-! ## What a push supplies -/

/-- Prepared code supplies the word at an instruction: the word that a push spells, or the constant
that a pooled push names. -/
def PreparedCode.Supplies (code : PreparedCode) (r : Instruction) (w : Word) : Prop :=
  (r.opcode? ≠ some .pushc ∧ r.pushValue? = some w)
    ∨ (r.opcode? = some .pushc ∧ ∃ index, r.poolIndex? = some index ∧ code.constant index = .ok w)

section Sound

variable {code : AnalyzedCode} (sound : code.Sound) (config : QuickenConfig)
include sound

/-- Pooled or not, a push supplies its word. -/
theorem exists_supplies_of_getElem? {k : Nat} {i : Instruction} {w : Word}
    (here : code.instructions[k]? = some i) (pushed : i.pushValue? = some w) :
    ∃ r, (code.quicken config).instructions[k]? = some r ∧ r.offset = i.offset
      ∧ (code.quicken config).Supplies r w
      ∧ (r.opcode? = some .pushc
        ↔ i.TakesConstant config code.len (code.quicken config).pool w) := by
  have hmem := mem_layout_of_mem_instructions (List.mem_of_getElem? here)
  refine ⟨_, by rw [getElem?_instructions_quicken sound, here]; rfl,
    offset_replacement (sound.whole i hmem), ?_⟩
  by_cases htakes : i.TakesConstant config code.len (code.quicken config).pool w
  · have hpooled : (code.quickenContext config).replacement (code.quicken config).pool
        (pushedBefore code.instructions k) i
        = i.toPooled (UInt8.ofNat ((code.quicken config).pool.entries.idxOf w)) :=
      replacement_of_takesConstant htakes
    rw [hpooled]
    refine ⟨.inr ⟨opcode?_toPooled i _, _, poolIndex?_toPooled i _, ?_⟩,
      iff_of_true (opcode?_toPooled i _) htakes⟩
    exact ConstantPool.get_idxOf htakes.2.2.2
  · have hkept : (code.quickenContext config).replacement (code.quicken config).pool
        (pushedBefore code.instructions k) i = i := by
      rcases replacement_cases (code.quickenContext config) (code.quicken config).pool
        (pushedBefore code.instructions k) i with ⟨v, hv, hon, hi, hw, -⟩ | ⟨j, -, -, hj, -⟩ | h
      · obtain rfl : v = w := Option.some.inj (hw.symm.trans pushed)
        exact absurd ⟨hon, isPoolable_iff.mp hi, hw, hv⟩ htakes
      · -- a jump pushes nothing
        obtain ⟨hnone, hplain, -⟩ := plain_of_resolved? hj
        rw [Instruction.pushValue?, operand_eq_absent hplain hnone] at pushed
        cases pushed
      · exact h
    have hplain : i.opcode? ≠ some .pushc :=
      mt opcode?_eq_some_iff.mp (sound.plain i hmem).1
    rw [hkept]
    exact ⟨.inl ⟨hplain, pushed⟩, iff_of_false hplain htakes⟩

theorem exists_supplies_of_getLast? {i : Instruction} {w : Word}
    (last : code.instructions.getLast? = some i) (pushed : i.pushValue? = some w) :
    ∃ r, (code.quicken config).instructions.getLast? = some r ∧ r.offset = i.offset
      ∧ (code.quicken config).Supplies r w
      ∧ (r.opcode? = some .pushc
        ↔ i.TakesConstant config code.len (code.quicken config).pool w) := by
  rw [List.getLast?_eq_getElem?] at last ⊢
  rw [length_instructions_quicken sound]
  exact exists_supplies_of_getElem? sound config last pushed

end Sound

/-! ## The last push -/

/-- A push that is cut off by the end of a program reads zeros for what it is short of.  As many
zeros, or fewer, can be put behind the program: the listing stays, and so does the table.  The
last instruction is the push, with the zeros in its immediate, and its word is the number that is
spelled by the bytes that are there, shifted by those that are not.  However the programs are
prepared, the instruction in its place supplies that word; whether it is pooled depends on whether
two bytes of the immediate are inside the program. -/
theorem push_cut_off {program : List UInt8} {o k : Nat} {b : UInt8}
    (start : IsStart numberedWidth program o) (here : program[o]? = some b)
    (cutOff : program.length < o + 1 + pushNumber b)
    (le : program.length + k ≤ o + 1 + pushNumber b) :
    let present := program.drop (o + 1)
    let missing := pushNumber b - present.length
    let longer := program ++ List.replicate k 0
    let analyzed := (RawCode.ofProgram program).analyze
    let analyzed' := (RawCode.ofProgram longer).analyze
    let push : Instruction := ⟨o, b, present ++ List.replicate missing 0⟩
    analyzed'.instructions = analyzed.instructions
      ∧ analyzed'.jumpTable = analyzed.jumpTable
      ∧ analyzed.instructions.getLast? = some push
      ∧ ∃ w, push.pushValue? = some w ∧ w.toNat = natOfBytes present * 256 ^ missing
        ∧ ∀ config, ∀ p ∈ [program, longer], ∃ r,
          (prepareWith config p).instructions.getLast? = some r ∧ r.offset = o
            ∧ (prepareWith config p).Supplies r w
            ∧ (r.opcode? = some .pushc ↔ config.usePool = true ∧ 2 ≤ pushNumber b
              ∧ o + 2 < p.length ∧ w ∈ (prepareWith config p).pool.entries) := by
  intro present missing longer analyzed analyzed' push
  rw [numberedWidth_eq] at start
  rw [pushNumber_eq] at cutOff le
  have hend := scanEnd_eq_of_isStart start here (Nat.le_of_lt cutOff)
  have hlonger : analyzed'.instructions
      = (cut sourceWidth 0 (filledUp program)).map Instruction.disarmed :=
    instructions_analyze_append_of_le (by rw [hend]; exact le)
  have hshort : analyzed.instructions
      = (cut sourceWidth 0 (filledUp program)).map Instruction.disarmed := by
    have h := instructions_analyze_append_of_le (k := 0) (length_le_scanEnd program)
    rwa [List.replicate_zero, List.append_nil] at h
  have hlisted : analyzed'.instructions = analyzed.instructions := hlonger.trans hshort.symm
  have hwide : pushWidth b ≠ 0 := by
    have hs := start.lt_length
    omega
  have hdisarmed : push.disarmed = push :=
    if_neg fun hsynthetic => hwide (pushWidth_of_isSynthetic hsynthetic)
  have hlast : analyzed.instructions.getLast? = some push := by
    obtain ⟨front, hcut⟩ := exists_cut_filledUp_eq start here (Nat.le_of_lt cutOff)
    rw [← pushNumber_eq] at hcut
    rw [hshort, hcut, List.map_append, List.map_singleton, List.getLast?_concat]
    exact congrArg some hdisarmed
  obtain ⟨w, hw⟩ := Option.isSome_iff_exists.mp (pushValue?_isSome (sound_analyze program)
    (mem_layout_of_mem_instructions (List.mem_of_getLast? hlast)) hwide)
  have hvalue : w.toNat = natOfBytes present * 256 ^ missing := by
    rw [Word.toNat_of_ofBytes? (ofBytes?_of_pushValue? hw), natOfBytes_append_replicate_zero]
  refine ⟨hlisted, ?_, hlast, w, hw, hvalue, fun config p hp => ?_⟩
  · rw [jumpTable_analyze, jumpTable_analyze, (scan_append_replicate_zero program k).1]
  · have hlast' : (RawCode.ofProgram p).analyze.instructions.getLast? = some push := by
      rcases List.mem_pair.mp hp with rfl | rfl
      · exact hlast
      · exact hlisted ▸ hlast
    obtain ⟨r, hr, hoffset, hsupplies, hpooled⟩ :=
      exists_supplies_of_getLast? (sound_analyze p) config hlast' hw
    refine ⟨r, hr, hoffset, hsupplies, hpooled.trans ⟨?_, ?_⟩⟩
    · rintro ⟨hon, ⟨hroom, hinside⟩, -, hmem⟩
      exact ⟨hon, hroom, hinside, hmem⟩
    · rintro ⟨hon, hroom, hinside, hmem⟩
      exact ⟨hon, ⟨hroom, hinside⟩, hw, hmem⟩

/-- With the zero that it is short of, the push is pooled, and without it is not; the word is the
same. -/
theorem push_cut_off_pooled :
    let program : List UInt8 := [0x61, 0x12]
    let longer : List UInt8 := program ++ List.replicate 1 0
    ∃ w : Word, w.toNat = 0x1200
      ∧ (∃ r, (prepareWith {} program).instructions.getLast? = some r
        ∧ (prepareWith {} program).Supplies r w ∧ r.opcode? ≠ some .pushc)
      ∧ ∃ r, (prepareWith {} longer).instructions.getLast? = some r
        ∧ (prepareWith {} longer).Supplies r w ∧ r.opcode? = some .pushc := by
  intro program longer
  have hstart : IsStart numberedWidth program 0 := .first (by decide)
  obtain ⟨-, -, -, w, -, hvalue, hprepared⟩ :=
    push_cut_off (k := 1) hstart rfl (by decide) (by decide)
  have hnumber : w.toNat = 0x1200 := hvalue.trans (by decide)
  have hw : w = 0x1200#256 := BitVec.eq_of_toNat_eq (by rw [hnumber]; decide)
  obtain ⟨r, hr, -, hsupplies, hpooled⟩ := hprepared {} program (by simp)
  obtain ⟨r', hr', -, hsupplies', hpooled'⟩ := hprepared {} longer (by simp [longer])
  refine ⟨w, hnumber, ⟨r, hr, hsupplies, fun h => ?_⟩, r', hr', hsupplies', hpooled'.mpr ?_⟩
  · exact absurd (hpooled.mp h).2.2.1 (by decide)
  · refine ⟨rfl, by decide, by decide, ?_⟩
    rw [hw]
    decide +kernel

end EvmPrep
