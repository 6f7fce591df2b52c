import EvmPrep.Dispatch
import EvmPrep.Proofs.Decoding
import EvmPrep.Proofs.Destinations
set_option autoImplicit false

/-!
# Quickened code runs as the code it stands for

A machine on quickened code and one on the code as it was make the same steps.  This
is so because a machine is never inside an instruction: its position is behind the
buffer, or an instruction starts there, and where that instruction is a jump the word
pushed right before it is on the stack (`Machine.Aligned`).  The last part is what an
unchecked jump needs.  It cannot be jumped to, so it is reached from the push alone.

One step from such a machine has the same result on both codes (`Aligned.step_quicken`)
and leads to such a machine again (`Aligned.of_step`); whole runs follow by induction
on their length.
-/

namespace EvmPrep

namespace Machine

variable {σ : Type}

/-- Tier and stack effect of the instruction at the machine's position, if there is one. -/
def metric? (m : Machine σ) (code : PreparedCode) : Option Metric :=
  (Instruction.decode? code.bytes m.position).map fun i => code.metric i.byte

/-- A machine at work on code is never inside an instruction.  If it stands at a jump right behind
a push, the pushed word is on top of its stack. -/
inductive Aligned (code : AnalyzedCode) (m : Machine σ) : Prop where
  /-- the buffer ends before the position -/
  | behind (h : code.bytes.length ≤ m.position)
  /-- an instruction starts at the position -/
  | atStart (k : Nat) (i : Instruction) (here : code.layout[k]? = some i)
      (start : i.offset = m.position)
      (told : i.resolved?.isSome = true → ∀ w, pushedBefore code.layout k = some w →
        m.stack.head? = some w)

/-! ## Actions -/

theorem act_congr (m : Machine σ) (f : Interpretation σ) (i : Instruction)
    {code code' : PreparedCode} (same : code.jumpTable = code'.jumpTable) :
    m.act code f i = m.act code' f i := by
  unfold act jumpChecked PreparedCode.verifyJump
  rw [same]

theorem jumpChecked_of_isValid (m : Machine σ) {code : PreparedCode} {dest : Word}
    (stack : List Word) (valid : code.jumpTable.isValid dest = true) :
    m.jumpChecked code dest stack = m.jumpUnchecked dest stack := by
  have hverify : code.verifyJump dest = .ok dest.toNat := by
    rw [PreparedCode.verifyJump, JumpTable.verify_eq, if_pos valid]
  rw [jumpChecked, hverify, jumpUnchecked]

/-- With a legal destination on the stack the jump that checks no more acts as the one that
checks. -/
theorem act_resolved (m : Machine σ) (f : Interpretation σ) {code : PreparedCode}
    {i j : Instruction} (hj : i.resolved? = some j) {dest : Word} {stack : List Word}
    (hstack : m.stack = dest :: stack) (valid : code.jumpTable.isValid dest = true) :
    m.act code f j = m.act code f i := by
  rcases resolved?_eq_some_iff.mp hj with ⟨hop, rfl⟩ | ⟨hop, rfl⟩
  · have hop' : Instruction.opcode? { i with byte := Opcode.jumpv.toByte } = some .jumpv :=
      Opcode.ofByte?_toByte .jumpv
    rw [act, act, hop, hop', hstack]
    exact (m.jumpChecked_of_isValid stack valid).symm
  · have hop' : Instruction.opcode? { i with byte := Opcode.jumpvi.toByte } = some .jumpvi :=
      Opcode.ofByte?_toByte .jumpvi
    rw [act, act, hop, hop', hstack]
    cases stack with
    | nil => rfl
    | cons condition stack =>
      dsimp only
      rw [m.jumpChecked_of_isValid stack valid]
      rfl

theorem verifyJump_of_jumpChecked {m next : Machine σ} {code : PreparedCode} {dest : Word}
    {stack : List Word} (h : m.jumpChecked code dest stack = .ok next) :
    code.verifyJump dest = .ok next.position := by
  unfold jumpChecked at h
  split at h
  case h_1 offset hverify =>
    cases h
    exact hverify
  case h_2 => cases h

/-- Where an instruction without an operand leads, if it is none of the unchecked jumps: behind
itself, or to a destination that the code has checked. -/
theorem position_of_act {m next : Machine σ} {code : PreparedCode} {f : Interpretation σ}
    {i : Instruction} (checks : i.opcode? ≠ some .jumpv ∧ i.opcode? ≠ some .jumpvi)
    (h : m.act code f i = .ok next) :
    next.position = m.position + i.size
      ∨ ∃ dest, code.verifyJump dest = .ok next.position := by
  unfold act at h
  split at h
  case h_1 dest stack _ _ => exact .inr ⟨dest, verifyJump_of_jumpChecked h⟩
  case h_2 hop _ => exact absurd hop checks.1
  case h_3 dest condition stack _ _ =>
    split at h
    · cases h
      exact .inl rfl
    · exact .inr ⟨dest, verifyJump_of_jumpChecked h⟩
  case h_4 hop _ => exact absurd hop checks.2
  case h_10 =>
    split at h
    · cases h
      exact .inl rfl
    · cases h
  all_goals cases h

/-! ## Steps by operand -/

section Operand

variable {m : Machine σ} {code : PreparedCode} {i : Instruction}

theorem step_of_value {w : Word} (f : Interpretation σ)
    (here : Instruction.decode? code.bytes m.position = some i) (operand : i.operand = .value w) :
    m.step code f = .ok (m.push i w) := by
  rw [step, here]
  dsimp only
  rw [operand]

theorem step_of_pooled {index : UInt8} {w : Word} (f : Interpretation σ)
    (here : Instruction.decode? code.bytes m.position = some i)
    (operand : i.operand = .pooled index) (constant : code.constant index = .ok w) :
    m.step code f = .ok (m.push i w) := by
  rw [step, here]
  dsimp only
  rw [operand]
  dsimp only
  rw [constant]

theorem step_of_oversized (f : Interpretation σ)
    (here : Instruction.decode? code.bytes m.position = some i) (operand : i.operand = .oversized) :
    m.step code f = .error .malformed := by
  rw [step, here]
  dsimp only
  rw [operand]

theorem step_of_absent (f : Interpretation σ)
    (here : Instruction.decode? code.bytes m.position = some i) (operand : i.operand = .absent) :
    m.step code f = m.act code f i := by
  rw [step, here]
  dsimp only
  rw [operand]

end Operand

/-! ## Where a machine can be -/

section Sound

variable {code : AnalyzedCode} {m next : Machine σ} {f : Interpretation σ}

/-- A machine that goes on behind an instruction is aligned if it has pushed the word of a push. -/
theorem Aligned.of_position_eq {k : Nat} {i : Instruction} (here : code.layout[k]? = some i)
    (position : next.position = i.offset + i.size)
    (pushed : ∀ w, i.pushValue? = some w → next.stack.head? = some w) : Aligned code next := by
  have hchained := code.chained_layout
  cases hj : code.layout[k + 1]? with
  | none =>
    refine .behind ?_
    have hend := hchained.length_flatMap_of_last here hj
    rw [code.flatMap_bytes_layout] at hend
    omega
  | some j =>
    refine .atStart (k + 1) j hj ?_ fun _ w hw => ?_
    · rw [hchained.offset_succ here hj, position]
    · rw [pushedBefore, here] at hw
      exact pushed w hw

/-- A machine that has jumped to a destination of the table is aligned: it stands at a `JUMPDEST`,
which is no jump. -/
theorem Aligned.of_mem_dests (sound : code.Sound) (h : next.position ∈ code.jumpTable.dests) :
    Aligned code next := by
  obtain ⟨i, hi, hoffset, hbyte⟩ := (sound.mem_dests_iff _).mp h
  obtain ⟨k, hk⟩ := List.mem_iff_getElem?.mp hi
  refine .atStart k i hk hoffset fun hjump => ?_
  obtain ⟨j, hj⟩ := Option.isSome_iff_exists.mp hjump
  have hop : i.opcode? = some .jumpdest := opcode?_eq_some_iff.mpr hbyte
  rcases resolved?_eq_some_iff.mp hj with ⟨hop', -⟩ | ⟨hop', -⟩
  all_goals
    rw [hop] at hop'
    cases hop'

theorem Aligned.start (code : AnalyzedCode) (stack : List Word) (rest : σ) :
    Aligned code (Machine.start stack rest) := by
  have hchained := code.chained_layout
  cases hlayout : code.layout with
  | nil =>
    refine .behind ?_
    rw [← code.flatMap_bytes_layout, hlayout]
    exact Nat.le_refl 0
  | cons i rest =>
    rw [hlayout] at hchained
    refine .atStart 0 i ?_ hchained.1 fun _ w hw => ?_
    · rw [hlayout]
      rfl
    · cases hw

/-- A step leads from an aligned machine to an aligned machine. -/
theorem Aligned.of_step (sound : code.Sound) (aligned : Aligned code m)
    (h : m.step code.keep f = .ok next) : Aligned code next := by
  cases aligned with
  | behind hbehind =>
    have hnone : Instruction.decode? code.keep.bytes m.position = none :=
      Instruction.decode?_eq_none_iff.mpr hbehind
    rw [step, hnone] at h
    cases h
  | atStart k i here start _ =>
    have hmem := List.mem_of_getElem? here
    have hdecode := decode?_keep here
    rw [start] at hdecode
    obtain ⟨hplain, hjumpv, hjumpvi⟩ := sound.plain i hmem
    cases hoperand : i.operand with
    | pooled index => exact absurd hoperand (operand_ne_pooled hplain index)
    | oversized =>
      rw [step_of_oversized f hdecode hoperand] at h
      cases h
    | value w =>
      rw [step_of_value f hdecode hoperand] at h
      cases h
      refine .of_position_eq here (by rw [start, push]) fun v hv => ?_
      rw [pushValue?_eq_some_iff, hoperand] at hv
      cases hv
      rfl
    | absent =>
      rw [step_of_absent f hdecode hoperand] at h
      have hchecks : i.opcode? ≠ some .jumpv ∧ i.opcode? ≠ some .jumpvi := by
        rw [ne_eq, ne_eq, opcode?_eq_some_iff, opcode?_eq_some_iff]
        exact ⟨hjumpv, hjumpvi⟩
      rcases position_of_act hchecks h with hnext | ⟨dest, hverify⟩
      · refine .of_position_eq here (by rw [start, hnext]) fun v hv => ?_
        rw [pushValue?_eq_some_iff, hoperand] at hv
        cases hv
      · exact .of_mem_dests sound (JumpTable.verify_eq_ok_iff.mp hverify).2.2

/-- An aligned machine makes the same step on quickened code. -/
theorem Aligned.step_quicken (sound : code.Sound) (config : QuickenConfig)
    (aligned : Aligned code m) : m.step (code.quicken config) f = m.step code.keep f := by
  cases aligned with
  | behind hbehind =>
    obtain ⟨hnew, hkeep⟩ := decode?_of_length_le sound config hbehind
    rw [step, step, hkeep, hnew]
  | atStart k i here start told =>
    have hmem := List.mem_of_getElem? here
    have hplain := (sound.plain i hmem).1
    have hkeep := decode?_keep here
    have hnew := decode?_quicken sound config here
    rw [start] at hkeep hnew
    rcases replacement_cases (code.quickenContext config) (code.quicken config).pool
        (pushedBefore code.layout k) i with
      ⟨w, hw, -, hi, hpush, h⟩ | ⟨j, w, -, hj, hpushed, hvalid, h⟩ | h
    · -- the pooled push finds the word of the push that it replaces, and is as long
      have hconstant : (code.quicken config).constant
          (UInt8.ofNat ((code.quicken config).pool.entries.idxOf w)) = .ok w :=
        ConstantPool.get_idxOf hw
      have hsize := size_toPooled (UInt8.ofNat ((code.quicken config).pool.entries.idxOf w))
        (two_le_pushWidth_of_isPoolable hi) (sound.whole i hmem)
      rw [h] at hnew
      rw [step_of_pooled f hnew rfl hconstant,
        step_of_value f hkeep (pushValue?_eq_some_iff.mp hpush), push, push, hsize]
    · -- the jump is told by the push before it, whose word is on the stack
      obtain ⟨hnone, -, hnone', hplain', -⟩ := plain_of_resolved? hj
      obtain ⟨stack, hstack⟩ := List.head?_eq_some_iff.mp (told (by rw [hj]; rfl) w hpushed)
      have hlegal : (code.quicken config).jumpTable.isValid w = true := hvalid
      rw [h] at hnew
      rw [step_of_absent f hnew (operand_eq_absent hplain' hnone'),
        step_of_absent f hkeep (operand_eq_absent hplain hnone), m.act_resolved f hj hstack hlegal]
      exact m.act_congr f i rfl
    · rw [h] at hnew
      cases hoperand : i.operand with
      | pooled index => exact absurd hoperand (operand_ne_pooled hplain index)
      | oversized => rw [step_of_oversized f hnew hoperand, step_of_oversized f hkeep hoperand]
      | value w => rw [step_of_value f hnew hoperand, step_of_value f hkeep hoperand]
      | absent =>
        rw [step_of_absent f hnew hoperand, step_of_absent f hkeep hoperand]
        exact m.act_congr f i rfl

theorem Aligned.metric?_quicken (sound : code.Sound) (config : QuickenConfig)
    (aligned : Aligned code m) : m.metric? (code.quicken config) = m.metric? code.keep := by
  cases aligned with
  | behind hbehind =>
    obtain ⟨hnew, hkeep⟩ := decode?_of_length_le sound config hbehind
    rw [metric?, metric?, hkeep, hnew]
    rfl
  | atStart k i here start _ =>
    have hkeep := decode?_keep here
    have hnew := decode?_quicken sound config here
    rw [start] at hkeep hnew
    rw [metric?, metric?, hkeep, hnew]
    exact congrArg some (metric_replacement ..)

/-! ## Runs -/

theorem Aligned.of_run (sound : code.Sound) {n : Nat} (aligned : Aligned code m)
    (h : m.run code.keep f n = .ok next) : Aligned code next := by
  induction n generalizing m with
  | zero =>
    cases h
    exact aligned
  | succ n ih =>
    rw [run] at h
    split at h
    case h_1 mid hstep => exact ih (aligned.of_step sound hstep) h
    case h_2 => cases h

/-- An aligned machine makes the same run on quickened code. -/
theorem Aligned.run_quicken (sound : code.Sound) (config : QuickenConfig) (n : Nat)
    (aligned : Aligned code m) : m.run (code.quicken config) f n = m.run code.keep f n := by
  induction n generalizing m with
  | zero => rfl
  | succ n ih =>
    rw [run, run, aligned.step_quicken sound config]
    cases hstep : m.step code.keep f with
    | error _ => rfl
    | ok mid => exact ih (aligned.of_step sound hstep)

end Sound

end Machine

/-- Quickening never changes what a program does.  Whatever the other instructions mean and
however the machine starts, after every number of steps the machine on quickened code is where
the machine on the code as it was is, with the same stack and the same rest, or has halted for
the same reason; and at every step both are about to run instructions of the same price and
effect. -/
theorem quicken_lock_step {σ : Type} (program : List UInt8) (config : QuickenConfig)
    (f : Interpretation σ) (stack : List Word) (rest : σ) (n : Nat) :
    let analyzed := (RawCode.ofProgram program).analyze
    let m := Machine.start stack rest
    m.run (analyzed.quicken config) f n = m.run analyzed.keep f n
      ∧ ∀ next, m.run analyzed.keep f n = .ok next →
        next.metric? (analyzed.quicken config) = next.metric? analyzed.keep := by
  intro analyzed m
  have sound : analyzed.Sound := sound_analyze program
  have aligned : m.Aligned analyzed := .start analyzed stack rest
  refine ⟨aligned.run_quicken sound config n, fun next h => ?_⟩
  exact (aligned.of_run sound h).metric?_quicken sound config

end EvmPrep
