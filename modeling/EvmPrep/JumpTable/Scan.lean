import EvmPrep.Instruction.Stream
import EvmPrep.JumpTable.Basic
set_option autoImplicit false

/-!
# The scan of source code

A jump may go to a `JUMPDEST` instruction and nowhere else; a byte inside an
immediate is no instruction, whatever its value.  `JumpTable.ofCode` collects the
legal destinations of source code.

Source code is also disarmed before use: wherever an instruction bears a synthetic
byte, that byte becomes the one of the trap (`disarm`), so that untrusted code can
never use an instruction that trusts its operand.  The table counts the bytes that
are disarmed.

A trap has no immediate and neither has what it replaces, so that disarmed code is
cut where the code was cut (`cut_disarm`).
-/

namespace EvmPrep

/-! ## Definitions -/

/-- The instruction is a legal destination of jumps. -/
def Instruction.isTarget (i : Instruction) : Bool := i.byte == Opcode.jumpdest.toByte

/-- The instruction with a synthetic byte replaced by the trap. -/
def Instruction.disarmed (i : Instruction) : Instruction :=
  if isSynthetic i.byte then { i with byte := Opcode.bad.toByte } else i

/-- Source code with every synthetic instruction replaced by the trap; immediates stay as they
are. -/
def disarm (code : List UInt8) : List UInt8 :=
  (cut sourceWidth 0 code).flatMap fun i => i.disarmed.bytes

/-- The legal destinations of source code. -/
def JumpTable.ofCode (code : List UInt8) : JumpTable where
  dests := (((cut sourceWidth 0 code).filter Instruction.isTarget).map Instruction.offset).toArray
  trapped := (cut sourceWidth 0 code).countP fun i => isSynthetic i.byte
  increasing := by
    rw [List.pairwise_map]
    exact (pairwise_offset_cut sourceWidth 0 code).filter _

/-! ## Disarmed code -/

theorem pushWidth_byte_disarmed (i : Instruction) :
    pushWidth i.disarmed.byte = pushWidth i.byte := by
  unfold Instruction.disarmed
  split
  · rename_i hsynthetic
    rw [pushWidth_of_isSynthetic hsynthetic]
    exact (by decide : pushWidth Opcode.bad.toByte = 0)
  · rfl

@[simp] theorem offset_disarmed (i : Instruction) : i.disarmed.offset = i.offset := by
  unfold Instruction.disarmed
  split <;> rfl

theorem disarm_cons (b : UInt8) (rest : List UInt8) :
    disarm (b :: rest)
      = (Instruction.disarmed ⟨0, b, rest.take (pushWidth b)⟩).bytes
        ++ disarm (rest.drop (pushWidth b)) := by
  have hshift : ∀ (k : Nat) (i : Instruction),
      (i.shift k).disarmed.bytes = i.disarmed.bytes := by
    intro k i
    unfold Instruction.disarmed Instruction.shift
    split <;> rfl
  have hcut := cut_add sourceWidth 0 (0 + 1 + pushWidth b) (rest.drop (pushWidth b))
  rw [Nat.zero_add] at hcut
  simp only [disarm, cut_cons, sourceWidth, List.flatMap_cons] at hcut ⊢
  rw [hcut, List.flatMap_map]
  simp only [hshift]

/-- Disarmed code is cut where the code was cut, into the disarmed instructions. -/
theorem cut_disarm (offset : Nat) (code : List UInt8) :
    cut sourceWidth offset (disarm code)
      = (cut sourceWidth offset code).map Instruction.disarmed := by
  induction code using cutInduction sourceWidth generalizing offset with
  | nil => rfl
  | cons b rest ih =>
    obtain ⟨c, hc⟩ : ∃ c, Instruction.disarmed ⟨0, b, rest.take (pushWidth b)⟩
        = ⟨0, c, rest.take (pushWidth b)⟩ := by
      unfold Instruction.disarmed
      split <;> exact ⟨_, rfl⟩
    have hc' : Instruction.disarmed ⟨offset, b, rest.take (pushWidth b)⟩
        = ⟨offset, c, rest.take (pushWidth b)⟩ := by
      unfold Instruction.disarmed at hc ⊢
      split at hc <;> simp_all
    have hwidth : pushWidth c = pushWidth b := by
      have := pushWidth_byte_disarmed ⟨0, b, rest.take (pushWidth b)⟩
      rwa [hc] at this
    have hlen : (rest.take (pushWidth b)).length = pushWidth b
        ∨ rest.drop (pushWidth b) = [] := by
      rcases Nat.le_total (pushWidth b) rest.length with h | h
      · exact .inl (List.length_take_of_le h)
      · exact .inr (List.drop_eq_nil_of_le h)
    rw [disarm_cons, hc, Instruction.bytes, List.cons_append, cut_cons, cut_cons, List.map_cons]
    simp only [sourceWidth, hwidth] at ih ⊢
    rw [hc', ← ih]
    rcases hlen with h | h
    · rw [List.take_left' h, List.drop_left' h]
    · have hshort : rest.length ≤ pushWidth b := List.drop_eq_nil_iff.mp h
      simp [h, disarm, List.take_of_length_le hshort]

theorem length_disarm (code : List UInt8) : (disarm code).length = code.length := by
  have same : ∀ i : Instruction, i.disarmed.bytes.length = i.bytes.length := by
    intro i
    unfold Instruction.disarmed
    split <;> rfl
  conv => rhs; rw [← flatMap_bytes_cut sourceWidth 0 code]
  simp only [disarm, List.length_flatMap, same]

end EvmPrep
