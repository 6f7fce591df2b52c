import Mathlib.Data.List.Nodup
import EvmPrep.Proofs.Restored
import EvmPrep.Proofs.TextLines
set_option autoImplicit false

/-!
# Assembly text says everything

A line of a compact listing is a name and perhaps a number.  It says neither where the
instruction stands nor with how many zeros its immediate begins.  All the same, for
analyzed code it says everything (`compact_listing_exact`).

The name is all that stands in front of the first blank, and no two bytes have one name
(`Instruction.mnemonic_eq_iff`): the names of the instructions differ, and the text of a
byte that names none holds a bracket and the byte.  The byte of a push tells how wide its
immediate is, since none is cut short, and then the number tells the immediate.  There is
no pooled push, whose width the text would not tell.  Where an instruction stands follows
from the sizes of those before it.
-/

namespace EvmPrep

/-! ## Names -/

/-- The characters of a name as the digits of a number. -/
def nameNumber (name : String) : Nat := name.toList.foldl (fun n c => 128 * n + c.toNat) 0

theorem Opcode.mem_all (o : Opcode) : o ∈ all := List.mem_of_find?_eq_some (ofByte?_toByte o)

theorem Opcode.nodup_nameNumber : (all.map fun o => nameNumber o.mnemonic).Nodup := by
  decide +kernel

/-- No two instructions have one name. -/
theorem Opcode.mnemonic_injective {o p : Opcode} (h : o.mnemonic = p.mnemonic) : o = p :=
  List.inj_on_of_nodup_map nodup_nameNumber o.mem_all p.mem_all (congrArg nameNumber h)

theorem Hex.byte_injective {b c : UInt8} (h : byte b = byte c) : b = c := by
  have hbytes : bytes [b] = bytes [c] := by
    rw [bytes, bytes, List.flatMap_singleton, List.flatMap_singleton, h]
  have hread := congrArg bytes? hbytes
  rw [bytes?_bytes, bytes?_bytes] at hread
  exact List.singleton_inj.mp (Option.some.inj hread)

namespace Instruction

variable {i j : Instruction}

theorem mnemonic_of_opcode? {o : Opcode} (h : i.opcode? = some o) : i.mnemonic = o.mnemonic := by
  rw [mnemonic, h]

theorem bracket_mem_mnemonic (h : i.opcode? = none) : '(' ∈ i.mnemonic.toList := by
  rw [mnemonic, h]
  simp

theorem mnemonic_eq_iff : i.mnemonic = j.mnemonic ↔ i.byte = j.byte := by
  constructor
  · intro h
    have hbracket : ∀ o : Opcode, '(' ∉ o.mnemonic.toList := fun o =>
      o.madeOf_mnemonic.notMem (by decide)
    cases hi : i.opcode? with
    | some o =>
      rw [mnemonic_of_opcode? hi] at h
      cases hj : j.opcode? with
      | some p =>
        rw [mnemonic_of_opcode? hj] at h
        obtain rfl := Opcode.mnemonic_injective h
        exact (opcode?_eq_some_iff.mp hi).trans (opcode?_eq_some_iff.mp hj).symm
      | none => exact absurd (h ▸ bracket_mem_mnemonic hj) (hbracket o)
    | none =>
      cases hj : j.opcode? with
      | some p =>
        rw [mnemonic_of_opcode? hj] at h
        exact absurd (h ▸ bracket_mem_mnemonic hi) (hbracket p)
      | none =>
        rw [mnemonic, mnemonic, hi, hj] at h
        have hchars := congrArg String.toList h
        simp only [String.toList_append, String.toList_ofList] at hchars
        exact Hex.byte_injective
          (List.append_cancel_left (List.append_cancel_right hchars))
  · intro h
    rw [mnemonic, mnemonic, opcode?, opcode?, h]

/-! ## Operands -/

theorem takeWhile_text (i : Instruction) :
    i.text.toList.takeWhile (· != ' ') = i.mnemonic.toList := by
  have hname : ∀ c ∈ i.mnemonic.toList, (c != ' ') = true :=
    i.madeOf_mnemonic.bne_of_mem (by decide)
  have hoperand : i.operandText.toList.takeWhile (· != ' ') = [] := by
    unfold operandText
    cases i.operand <;> simp
  rw [text_eq_append, String.toList_append, List.takeWhile_append_of_pos hname, hoperand,
    List.append_nil]

theorem of_text_eq (h : i.text = j.text) : i.byte = j.byte ∧ i.operandText = j.operandText := by
  have hname : i.mnemonic = j.mnemonic := by
    rw [← String.toList_inj, ← takeWhile_text, ← takeWhile_text, h]
  refine ⟨mnemonic_eq_iff.mp hname, ?_⟩
  rw [text_eq_append, text_eq_append, hname, ← String.toList_inj, String.toList_append,
    String.toList_append] at h
  exact String.toList_inj.mp (List.append_cancel_left h)

theorem operandText_of_pushValue? {w : Word} (h : i.pushValue? = some w) :
    i.operandText = " " ++ w.text := by
  rw [operandText, pushValue?_eq_some_iff.mp h]

end Instruction

/-- Pushes of one width that have the same operand text have the same immediate. -/
theorem immediate_eq_of_operandText_eq {i j : Instruction} {v w : Word}
    (hi : i.pushValue? = some v) (hj : j.pushValue? = some w)
    (width : i.immediate.length = j.immediate.length)
    (same : i.operandText = j.operandText) : i.immediate = j.immediate := by
  rw [Instruction.operandText_of_pushValue? hi, Instruction.operandText_of_pushValue? hj,
    ← String.toList_inj, String.toList_append, String.toList_append] at same
  have hword : v = w := Word.text_injective (String.toList_inj.mp (List.append_cancel_left same))
  calc i.immediate
      = bytesOfNat i.immediate.length v.toNat := by
        rw [Word.toNat_of_ofBytes? (ofBytes?_of_pushValue? hi), bytesOfNat_natOfBytes]
    _ = bytesOfNat j.immediate.length w.toNat := by rw [width, hword]
    _ = j.immediate := by
        rw [Word.toNat_of_ofBytes? (ofBytes?_of_pushValue? hj), bytesOfNat_natOfBytes]

/-! ## Rows of instructions -/

theorem Chained.eq_of_map_bytes_eq {offset : Nat} {is js : List Instruction}
    (hi : Chained offset is) (hj : Chained offset js)
    (same : is.map Instruction.bytes = js.map Instruction.bytes) : is = js := by
  induction is generalizing offset js with
  | nil => exact (List.map_eq_nil_iff.mp same.symm).symm
  | cons i rest ih =>
    cases js with
    | nil => cases same
    | cons j more =>
      obtain ⟨hhead, htail⟩ := List.cons.inj same
      obtain ⟨hbyte, himmediate⟩ := List.cons.inj hhead
      obtain ⟨hoffset, hrest⟩ := hi
      obtain ⟨hoffset', hmore⟩ := hj
      have hij : i = j := by
        cases i
        cases j
        cases hbyte
        cases himmediate
        cases hoffset.trans hoffset'.symm
        rfl
      subst hij
      rw [ih hrest hmore htail]

/-- If what instructions are told by decides something else about them, it does so in rows. -/
theorem map_eq_map_of_forall_mem {α β : Type} {is js : List Instruction} {f : Instruction → α}
    {g : Instruction → β} (same : is.map f = js.map f)
    (decides : ∀ i ∈ is, ∀ j ∈ js, f i = f j → g i = g j) : is.map g = js.map g := by
  induction is generalizing js with
  | nil => rw [List.map_eq_nil_iff.mp same.symm]
  | cons i rest ih =>
    cases js with
    | nil => cases same
    | cons j more =>
      obtain ⟨hhead, htail⟩ := List.cons.inj same
      rw [List.map_cons, List.map_cons,
        decides i (List.mem_cons_self ..) j (List.mem_cons_self ..) hhead,
        ih htail fun i' hi' j' hj' =>
          decides i' (List.mem_cons_of_mem _ hi') j' (List.mem_cons_of_mem _ hj')]

namespace AnalyzedCode.Sound

variable {code code' : AnalyzedCode} {i j : Instruction}

/-- In sound code an instruction's text tells its bytes. -/
theorem bytes_eq_of_text_eq (sound : code.Sound) (sound' : code'.Sound) (hi : i ∈ code.layout)
    (hj : j ∈ code'.layout) (same : i.text = j.text) : i.bytes = j.bytes := by
  obtain ⟨hbyte, hoperand⟩ := Instruction.of_text_eq same
  have hwidth : i.immediate.length = j.immediate.length := by
    rw [sound.whole i hi, sound'.whole j hj, hbyte]
  have himmediate : i.immediate = j.immediate := by
    by_cases hpush : pushWidth i.byte = 0
    · have hnone : i.immediate = [] :=
        List.length_eq_zero_iff.mp ((sound.whole i hi).trans hpush)
      rw [hnone, List.length_nil] at hwidth
      rw [hnone, List.length_eq_zero_iff.mp hwidth.symm]
    · exact immediate_eq_of_operandText_eq (sound.pushValue?_eq hi hpush)
        (sound'.pushValue?_eq hj (hbyte ▸ hpush)) hwidth hoperand
  rw [Instruction.bytes, Instruction.bytes, hbyte, himmediate]

/-- Sound code is told by the texts of its instructions. -/
theorem instructions_eq_of_map_text_eq (sound : code.Sound) (sound' : code'.Sound)
    (same : code.instructions.map Instruction.text = code'.instructions.map Instruction.text) :
    code.instructions = code'.instructions :=
  code.chained_instructions.eq_of_map_bytes_eq code'.chained_instructions
    (map_eq_map_of_forall_mem same fun _ hi _ hj =>
      sound.bytes_eq_of_text_eq sound' (mem_layout_of_mem_instructions hi)
        (mem_layout_of_mem_instructions hj))

end AnalyzedCode.Sound

/-! ## Programs -/

theorem CodeBuffer.program_eq_take {b : CodeBuffer} (fits : b.len ≤ b.bytes.length) :
    b.program = (b.instructions.flatMap Instruction.bytes).take b.len := by
  rw [flatMap_bytes_instructions, List.take_take, Nat.min_eq_left (len_le_listingEnd fits), program]

theorem instructions_analyze_of_program_eq {program program' : List UInt8}
    (same : (RawCode.ofProgram program).analyze.program
      = (RawCode.ofProgram program').analyze.program) :
    (RawCode.ofProgram program).analyze.instructions
      = (RawCode.ofProgram program').analyze.instructions := by
  have hlen : (RawCode.ofProgram program).analyze.len
      = (RawCode.ofProgram program').analyze.len := by
    rw [← CodeBuffer.length_program (padding_analyze program), same,
      CodeBuffer.length_program (padding_analyze program')]
  have hbytes : (RawCode.ofProgram program).analyze.bytes
      = (RawCode.ofProgram program').analyze.bytes := by
    rw [CodeBuffer.bytes_eq_program_append (padding_analyze program), same,
      ← CodeBuffer.bytes_eq_program_append (padding_analyze program')]
  rw [CodeBuffer.instructions, CodeBuffer.instructions, hbytes, hlen]

/-- The compact listing of analyzed code is the code.  Two analyzed programs have the same listing
if and only if they have the same instructions, each with its offset, its byte and its whole
immediate; and they are the same, byte for byte, if and only if they have the same listing and
the same length. -/
theorem compact_listing_exact (program program' : List UInt8) (o o' : ListingOptions) :
    let analyzed := (RawCode.ofProgram program).analyze
    let analyzed' := (RawCode.ofProgram program').analyze
    let listing := ListingOptions.render { o with format := .compact } analyzed.listingSource
    let listing' := ListingOptions.render { o' with format := .compact } analyzed'.listingSource
    (listing = listing' ↔ analyzed.instructions = analyzed'.instructions)
      ∧ (listing = listing' ∧ program.length = program'.length
        ↔ analyzed.program = analyzed'.program) := by
  intro analyzed analyzed' listing listing'
  have hlisted : listing = listing' ↔ analyzed.instructions = analyzed'.instructions := by
    constructor
    · intro h
      exact (sound_analyze program).instructions_eq_of_map_text_eq (sound_analyze program')
        (render_eq_render_iff.mp h)
    · intro h
      exact render_eq_render_iff.mpr (congrArg (List.map Instruction.text) h)
  refine ⟨hlisted, ?_⟩
  constructor
  · rintro ⟨h, hlength⟩
    have hlen : analyzed.len = analyzed'.len := hlength
    rw [CodeBuffer.program_eq_take (len_le_length_bytes_analyze program),
      CodeBuffer.program_eq_take (len_le_length_bytes_analyze program')]
    exact congr (congrArg _ hlen) (congrArg _ (hlisted.mp h))
  · intro h
    refine ⟨hlisted.mpr (instructions_analyze_of_program_eq h), ?_⟩
    calc program.length
        = analyzed.program.length := (CodeBuffer.length_program (padding_analyze program)).symm
      _ = analyzed'.program.length := by rw [h]
      _ = program'.length := CodeBuffer.length_program (padding_analyze program')

end EvmPrep
