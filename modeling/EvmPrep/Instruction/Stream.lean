import EvmPrep.Instruction.Basic
set_option autoImplicit false

/-!
# Code cut into instructions

A *width rule* says how many immediate bytes follow an opcode byte.  Cutting code by
a rule walks it from the front: read a byte, take as many of the following bytes as
the rule asks for (or as there are), go on behind them.

There are two rules.  In source code only pushes have immediates (`sourceWidth`).  In
prepared code a pooled push also has one: it fills the room of the push that it
replaced, whose width less one is its second immediate byte (`preparedWidth`).

Nothing is lost or repeated by cutting (`flatMap_bytes_cut`), offsets grow from one
instruction to the next (`pairwise_offset_cut`), and where the code stands does not
matter for how it is cut (`cut_add`).  `cut_cons` says what one step does; proofs go
by it (`cutInduction`) and never open the loop behind it.
-/

namespace EvmPrep

/-! ## Width rules -/

/-- The immediate width of an opcode byte, which may depend on the bytes behind it. -/
abbrev WidthRule : Type := UInt8 → List UInt8 → Nat

/-- Only pushes have an immediate. -/
def sourceWidth : WidthRule := fun b _ => pushWidth b

/-- A pooled push has an immediate as wide as its second immediate byte says; where the code ends
before that byte, both operand bytes are asked for. -/
def preparedWidth : WidthRule := fun b rest =>
  if b = Opcode.pushc.toByte then
    match rest[1]? with
    | some w => w.toNat + 1
    | none => 2
  else pushWidth b

/-! ## Cutting -/

/-- Walks the code at `offset`, stepping over `skip` bytes that belong to the last instruction in
`done`. -/
def cutOnto (rule : WidthRule) (done : Array Instruction) (skip offset : Nat) :
    List UInt8 → Array Instruction
  | [] => done
  | b :: rest =>
    match skip with
    | skip + 1 => cutOnto rule done skip (offset + 1) rest
    | 0 =>
      let width := rule b rest
      cutOnto rule (done.push ⟨offset, b, rest.take width⟩) width (offset + 1) rest

/-- The instructions of `code`, the first of which stands at `offset`. -/
def cut (rule : WidthRule) (offset : Nat) (code : List UInt8) : List Instruction :=
  (cutOnto rule #[] 0 offset code).toList

theorem toList_cutOnto (rule : WidthRule) (done : Array Instruction) (skip offset : Nat)
    (code : List UInt8) :
    (cutOnto rule done skip offset code).toList
      = done.toList ++ (cutOnto rule #[] skip offset code).toList := by
  induction code generalizing done skip offset with
  | nil => simp [cutOnto]
  | cons b rest ih =>
    cases skip with
    | succ skip => exact ih done skip (offset + 1)
    | zero =>
      simp only [cutOnto]
      rw [ih, ih (#[].push _)]
      simp

theorem cutOnto_skip (rule : WidthRule) (done : Array Instruction) (skip offset : Nat)
    (code : List UInt8) :
    cutOnto rule done skip offset code
      = cutOnto rule done 0 (offset + skip) (code.drop skip) := by
  induction code generalizing skip offset with
  | nil => simp [cutOnto]
  | cons b rest ih =>
    cases skip with
    | zero => rfl
    | succ skip =>
      simp only [cutOnto, List.drop_succ_cons]
      rw [ih skip (offset + 1), Nat.add_right_comm, Nat.add_assoc]

@[simp] theorem cut_nil (rule : WidthRule) (offset : Nat) : cut rule offset [] = [] := rfl

/-- One step: the first instruction, and what is cut behind it. -/
theorem cut_cons (rule : WidthRule) (offset : Nat) (b : UInt8) (rest : List UInt8) :
    cut rule offset (b :: rest)
      = ⟨offset, b, rest.take (rule b rest)⟩
        :: cut rule (offset + 1 + rule b rest) (rest.drop (rule b rest)) := by
  simp only [cut, cutOnto]
  rw [toList_cutOnto, cutOnto_skip]
  simp

/-- Induction along the instructions of code: what holds of the empty code, and of code if it holds
behind its first instruction, holds of all code. -/
theorem cutInduction {motive : List UInt8 → Prop} (rule : WidthRule) (nil : motive [])
    (cons : ∀ b rest, motive (rest.drop (rule b rest)) → motive (b :: rest)) :
    ∀ code, motive code
  | [] => nil
  | b :: rest => cons b rest (cutInduction rule nil cons (rest.drop (rule b rest)))
termination_by code => code.length
decreasing_by simp only [List.length_drop, List.length_cons]; omega

/-- The instructions in a row are the code. -/
theorem flatMap_bytes_cut (rule : WidthRule) (offset : Nat) (code : List UInt8) :
    (cut rule offset code).flatMap Instruction.bytes = code := by
  induction code using cutInduction rule generalizing offset with
  | nil => rfl
  | cons b rest ih =>
    rw [cut_cons, List.flatMap_cons, ih, Instruction.bytes, List.cons_append,
      List.take_append_drop]

theorem le_offset_of_mem_cut {rule : WidthRule} {offset : Nat} {code : List UInt8}
    {i : Instruction} (h : i ∈ cut rule offset code) : offset ≤ i.offset := by
  induction code using cutInduction rule generalizing offset with
  | nil => cases h
  | cons b rest ih =>
    rw [cut_cons] at h
    rcases List.mem_cons.mp h with rfl | h
    · exact Nat.le_refl _
    · have := ih h
      omega

theorem pairwise_offset_cut (rule : WidthRule) (offset : Nat) (code : List UInt8) :
    (cut rule offset code).Pairwise (fun i j => i.offset < j.offset) := by
  induction code using cutInduction rule generalizing offset with
  | nil => exact List.Pairwise.nil
  | cons b rest ih =>
    rw [cut_cons, List.pairwise_cons]
    refine ⟨fun j hj => ?_, ih _⟩
    have := le_offset_of_mem_cut hj
    show offset < j.offset
    omega

/-- The instruction `k` bytes further on. -/
def Instruction.shift (k : Nat) (i : Instruction) : Instruction := { i with offset := i.offset + k }

/-- Code that stands further on is cut in the same way. -/
theorem cut_add (rule : WidthRule) (offset k : Nat) (code : List UInt8) :
    cut rule (offset + k) code = (cut rule offset code).map (Instruction.shift k) := by
  induction code using cutInduction rule generalizing offset with
  | nil => rfl
  | cons b rest ih =>
    have hnext : offset + k + 1 + rule b rest = offset + 1 + rule b rest + k := by omega
    rw [cut_cons, cut_cons, List.map_cons, hnext, ih]
    rfl

/-! ## Prepared code -/

/-- The instruction that stands at `offset`, if the code reaches that far. -/
def Instruction.decode? (code : List UInt8) (offset : Nat) : Option Instruction :=
  match code.drop offset with
  | [] => none
  | b :: rest => some ⟨offset, b, rest.take (preparedWidth b rest)⟩

/-- The instructions of prepared code that start before `stop`.  The last of them may reach beyond
`stop` with its immediate. -/
def instructionsBefore (code : List UInt8) (stop : Nat) : List Instruction :=
  (cut preparedWidth 0 code).takeWhile fun i => i.offset < stop

theorem Instruction.decode?_eq_none_iff {code : List UInt8} {offset : Nat} :
    Instruction.decode? code offset = none ↔ code.length ≤ offset := by
  unfold Instruction.decode?
  split
  · rename_i h
    simpa using h
  · rename_i b rest h
    have := congrArg List.length h
    simp only [List.length_drop, List.length_cons] at this
    constructor
    · intro h; cases h
    · intro h; omega

end EvmPrep
