import EvmPrep.Word
import EvmPrep.Opcode.Basic
set_option autoImplicit false

/-!
# Instructions in place

An instruction in a program is a byte at an offset, together with the immediate
bytes that follow it.  The byte need not name anything: code is untrusted.

What an instruction has to offer beside its byte is its operand.  A push spells the
word that it pushes, most significant byte first; where the code ends in the middle
of the immediate the missing bytes are not there and do not count.  A pooled push
names a constant by its first immediate byte.  An immediate of a push that is too
long for a word is `oversized`; cutting code into instructions never makes one.
-/

namespace EvmPrep

/-- An instruction at its place in a program. -/
structure Instruction where
  /-- where its byte stands -/
  offset : Nat
  /-- the byte that names it, or names nothing -/
  byte : UInt8
  /-- the bytes that follow and belong to it -/
  immediate : List UInt8
  deriving DecidableEq, Repr, Inhabited

/-- What an instruction's immediate means. -/
inductive Operand where
  /-- nothing -/
  | absent
  /-- the word that is pushed -/
  | value (w : Word)
  /-- the constant that is pushed, by its place in the pool -/
  | pooled (index : UInt8)
  /-- more bytes than a word has -/
  | oversized
  deriving DecidableEq, Repr, Inhabited

namespace Instruction

/-- The instruction that the byte names. -/
def opcode? (i : Instruction) : Option Opcode := Opcode.ofByte? i.byte

/-- The bytes occupied. -/
def size (i : Instruction) : Nat := i.immediate.length + 1

/-- The instruction as it stands in code. -/
def bytes (i : Instruction) : List UInt8 := i.byte :: i.immediate

/-- The byte is that of the pooled push. -/
def isPooled (i : Instruction) : Bool := i.byte == Opcode.pushc.toByte

/-- The instruction is a push with an immediate of its own. -/
def isPush (i : Instruction) : Bool := pushWidth i.byte != 0

/-- The meaning of the immediate. -/
def operand (i : Instruction) : Operand :=
  if i.isPooled then
    match i.immediate with
    | [] => .absent
    | index :: _ => .pooled index
  else if i.isPush then
    match Word.ofBytes? i.immediate with
    | some w => .value w
    | none => .oversized
  else .absent

/-- The word that a push with an immediate of its own pushes. -/
def pushValue? (i : Instruction) : Option Word :=
  match i.operand with
  | .value w => some w
  | _ => none

/-- The place in the pool that a pooled push names. -/
def poolIndex? (i : Instruction) : Option UInt8 :=
  match i.operand with
  | .pooled index => some index
  | _ => none

@[simp] theorem length_bytes (i : Instruction) : i.bytes.length = i.size := rfl

theorem size_pos (i : Instruction) : 0 < i.size := Nat.succ_pos _

/-! ## Text -/

/-- The name of the instruction; a byte that names none is shown in base sixteen. -/
def mnemonic (i : Instruction) : String :=
  match i.opcode? with
  | some o => o.mnemonic
  | none => "INVALID(0x" ++ String.ofList (Hex.byte i.byte) ++ ")"

/-- The instruction as a line of assembly: its name, and its operand if it has one. -/
def text (i : Instruction) : String :=
  match i.operand with
  | .pooled index => i.mnemonic ++ " #" ++ toString index.toNat
  | .value w => i.mnemonic ++ " " ++ w.text
  | .absent | .oversized => i.mnemonic

/-- The bytes of the instruction, two digits each, with single blanks between them. -/
def hexColumn (i : Instruction) : String :=
  String.ofList (Hex.byte i.byte ++ i.immediate.flatMap fun b => ' ' :: Hex.byte b)

end Instruction

end EvmPrep
