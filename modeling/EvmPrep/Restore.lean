import EvmPrep.Code
set_option autoImplicit false

/-!
# Undoing quickening

Quickening loses nothing: the instruction that a quick one stands for can be told from
the prepared code and its pool.  A pooled push gives its width by its size and
its word by its index; an unchecked jump stands for the jump that checks.
-/

namespace EvmPrep

/-- The jump that an unchecked jump stands for. -/
def Opcode.dynamic? : Opcode → Option Opcode
  | .jumpv => some .jump
  | .jumpvi => some .jumpi
  | _ => none

/-- The instruction that a prepared one stands for.  A pooled push becomes a push of the constant,
as wide as the pooled one; an index without a constant is left as it is. -/
def Instruction.restored (pool : ConstantPool) (i : Instruction) : Instruction :=
  match i.poolIndex? with
  | some index =>
    match pool.get index with
    | .ok w =>
      { i with
        byte := 0x5f + UInt8.ofNat i.immediate.length
        immediate := bytesOfNat i.immediate.length w.toNat }
    | .error _ => i
  | none =>
    match i.opcode?.bind Opcode.dynamic? with
    | some o => { i with byte := o.toByte }
    | none => i

/-- The bytes of the restored instructions in a row. -/
def PreparedCode.restoredBytes (code : PreparedCode) : List UInt8 :=
  code.instructions.flatMap fun i => (i.restored code.pool).bytes

/-- The program before it was quickened. -/
def PreparedCode.restoredProgram (code : PreparedCode) : List UInt8 :=
  code.restoredBytes.take code.len

end EvmPrep
