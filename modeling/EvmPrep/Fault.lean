import EvmPrep.Word
import EvmPrep.Opcode.Basic
set_option autoImplicit false

/-!
# Faults

Preparing a program never fails.  Questions about a program can: a byte need not
name an instruction, a word need not be a legal destination, and an index need not
reach into a pool.  Each fault carries what was asked for, and `Fault.message` is
the one place that words it.
-/

namespace EvmPrep

/-- Why a question has no answer. -/
inductive Fault where
  /-- the byte names no instruction -/
  | invalidOpcode (byte : UInt8)
  /-- the word is no legal destination -/
  | invalidJump (dest : Word)
  /-- the pool has no entry at the index, only `size` entries -/
  | invalidConstantIndex (index : UInt8) (size : Nat)
  deriving DecidableEq, Repr, Inhabited

/-- The fault in words. -/
def Fault.message : Fault → String
  | .invalidOpcode byte => "Invalid opcode: 0x" ++ String.ofList (Hex.byte byte)
  | .invalidJump dest => "Invalid jump destination: " ++ dest.text
  | .invalidConstantIndex index size =>
    "Invalid constant index " ++ toString index.toNat ++ " for pool of " ++ toString size
      ++ " entries"

/-- The instruction that the byte `b` names; a byte that names none is a fault. -/
def Opcode.ofByte (b : UInt8) : Except Fault Opcode :=
  match Opcode.ofByte? b with
  | some o => .ok o
  | none => .error (.invalidOpcode b)

end EvmPrep
