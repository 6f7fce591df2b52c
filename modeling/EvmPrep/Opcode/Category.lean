import EvmPrep.Opcode.Basic
set_option autoImplicit false

/-!
# Categories of instructions

Six categories tell a dispatcher how to treat an instruction; one instruction can
belong to several or to none.  A set of categories is six bits, the first category
in the lowest bit (`CategorySet`).
-/

namespace EvmPrep

/-- What an instruction can be. -/
inductive Category where
  /-- carries an immediate operand -/
  | push
  /-- moves control to a destination taken from the stack -/
  | jump
  /-- a legal destination of jumps -/
  | jumpTarget
  /-- control never goes on to the next instruction -/
  | terminator
  /-- never legal in source code -/
  | synthetic
  /-- changes state outside the machine -/
  | sideEffects
  deriving DecidableEq, Repr, Inhabited

namespace Category

/-- The categories, lowest bit first. -/
def all : List Category := [push, jump, jumpTarget, terminator, synthetic, sideEffects]

/-- The bit that stands for the category. -/
def bit : Category → BitVec 6
  | push => 1
  | jump => 2
  | jumpTarget => 4
  | terminator => 8
  | synthetic => 16
  | sideEffects => 32

/-- The name that stands in reports. -/
def name : Category → String
  | push => "PUSH"
  | jump => "JUMP"
  | jumpTarget => "JUMP_TARGET"
  | terminator => "TERMINATOR"
  | synthetic => "SYNTHETIC"
  | sideEffects => "SIDE_EFFECTS"

end Category

/-! ## Sets -/

/-- A set of categories. -/
structure CategorySet where
  bits : BitVec 6
  deriving DecidableEq, Repr, Inhabited

namespace CategorySet

/-- The set without members. -/
def empty : CategorySet := ⟨0⟩

/-- The set of all categories. -/
def full : CategorySet := ⟨BitVec.allOnes 6⟩

/-- The members of either set. -/
def union (s t : CategorySet) : CategorySet := ⟨s.bits ||| t.bits⟩

/-- The members of `s` that are not in `t`. -/
def difference (s t : CategorySet) : CategorySet := ⟨s.bits &&& ~~~t.bits⟩

/-- The categories that are not in the set. -/
def complement (s : CategorySet) : CategorySet := ⟨~~~s.bits⟩

/-- Every member of `t` is in `s`. -/
def contains (s t : CategorySet) : Bool := s.bits &&& t.bits == t.bits

/-- The sets share a member. -/
def intersects (s t : CategorySet) : Bool := s.bits &&& t.bits != 0

/-- The set of a single category. -/
def singleton (c : Category) : CategorySet := ⟨c.bit⟩

/-- The categories that pass the test. -/
def ofTest (test : Category → Bool) : CategorySet :=
  ((Category.all.filter test).map singleton).foldl union empty

/-- The members, lowest bit first. -/
def toList (s : CategorySet) : List Category :=
  Category.all.filter fun c => s.contains (singleton c)

/-- The byte `n` has no bit that stands for no category. -/
def isValidByte (n : UInt8) : Bool := n.toNat < 64

/-- The set a byte stands for; bits that stand for no category are dropped. -/
def ofByte (n : UInt8) : CategorySet := ⟨BitVec.ofNat 6 n.toNat⟩

end CategorySet

/-! ## Categories of an instruction -/

/-- The instruction belongs to the category. -/
def Opcode.belongsTo (o : Opcode) : Category → Bool
  | .push => o.isPush || o == .pushc
  | .jump => o.isJump
  | .jumpTarget => o == .jumpdest
  | .terminator =>
    match o with
    | .stop | .ret | .revert | .invalid | .selfdestruct | .bad | .jump | .jumpv => true
    | _ => false
  | .synthetic => o.isSynthetic
  | .sideEffects =>
    match o with
    | .sstore | .log _ | .create | .create2 | .call | .callcode | .delegatecall
    | .staticcall | .selfdestruct => true
    | _ => false

/-- The categories of the instruction. -/
def Opcode.categories (o : Opcode) : CategorySet := .ofTest o.belongsTo

end EvmPrep
