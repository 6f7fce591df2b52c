import EvmPrep.Code
set_option autoImplicit false

/-!
# Running prepared code

A dispatcher reads the instruction at its position and acts on it.  Pushes and jumps
are its own business, because they are what quickening changes; what all other bytes
do is left open (`Interpretation`), and so is the state of the machine apart from
position and stack.

A checked jump asks the code whether its destination is legal and stops if it is
not.  An unchecked jump goes where it is told.
-/

namespace EvmPrep

/-- A machine at work: where it is, its stack with the top first, and all else. -/
structure Machine (σ : Type) where
  position : Nat
  stack : List Word
  rest : σ
  deriving DecidableEq, Repr

/-- Why a machine comes to rest. -/
inductive Halt where
  /-- it ran past the padding -/
  | ended
  /-- an instruction found too little on the stack -/
  | underflow
  /-- the code refused a destination or an index -/
  | fault (f : Fault)
  /-- an instruction lacks its operand, or has more of it than a word holds -/
  | malformed
  /-- the interpretation of a byte asked for it -/
  | stopped
  deriving DecidableEq, Repr, Inhabited

/-- What bytes do that are neither pushes nor jumps, at their position: the stack and the rest of
the machine afterwards, or nothing to halt it. -/
abbrev Interpretation (σ : Type) : Type :=
  UInt8 → Nat → List Word → σ → Option (List Word × σ)

namespace Machine

variable {σ : Type}

/-- A machine before its first step. -/
def start (stack : List Word) (rest : σ) : Machine σ := ⟨0, stack, rest⟩

/-- Goes on behind the instruction with `w` on the stack. -/
def push (m : Machine σ) (i : Instruction) (w : Word) : Machine σ :=
  ⟨m.position + i.size, w :: m.stack, m.rest⟩

/-- Goes to a destination that is checked first, leaving `stack`. -/
def jumpChecked (m : Machine σ) (code : PreparedCode) (dest : Word) (stack : List Word) :
    Except Halt (Machine σ) :=
  match code.verifyJump dest with
  | .ok offset => .ok ⟨offset, stack, m.rest⟩
  | .error f => .error (.fault f)

/-- Goes to a destination without a check, leaving `stack`. -/
def jumpUnchecked (m : Machine σ) (dest : Word) (stack : List Word) : Except Halt (Machine σ) :=
  .ok ⟨dest.toNat, stack, m.rest⟩

/-- Goes on behind the instruction, leaving `stack`. -/
def skip (m : Machine σ) (i : Instruction) (stack : List Word) : Except Halt (Machine σ) :=
  .ok ⟨m.position + i.size, stack, m.rest⟩

/-- Acts on an instruction without an operand. -/
def act (m : Machine σ) (code : PreparedCode) (f : Interpretation σ) (i : Instruction) :
    Except Halt (Machine σ) :=
  match i.opcode?, m.stack with
  | some .jump, dest :: stack => m.jumpChecked code dest stack
  | some .jumpv, dest :: stack => m.jumpUnchecked dest stack
  | some .jumpi, dest :: condition :: stack =>
    if condition = 0 then m.skip i stack else m.jumpChecked code dest stack
  | some .jumpvi, dest :: condition :: stack =>
    if condition = 0 then m.skip i stack else m.jumpUnchecked dest stack
  | some .jump, _ | some .jumpv, _ | some .jumpi, _ | some .jumpvi, _ => .error .underflow
  | some .pushc, _ => .error .malformed
  | _, _ =>
    match f i.byte m.position m.stack m.rest with
    | some (stack, rest) => .ok ⟨m.position + i.size, stack, rest⟩
    | none => .error .stopped

/-- Acts on the instruction at the machine's position. -/
def step (m : Machine σ) (code : PreparedCode) (f : Interpretation σ) :
    Except Halt (Machine σ) :=
  match Instruction.decode? code.bytes m.position with
  | none => .error .ended
  | some i =>
    match i.operand with
    | .value w => .ok (m.push i w)
    | .pooled index =>
      match code.constant index with
      | .ok w => .ok (m.push i w)
      | .error e => .error (.fault e)
    | .oversized => .error .malformed
    | .absent => m.act code f i

/-- Makes at most `n` steps. -/
def run (m : Machine σ) (code : PreparedCode) (f : Interpretation σ) :
    Nat → Except Halt (Machine σ)
  | 0 => .ok m
  | n + 1 =>
    match m.step code f with
    | .ok next => next.run code f n
    | .error h => .error h

end Machine

end EvmPrep
