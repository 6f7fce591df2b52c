set_option autoImplicit false

/-!
# Instruction opcodes

Of the 256 byte values 144 name an instruction.  `Opcode` lists the instructions;
those that differ in a number only are one family (`push`, `dup`, `swap`, `log`).
`toByte` is an instruction's byte and `ofByte?` its inverse (`ofByte?_eq_some_iff`):
the other bytes name none.

Four instructions are *synthetic*.  They are put in by preparation and occupy the
bytes `0xac` to `0xaf`, which source code has no use for:

* `pushc` pushes a constant held in a pool,
* `jumpv` and `jumpvi` jump to a destination that was checked beforehand,
* `bad` is a trap.

Two questions are asked of raw bytes, assigned or not, because every forward scan
over code rests on them: how many immediate bytes follow (`pushWidth`) and whether
the byte is synthetic (`isSynthetic`).
-/

namespace EvmPrep

/-! ## Raw bytes -/

/-- How many immediate bytes follow the byte `b` in source code: `n` after the byte of the `n`-byte
push, none after any other. -/
def pushWidth (b : UInt8) : Nat :=
  if 0x60 ≤ b ∧ b ≤ 0x7f then b.toNat - 0x5f else 0

/-- The byte names a synthetic instruction. -/
def isSynthetic (b : UInt8) : Bool := 0xac ≤ b && b ≤ 0xaf

theorem pushWidth_le (b : UInt8) : pushWidth b ≤ 32 := by
  unfold pushWidth
  split
  · rename_i h
    have : b.toNat ≤ 0x7f := UInt8.le_iff_toNat_le.mp h.2
    omega
  · omega

theorem pushWidth_of_isSynthetic {b : UInt8} (h : isSynthetic b = true) : pushWidth b = 0 := by
  simp only [isSynthetic, Bool.and_eq_true, decide_eq_true_eq] at h
  rw [pushWidth, if_neg]
  intro hrange
  exact absurd (UInt8.le_trans h.1 hrange.2) (by decide)

/-! ## Instructions -/

/-- The instructions, in the order of their bytes. -/
inductive Opcode where
  -- halting and arithmetic
  | stop | add | mul | sub | div | sdiv | mod | smod | addmod | mulmod | exp | signextend
  -- comparison and bits
  | lt | gt | slt | sgt | eq | iszero | and | or | xor | not | byte | shl | shr | sar
  -- hashing
  | sha3
  -- environment
  | address | balance | origin | caller | callvalue
  | calldataload | calldatasize | calldatacopy | codesize | codecopy
  | gasprice | extcodesize | extcodecopy | returndatasize | returndatacopy | extcodehash
  -- block
  | blockhash | coinbase | timestamp | number | difficulty | gaslimit
  -- stack, memory, storage and flow
  | pop | mload | mstore | mstore8 | sload | sstore
  | jump | jumpi | pc | msize | gas | jumpdest
  /-- push an immediate of `n + 1` bytes -/
  | push (n : Fin 32)
  /-- copy the stack item at depth `n + 1` -/
  | dup (n : Fin 16)
  /-- exchange the top of the stack with the item `n + 1` below it -/
  | swap (n : Fin 16)
  /-- log with `n` topics -/
  | log (n : Fin 5)
  /-- push a pooled constant -/
  | pushc
  /-- jump to a destination checked beforehand -/
  | jumpv
  /-- conditional jump to a destination checked beforehand -/
  | jumpvi
  /-- trap -/
  | bad
  -- calls and halting
  | create | call | callcode | ret | delegatecall | create2
  | staticcall | revert | invalid | selfdestruct
  deriving DecidableEq, Repr, Inhabited

namespace Opcode

/-- The byte that names the instruction. -/
def toByte : Opcode → UInt8
  | stop => 0x00 | add => 0x01 | mul => 0x02 | sub => 0x03
  | div => 0x04 | sdiv => 0x05 | mod => 0x06 | smod => 0x07
  | addmod => 0x08 | mulmod => 0x09 | exp => 0x0a | signextend => 0x0b
  | lt => 0x10 | gt => 0x11 | slt => 0x12 | sgt => 0x13
  | eq => 0x14 | iszero => 0x15 | and => 0x16 | or => 0x17
  | xor => 0x18 | not => 0x19 | byte => 0x1a | shl => 0x1b
  | shr => 0x1c | sar => 0x1d
  | sha3 => 0x20
  | address => 0x30 | balance => 0x31 | origin => 0x32 | caller => 0x33
  | callvalue => 0x34 | calldataload => 0x35 | calldatasize => 0x36 | calldatacopy => 0x37
  | codesize => 0x38 | codecopy => 0x39 | gasprice => 0x3a | extcodesize => 0x3b
  | extcodecopy => 0x3c | returndatasize => 0x3d | returndatacopy => 0x3e | extcodehash => 0x3f
  | blockhash => 0x40 | coinbase => 0x41 | timestamp => 0x42 | number => 0x43
  | difficulty => 0x44 | gaslimit => 0x45
  | pop => 0x50 | mload => 0x51 | mstore => 0x52 | mstore8 => 0x53
  | sload => 0x54 | sstore => 0x55 | jump => 0x56 | jumpi => 0x57
  | pc => 0x58 | msize => 0x59 | gas => 0x5a | jumpdest => 0x5b
  | push n => 0x60 + UInt8.ofNat n
  | dup n => 0x80 + UInt8.ofNat n
  | swap n => 0x90 + UInt8.ofNat n
  | log n => 0xa0 + UInt8.ofNat n
  | pushc => 0xac | jumpv => 0xad | jumpvi => 0xae | bad => 0xaf
  | create => 0xf0 | call => 0xf1 | callcode => 0xf2 | ret => 0xf3
  | delegatecall => 0xf4 | create2 => 0xf5
  | staticcall => 0xfa | revert => 0xfd | invalid => 0xfe | selfdestruct => 0xff

/-- Every instruction once. -/
def all : List Opcode :=
  [stop, add, mul, sub, div, sdiv, mod, smod, addmod, mulmod, exp, signextend,
   lt, gt, slt, sgt, eq, iszero, and, or, xor, not, byte, shl, shr, sar,
   sha3,
   address, balance, origin, caller, callvalue, calldataload, calldatasize, calldatacopy,
   codesize, codecopy, gasprice, extcodesize, extcodecopy, returndatasize, returndatacopy,
   extcodehash,
   blockhash, coinbase, timestamp, number, difficulty, gaslimit,
   pop, mload, mstore, mstore8, sload, sstore, jump, jumpi, pc, msize, gas, jumpdest]
  ++ (List.finRange 32).map push ++ (List.finRange 16).map dup ++ (List.finRange 16).map swap
  ++ (List.finRange 5).map log
  ++ [pushc, jumpv, jumpvi, bad,
   create, call, callcode, ret, delegatecall, create2, staticcall, revert, invalid, selfdestruct]

/-- The instruction that the byte `b` names, if it names one. -/
def ofByte? (b : UInt8) : Option Opcode := all.find? (fun o => o.toByte == b)

@[simp] theorem ofByte?_toByte (o : Opcode) : ofByte? o.toByte = some o := by
  cases o with
  | push n => revert n; decide
  | dup n => revert n; decide
  | swap n => revert n; decide
  | log n => revert n; decide
  | _ => rfl

/-- Reading a byte and writing it are inverse to each other. -/
theorem ofByte?_eq_some_iff {b : UInt8} {o : Opcode} : ofByte? b = some o ↔ o.toByte = b := by
  constructor
  · intro h
    simpa using List.find?_some h
  · rintro rfl
    exact ofByte?_toByte o

/-- Instructions are ordered as their bytes are. -/
instance : Ord Opcode where
  compare o p := compare o.toByte p.toByte

/-! ## Names -/

/-- The name that stands in listings. -/
def mnemonic : Opcode → String
  | stop => "STOP" | add => "ADD" | mul => "MUL" | sub => "SUB"
  | div => "DIV" | sdiv => "SDIV" | mod => "MOD" | smod => "SMOD"
  | addmod => "ADDMOD" | mulmod => "MULMOD" | exp => "EXP" | signextend => "SIGNEXTEND"
  | lt => "LT" | gt => "GT" | slt => "SLT" | sgt => "SGT"
  | eq => "EQ" | iszero => "ISZERO" | and => "AND" | or => "OR"
  | xor => "XOR" | not => "NOT" | byte => "BYTE" | shl => "SHL"
  | shr => "SHR" | sar => "SAR"
  | sha3 => "SHA3"
  | address => "ADDRESS" | balance => "BALANCE" | origin => "ORIGIN" | caller => "CALLER"
  | callvalue => "CALLVALUE" | calldataload => "CALLDATALOAD"
  | calldatasize => "CALLDATASIZE" | calldatacopy => "CALLDATACOPY"
  | codesize => "CODESIZE" | codecopy => "CODECOPY" | gasprice => "GASPRICE"
  | extcodesize => "EXTCODESIZE" | extcodecopy => "EXTCODECOPY"
  | returndatasize => "RETURNDATASIZE" | returndatacopy => "RETURNDATACOPY"
  | extcodehash => "EXTCODEHASH"
  | blockhash => "BLOCKHASH" | coinbase => "COINBASE" | timestamp => "TIMESTAMP"
  | number => "NUMBER" | difficulty => "DIFFICULTY" | gaslimit => "GASLIMIT"
  | pop => "POP" | mload => "MLOAD" | mstore => "MSTORE" | mstore8 => "MSTORE8"
  | sload => "SLOAD" | sstore => "SSTORE" | jump => "JUMP" | jumpi => "JUMPI"
  | pc => "PC" | msize => "MSIZE" | gas => "GAS" | jumpdest => "JUMPDEST"
  | push n => "PUSH" ++ toString (n.val + 1)
  | dup n => "DUP" ++ toString (n.val + 1)
  | swap n => "SWAP" ++ toString (n.val + 1)
  | log n => "LOG" ++ toString n.val
  | pushc => "PUSHC" | jumpv => "JUMPV" | jumpvi => "JUMPVI" | bad => "BAD"
  | create => "CREATE" | call => "CALL" | callcode => "CALLCODE" | ret => "RETURN"
  | delegatecall => "DELEGATECALL" | create2 => "CREATE2"
  | staticcall => "STATICCALL" | revert => "REVERT" | invalid => "INVALID"
  | selfdestruct => "SELFDESTRUCT"

/-! ## Shape -/

/-- The push that carries `n` immediate bytes; there is one for each `n` from 1 to 32. -/
def push? (n : Nat) : Option Opcode :=
  if h : 1 ≤ n ∧ n ≤ 32 then some (push ⟨n - 1, by omega⟩) else none

/-- A push with an immediate of its own, so not the pooled one. -/
def isPush (o : Opcode) : Bool := pushWidth o.toByte != 0

/-- A synthetic instruction. -/
def isSynthetic (o : Opcode) : Bool := EvmPrep.isSynthetic o.toByte

/-- How many immediate bytes the instruction carries where it is first written; the pooled push
carries an index and a width. -/
def immediateWidth (o : Opcode) : Nat :=
  match o with
  | pushc => 2
  | o => pushWidth o.toByte

/-- A jump, to a destination checked when it is taken or beforehand. -/
def isJump : Opcode → Bool
  | jump | jumpi | jumpv | jumpvi => true
  | _ => false

/-- The same jump with its destination checked beforehand. -/
def resolved? : Opcode → Option Opcode
  | jump => some jumpv
  | jumpi => some jumpvi
  | _ => none

theorem pushWidth_push (n : Fin 32) : pushWidth (push n).toByte = n.val + 1 := by
  revert n
  decide

end Opcode

end EvmPrep
