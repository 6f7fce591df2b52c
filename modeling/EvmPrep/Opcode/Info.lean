import EvmPrep.Opcode.Category
set_option autoImplicit false

/-!
# What is known of every byte

For each of the 256 bytes there is one record of static facts (`Info.ofByte`): the
instruction's name, its immediate width, how many stack items it takes and leaves,
its gas tier and its categories.  A byte that names no instruction has a neutral
record.  `Metric` is the part of a record that a dispatcher needs at every step, and
`Metric.table` holds it for all bytes at once (`getElem?_table`).
-/

namespace EvmPrep

/-! ## Gas tiers -/

/-- Price classes of instructions, cheapest first. -/
inductive GasTier where
  | zero
  | base
  | veryLow
  | low
  | mid
  | high
  | ext
  /-- priced by a rule of its own -/
  | special
  /-- not an instruction -/
  | invalid
  deriving DecidableEq, Repr, Inhabited, Ord

namespace GasTier

/-- The tiers in order. -/
def all : List GasTier := [zero, base, veryLow, low, mid, high, ext, special, invalid]

/-- The name that stands in reports. -/
def name : GasTier → String
  | zero => "Zero"
  | base => "Base"
  | veryLow => "VeryLow"
  | low => "Low"
  | mid => "Mid"
  | high => "High"
  | ext => "Ext"
  | special => "Special"
  | invalid => "Invalid"

end GasTier

/-! ## Stack effect and price -/

/-- The facts a dispatcher needs at every step. -/
structure Metric where
  tier : GasTier
  /-- stack items taken -/
  args : Nat
  /-- stack items left in their place -/
  rets : Nat
  deriving DecidableEq, Repr, Inhabited

namespace Opcode

/-- Tier and stack effect of the instruction.  An instruction that reaches below the top of the
stack takes all that it looks at and leaves it again. -/
def metric : Opcode → Metric
  | stop | invalid | bad => ⟨.zero, 0, 0⟩
  | ret | revert => ⟨.zero, 2, 0⟩
  | add | sub | lt | gt | slt | sgt | eq | and | or | xor | byte | shl | shr | sar =>
    ⟨.veryLow, 2, 1⟩
  | iszero | not | calldataload | mload => ⟨.veryLow, 1, 1⟩
  | mstore | mstore8 => ⟨.veryLow, 2, 0⟩
  | calldatacopy | codecopy | returndatacopy => ⟨.veryLow, 3, 0⟩
  | mul | div | sdiv | mod | smod | signextend => ⟨.low, 2, 1⟩
  | addmod | mulmod => ⟨.mid, 3, 1⟩
  | exp | sha3 => ⟨.special, 2, 1⟩
  | address | origin | caller | callvalue | calldatasize | codesize | gasprice | returndatasize
  | coinbase | timestamp | number | difficulty | gaslimit | pc | msize | gas => ⟨.base, 0, 1⟩
  | pop => ⟨.base, 1, 0⟩
  | balance | extcodesize | extcodehash | blockhash => ⟨.ext, 1, 1⟩
  | extcodecopy => ⟨.ext, 4, 0⟩
  | sload => ⟨.special, 1, 1⟩
  | sstore => ⟨.special, 2, 0⟩
  | jumpdest => ⟨.special, 0, 0⟩
  | jump | jumpv => ⟨.mid, 1, 0⟩
  | jumpi | jumpvi => ⟨.high, 2, 0⟩
  | push _ | pushc => ⟨.veryLow, 0, 1⟩
  | dup n => ⟨.veryLow, n.val + 1, n.val + 2⟩
  | swap n => ⟨.veryLow, n.val + 2, n.val + 2⟩
  | log n => ⟨.special, n.val + 2, 0⟩
  | create => ⟨.special, 3, 1⟩
  | create2 => ⟨.special, 4, 1⟩
  | call | callcode => ⟨.special, 7, 1⟩
  | delegatecall | staticcall => ⟨.special, 6, 1⟩
  | selfdestruct => ⟨.special, 1, 0⟩

end Opcode

/-! ## Records -/

/-- All static facts of one byte. -/
structure Info where
  name : String
  immediateWidth : Nat
  metric : Metric
  categories : CategorySet
  deriving DecidableEq, Repr, Inhabited

namespace Info

/-- The record of a byte that names no instruction. -/
def unassigned : Info := ⟨"INVALID", 0, ⟨.invalid, 0, 0⟩, .empty⟩

/-- The record of an instruction. -/
def ofOpcode (o : Opcode) : Info := ⟨o.mnemonic, o.immediateWidth, o.metric, o.categories⟩

/-- The record of the byte `b`. -/
def ofByte (b : UInt8) : Info :=
  match Opcode.ofByte? b with
  | some o => ofOpcode o
  | none => unassigned

end Info

/-! ## The table -/

namespace Metric

/-- The metrics of all bytes, in the order of the bytes. -/
def table : Array Metric := (Array.range 256).map fun n => (Info.ofByte (UInt8.ofNat n)).metric

/-- The metric of the byte `b`, looked up in the table. -/
def ofByte (b : UInt8) : Metric := table[b.toNat]?.getD Info.unassigned.metric

/-- How many bytes each tier has, for the tiers that have any. -/
def histogram : List (GasTier × Nat) :=
  (GasTier.all.map fun t => (t, table.countP fun m => m.tier == t)).filter fun p => p.2 != 0

/-- The entry of a byte holds what the byte's record says. -/
theorem getElem?_table (b : UInt8) : table[b.toNat]? = some (Info.ofByte b).metric := by
  have hb : b.toNat < 256 := b.toNat_lt_size
  simp [table, hb]

theorem ofByte_eq (b : UInt8) : ofByte b = (Info.ofByte b).metric := by
  simp [ofByte, getElem?_table]

end Metric

end EvmPrep
