import EvmPrep.Opcode.Info
import EvmPrep.Quicken
set_option autoImplicit false

/-!
# Code on its way to execution

A program is held in a buffer with 33 zero bytes behind it: room for the immediate
of the widest push that starts at the last byte, and one byte more to look at.
Since a zero byte is the instruction `STOP`, the padding adds nothing to a program.

The buffer goes through three phases, and each has a type of its own, so that no
step can be taken twice or out of order:

* `RawCode`, as it was handed in,
* `AnalyzedCode`, disarmed, with the table of its legal destinations,
* `PreparedCode`, ready for a dispatcher, with the pool that its pooled pushes
  refer to and the outcome of every instruction.

The only way from one phase to the next is `RawCode.analyze`, then
`AnalyzedCode.quicken` or `AnalyzedCode.keep`.  In particular code is never
scanned again after it was quickened.
-/

namespace EvmPrep

/-! ## Buffers -/

/-- A program and the bytes behind it. -/
structure CodeBuffer where
  /-- the program with its padding -/
  bytes : List UInt8
  /-- the length of the program -/
  len : Nat
  deriving DecidableEq, Repr, Inhabited

namespace CodeBuffer

/-- How many zero bytes stand behind a program. -/
def paddingSize : Nat := Word.maxBytes + 1

/-- A program followed by its padding. -/
def ofProgram (program : List UInt8) : CodeBuffer :=
  ⟨program ++ List.replicate paddingSize 0, program.length⟩

/-- The bytes of the program. -/
def program (b : CodeBuffer) : List UInt8 := b.bytes.take b.len

/-- The bytes behind the program. -/
def padding (b : CodeBuffer) : List UInt8 := b.bytes.drop b.len

/-- The program has no bytes. -/
def isEmpty (b : CodeBuffer) : Bool := b.len == 0

/-- The length of program and padding. -/
def paddedLen (b : CodeBuffer) : Nat := b.bytes.length

/-- The instructions of the program. -/
def instructions (b : CodeBuffer) : List Instruction := instructionsBefore b.bytes b.len

@[simp] theorem padding_ofProgram (program : List UInt8) :
    (ofProgram program).padding = List.replicate paddingSize 0 := by
  simp [CodeBuffer.padding, ofProgram]

theorem paddedLen_ofProgram (program : List UInt8) :
    (ofProgram program).paddedLen = program.length + 33 := by
  simp [paddedLen, ofProgram, paddingSize, Word.maxBytes]

end CodeBuffer

/-! ## Phases -/

/-- Code as it was handed in. -/
structure RawCode extends CodeBuffer where
  deriving DecidableEq, Repr, Inhabited

/-- Disarmed code and its legal destinations. -/
structure AnalyzedCode extends CodeBuffer where
  jumpTable : JumpTable
  deriving DecidableEq, Repr, Inhabited

/-- Code that is ready for a dispatcher. -/
structure PreparedCode extends CodeBuffer where
  jumpTable : JumpTable
  /-- the constants of the pooled pushes -/
  pool : ConstantPool
  /-- what became of each instruction -/
  outcomes : List Outcome
  deriving DecidableEq, Repr, Inhabited

/-- Code to start from. -/
def RawCode.ofProgram (program : List UInt8) : RawCode := ⟨CodeBuffer.ofProgram program⟩

/-- Disarms code and finds its legal destinations. -/
def RawCode.analyze (raw : RawCode) : AnalyzedCode where
  bytes := disarm raw.bytes
  len := raw.len
  jumpTable := JumpTable.ofCode raw.bytes

namespace AnalyzedCode

/-- What quickening under `config` knows of the code. -/
def quickenContext (code : AnalyzedCode) (config : QuickenConfig) : QuickenContext where
  config := config
  jumpTable := code.jumpTable
  programLen := code.len

/-- The outcome of every instruction under `config`, and the pool that the pooled pushes need. -/
def outcomesUnder (code : AnalyzedCode) (config : QuickenConfig) : List Outcome × ConstantPool :=
  (code.quickenContext config).quickenAll .empty none code.instructions

/-- The instructions as the outcomes leave them. -/
def quickened (code : AnalyzedCode) (outcomes : List Outcome) : List Instruction :=
  List.zipWith Instruction.after code.instructions outcomes

/-- Puts the quickened instructions in the place of the old ones. -/
def quicken (code : AnalyzedCode) (config : QuickenConfig) : PreparedCode :=
  let (outcomes, pool) := code.outcomesUnder config
  let front := (code.quickened outcomes).flatMap Instruction.bytes
  { bytes := front ++ code.bytes.drop front.length
    len := code.len
    jumpTable := code.jumpTable
    pool := pool
    outcomes := outcomes }

/-- Takes the code as it is: every instruction is kept, and no constant is needed. -/
def keep (code : AnalyzedCode) : PreparedCode where
  bytes := code.bytes
  len := code.len
  jumpTable := code.jumpTable
  pool := .empty
  outcomes := code.instructions.map fun _ => .kept

end AnalyzedCode

namespace PreparedCode

/-- How often each replacement was made or missed. -/
def stats (code : PreparedCode) : QuickenStats := .ofOutcomes code.outcomes

/-- The offset that a jump to the word goes to. -/
def verifyJump (code : PreparedCode) (dest : Word) : Except Fault Nat := code.jumpTable.verify dest

/-- The constant that a pooled push of `index` pushes. -/
def constant (code : PreparedCode) (index : UInt8) : Except Fault Word := code.pool.get index

/-- Tier and stack effect of the byte `b`; they do not depend on the code. -/
def metric (_ : PreparedCode) (b : UInt8) : Metric := .ofByte b

end PreparedCode

/-! ## All at once -/

/-- Prepares a program. -/
def prepareWith (config : QuickenConfig) (program : List UInt8) : PreparedCode :=
  (RawCode.ofProgram program).analyze.quicken config

/-- Prepares a program with every replacement. -/
def prepare (program : List UInt8) : PreparedCode := prepareWith {} program

end EvmPrep
