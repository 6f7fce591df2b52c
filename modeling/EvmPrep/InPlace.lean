import EvmPrep.Code
set_option autoImplicit false

/-!
# Preparation in place

Preparation needs one buffer and a cursor: each pass reads the byte at the cursor, may
look at some of the bytes behind it, may write over some of them, and moves on behind
the instruction (`walk`).  This module writes the passes down in that form, and with
every access checked.

An access that should not be made is a `Misstep`, and a pass that makes one has no
result.  Nothing is read behind the buffer, nothing is written behind the program even
though there is room, and no number is put into a byte that does not hold it.  So what a
pass may rely on is not assumed here: that a pass has a result says that all its accesses
were good.
-/

namespace EvmPrep.InPlace

/-! ## Accesses -/

/-- Why an access is not made. -/
inductive Misstep where
  /-- the buffer ends before the offset -/
  | read (offset : Nat)
  /-- the offset is not in the program -/
  | write (offset : Nat)
  /-- a byte does not hold the number -/
  | narrow (n : Nat)
  /-- a word does not hold that many bytes -/
  | oversized (n : Nat)
  deriving DecidableEq, Repr, Inhabited

/-- The byte at the offset. -/
def readAt (code : List UInt8) (offset : Nat) : Except Misstep UInt8 :=
  match code[offset]? with
  | some b => .ok b
  | none => .error (.read offset)

/-- The `n` bytes from the offset on, if there are as many. -/
def readSlice (code : List UInt8) (offset n : Nat) : Except Misstep (List UInt8) :=
  if offset + n ≤ code.length then .ok ((code.drop offset).take n)
  else .error (.read code.length)

/-- The word that the `n` bytes from the offset on spell. -/
def readWord (code : List UInt8) (offset n : Nat) : Except Misstep Word := do
  let bytes ← readSlice code offset n
  match Word.ofBytes? bytes with
  | some w => .ok w
  | none => .error (.oversized n)

/-- The buffer with another byte at the offset, which has to be one of the program. -/
def writeAt (programLen : Nat) (code : List UInt8) (offset : Nat) (b : UInt8) :
    Except Misstep (List UInt8) :=
  if offset < programLen ∧ offset < code.length then .ok (code.set offset b)
  else .error (.write offset)

/-- The number as a byte. -/
def narrow (n : Nat) : Except Misstep UInt8 :=
  if n < 256 then .ok (UInt8.ofNat n) else .error (.narrow n)

/-! ## Cursors -/

/-- Makes a step at every cursor position before `stop`.  A step says how wide the immediate is that
the cursor moves over. -/
def walk {σ : Type} (step : Nat → σ → Except Misstep (Nat × σ)) (stop cursor : Nat) (s : σ) :
    Except Misstep σ :=
  if cursor < stop then
    match step cursor s with
    | .ok (width, s) => walk step stop (cursor + 1 + width) s
    | .error e => .error e
  else .ok s
termination_by stop - cursor

/-! ## The scan -/

/-- What the scan has done so far. -/
structure Scan where
  code : List UInt8
  dests : Array Nat
  trapped : Nat
  deriving DecidableEq, Repr, Inhabited

/-- Writes the trap over the byte `b` at the cursor if that is synthetic. -/
def disarmAt (programLen cursor : Nat) (b : UInt8) (code : List UInt8) :
    Except Misstep (List UInt8) :=
  if isSynthetic b then writeAt programLen code cursor Opcode.bad.toByte else .ok code

/-- Disarms the instruction at the cursor, and notes a destination. -/
def scanStep (programLen cursor : Nat) (s : Scan) : Except Misstep (Nat × Scan) := do
  let b ← readAt s.code cursor
  let code ← disarmAt programLen cursor b s.code
  .ok (pushWidth b,
    { code := code
      dests := if b == Opcode.jumpdest.toByte then s.dests.push cursor else s.dests
      trapped := if isSynthetic b then s.trapped + 1 else s.trapped })

/-- Scans a buffer that holds a program of that length. -/
def scan (programLen : Nat) (code : List UInt8) : Except Misstep Scan :=
  walk (scanStep programLen) code.length 0 ⟨code, #[], 0⟩

/-! ## Quickening -/

/-- Figures with one outcome more. -/
def addOutcome (stats : QuickenStats) : Outcome → QuickenStats
  | .kept => stats
  | .pooled _ => { stats with pushesPooled := stats.pushesPooled + 1 }
  | .exhausted => { stats with poolExhausted := stats.poolExhausted + 1 }
  | .resolved => { stats with jumpsResolved := stats.jumpsResolved + 1 }
  | .leftDynamic => { stats with jumpsLeftDynamic := stats.jumpsLeftDynamic + 1 }

/-- What the walk has done so far. -/
structure Quickening where
  code : List UInt8
  pool : ConstantPool
  stats : QuickenStats
  deriving DecidableEq, Repr

/-- Writes a pooled push of `w` over the push at the cursor, if that is asked for, possible, and the
pool has room. -/
def poolPush (ctx : QuickenContext) (cursor width : Nat) (w : Word) (s : Quickening) :
    Except Misstep Quickening :=
  if ctx.config.usePool && (2 ≤ width && cursor + 2 < ctx.programLen) then
    match s.pool.intern w with
    | (some index, pool) => do
      let place ← narrow (pool.entries.idxOf w)
      let last ← narrow (width - 1)
      let code ← writeAt ctx.programLen s.code cursor Opcode.pushc.toByte
      let code ← writeAt ctx.programLen code (cursor + 1) place
      let code ← writeAt ctx.programLen code (cursor + 2) last
      .ok { code := code, pool := pool, stats := addOutcome s.stats (.pooled index) }
    | (none, pool) => .ok { s with pool := pool, stats := addOutcome s.stats .exhausted }
  else .ok s

/-- Writes the jump that checks no more over the byte at the offset, if that is asked for, the byte is
a jump, and `dest` is legal. -/
def resolveJump (ctx : QuickenContext) (offset : Nat) (dest : Word) (s : Quickening) :
    Except Misstep Quickening :=
  if ctx.config.resolveJumps then do
    let b ← readAt s.code offset
    match (Opcode.ofByte? b).bind Opcode.resolved? with
    | some o =>
      if ctx.jumpTable.isValid dest then do
        let code ← writeAt ctx.programLen s.code offset o.toByte
        .ok { s with code := code, stats := addOutcome s.stats .resolved }
      else .ok { s with stats := addOutcome s.stats .leftDynamic }
    | none => .ok s
  else .ok s

/-- Treats the instruction at the cursor: a push is pooled, and tells the jump behind it where to
go. -/
def quickenStep (ctx : QuickenContext) (cursor : Nat) (s : Quickening) :
    Except Misstep (Nat × Quickening) := do
  let b ← readAt s.code cursor
  if pushWidth b = 0 then .ok (0, s)
  else
    let w ← readWord s.code (cursor + 1) (pushWidth b)
    let s ← poolPush ctx cursor (pushWidth b) w s
    let s ← resolveJump ctx (cursor + 1 + pushWidth b) w s
    .ok (pushWidth b, s)

/-- Quickens the program in the buffer. -/
def quicken (ctx : QuickenContext) (code : List UInt8) : Except Misstep Quickening :=
  walk (quickenStep ctx) ctx.programLen 0 ⟨code, .empty, .ofOutcomes []⟩

/-! ## The listing -/

/-- The immediate width of the byte `b` at the offset. -/
def widthAt (code : List UInt8) (offset : Nat) (b : UInt8) : Except Misstep Nat :=
  if b = Opcode.pushc.toByte then do
    let last ← readAt code (offset + 2)
    .ok (last.toNat + 1)
  else .ok (pushWidth b)

/-- The instruction at the offset, with its immediate in full. -/
def decode (code : List UInt8) (offset : Nat) : Except Misstep Instruction := do
  let b ← readAt code offset
  let width ← widthAt code offset b
  let immediate ← readSlice code (offset + 1) width
  .ok ⟨offset, b, immediate⟩

/-- Lists the instruction at the cursor. -/
def listStep (code : List UInt8) (cursor : Nat) (done : Array Instruction) :
    Except Misstep (Nat × Array Instruction) := do
  let i ← decode code cursor
  .ok (i.immediate.length, done.push i)

/-- Lists the instructions that start before `stop`. -/
def list (code : List UInt8) (stop : Nat) : Except Misstep (Array Instruction) :=
  walk (listStep code) (min stop code.length) 0 #[]

end EvmPrep.InPlace
