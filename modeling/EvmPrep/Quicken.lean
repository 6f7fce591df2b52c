import EvmPrep.ConstantPool
import EvmPrep.JumpTable.Scan
set_option autoImplicit false

/-!
# Quick instructions

Before a program runs, some of its instructions are replaced in place by quicker
ones that do the same.  One walk over the instructions of disarmed code makes two
kinds of replacement, and each can be switched off.

* A push of two bytes or more becomes a pooled push: its word goes into the constant
  pool and the first two immediate bytes give the word's index and the width of the
  push less one.  The other immediate bytes stay, so the instruction keeps its size.
  A push is left alone when the pool refuses its word, or when one of those two
  bytes would lie behind the program.
* A jump right behind a push is told its destination by that push.  If the
  destination is legal, the jump becomes the one that does not check it again.

The two do not meet: a jump looks at the word pushed before it, not at how it is
pushed.  Every instruction has an `Outcome`, and all else that is reported of the
walk is read off the outcomes.  The walk is `quickenAll`; `quickenAll_cons` says what
one step of it does.
-/

namespace EvmPrep

/-! ## What is asked for -/

/-- Which replacements are made. -/
structure QuickenConfig where
  /-- replace wide pushes by pooled ones -/
  usePool : Bool := true
  /-- replace jumps to known legal destinations by unchecked ones -/
  resolveJumps : Bool := true
  deriving DecidableEq, Repr, Inhabited

/-- No replacements. -/
def QuickenConfig.disabled : QuickenConfig := ⟨false, false⟩

/-- What the walk knows of the program. -/
structure QuickenContext where
  config : QuickenConfig
  /-- the legal destinations -/
  jumpTable : JumpTable
  /-- the length of the program without its padding -/
  programLen : Nat
  deriving Repr, Inhabited

/-! ## What becomes of an instruction -/

/-- What the walk decided about one instruction. -/
inductive Outcome where
  /-- nothing was to be done -/
  | kept
  /-- a push whose word is in the pool at `index` -/
  | pooled (index : UInt8)
  /-- a push whose word found no room in the pool -/
  | exhausted
  /-- a jump whose destination is known to be legal -/
  | resolved
  /-- a jump whose destination is known and not legal -/
  | leftDynamic
  deriving DecidableEq, Repr, Inhabited

namespace Instruction

/-- The pooled push that stands for a push: index, width less one, and the rest of the immediate. -/
def toPooled (i : Instruction) (index : UInt8) : Instruction :=
  { i with
    byte := Opcode.pushc.toByte
    immediate := index :: UInt8.ofNat (pushWidth i.byte - 1) :: i.immediate.drop 2 }

/-- The jump without a check that stands for a jump, if the instruction is one that can be
replaced. -/
def resolved? (i : Instruction) : Option Instruction :=
  match i.opcode?.bind Opcode.resolved? with
  | some o => some { i with byte := o.toByte }
  | none => none

/-- The instruction as an outcome leaves it. -/
def after (i : Instruction) : Outcome → Instruction
  | .pooled index => i.toPooled index
  | .resolved => i.resolved?.getD i
  | .kept | .exhausted | .leftDynamic => i

end Instruction

/-! ## The walk -/

namespace QuickenContext

/-- A pooled push can stand for the instruction: it is a wide push and the two bytes behind it are
inside the program. -/
def isPoolable (ctx : QuickenContext) (i : Instruction) : Bool :=
  2 ≤ pushWidth i.byte && i.offset + 2 < ctx.programLen

/-- What becomes of a push of `w`, and the pool afterwards. -/
def pushOutcome (ctx : QuickenContext) (pool : ConstantPool) (i : Instruction) (w : Word) :
    Outcome × ConstantPool :=
  if ctx.config.usePool && ctx.isPoolable i then
    match pool.intern w with
    | (some index, pool) => (.pooled index, pool)
    | (none, pool) => (.exhausted, pool)
  else (.kept, pool)

/-- What becomes of an instruction other than a push when the instruction before it pushed the word
`pushed`. -/
def jumpOutcome (ctx : QuickenContext) (pushed : Option Word) (i : Instruction) : Outcome :=
  match pushed, i.resolved? with
  | some dest, some _ =>
    if ctx.config.resolveJumps then
      if ctx.jumpTable.isValid dest then .resolved else .leftDynamic
    else .kept
  | _, _ => .kept

/-- One step: what becomes of the instruction, and the pool afterwards. -/
def step (ctx : QuickenContext) (pool : ConstantPool) (pushed : Option Word) (i : Instruction) :
    Outcome × ConstantPool :=
  match i.pushValue? with
  | some w => ctx.pushOutcome pool i w
  | none => (ctx.jumpOutcome pushed i, pool)

/-- Walks the instructions behind those whose outcomes are `done`. -/
def quickenOnto (ctx : QuickenContext) (done : Array Outcome) (pool : ConstantPool)
    (pushed : Option Word) : List Instruction → Array Outcome × ConstantPool
  | [] => (done, pool)
  | i :: rest =>
    match ctx.step pool pushed i with
    | (outcome, pool) => quickenOnto ctx (done.push outcome) pool i.pushValue? rest

/-- The outcome of every instruction, and the pool afterwards.  `pushed` is the word pushed right
before the first of them. -/
def quickenAll (ctx : QuickenContext) (pool : ConstantPool) (pushed : Option Word)
    (code : List Instruction) : List Outcome × ConstantPool :=
  match ctx.quickenOnto #[] pool pushed code with
  | (done, pool) => (done.toList, pool)

theorem quickenOnto_eq (ctx : QuickenContext) (done : Array Outcome) (pool : ConstantPool)
    (pushed : Option Word) (code : List Instruction) :
    (ctx.quickenOnto done pool pushed code).1.toList
        = done.toList ++ (ctx.quickenAll pool pushed code).1
      ∧ (ctx.quickenOnto done pool pushed code).2 = (ctx.quickenAll pool pushed code).2 := by
  induction code generalizing done pool pushed with
  | nil => simp [quickenOnto, quickenAll]
  | cons i rest ih =>
    simp only [quickenOnto, quickenAll]
    rw [(ih _ _ _).1, (ih _ _ _).2, (ih (#[].push _) _ _).1, (ih (#[].push _) _ _).2]
    simp

@[simp] theorem quickenAll_nil (ctx : QuickenContext) (pool : ConstantPool)
    (pushed : Option Word) : ctx.quickenAll pool pushed [] = ([], pool) := rfl

/-- One step of the walk. -/
theorem quickenAll_cons (ctx : QuickenContext) (pool : ConstantPool) (pushed : Option Word)
    (i : Instruction) (rest : List Instruction) :
    ctx.quickenAll pool pushed (i :: rest)
      = ((ctx.step pool pushed i).1
            :: (ctx.quickenAll (ctx.step pool pushed i).2 i.pushValue? rest).1,
          (ctx.quickenAll (ctx.step pool pushed i).2 i.pushValue? rest).2) := by
  have h := ctx.quickenOnto_eq (#[].push (ctx.step pool pushed i).1)
    (ctx.step pool pushed i).2 i.pushValue? rest
  apply Prod.ext
  · simpa [quickenAll, quickenOnto] using h.1
  · simpa [quickenAll, quickenOnto] using h.2

theorem length_quickenAll (ctx : QuickenContext) (pool : ConstantPool) (pushed : Option Word)
    (code : List Instruction) : (ctx.quickenAll pool pushed code).1.length = code.length := by
  induction code generalizing pool pushed with
  | nil => rfl
  | cons i rest ih => simp [quickenAll_cons, ih]

end QuickenContext

/-! ## Figures -/

/-- How often each replacement was made or missed. -/
structure QuickenStats where
  pushesPooled : Nat
  poolExhausted : Nat
  jumpsResolved : Nat
  jumpsLeftDynamic : Nat
  deriving DecidableEq, Repr, Inhabited

namespace Outcome

/-- The outcome is that of a pooled push. -/
def isPooled : Outcome → Bool
  | .pooled _ => true
  | _ => false

end Outcome

/-- The figures of a walk with these outcomes. -/
def QuickenStats.ofOutcomes (os : List Outcome) : QuickenStats where
  pushesPooled := os.countP Outcome.isPooled
  poolExhausted := os.count .exhausted
  jumpsResolved := os.count .resolved
  jumpsLeftDynamic := os.count .leftDynamic

end EvmPrep
