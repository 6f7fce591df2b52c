import EvmPrep.Code
set_option autoImplicit false

/-!
# Counters

Work on a program is counted.  Each step sends increments (`Increment`), a report
adds up what one counter was sent, and a counter that was sent nothing does not
appear in it (`report`).

A scan sends how many bytes it disarmed, if there were any.  Quickening sends one for
every push that was pooled or refused and for every jump that was resolved; jumps
that stay dynamic are not counted.  A program prepared in one go counts as well.
-/

namespace EvmPrep

/-- What is counted. -/
inductive Counter where
  /-- synthetic bytes disarmed -/
  | trappedBytes
  /-- pushes made pooled -/
  | constantsPooled
  /-- pushes refused by a full pool -/
  | poolExhausted
  /-- jumps made unchecked -/
  | jumpsResolved
  /-- programs prepared in one go -/
  | programsPrepared
  deriving DecidableEq, Repr, Inhabited

namespace Counter

/-- The counters. -/
def all : List Counter :=
  [trappedBytes, constantsPooled, poolExhausted, jumpsResolved, programsPrepared]

/-- The name that stands in reports. -/
def name : Counter → String
  | trappedBytes => "evm_bytecode_trapped_bytes"
  | constantsPooled => "evm_bytecode_constants_pooled"
  | poolExhausted => "evm_bytecode_pool_exhausted"
  | jumpsResolved => "evm_bytecode_jumps_resolved"
  | programsPrepared => "evm_bytecode_programs_prepared"

end Counter

/-- An amount by which a counter grows. -/
structure Increment where
  counter : Counter
  amount : Nat
  deriving DecidableEq, Repr, Inhabited

/-! ## What is sent -/

/-- Sent by the scan that made the table. -/
def JumpTable.increments (t : JumpTable) : List Increment :=
  if 0 < t.trapped then [⟨.trappedBytes, t.trapped⟩] else []

/-- Sent when the walk decides about an instruction. -/
def Outcome.increments : Outcome → List Increment
  | .pooled _ => [⟨.constantsPooled, 1⟩]
  | .exhausted => [⟨.poolExhausted, 1⟩]
  | .resolved => [⟨.jumpsResolved, 1⟩]
  | .kept | .leftDynamic => []

/-- Sent on the way to prepared code, step by step. -/
def PreparedCode.increments (code : PreparedCode) : List Increment :=
  code.jumpTable.increments ++ code.outcomes.flatMap Outcome.increments

/-- Sent while a program is prepared in one go. -/
def preparationIncrements (config : QuickenConfig) (program : List UInt8) : List Increment :=
  (prepareWith config program).increments ++ [⟨.programsPrepared, 1⟩]

/-! ## Reports -/

/-- All that the counter was sent; nothing if it was not touched. -/
def total? (sent : List Increment) (c : Counter) : Option Nat :=
  match sent.filter (fun i => i.counter == c) with
  | [] => none
  | touched => some (touched.foldl (fun n i => n + i.amount) 0)

/-- The counters that were touched, with all that they were sent. -/
def report (sent : List Increment) : List (Counter × Nat) :=
  Counter.all.filterMap fun c => (total? sent c).map fun n => (c, n)

end EvmPrep
