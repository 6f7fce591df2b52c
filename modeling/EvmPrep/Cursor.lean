import EvmPrep.InPlace
set_option autoImplicit false

/-!
# A cursor over any bytes

The instructions of a byte string can be met one after the other by a cursor, and the
byte string need not come from an analysis: it may have no padding, it may end in the
middle of an immediate, and its pooled pushes may say any width.  So the bytes that an
instruction asks for (`asked`) need not all be there.  What is not there is left out:
the immediate ends with the code.

As with the passes that prepare code, every access is checked.  A cursor asks for the byte
it stands at and for a slice of the code, and each of the two can be a misstep; so can a
word that is read off an immediate, since it has room for 32 bytes only.
-/

namespace EvmPrep.InPlace

/-! ## Decoding -/

/-- The bytes from the offset `first` on and before the offset `behind`. -/
def readRange (code : List UInt8) (first behind : Nat) : Except Misstep (List UInt8) :=
  if first ≤ behind ∧ behind ≤ code.length then .ok ((code.take behind).drop first)
  else .error (.read behind)

/-- How many immediate bytes the byte `b` at the offset asks for.  Where the code ends before the
width of a pooled push, both operand bytes are asked for. -/
def asked (code : List UInt8) (offset : Nat) (b : UInt8) : Nat :=
  if b = Opcode.pushc.toByte then
    match code[offset + 2]? with
    | some last => last.toNat + 1
    | none => 2
  else pushWidth b

/-- The instruction at the offset, with as much of its immediate as there is. -/
def decodeClipped (code : List UInt8) (offset : Nat) : Except Misstep Instruction := do
  let b ← readAt code offset
  let immediate ← readRange code (offset + 1) (min (offset + 1 + asked code offset b) code.length)
  .ok ⟨offset, b, immediate⟩

/-! ## What an instruction says of itself -/

/-- The word that a push with an immediate of its own pushes. -/
def pushValue (i : Instruction) : Except Misstep (Option Word) :=
  if pushWidth i.byte = 0 then .ok none
  else
    match Word.ofBytes? i.immediate with
    | some w => .ok (some w)
    | none => .error (.oversized i.immediate.length)

/-- The place in the pool that a pooled push names. -/
def poolIndex (i : Instruction) : Option UInt8 :=
  if i.byte = Opcode.pushc.toByte then i.immediate.head? else none

/-- The instruction as a line of assembly. -/
def text (i : Instruction) : Except Misstep String :=
  match poolIndex i with
  | some index => .ok (i.mnemonic ++ " #" ++ toString index.toNat)
  | none => do
    match ← pushValue i with
    | some w => .ok (i.mnemonic ++ " " ++ w.text)
    | none => .ok i.mnemonic

/-! ## Cursors -/

/-- A place in a byte string from which instructions are met. -/
structure Cursor where
  code : List UInt8
  /-- from here on no instruction is met -/
  stop : Nat
  /-- where the next instruction stands -/
  position : Nat
  deriving DecidableEq, Repr, Inhabited

namespace Cursor

/-- The cursor in front of the code, for the instructions that start before `stop`. -/
def start (code : List UInt8) (stop : Nat) : Cursor := ⟨code, min stop code.length, 0⟩

/-- The next instruction, if there is one, and the cursor behind it. -/
def next (c : Cursor) : Except Misstep (Option Instruction × Cursor) :=
  if c.stop ≤ c.position then .ok (none, c)
  else do
    let i ← decodeClipped c.code c.position
    .ok (some i, { c with position := c.position + i.size })

/-- The cursor meets the instructions one after the other, without a misstep, and then there are no
more. -/
inductive Meets : Cursor → List Instruction → Prop where
  /-- there is no instruction -/
  | done {c : Cursor} (none : c.next = .ok (none, c)) : Meets c []
  /-- there is one, and behind it the others are met -/
  | step {c behind : Cursor} {i : Instruction} {rest : List Instruction}
      (first : c.next = .ok (some i, behind)) (others : Meets behind rest) : Meets c (i :: rest)

/-- A cursor meets no other instructions than those it meets. -/
theorem Meets.unique {c : Cursor} {is js : List Instruction} (h : c.Meets is) (h' : c.Meets js) :
    is = js := by
  induction h generalizing js with
  | done none =>
    cases h' with
    | done _ => rfl
    | step first _ =>
      rw [none] at first
      cases first
  | step first _ ih =>
    cases h' with
    | done none =>
      rw [first] at none
      cases none
    | step first' others' =>
      rw [first] at first'
      cases first'
      rw [ih others']

end Cursor

end EvmPrep.InPlace
