import EvmPrep.Code
set_option autoImplicit false

/-!
# Listings

A listing shows code as text, one line for each instruction, in one of three
formats:

* compact, the instruction alone: `PUSH2 0x102`,
* verbose, with the tables in front and, for each instruction, what the options ask
  for: its offset, its bytes, a comment,
* hexdump, offset, bytes and instruction: `0000:  61 01 02  |PUSH2 0x102|`.

Offsets are in base sixteen with at least four digits.  In the verbose format the
bytes stand in a column of 24 characters; bytes that fill it or need more room are
followed by the instruction with nothing between.

Anything that has instructions, a jump table and perhaps a pool can be listed
(`ListingSource`).  A listing is a list of lines (`ListingOptions.lines`), and its
text ends every line with a line feed.
-/

namespace EvmPrep

/-! ## What is listed, and how -/

/-- The format of a listing. -/
inductive ListingFormat where
  | compact
  | verbose
  | hexdump
  deriving DecidableEq, Repr, Inhabited

/-- What a listing shows.  All but the format concerns the verbose format alone. -/
structure ListingOptions where
  format : ListingFormat := .verbose
  /-- the offset of each instruction -/
  showAddresses : Bool := true
  /-- the bytes of each instruction -/
  showHex : Bool := false
  /-- what an instruction does, where that needs saying -/
  showComments : Bool := true
  /-- the constants -/
  showPool : Bool := true
  /-- the legal destinations -/
  showJumpTable : Bool := true
  deriving DecidableEq, Repr, Inhabited

/-- Code that can be listed. -/
structure ListingSource where
  instructions : List Instruction
  jumpTable : JumpTable
  /-- the constants, if the code is of a phase that has any -/
  pool? : Option ConstantPool
  /-- the length that the listing reports -/
  programLen : Nat
  deriving Repr, Inhabited

/-- Analyzed code has no pool. -/
def AnalyzedCode.listingSource (code : AnalyzedCode) : ListingSource :=
  ⟨code.instructions, code.jumpTable, none, code.len⟩

/-- Prepared code has a pool, which may be empty. -/
def PreparedCode.listingSource (code : PreparedCode) : ListingSource :=
  ⟨code.instructions, code.jumpTable, some code.pool, code.len⟩

/-! ## Parts of lines -/

/-- An offset in at least four digits. -/
def offsetText (offset : Nat) : String := String.ofList (Hex.padded 4 offset)

/-- The width of the column that holds an instruction's bytes. -/
def hexColumnWidth : Nat := 24

/-- The text filled up with blanks to the width of the column. -/
def inHexColumn (s : String) : String := String.ofList (s.toList.rightpad hexColumnWidth ' ')

namespace Instruction

/-- What the instruction does, if the listing says so.  A pooled push is explained by its constant,
and by the constant's place if there is no such constant at hand. -/
def comment? (i : Instruction) (pool? : Option ConstantPool) : Option String :=
  match i.opcode? with
  | some .jumpdest => some "jump target"
  | some .jump | some .jumpi => some "dynamic destination, checked at run time"
  | some .jumpv => some "jump to pre-verified destination"
  | some .jumpvi => some "conditional jump to pre-verified destination"
  | some .bad => some "trap"
  | some .pushc =>
    match i.poolIndex? with
    | none => none
    | some index =>
      match pool?.bind fun pool => (pool.get index).toOption with
      | some w => some ("push constant " ++ w.text)
      | none => some ("push constant #" ++ toString index.toNat)
  | _ => none

end Instruction

/-! ## Lines -/

namespace ListingOptions

/-- The line of an instruction in the verbose format. -/
def verboseLine (o : ListingOptions) (pool? : Option ConstantPool) (i : Instruction) : String :=
  "  " ++ (if o.showAddresses then offsetText i.offset ++ ": " else "")
    ++ (if o.showHex then inHexColumn i.hexColumn else "")
    ++ i.text
    ++ (match o.showComments, i.comment? pool? with
      | true, some comment => "  ; " ++ comment
      | _, _ => "")

/-- The table of legal destinations, unless it is empty or not asked for. -/
def jumpTableLines (o : ListingOptions) (t : JumpTable) : List String :=
  if o.showJumpTable && !t.isEmpty then
    "Jump destinations:" :: t.dests.toList.map (fun d => "  " ++ offsetText d) ++ [""]
  else []

/-- The constants, unless there are none or they are not asked for. -/
def poolLines (o : ListingOptions) (pool? : Option ConstantPool) : List String :=
  match pool? with
  | some pool =>
    if o.showPool && !pool.isEmpty then
      "Constant pool:"
        :: pool.entries.zipIdx.map (fun (w, k) => "  [" ++ toString k ++ "]: " ++ w.text)
        ++ [""]
    else []
  | none => []

/-- The line of an instruction in the format of a hexdump. -/
def hexdumpLine (i : Instruction) : String :=
  offsetText i.offset ++ ":  " ++ i.hexColumn ++ "  |" ++ i.text ++ "|"

/-- The lines of a listing. -/
def lines (o : ListingOptions) (s : ListingSource) : List String :=
  match o.format with
  | .compact => s.instructions.map Instruction.text
  | .hexdump => s.instructions.map hexdumpLine
  | .verbose =>
    o.jumpTableLines s.jumpTable ++ o.poolLines s.pool?
      ++ ("Code (" ++ toString s.programLen ++ " bytes):")
        :: s.instructions.map (o.verboseLine s.pool?)

/-- A listing as one text. -/
def render (o : ListingOptions) (s : ListingSource) : String :=
  String.join ((o.lines s).map (· ++ "\n"))

end ListingOptions

end EvmPrep
