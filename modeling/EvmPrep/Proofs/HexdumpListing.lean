import EvmPrep.Proofs.Cursor
import EvmPrep.Proofs.TextLines
set_option autoImplicit false

/-!
# Reading a hexdump back

A line of a hexdump joins three parts, and each separator comes too late to be taken for a
part of what stands before it: an offset has no colon, and the column of bytes has no
bar.  So the offset and the bytes can be read off a line (`readHexdumpLine?`), however
many digits the one has and however many the others are.  What stands behind the bar need
not be read, since the text of an instruction follows from its bytes.

Reading all the lines of a hexdump gives the instructions that were listed, of whatever
code they are (`readHexdump?_render`).
-/

namespace EvmPrep

/-! ## Digits -/

namespace Hex

theorem value?_padded (width n : Nat) : value? (padded width n) = some n := by
  have hzeros : ∀ k, (List.replicate k '0').foldlM readDigit 0 = some 0 := by
    intro k
    induction k with
    | zero => rfl
    | succ k ih => exact ih
  have hdigits : padded width n ≠ [] := by
    rw [padded, List.leftpad]
    exact List.append_ne_nil_of_right_ne_nil _ (digits_ne_nil n)
  rw [value?, if_neg (by simpa using hdigits), padded, List.leftpad, List.foldlM_append, hzeros]
  exact foldlM_readDigit_digits n

end Hex

theorem filter_hexColumn (i : Instruction) :
    i.hexColumn.toList.filter (· != ' ') = Hex.bytes i.bytes := by
  have hbyte : ∀ b : UInt8, (Hex.byte b).filter (· != ' ') = Hex.byte b := by
    intro b
    refine List.filter_eq_self.mpr fun c hc => bne_iff_ne.mpr ?_
    rintro rfl
    exact absurd (Hex.isAlphanum_of_mem_byte hc) (by decide)
  have hspaced : ∀ b : UInt8, (' ' :: Hex.byte b).filter (· != ' ') = Hex.byte b := fun b =>
    (List.filter_cons_of_neg (by decide)).trans (hbyte b)
  rw [Instruction.hexColumn, String.toList_ofList, List.filter_append, hbyte, List.filter_flatMap]
  simp only [hspaced]
  rfl

/-! ## Lines -/

/-- The instruction that a line of a hexdump shows: its offset stands in front of the colon, and its
bytes stand behind it and in front of the bar. -/
def readHexdumpLine? (line : String) : Option Instruction :=
  let column := ((line.toList.dropWhile (· != ':')).drop 1).takeWhile (· != '|')
  match Hex.value? (line.toList.takeWhile (· != ':')), Hex.bytes? (column.filter (· != ' ')) with
  | some offset, some (b :: immediate) => some ⟨offset, b, immediate⟩
  | _, _ => none

/-- The instructions that a hexdump shows. -/
def readHexdump? (text : String) : Option (List Instruction) :=
  (textLines text).mapM readHexdumpLine?

/-- A line of a hexdump reads back as its instruction. -/
theorem readHexdumpLine?_hexdumpLine (i : Instruction) :
    readHexdumpLine? (ListingOptions.hexdumpLine i) = some i := by
  have hcolon : ∀ c ∈ (offsetText i.offset).toList, (c != ':') = true :=
    (madeOf_offsetText _).bne_of_mem (by decide)
  have hbar : ∀ c ∈ i.hexColumn.toList, (c != '|') = true :=
    i.madeOf_hexColumn.bne_of_mem (by decide)
  have hline : (ListingOptions.hexdumpLine i).toList
      = (offsetText i.offset).toList ++ (':' :: ' ' :: ' ' ::
        (i.hexColumn.toList ++ (' ' :: ' ' :: '|' :: (i.text.toList ++ ['|'])))) := by
    simp [ListingOptions.hexdumpLine]
  have hoffset : (ListingOptions.hexdumpLine i).toList.takeWhile (· != ':')
      = (offsetText i.offset).toList := by
    rw [hline, List.takeWhile_append_of_pos hcolon]
    simp
  have hcolumn : (((ListingOptions.hexdumpLine i).toList.dropWhile (· != ':')).drop 1).takeWhile
      (· != '|') = ' ' :: ' ' :: (i.hexColumn.toList ++ [' ', ' ']) := by
    rw [hline, List.dropWhile_append_of_pos hcolon]
    simp [List.takeWhile_append_of_pos hbar]
  have hdigits : (' ' :: ' ' :: (i.hexColumn.toList ++ [' ', ' '])).filter (· != ' ')
      = Hex.bytes i.bytes := by
    simp [List.filter_append, filter_hexColumn]
  rw [readHexdumpLine?, hoffset, hcolumn, hdigits, Hex.bytes?_bytes, offsetText,
    String.toList_ofList, Hex.value?_padded]
  rfl

/-! ## Listings -/

/-- A hexdump reads back as the instructions that were listed. -/
theorem readHexdump?_render {o : ListingOptions} (hexdump : o.format = .hexdump)
    (s : ListingSource) : readHexdump? (o.render s) = some s.instructions := by
  have hlines : o.lines s = s.instructions.map ListingOptions.hexdumpLine := by
    rw [ListingOptions.lines, hexdump]
  rw [readHexdump?, textLines_render, hlines, List.mapM_map]
  have hread : readHexdumpLine? ∘ ListingOptions.hexdumpLine = pure := by
    funext i
    rw [Function.comp_apply, readHexdumpLine?_hexdumpLine, Option.pure_def]
  rw [hread, List.mapM_pure, List.map_id', Option.pure_def]

/-- A hexdump determines what was listed.  The instructions can be read back from it, each with its
offset, its byte and its immediate, whatever the code is and whichever way it was prepared, if at
all; so two hexdumps are the same text if and only if the same instructions were listed.  Of any
code and any end, what is read back are the bytes of the code up to a place behind the end or at
it. -/
theorem hexdump_listing_exact (o o' : ListingOptions) (s s' : ListingSource) :
    let dump := ListingOptions.render { o with format := .hexdump }
    let dump' := ListingOptions.render { o' with format := .hexdump }
    readHexdump? (dump s) = some s.instructions
      ∧ (dump s = dump' s' ↔ s.instructions = s'.instructions)
      ∧ ∀ (code : List UInt8) (stop : Nat), ∃ e, min stop code.length ≤ e ∧ e ≤ code.length
        ∧ (readHexdump? (dump { s with instructions := instructionsBefore code stop })).map
          (List.flatMap Instruction.bytes) = some (code.take e) := by
  intro dump dump'
  refine ⟨readHexdump?_render rfl s, ⟨fun h => ?_, fun h => ?_⟩, fun code stop => ?_⟩
  · have hread : readHexdump? (dump s) = readHexdump? (dump' s') := congrArg readHexdump? h
    rw [readHexdump?_render rfl, readHexdump?_render rfl] at hread
    exact Option.some.inj hread
  · exact render_eq_render_iff.mpr (congrArg (List.map ListingOptions.hexdumpLine) h)
  · obtain ⟨e, hcovers, hinside, -, hbytes⟩ := exists_flatMap_bytes_instructionsBefore code stop
    refine ⟨e, hcovers, hinside, ?_⟩
    rw [readHexdump?_render rfl, Option.map_some]
    exact congrArg some hbytes

end EvmPrep
