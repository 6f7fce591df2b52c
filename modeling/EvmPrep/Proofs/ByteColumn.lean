import Mathlib.Data.List.Forall2
import EvmPrep.Proofs.AccessSafety
import EvmPrep.Proofs.VerboseListing
set_option autoImplicit false

/-!
# Bytes and names in one line

A verbose listing can show the bytes of an instruction between its offset and its name, in
a column that is filled up with blanks.  These blanks are all that keeps the last byte and
the name apart.  Eight bytes take 23 of the 24 characters and leave one blank; nine take 26
and leave none.  So a line falls into the words it was made of if and only if its
instruction has no more than eight bytes (`bytesApart_verboseLine_iff`).  In the line of
a longer one the last byte and the name are one word, and every other word is as it should
be (`lastByteJoined_verboseLine_iff`).

In analyzed and prepared code the long instructions are the pushes of eight bytes and
more, pooled or not.
-/

namespace EvmPrep

/-! ## Words -/

/-- The words in a row of characters: what stands between the blanks. -/
def wordsOf (cs : List Char) : List (List Char) :=
  (cs.splitOnP Char.isWhitespace).filter (!·.isEmpty)

/-- The words of a text. -/
def textWords (text : String) : List String := (wordsOf text.toList).map String.ofList

/-- A word has characters, and no blank is among them. -/
def IsWord (w : List Char) : Prop := w ≠ [] ∧ ∀ c ∈ w, c.isWhitespace = false

/-- A blank comes first, if anything comes. -/
def KeepsApart (cs : List Char) : Prop := ∀ c ∈ cs.head?, c.isWhitespace = true

section Words

variable {c : Char} {w front behind : List Char}

/-- A blank divides a row into words that have nothing to do with each other.  All else about words
follows from this. -/
theorem wordsOf_append_cons (blank : c.isWhitespace = true) :
    wordsOf (front ++ c :: behind) = wordsOf front ++ wordsOf behind := by
  unfold wordsOf
  rw [List.splitOnP_append_cons front behind blank, List.filter_append]

@[simp] theorem wordsOf_nil : wordsOf [] = [] := by
  simp [wordsOf]

theorem wordsOf_cons (blank : c.isWhitespace = true) : wordsOf (c :: behind) = wordsOf behind := by
  simpa using @wordsOf_append_cons c [] behind blank

theorem wordsOf_append (apart : KeepsApart behind) :
    wordsOf (front ++ behind) = wordsOf front ++ wordsOf behind := by
  cases behind with
  | nil => simp
  | cons c behind =>
    have blank : c.isWhitespace = true := apart c rfl
    simp only [wordsOf_append_cons blank, wordsOf_cons blank]

theorem wordsOf_replicate_append (n : Nat) :
    wordsOf (List.replicate n ' ' ++ behind) = wordsOf behind := by
  induction n with
  | zero => simp
  | succ n ih => exact (wordsOf_cons (by decide)).trans ih

namespace IsWord

theorem wordsOf_eq (h : IsWord w) : wordsOf w = [w] := by
  unfold wordsOf
  rw [List.splitOnP_eq_singleton h.2]
  simp [h.1]

theorem wordsOf_append (h : IsWord w) (apart : KeepsApart behind) :
    wordsOf (w ++ behind) = w :: wordsOf behind := by
  rw [EvmPrep.wordsOf_append apart, h.wordsOf_eq, List.singleton_append]

theorem append (hw : IsWord w) (hbehind : IsWord behind) : IsWord (w ++ behind) :=
  ⟨List.append_ne_nil_of_left_ne_nil hw.1 _,
    fun c hc => (List.mem_append.mp hc).elim (hw.2 c) (hbehind.2 c)⟩

end IsWord

theorem isWhitespace_eq_false_of_isAlphanum (h : c.isAlphanum = true) :
    c.isWhitespace = false := by
  refine Bool.eq_false_iff.mpr fun blank => ?_
  simp only [Char.isWhitespace, Bool.or_eq_true, decide_eq_true_eq] at blank
  obtain ((rfl | rfl) | rfl) | rfl := blank <;> exact absurd h (by decide)

/-- A text of letters, digits and marks other than blanks is a word. -/
theorem MadeOf.isWord {marks : List Char} {s : String} (h : MadeOf marks s)
    (visible : ∀ m ∈ marks, m.isWhitespace = false) (ne : s.toList ≠ []) : IsWord s.toList :=
  ⟨ne, fun c hc => (h c hc).elim isWhitespace_eq_false_of_isAlphanum (visible c)⟩

end Words

/-! ## Bytes -/

/-- A byte as it is shown. -/
def byteText (b : UInt8) : String := String.ofList (Hex.byte b)

theorem Hex.isWord_byte (b : UInt8) : IsWord (byte b) :=
  ⟨by simp [byte], fun _ hc => isWhitespace_eq_false_of_isAlphanum (isAlphanum_of_mem_byte hc)⟩

/-- Bytes with a blank behind each. -/
def Hex.spaced (bs : List UInt8) : List Char := bs.flatMap fun b => byte b ++ [' ']

@[simp] theorem Hex.spaced_nil : spaced [] = [] := rfl

@[simp] theorem Hex.spaced_cons (b : UInt8) (bs : List UInt8) :
    spaced (b :: bs) = byte b ++ ' ' :: spaced bs := by
  simp [spaced]

theorem Hex.length_spaced (bs : List UInt8) : (spaced bs).length = 3 * bs.length := by
  simp [spaced, byte, Nat.mul_comm]

/-- A blank may be written behind each byte or in front of it. -/
theorem Hex.cons_spaced_append (front : List UInt8) (last : UInt8) :
    ' ' :: (spaced front ++ byte last)
      = (front ++ [last]).flatMap fun b => ' ' :: byte b := by
  induction front with
  | nil => simp
  | cons b front ih => simpa using ih

theorem wordsOf_spaced_append (bs : List UInt8) (behind : List Char) :
    wordsOf (Hex.spaced bs ++ behind) = bs.map Hex.byte ++ wordsOf behind := by
  induction bs with
  | nil => simp
  | cons b bs ih =>
    calc wordsOf (Hex.spaced (b :: bs) ++ behind)
        = wordsOf (Hex.byte b ++ ' ' :: (Hex.spaced bs ++ behind)) := by simp
      _ = wordsOf (Hex.byte b) ++ wordsOf (Hex.spaced bs ++ behind) :=
          wordsOf_append_cons (by decide)
      _ = (b :: bs).map Hex.byte ++ wordsOf behind := by
          simp [(Hex.isWord_byte b).wordsOf_eq, ih]

/-- The blanks that fill the column behind the bytes of an instruction of the given size. -/
def columnFill (size : Nat) : List Char := List.replicate (hexColumnWidth + 1 - 3 * size) ' '

theorem keepsApart_columnFill_append {size : Nat} (short : size ≤ 8) (behind : List Char) :
    KeepsApart (columnFill size ++ behind) := by
  obtain ⟨k, hk⟩ : ∃ k, hexColumnWidth + 1 - 3 * size = k + 1 :=
    Nat.exists_eq_add_one.mpr (by unfold hexColumnWidth; omega)
  simp [KeepsApart, columnFill, hk, List.replicate_succ]

theorem columnFill_eq_nil {size : Nat} (long : 8 < size) : columnFill size = [] := by
  have hnone : hexColumnWidth + 1 - 3 * size = 0 := by unfold hexColumnWidth; omega
  simp [columnFill, hnone]

namespace Instruction

variable {i : Instruction} {front : List UInt8} {last : UInt8}

theorem exists_bytes_eq_append (i : Instruction) : ∃ front last, i.bytes = front ++ [last] :=
  ⟨_, _, (List.dropLast_append_getLast (List.cons_ne_nil i.byte i.immediate)).symm⟩

theorem size_eq_of_bytes (h : i.bytes = front ++ [last]) : i.size = front.length + 1 := by
  simpa using congrArg List.length h

/-- In the column a blank stands behind every byte but the last. -/
theorem toList_hexColumn (h : i.bytes = front ++ [last]) :
    i.hexColumn.toList = Hex.spaced front ++ Hex.byte last := by
  have hcolumn : ' ' :: i.hexColumn.toList = i.bytes.flatMap fun b => ' ' :: Hex.byte b := by
    simp [hexColumn, bytes]
  rw [h, ← Hex.cons_spaced_append] at hcolumn
  exact (List.cons.inj hcolumn).2

/-- The column as it stands in a line: the bytes, and the blanks that fill it up. -/
theorem toList_inHexColumn (h : i.bytes = front ++ [last]) :
    (inHexColumn i.hexColumn).toList
      = Hex.spaced front ++ (Hex.byte last ++ columnFill i.size) := by
  have hlength : i.hexColumn.toList.length + 1 = 3 * i.size := by
    have hcolumn := congrArg List.length (toList_hexColumn h)
    simp only [List.length_append, Hex.length_spaced, Hex.byte, List.length_cons,
      List.length_nil] at hcolumn
    have hsize := size_eq_of_bytes h
    omega
  have hroom : hexColumnWidth - i.hexColumn.toList.length = hexColumnWidth + 1 - 3 * i.size := by
    omega
  rw [inHexColumn, String.toList_ofList, List.rightpad, hroom, toList_hexColumn h,
    List.append_assoc, columnFill]

/-! ## Names, operands and comments -/

theorem isWord_mnemonic (i : Instruction) : IsWord i.mnemonic.toList := by
  refine i.madeOf_mnemonic.isWord (by simp) ?_
  unfold mnemonic
  split
  · rename_i o _
    cases o <;> simp [Opcode.mnemonic]
  · simp

theorem keepsApart_operandText (i : Instruction) : KeepsApart i.operandText.toList := by
  unfold operandText
  split <;> simp [KeepsApart]

theorem wordsOf_text (i : Instruction) :
    wordsOf i.text.toList = i.mnemonic.toList :: wordsOf i.operandText.toList := by
  rw [text_eq_append, String.toList_append]
  exact i.isWord_mnemonic.wordsOf_append i.keepsApart_operandText

end Instruction

namespace ListingOptions

variable (o : ListingOptions) (pool? : Option ConstantPool) (i : Instruction)

/-- The comment as it stands in a line, if it stands there. -/
def commentPart : String :=
  match o.showComments, i.comment? pool? with
  | true, some comment => "  ; " ++ comment
  | _, _ => ""

theorem keepsApart_commentPart : KeepsApart (o.commentPart pool? i).toList := by
  unfold commentPart
  split <;> simp [KeepsApart]

/-! ## Lines -/

/-- The words of the line are what it was made of: the offset, each byte of the instruction, and the
words of its text and its comment. -/
def BytesApart (line : String) : Prop :=
  textWords line = (offsetText i.offset ++ ":")
    :: (i.bytes.map byteText ++ (textWords i.text ++ textWords (o.commentPart pool? i)))

/-- The last byte of the instruction and its name are one word of the line.  All other words are the
offset, the bytes in front of the last, and the words behind the name. -/
def LastByteJoined (line : String) : Prop :=
  ∃ front last, i.bytes = front ++ [last]
    ∧ textWords line = (offsetText i.offset ++ ":")
      :: (front.map byteText ++ (byteText last ++ i.mnemonic)
        :: (textWords i.operandText ++ textWords (o.commentPart pool? i)))

variable {o pool? i}

/-- Bytes and name cannot be apart and joined: there is one word less where they are joined. -/
theorem BytesApart.not_lastByteJoined {line : String} (h : o.BytesApart pool? i line) :
    ¬ o.LastByteJoined pool? i line := by
  rintro ⟨front, last, hbytes, hwords⟩
  have hcount := congrArg List.length (h.symm.trans hwords)
  simp [textWords, Instruction.wordsOf_text, hbytes] at hcount

section Line

variable (addresses : o.showAddresses = true) (hex : o.showHex = true)
include addresses hex

theorem verboseLine_eq_append :
    o.verboseLine pool? i = "  " ++ (offsetText i.offset ++ ": ") ++ inHexColumn i.hexColumn
      ++ i.text ++ o.commentPart pool? i := by
  simp only [verboseLine, addresses, hex, if_true]
  rfl

/-- Up to the last byte the words of a line are as they should be. -/
theorem wordsOf_verboseLine {front : List UInt8} {last : UInt8} (h : i.bytes = front ++ [last]) :
    wordsOf (o.verboseLine pool? i).toList
      = ((offsetText i.offset).toList ++ [':']) :: (front.map Hex.byte
        ++ wordsOf (Hex.byte last ++ (columnFill i.size
          ++ (i.text.toList ++ (o.commentPart pool? i).toList)))) := by
  have haddress : IsWord ((offsetText i.offset).toList ++ [':']) := by
    have hmade : MadeOf [':'] (offsetText i.offset ++ ":") :=
      (madeOf_offsetText i.offset).of_nil.append (by decide)
    simpa using hmade.isWord (by simp) (by simp)
  have hblank : (' ').isWhitespace = true := by decide
  have hline : (o.verboseLine pool? i).toList
      = ' ' :: ' ' :: (((offsetText i.offset).toList ++ [':'])
        ++ ' ' :: (Hex.spaced front ++ (Hex.byte last ++ (columnFill i.size
          ++ (i.text.toList ++ (o.commentPart pool? i).toList))))) := by
    simp [verboseLine_eq_append addresses hex, Instruction.toList_inHexColumn h]
  rw [hline, wordsOf_cons hblank, wordsOf_cons hblank, wordsOf_append_cons hblank,
    haddress.wordsOf_eq, wordsOf_spaced_append, List.singleton_append]

/-- Eight bytes leave a blank in the column. -/
theorem bytesApart_verboseLine (short : i.size ≤ 8) :
    o.BytesApart pool? i (o.verboseLine pool? i) := by
  obtain ⟨front, last, hbytes⟩ := i.exists_bytes_eq_append
  have hlast : wordsOf (Hex.byte last ++ (columnFill i.size
        ++ (i.text.toList ++ (o.commentPart pool? i).toList)))
      = Hex.byte last :: (wordsOf i.text.toList ++ wordsOf (o.commentPart pool? i).toList) := by
    rw [(Hex.isWord_byte last).wordsOf_append (keepsApart_columnFill_append short _), columnFill,
      wordsOf_replicate_append, wordsOf_append (o.keepsApart_commentPart pool? i)]
  simp [BytesApart, textWords, wordsOf_verboseLine addresses hex hbytes, hlast, hbytes, byteText,
    Function.comp_def]

/-- Nine bytes leave none. -/
theorem lastByteJoined_verboseLine (long : 8 < i.size) :
    o.LastByteJoined pool? i (o.verboseLine pool? i) := by
  obtain ⟨front, last, hbytes⟩ := i.exists_bytes_eq_append
  have hjoined : wordsOf (Hex.byte last ++ (i.text.toList ++ (o.commentPart pool? i).toList))
      = (Hex.byte last ++ i.mnemonic.toList)
        :: (wordsOf i.operandText.toList ++ wordsOf (o.commentPart pool? i).toList) := by
    -- nothing stands between the byte and the name, so they are grouped into one word first
    have hword := (Hex.isWord_byte last).append i.isWord_mnemonic
    rw [← List.append_assoc, wordsOf_append (o.keepsApart_commentPart pool? i),
      Instruction.text_eq_append, String.toList_append, ← List.append_assoc,
      hword.wordsOf_append i.keepsApart_operandText, List.cons_append]
  refine ⟨front, last, hbytes, ?_⟩
  simp [textWords, wordsOf_verboseLine addresses hex hbytes, columnFill_eq_nil long, hjoined,
    byteText, Function.comp_def]

theorem bytesApart_verboseLine_iff :
    o.BytesApart pool? i (o.verboseLine pool? i) ↔ i.size ≤ 8 :=
  ⟨fun h => Nat.le_of_not_lt fun long =>
    h.not_lastByteJoined (lastByteJoined_verboseLine addresses hex long),
    bytesApart_verboseLine addresses hex⟩

theorem lastByteJoined_verboseLine_iff :
    o.LastByteJoined pool? i (o.verboseLine pool? i) ↔ 8 < i.size :=
  ⟨fun h => Nat.lt_of_not_le fun short =>
    (bytesApart_verboseLine addresses hex short).not_lastByteJoined h,
    lastByteJoined_verboseLine addresses hex⟩

end Line

/-! ## Listings -/

/-- Each instruction has its line at the end of the listing, and all these lines fall into the words
that they were made of. -/
def AllBytesApart (o : ListingOptions) (s : ListingSource) : Prop :=
  ∃ tables rows, textLines (o.render s) = tables ++ rows
    ∧ List.Forall₂ (o.BytesApart s.pool?) s.instructions rows

theorem exists_textLines_render (verbose : o.format = .verbose) (s : ListingSource) :
    ∃ tables, textLines (o.render s) = tables ++ s.instructions.map (o.verboseLine s.pool?) := by
  refine ⟨o.jumpTableLines s.jumpTable ++ o.poolLines s.pool?
    ++ ["Code (" ++ toString s.programLen ++ " bytes):"], ?_⟩
  simp [textLines_render, lines, verbose]

theorem allBytesApart_iff (verbose : o.format = .verbose) (addresses : o.showAddresses = true)
    (hex : o.showHex = true) (s : ListingSource) :
    o.AllBytesApart s ↔ ∀ i ∈ s.instructions, i.size ≤ 8 := by
  obtain ⟨tables, hlines⟩ := exists_textLines_render verbose s
  have hall : List.Forall₂ (o.BytesApart s.pool?) s.instructions
      (s.instructions.map (o.verboseLine s.pool?)) ↔ ∀ i ∈ s.instructions, i.size ≤ 8 := by
    simp only [List.forall₂_map_right_iff, List.forall₂_same,
      bytesApart_verboseLine_iff addresses hex]
  constructor
  · -- there is one way only to divide the lines, since the instructions count the rows
    rintro ⟨tables', rows, hlines', hrows⟩
    have hlength : rows.length = (s.instructions.map (o.verboseLine s.pool?)).length := by
      simp [hrows.length_eq]
    have hsame := List.append_inj_right' (hlines'.symm.trans hlines) hlength
    exact hall.mp (hsame ▸ hrows)
  · intro short
    exact ⟨tables, _, hlines, hall.mpr short⟩

end ListingOptions

theorem map_size_instructions_finish (program : List UInt8) (last : Option QuickenConfig) :
    ((RawCode.ofProgram program).analyze.finish last).instructions.map Instruction.size
      = (RawCode.ofProgram program).analyze.instructions.map fun i => pushNumber i.byte + 1 := by
  refine List.ext_getElem (by simp [length_instructions_finish]) fun k hprepared hanalyzed => ?_
  simp only [List.length_map] at hprepared hanalyzed
  have hfull := standsInFull_finish program last (List.getElem?_eq_getElem hanalyzed)
    (List.getElem?_eq_getElem hprepared)
  simp [Instruction.size, hfull.width]

/-- The long instructions of prepared code are wide pushes, pooled or not. -/
theorem size_le_eight_iff (program : List UInt8) (last : Option QuickenConfig) :
    (∀ r ∈ ((RawCode.ofProgram program).analyze.finish last).instructions, r.size ≤ 8)
      ↔ ∀ i ∈ (RawCode.ofProgram program).analyze.instructions, pushNumber i.byte ≤ 7 := by
  have hsizes := map_size_instructions_finish program last
  calc (∀ r ∈ ((RawCode.ofProgram program).analyze.finish last).instructions, r.size ≤ 8)
      ↔ ∀ n ∈ ((RawCode.ofProgram program).analyze.finish last).instructions.map
        Instruction.size, n ≤ 8 := by simp only [List.forall_mem_map]
    _ ↔ ∀ i ∈ (RawCode.ofProgram program).analyze.instructions, pushNumber i.byte + 1 ≤ 8 := by
        rw [hsizes, List.forall_mem_map]
    _ ↔ _ := by simp only [Nat.succ_le_succ_iff]

/-- A verbose listing that shows bytes falls into its words as far as its instructions are short.
Whatever is listed, the line of an instruction has the offset, the bytes and the words of the
text and the comment if and only if the instruction has at most eight bytes; in a longer one just
the last byte and the name are not told apart.  So the listing of an analyzed program is readable
throughout if and only if no push of the program has more than seven immediate bytes, and the
same goes for the program when it is prepared, whichever way. -/
theorem verbose_bytes_apart_iff (o : ListingOptions) :
    let shown := { o with format := .verbose, showAddresses := true, showHex := true }
    (∀ s : ListingSource, ∃ tables rows, textLines (shown.render s) = tables ++ rows
      ∧ List.Forall₂ (fun i row => (shown.BytesApart s.pool? i row ↔ i.size ≤ 8)
        ∧ (shown.LastByteJoined s.pool? i row ↔ 8 < i.size)) s.instructions rows)
      ∧ ∀ program : List UInt8,
        let analyzed := (RawCode.ofProgram program).analyze
        (shown.AllBytesApart analyzed.listingSource
            ↔ ∀ i ∈ analyzed.instructions, pushNumber i.byte ≤ 7)
          ∧ ∀ last, shown.AllBytesApart (analyzed.finish last).listingSource
            ↔ ∀ i ∈ analyzed.instructions, pushNumber i.byte ≤ 7 := by
  intro shown
  refine ⟨fun s => ?_, fun program => ⟨?_, fun last => ?_⟩⟩
  · obtain ⟨tables, hlines⟩ := ListingOptions.exists_textLines_render (o := shown) rfl s
    refine ⟨tables, _, hlines, ?_⟩
    simp only [List.forall₂_map_right_iff, List.forall₂_same]
    exact fun i _ => ⟨ListingOptions.bytesApart_verboseLine_iff rfl rfl,
      ListingOptions.lastByteJoined_verboseLine_iff rfl rfl⟩
  · exact (ListingOptions.allBytesApart_iff rfl rfl rfl _).trans (size_le_eight_iff program none)
  · exact (ListingOptions.allBytesApart_iff rfl rfl rfl _).trans (size_le_eight_iff program last)

/-- The push of eight bytes runs into its name. -/
theorem verbose_push_eight_joined :
    let analyzed := (RawCode.ofProgram [0x67, 1, 2, 3, 4, 5, 6, 7, 8]).analyze
    textLines (ListingOptions.render { showHex := true } analyzed.listingSource)
        = ["Code (9 bytes):", "  0000: 67 01 02 03 04 05 06 07 08PUSH8 0x102030405060708"]
      ∧ ¬ ListingOptions.AllBytesApart { showHex := true } analyzed.listingSource := by
  intro analyzed
  refine ⟨by decide +kernel, fun h => ?_⟩
  have hshort := (ListingOptions.allBytesApart_iff rfl rfl rfl _).mp h
  exact absurd hshort (by decide)

end EvmPrep
