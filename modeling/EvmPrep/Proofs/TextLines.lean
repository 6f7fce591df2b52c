import EvmPrep.Listing
set_option autoImplicit false

/-!
# Texts and their lines

A listing is written as one text, and a reader has to find the lines again.  This works
because no line holds a line feed: apart from letters and digits there are only a few
marks in a listing, and each part of a line has few of them (`MadeOf`).  So the lines of
a listing's text are the lines that were written (`textLines_render`), and two listings
with the same text have the same lines, whatever they list and however.
-/

namespace EvmPrep

/-! ## Letters, digits and marks -/

/-- The text is made of letters, digits and the given marks. -/
def MadeOf (marks : List Char) (s : String) : Prop :=
  ∀ c ∈ s.toList, c.isAlphanum = true ∨ c ∈ marks

instance (marks : List Char) (s : String) : Decidable (MadeOf marks s) :=
  List.decidableBAll (fun c : Char => c.isAlphanum = true ∨ c ∈ marks) s.toList

namespace MadeOf

variable {marks more : List Char} {s t : String} {c : Char}

theorem append (hs : MadeOf marks s) (ht : MadeOf marks t) : MadeOf marks (s ++ t) := by
  intro c hc
  rw [String.toList_append, List.mem_append] at hc
  exact hc.elim (hs c) (ht c)

theorem mono (h : MadeOf marks s) (sub : marks ⊆ more) : MadeOf more s :=
  fun c hc => (h c hc).imp_right fun hm => sub hm

/-- A text without marks has none that it should not have. -/
theorem of_nil (h : MadeOf [] s) : MadeOf marks s := h.mono (List.nil_subset _)

/-- A character that is neither alphanumeric nor among the given marks is not in the text. -/
theorem notMem (h : MadeOf marks s) (other : ¬ (c.isAlphanum = true ∨ c ∈ marks)) :
    c ∉ s.toList :=
  fun hc => other (h c hc)

theorem bne_of_mem (h : MadeOf marks s) (other : ¬ (c.isAlphanum = true ∨ c ∈ marks)) :
    ∀ d ∈ s.toList, (d != c) = true :=
  fun _ hd => bne_iff_ne.mpr fun heq => h.notMem other (heq ▸ hd)

end MadeOf

/-- The marks of a listing. -/
def lineMarks : List Char := [' ', ',', '-', ':', ';', '#', '|', '(', ')', '[', ']']

/-! ## Numbers -/

theorem isAlphanum_digitChar {k : Nat} (h : k < 16) : k.digitChar.isAlphanum = true := by
  have all : ∀ k : Fin 16, (Nat.digitChar k.val).isAlphanum = true := by decide
  exact all ⟨k, h⟩

namespace Hex

variable {c : Char}

theorem isAlphanum_of_mem_digits {n : Nat} (h : c ∈ digits n) : c.isAlphanum = true := by
  induction n using Nat.strongRecOn with
  | ind n ih =>
    rcases Nat.lt_or_ge n 16 with hn | hn
    · rw [digits_of_lt hn, List.mem_singleton] at h
      rw [h]
      exact isAlphanum_digitChar hn
    · rw [digits_of_le hn, List.mem_append, List.mem_singleton] at h
      rcases h with h | rfl
      · exact ih (n / 16) (by omega) h
      · exact isAlphanum_digitChar (Nat.mod_lt _ (by decide))

theorem isAlphanum_of_mem_padded {width n : Nat} (h : c ∈ padded width n) :
    c.isAlphanum = true := by
  rw [padded, List.leftpad, List.mem_append] at h
  rcases h with h | h
  · rw [List.eq_of_mem_replicate h]
    decide
  · exact isAlphanum_of_mem_digits h

theorem isAlphanum_of_mem_byte {b : UInt8} (h : c ∈ byte b) : c.isAlphanum = true :=
  isAlphanum_of_mem_padded (byte_eq_padded b ▸ h)

end Hex

theorem madeOf_toString (n : Nat) : MadeOf [] (toString n) := by
  intro c hc
  rw [Nat.toString_eq_repr, Nat.repr, String.toList_ofList] at hc
  have hdigit := Nat.isDigit_of_mem_toDigits (by decide) (by decide) hc
  exact .inl (by rw [Char.isAlphanum, hdigit, Bool.or_true])

theorem madeOf_offsetText (offset : Nat) : MadeOf [] (offsetText offset) := by
  intro c hc
  rw [offsetText, String.toList_ofList] at hc
  exact .inl (Hex.isAlphanum_of_mem_padded hc)

theorem Word.madeOf_text (w : Word) : MadeOf [] w.text := by
  refine MadeOf.append (by decide) fun c hc => ?_
  rw [String.toList_ofList] at hc
  exact .inl (Hex.isAlphanum_of_mem_digits hc)

/-! ## Instructions -/

theorem Opcode.madeOf_mnemonic (o : Opcode) : MadeOf [] o.mnemonic := by
  cases o with
  | push n => exact .append (by decide) (madeOf_toString _)
  | dup n => exact .append (by decide) (madeOf_toString _)
  | swap n => exact .append (by decide) (madeOf_toString _)
  | log n => exact .append (by decide) (madeOf_toString _)
  | _ => decide

namespace Instruction

/-- What stands behind the name in the text of an instruction. -/
def operandText (i : Instruction) : String :=
  match i.operand with
  | .pooled index => " #" ++ toString index.toNat
  | .value w => " " ++ w.text
  | .absent | .oversized => ""

theorem text_eq_append (i : Instruction) : i.text = i.mnemonic ++ i.operandText := by
  unfold text operandText
  cases i.operand with
  | absent => exact String.append_empty.symm
  | oversized => exact String.append_empty.symm
  | value w => exact String.append_assoc
  | pooled index => exact String.append_assoc

theorem madeOf_mnemonic (i : Instruction) : MadeOf ['(', ')'] i.mnemonic := by
  unfold mnemonic
  split
  · exact (Opcode.madeOf_mnemonic _).of_nil
  · refine .append (.append (by decide) fun c hc => ?_) (by decide)
    rw [String.toList_ofList] at hc
    exact .inl (Hex.isAlphanum_of_mem_byte hc)

theorem madeOf_operandText (i : Instruction) : MadeOf [' ', '#'] i.operandText := by
  unfold operandText
  split
  · exact .append (by decide) (madeOf_toString _).of_nil
  · exact .append (by decide) (Word.madeOf_text _).of_nil
  · decide
  · decide

theorem madeOf_text (i : Instruction) : MadeOf lineMarks i.text := by
  rw [text_eq_append]
  exact (i.madeOf_mnemonic.mono (by decide)).append (i.madeOf_operandText.mono (by decide))

theorem madeOf_hexColumn (i : Instruction) : MadeOf [' '] i.hexColumn := by
  intro c hc
  rw [hexColumn, String.toList_ofList, List.mem_append, List.mem_flatMap] at hc
  rcases hc with hc | ⟨b, -, hc⟩
  · exact .inl (Hex.isAlphanum_of_mem_byte hc)
  · rcases List.mem_cons.mp hc with rfl | hc
    · exact .inr (List.mem_singleton_self _)
    · exact .inl (Hex.isAlphanum_of_mem_byte hc)

/-- A comment on anything but a pooled push is one of a few fixed texts. -/
theorem madeOf_comment_of_ne_pushc {i : Instruction} {pool? : Option ConstantPool}
    {comment : String} (plain : i.opcode? ≠ some .pushc) (h : i.comment? pool? = some comment) :
    MadeOf [' ', ',', '-'] comment := by
  unfold comment? at h
  split at h
  case h_7 hpushc => exact absurd hpushc plain
  case h_8 => cases h
  all_goals
    cases h
    decide

theorem madeOf_comment {i : Instruction} {pool? : Option ConstantPool} {comment : String}
    (h : i.comment? pool? = some comment) : MadeOf lineMarks comment := by
  by_cases hpushc : i.opcode? = some .pushc
  · rw [comment?, hpushc] at h
    dsimp only at h
    split at h
    · cases h
    · split at h
      · cases h
        exact .append (by decide) (Word.madeOf_text _).of_nil
      · cases h
        exact .append (by decide) (madeOf_toString _).of_nil
  · exact (madeOf_comment_of_ne_pushc hpushc h).mono (by decide)

end Instruction

/-! ## Lines -/

theorem madeOf_inHexColumn {marks : List Char} {s : String} (blank : ' ' ∈ marks)
    (h : MadeOf marks s) : MadeOf marks (inHexColumn s) := by
  intro c hc
  rw [inHexColumn, String.toList_ofList, List.rightpad, List.mem_append] at hc
  rcases hc with hc | hc
  · exact h c hc
  · exact .inr (List.eq_of_mem_replicate hc ▸ blank)

namespace ListingOptions

variable {o : ListingOptions} {l : String}

theorem madeOf_hexdumpLine (i : Instruction) : MadeOf lineMarks (hexdumpLine i) := by
  refine .append (.append (.append (.append (.append ?_ (by decide)) ?_) (by decide)) ?_)
    (by decide)
  · exact (madeOf_offsetText i.offset).of_nil
  · exact i.madeOf_hexColumn.mono (by decide)
  · exact i.madeOf_text

theorem madeOf_verboseLine (pool? : Option ConstantPool) (i : Instruction) :
    MadeOf lineMarks (o.verboseLine pool? i) := by
  refine .append (.append (.append (.append (by decide) ?_) ?_) ?_) ?_
  · split
    · exact .append (madeOf_offsetText i.offset).of_nil (by decide)
    · decide
  · split
    · exact madeOf_inHexColumn (by decide) (i.madeOf_hexColumn.mono (by decide))
    · decide
  · exact i.madeOf_text
  · split
    · rename_i hcomment
      exact .append (by decide) (Instruction.madeOf_comment hcomment)
    · decide

theorem madeOf_of_mem_jumpTableLines {t : JumpTable} (h : l ∈ o.jumpTableLines t) :
    MadeOf [' ', ':'] l := by
  unfold jumpTableLines at h
  split at h
  · rw [List.cons_append, List.mem_cons, List.mem_append, List.mem_map, List.mem_singleton] at h
    rcases h with rfl | ⟨d, -, rfl⟩ | rfl
    · decide
    · exact .append (by decide) (madeOf_offsetText d).of_nil
    · decide
  · cases h

theorem madeOf_of_mem_poolLines {pool? : Option ConstantPool} (h : l ∈ o.poolLines pool?) :
    MadeOf lineMarks l := by
  unfold poolLines at h
  split at h
  · split at h
    · rw [List.cons_append, List.mem_cons, List.mem_append, List.mem_map, List.mem_singleton] at h
      rcases h with rfl | ⟨⟨w, k⟩, -, rfl⟩ | rfl
      · decide
      · exact .append (.append (.append (by decide) (madeOf_toString k).of_nil) (by decide))
          w.madeOf_text.of_nil
      · decide
    · cases h
  · cases h

theorem madeOf_lengthLine (n : Nat) :
    MadeOf [' ', ':', '(', ')'] ("Code (" ++ toString n ++ " bytes):") :=
  .append (.append (by decide) (madeOf_toString n).of_nil) (by decide)

/-- No line holds anything but letters, digits and the marks of a listing. -/
theorem madeOf_of_mem_lines {s : ListingSource} (h : l ∈ o.lines s) : MadeOf lineMarks l := by
  unfold lines at h
  split at h
  · obtain ⟨i, -, rfl⟩ := List.mem_map.mp h
    exact i.madeOf_text
  · obtain ⟨i, -, rfl⟩ := List.mem_map.mp h
    exact madeOf_hexdumpLine i
  · rw [List.append_assoc, List.mem_append, List.mem_append, List.mem_cons, List.mem_map] at h
    rcases h with h | h | rfl | ⟨i, -, rfl⟩
    · exact (madeOf_of_mem_jumpTableLines h).mono (by decide)
    · exact madeOf_of_mem_poolLines h
    · exact (madeOf_lengthLine _).mono (by decide)
    · exact madeOf_verboseLine s.pool? i

theorem lineFeed_notMem_of_mem_lines {s : ListingSource} (h : l ∈ o.lines s) :
    '\n' ∉ l.toList :=
  (madeOf_of_mem_lines h).notMem (by decide)

end ListingOptions

/-! ## Texts -/

/-- The lines of a text in which every line ends with a line feed. -/
def textLines (text : String) : List String :=
  ((text.toList.splitOn '\n').dropLast).map String.ofList

/-- Behind the last line feed of a text nothing is left. -/
theorem splitOn_flatMap_lines {ls : List String} (h : ∀ l ∈ ls, '\n' ∉ l.toList) :
    (ls.flatMap fun l => l.toList ++ ['\n']).splitOn '\n' = ls.map String.toList ++ [[]] := by
  induction ls with
  | nil => rfl
  | cons l rest ih =>
    have hl : ∀ c ∈ l.toList, (c == '\n') = false := fun c hc =>
      beq_eq_false_iff_ne.mpr fun hfeed => h l (List.mem_cons_self ..) (hfeed ▸ hc)
    rw [List.flatMap_cons, List.append_assoc, List.singleton_append, List.splitOn_eq_splitOnP,
      List.splitOnP_append_cons_of_forall_mem hl _ (beq_self_eq_true _),
      ← List.splitOn_eq_splitOnP, ih fun l' hl' => h l' (List.mem_cons_of_mem _ hl')]
    rfl

/-- Lines that are put together to a text are found again, if none of them holds a line feed. -/
theorem textLines_join {ls : List String} (h : ∀ l ∈ ls, '\n' ∉ l.toList) :
    textLines (String.join (ls.map (· ++ "\n"))) = ls := by
  have htext : (String.join (ls.map (· ++ "\n"))).toList
      = ls.flatMap fun l => l.toList ++ ['\n'] := by
    rw [String.toList_join, List.flatMap_map]
    simp only [String.toList_append]
    rfl
  rw [textLines, htext, splitOn_flatMap_lines h, List.dropLast_concat, List.map_map]
  exact List.map_id'' (fun _ => String.ofList_toList) _

/-- The lines of a listing are found again in its text. -/
theorem textLines_render (o : ListingOptions) (s : ListingSource) :
    textLines (o.render s) = o.lines s :=
  textLines_join fun _ => ListingOptions.lineFeed_notMem_of_mem_lines

/-- Listings have the same text if and only if they have the same lines. -/
theorem render_eq_render_iff {o p : ListingOptions} {s t : ListingSource} :
    o.render s = p.render t ↔ o.lines s = p.lines t := by
  constructor
  · intro h
    rw [← textLines_render, h, textLines_render]
  · intro h
    rw [ListingOptions.render, ListingOptions.render, h]

end EvmPrep
