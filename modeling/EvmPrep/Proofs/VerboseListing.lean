import EvmPrep.Proofs.Accounting
import EvmPrep.Proofs.TextLines
set_option autoImplicit false

/-!
# Quickened code in a verbose listing

Without its bytes and its pool, quickened code is listed as the code that it was made of,
line for line.  What a line shows behind the address follows from the instruction
(`Instruction.commentedText`), and quickening changes it in two ways only: a push shows
its word behind the name, a pooled push shows the same word in its comment; and a jump
that checks no more says so in its comment (`textQuickenedTo_replacement`).

A pooled push whose constant is not at hand would be explained by the constant's place.
Quickened code has its pool at hand and all constants are in it, so this comment is
never written.
-/

namespace EvmPrep

/-! ## Parts of a line -/

/-- What stands in front of an instruction. -/
def ListingOptions.addressPart (o : ListingOptions) (offset : Nat) : String :=
  "  " ++ (if o.showAddresses then offsetText offset ++ ": " else "")

/-- The text of an instruction, and its comment if it has one. -/
def Instruction.commentedText (pool? : Option ConstantPool) (i : Instruction) : String :=
  match i.comment? pool? with
  | some comment => i.text ++ ("  ; " ++ comment)
  | none => i.text

theorem ListingOptions.madeOf_addressPart (o : ListingOptions) (offset : Nat) :
    MadeOf [' ', ':'] (o.addressPart offset) := by
  refine .append (by decide) ?_
  split
  · exact .append (madeOf_offsetText offset).of_nil (by decide)
  · decide

/-- Where bytes are not shown and comments are, a line is an address and a text with its comment. -/
theorem ListingOptions.verboseLine_eq {o : ListingOptions} (hex : o.showHex = false)
    (comments : o.showComments = true) (pool? : Option ConstantPool) (i : Instruction) :
    o.verboseLine pool? i = o.addressPart i.offset ++ i.commentedText pool? := by
  rw [verboseLine, addressPart, Instruction.commentedText, hex, comments]
  cases i.comment? pool? <;> simp [String.append_assoc]

namespace Instruction

variable {i : Instruction} {pool? : Option ConstantPool}

theorem text_of_operand_eq_absent (h : i.operand = .absent) : i.text = i.mnemonic := by
  rw [text, h]

theorem commentedText_of_push {n : Fin 32} {w : Word} (op : i.opcode? = some (.push n))
    (pushed : i.pushValue? = some w) :
    i.commentedText pool? = "PUSH" ++ toString (n.val + 1) ++ " " ++ w.text := by
  have hcomment : i.comment? pool? = none := by rw [comment?, op]
  have hname : i.mnemonic = "PUSH" ++ toString (n.val + 1) := by
    rw [mnemonic, op]
    rfl
  rw [commentedText, hcomment, text, pushValue?_eq_some_iff.mp pushed, hname]

/-- Only the comment on a pooled push looks at the pool. -/
theorem comment?_congr {other? : Option ConstantPool} (plain : i.opcode? ≠ some .pushc) :
    i.comment? pool? = i.comment? other? := by
  unfold comment?
  split
  case h_7 hpushc => exact absurd hpushc plain
  all_goals rfl

theorem numberSign_notMem_commentedText (plain : i.byte ≠ Opcode.pushc.toByte) :
    '#' ∉ (i.commentedText pool?).toList := by
  have hoperand : MadeOf [' '] i.operandText := by
    unfold operandText
    split
    · rename_i index h
      exact absurd h (operand_ne_pooled plain index)
    · exact .append (by decide) (Word.madeOf_text _).of_nil
    · decide
    · decide
  have htext : MadeOf ['(', ')', ' ', ',', '-', ';'] i.text := by
    rw [text_eq_append]
    exact (i.madeOf_mnemonic.mono (by simp)).append (hoperand.mono (by simp))
  have hall : MadeOf ['(', ')', ' ', ',', '-', ';'] (i.commentedText pool?) := by
    unfold commentedText
    split
    · rename_i comment h
      have hcomment := madeOf_comment_of_ne_pushc (mt opcode?_eq_some_iff.mp plain) h
      exact htext.append (.append (by decide) (hcomment.mono (by simp)))
    · exact htext
  exact hall.notMem (by decide)

end Instruction

/-! ## What quickening makes of a text -/

/-- What two listings show of an instruction `i` and of the instruction `r` that stands for it in
quickened code, with the pool at hand. -/
structure TextQuickenedTo (pool : ConstantPool) (i r : Instruction) : Prop where
  /-- a pooled push shows in its comment the word that the push shows behind its name -/
  pooled : r.opcode? = some .pushc → ∃ (n : Fin 32) (index : UInt8) (w : Word),
    (i.opcode? = some (.push n) ∧ 1 ≤ n.val ∧ i.pushValue? = some w)
      ∧ (r.poolIndex? = some index ∧ pool.entries[index.toNat]? = some w)
      ∧ i.commentedText none = "PUSH" ++ toString (n.val + 1) ++ " " ++ w.text
      ∧ r.commentedText (some pool)
        = "PUSHC #" ++ toString index.toNat ++ ("  ; push constant " ++ w.text)
  /-- a jump that is not checked any more says so -/
  jump : r.opcode? = some .jumpv → i.opcode? = some .jump
    ∧ i.commentedText none = "JUMP  ; dynamic destination, checked at run time"
    ∧ r.commentedText (some pool) = "JUMPV  ; jump to pre-verified destination"
  /-- so does a conditional jump -/
  jumpi : r.opcode? = some .jumpvi → i.opcode? = some .jumpi
    ∧ i.commentedText none = "JUMPI  ; dynamic destination, checked at run time"
    ∧ r.commentedText (some pool) = "JUMPVI  ; conditional jump to pre-verified destination"
  /-- whatever else is listed, it is the same instruction and is shown in the same way -/
  kept : r.opcode? ≠ some .pushc → r.opcode? ≠ some .jumpv → r.opcode? ≠ some .jumpvi →
    r = i ∧ r.commentedText (some pool) = i.commentedText none

section Replacement

variable {ctx : QuickenContext} {final : ConstantPool} {pushed : Option Word} {i : Instruction}

theorem commentedText_toPooled {w : Word} (pooled : w ∈ final.entries) :
    (i.toPooled (UInt8.ofNat (final.entries.idxOf w))).commentedText (some final)
      = "PUSHC #" ++ toString (UInt8.ofNat (final.entries.idxOf w)).toNat
        ++ ("  ; push constant " ++ w.text) := by
  have hcomment : (i.toPooled (UInt8.ofNat (final.entries.idxOf w))).comment? (some final)
      = some ("push constant " ++ w.text) := by
    rw [Instruction.comment?, opcode?_toPooled]
    dsimp only
    rw [poolIndex?_toPooled]
    dsimp only
    rw [Option.bind_some, ConstantPool.get_idxOf pooled]
    rfl
  have htext : ∀ index : UInt8,
      (i.toPooled index).text = "PUSHC #" ++ toString index.toNat := fun index => by
    have hname : (i.toPooled index).mnemonic = "PUSHC" := by
      rw [Instruction.mnemonic, opcode?_toPooled]
      rfl
    have hoperand : (i.toPooled index).operand = .pooled index := rfl
    rw [Instruction.text, hoperand, hname]
    rfl
  rw [Instruction.commentedText, hcomment, htext]
  dsimp only
  have hexplained : "  ; " ++ ("push constant " ++ w.text) = "  ; push constant " ++ w.text :=
    String.append_assoc.symm
  rw [hexplained]

theorem commentedText_of_opcode? {o : Opcode} {comment : String} {pool? : Option ConstantPool}
    (op : i.opcode? = some o) (absent : i.operand = .absent)
    (explained : i.comment? pool? = some comment) :
    i.commentedText pool? = o.mnemonic ++ ("  ; " ++ comment) := by
  rw [Instruction.commentedText, explained, Instruction.text_of_operand_eq_absent absent,
    Instruction.mnemonic, op]

theorem textQuickenedTo_toPooled {w : Word} (pooled : w ∈ final.entries)
    (wide : 2 ≤ pushWidth i.byte) (pushed : i.pushValue? = some w) :
    TextQuickenedTo final i (i.toPooled (UInt8.ofNat (final.entries.idxOf w))) := by
  have hop := opcode?_toPooled i (UInt8.ofNat (final.entries.idxOf w))
  obtain ⟨n, hn⟩ := exists_push_of_pushWidth_pos (by omega : 0 < pushWidth i.byte)
  have hwide : 1 ≤ n.val := by
    have hwidth := Opcode.pushWidth_push n
    rw [Opcode.ofByte?_eq_some_iff.mp hn] at hwidth
    omega
  constructor
  case pooled =>
    refine fun _ => ⟨n, _, w, ⟨hn, hwide, pushed⟩, ⟨poolIndex?_toPooled i _, ?_⟩,
      Instruction.commentedText_of_push hn pushed, commentedText_toPooled pooled⟩
    rw [ConstantPool.toNat_idxOf pooled, List.getElem?_idxOf pooled]
  case jump => exact fun h => absurd (hop.symm.trans h) (by decide)
  case jumpi => exact fun h => absurd (hop.symm.trans h) (by decide)
  case kept => exact fun hplain => absurd hop hplain

theorem textQuickenedTo_of_resolved? {j : Instruction} (h : i.resolved? = some j) :
    TextQuickenedTo final i j := by
  obtain ⟨hnone, hplain, hnone', hplain', -⟩ := plain_of_resolved? h
  have hi := operand_eq_absent hplain hnone
  have hj := operand_eq_absent hplain' hnone'
  rcases resolved?_eq_some_iff.mp h with ⟨hop, rfl⟩ | ⟨hop, rfl⟩
  · have hop' : Instruction.opcode? { i with byte := Opcode.jumpv.toByte } = some .jumpv :=
      Opcode.ofByte?_toByte .jumpv
    constructor
    case jump =>
      refine fun _ => ⟨hop, ?_, ?_⟩
      · rw [commentedText_of_opcode? hop hi (by rw [Instruction.comment?, hop])]
        rfl
      · rw [commentedText_of_opcode? hop' hj (by rw [Instruction.comment?, hop'])]
        rfl
    case pooled => exact fun hr => absurd (hop'.symm.trans hr) (by decide)
    case jumpi => exact fun hr => absurd (hop'.symm.trans hr) (by decide)
    case kept => exact fun _ hr => absurd hop' hr
  · have hop' : Instruction.opcode? { i with byte := Opcode.jumpvi.toByte } = some .jumpvi :=
      Opcode.ofByte?_toByte .jumpvi
    constructor
    case jumpi =>
      refine fun _ => ⟨hop, ?_, ?_⟩
      · rw [commentedText_of_opcode? hop hi (by rw [Instruction.comment?, hop])]
        rfl
      · rw [commentedText_of_opcode? hop' hj (by rw [Instruction.comment?, hop'])]
        rfl
    case pooled => exact fun hr => absurd (hop'.symm.trans hr) (by decide)
    case jump => exact fun hr => absurd (hop'.symm.trans hr) (by decide)
    case kept => exact fun _ _ hr => absurd hop' hr

theorem textQuickenedTo_self (plain : i.byte ≠ Opcode.pushc.toByte ∧ i.byte ≠ Opcode.jumpv.toByte
      ∧ i.byte ≠ Opcode.jumpvi.toByte) : TextQuickenedTo final i i := by
  obtain ⟨hpushc, hjumpv, hjumpvi⟩ := plain
  constructor
  case pooled => exact fun h => absurd (opcode?_eq_some_iff.mp h) hpushc
  case jump => exact fun h => absurd (opcode?_eq_some_iff.mp h) hjumpv
  case jumpi => exact fun h => absurd (opcode?_eq_some_iff.mp h) hjumpvi
  case kept =>
    refine fun hplain _ _ => ⟨rfl, ?_⟩
    rw [Instruction.commentedText, Instruction.commentedText, Instruction.comment?_congr hplain]

theorem textQuickenedTo_replacement
    (plain : i.byte ≠ Opcode.pushc.toByte ∧ i.byte ≠ Opcode.jumpv.toByte
      ∧ i.byte ≠ Opcode.jumpvi.toByte) :
    TextQuickenedTo final i (ctx.replacement final pushed i) := by
  rcases replacement_cases ctx final pushed i with
    ⟨w, hmem, -, hi, hw, h⟩ | ⟨j, w, -, hj, -, -, h⟩ | h
  · rw [h]
    exact textQuickenedTo_toPooled hmem (two_le_pushWidth_of_isPoolable hi) hw
  · rw [h]
    exact textQuickenedTo_of_resolved? hj
  · rw [h]
    exact textQuickenedTo_self plain

end Replacement

/-! ## The comment that is never written -/

theorem not_fallback_of_notMem {s : String} (h : '#' ∉ s.toList) :
    ¬ "push constant #".toList <:+: s.toList := fun hinside => h (hinside.subset (by decide))

theorem not_fallback_append {s t : String} (hs : '#' ∉ s.toList) (ht : '#' ∉ t.toList) :
    ¬ "push constant #".toList <:+: (s ++ t).toList := by
  refine not_fallback_of_notMem ?_
  rw [String.toList_append, List.mem_append]
  exact not_or.mpr ⟨hs, ht⟩

/-- The line of a pooled push has one number sign, and that stands behind the name. -/
theorem not_fallback_pooled {lead : String} (before : '#' ∉ lead.toList) (index : Nat) (w : Word) :
    ¬ "push constant #".toList
      <:+: (lead ++ ("PUSHC #" ++ toString index ++ ("  ; push constant " ++ w.text))).toList := by
  rintro ⟨front', behind', hline⟩
  have hbehind : '#' ∉ (toString index ++ ("  ; push constant " ++ w.text)).toList := by
    have hmade : MadeOf [' ', ';'] (toString index ++ ("  ; push constant " ++ w.text)) :=
      .append (madeOf_toString _).of_nil (.append (by decide) w.madeOf_text.of_nil)
    exact hmade.notMem (by decide)
  have hfront : '#' ∉ lead.toList ++ "PUSHC ".toList := by
    rw [List.mem_append]
    exact not_or.mpr ⟨before, by decide⟩
  have hsame : (lead.toList ++ "PUSHC ".toList)
        ++ '#' :: (toString index ++ ("  ; push constant " ++ w.text)).toList
      = (front' ++ "push constant ".toList) ++ '#' :: behind' := by
    have hliteral : "push constant #".toList = "push constant ".toList ++ ['#'] := by decide
    have hname : "PUSHC #".toList = "PUSHC ".toList ++ ['#'] := by decide
    rw [hliteral] at hline
    simp only [String.toList_append, hname, List.append_assoc, List.cons_append,
      List.nil_append] at hline ⊢
    exact hline.symm
  have hprefix := ((List.append_cons_inj_of_notMem hfront hbehind).mp hsame).1
  have hname : "PUSHC ".toList <:+ front' ++ "push constant ".toList :=
    hprefix ▸ List.suffix_append ..
  have hclash : "PUSHC ".toList <:+ "push constant ".toList :=
    List.suffix_of_suffix_length_le hname (List.suffix_append ..) (by decide)
  exact absurd hclash (by decide)

/-- A constant is never explained by its place, wherever the text stands in its line. -/
theorem TextQuickenedTo.not_fallback {pool : ConstantPool} {i r : Instruction} {lead : String}
    (h : TextQuickenedTo pool i r) (before : '#' ∉ lead.toList)
    (plain : '#' ∉ (i.commentedText none).toList) :
    ¬ "push constant #".toList <:+: (lead ++ r.commentedText (some pool)).toList := by
  by_cases hpushc : r.opcode? = some .pushc
  · obtain ⟨n, index, w, -, -, -, htext⟩ := h.pooled hpushc
    rw [htext]
    exact not_fallback_pooled before _ w
  by_cases hjumpv : r.opcode? = some .jumpv
  · rw [(h.jump hjumpv).2.2]
    exact not_fallback_append before (by decide)
  by_cases hjumpvi : r.opcode? = some .jumpvi
  · rw [(h.jumpi hjumpvi).2.2]
    exact not_fallback_append before (by decide)
  · rw [(h.kept hpushc hjumpv hjumpvi).2]
    exact not_fallback_append before plain

/-! ## Listings -/

/-- A verbose listing that shows comments, but neither bytes nor constants. -/
theorem ListingOptions.lines_eq_append {o : ListingOptions} (verbose : o.format = .verbose)
    (hex : o.showHex = false) (comments : o.showComments = true) (pool : o.showPool = false)
    (s : ListingSource) :
    o.lines s = (o.jumpTableLines s.jumpTable ++ ["Code (" ++ toString s.programLen ++ " bytes):"])
      ++ s.instructions.map fun i => o.addressPart i.offset ++ i.commentedText s.pool? := by
  have hpool : o.poolLines s.pool? = [] := by
    unfold poolLines
    cases s.pool? with
    | none => rfl
    | some _ => simp [pool]
  have hline : o.verboseLine s.pool?
      = fun i => o.addressPart i.offset ++ i.commentedText s.pool? :=
    funext (verboseLine_eq hex comments s.pool?)
  rw [lines, verbose]
  dsimp only
  rw [hpool, hline, List.append_nil, List.append_assoc, List.singleton_append]

theorem ListingOptions.numberSign_notMem_of_mem_head {o : ListingOptions} {t : JumpTable} {n : Nat}
    {l : String} (h : l ∈ o.jumpTableLines t ++ ["Code (" ++ toString n ++ " bytes):"]) :
    '#' ∉ l.toList := by
  rw [List.mem_append, List.mem_singleton] at h
  rcases h with h | rfl
  · exact (madeOf_of_mem_jumpTableLines h).notMem (by decide)
  · exact (madeOf_lengthLine n).notMem (by decide)

theorem ListingOptions.numberSign_notMem_addressPart (o : ListingOptions) (offset : Nat) :
    '#' ∉ (o.addressPart offset).toList :=
  (o.madeOf_addressPart offset).notMem (by decide)

theorem getElem?_append_map {α β : Type} (front : List β) (f : α → β) (as : List α) (k : Nat) :
    (front ++ as.map f)[front.length + k]? = as[k]?.map f := by
  rw [List.getElem?_append_right (Nat.le_add_right ..), Nat.add_sub_cancel_left, List.getElem?_map]

/-- Quickened code is listed as the code before.  With comments, without bytes and without
constants, both verbose listings begin with the same lines, which show the destinations and the
length, and go on with one line for each instruction: the same address, and behind it the text of
the instruction that is listed there.  The texts of an instruction and of the one that stands for
it in quickened code are the same but for pooled pushes and jumps that are not checked any more,
and there they differ as `TextQuickenedTo` says.  Nowhere in the two listings is a constant
explained by its place. -/
theorem verbose_listing_quickened (program : List UInt8) (config : QuickenConfig)
    (showAddresses showJumpTable : Bool) :
    let o : ListingOptions := ⟨.verbose, showAddresses, false, true, false, showJumpTable⟩
    let analyzed := (RawCode.ofProgram program).analyze
    let prepared := analyzed.quicken config
    let lines := textLines (o.render analyzed.listingSource)
    let lines' := textLines (o.render prepared.listingSource)
    let head := o.jumpTableLines analyzed.jumpTable
      ++ ["Code (" ++ toString program.length ++ " bytes):"]
    lines.take head.length = head ∧ lines'.take head.length = head
      ∧ lines.length = head.length + analyzed.instructions.length
      ∧ lines'.length = lines.length
      ∧ (∀ (k : Nat) (i : Instruction), analyzed.instructions[k]? = some i →
        ∃ r, prepared.instructions[k]? = some r
          ∧ lines[head.length + k]? = some (o.addressPart i.offset ++ i.commentedText none)
          ∧ lines'[head.length + k]?
            = some (o.addressPart i.offset ++ r.commentedText (some prepared.pool))
          ∧ TextQuickenedTo prepared.pool i r)
      ∧ ∀ line ∈ lines ++ lines', ¬ "push constant #".toList <:+: line.toList := by
  intro o analyzed prepared lines lines' head
  have sound : analyzed.Sound := sound_analyze program
  have hlines : lines = head ++ analyzed.instructions.map
      fun i => o.addressPart i.offset ++ i.commentedText none :=
    (textLines_render o _).trans (ListingOptions.lines_eq_append rfl rfl rfl rfl _)
  have hlines' : lines' = head ++ prepared.instructions.map
      fun i => o.addressPart i.offset ++ i.commentedText (some prepared.pool) :=
    (textLines_render o _).trans (ListingOptions.lines_eq_append rfl rfl rfl rfl _)
  have hlength : prepared.instructions.length = analyzed.instructions.length :=
    length_instructions_quicken sound config
  have hshown : ∀ (k : Nat) (i : Instruction), analyzed.instructions[k]? = some i →
      ∃ r, prepared.instructions[k]? = some r ∧ r.offset = i.offset
        ∧ TextQuickenedTo prepared.pool i r := by
    intro k i hi
    have hmem := mem_layout_of_mem_instructions (List.mem_of_getElem? hi)
    have hr := getElem?_instructions_quicken sound config k
    rw [hi, Option.map_some] at hr
    exact ⟨_, hr, offset_replacement (sound.whole i hmem),
      textQuickenedTo_replacement (sound.plain i hmem)⟩
  have hplain : ∀ i ∈ analyzed.instructions, '#' ∉ (i.commentedText none).toList := fun i hi =>
    Instruction.numberSign_notMem_commentedText (sound.plain i (mem_layout_of_mem_instructions hi)).1
  refine ⟨by rw [hlines, List.take_left], by rw [hlines', List.take_left], ?_, ?_,
    fun k i hi => ?_, fun line hline => ?_⟩
  · rw [hlines, List.length_append, List.length_map]
  · simp only [hlines, hlines', List.length_append, List.length_map, hlength]
  · obtain ⟨r, hr, hoffset, htext⟩ := hshown k i hi
    refine ⟨r, hr, ?_, ?_, htext⟩
    · rw [hlines, getElem?_append_map, hi]
      rfl
    · rw [hlines', getElem?_append_map, hr, ← hoffset]
      rfl
  · rcases List.mem_append.mp hline with hline | hline
    · rcases List.mem_append.mp (hlines ▸ hline) with hline | hline
      · exact not_fallback_of_notMem (ListingOptions.numberSign_notMem_of_mem_head hline)
      · obtain ⟨i, hi, rfl⟩ := List.mem_map.mp hline
        exact not_fallback_append (o.numberSign_notMem_addressPart _) (hplain i hi)
    · rcases List.mem_append.mp (hlines' ▸ hline) with hline | hline
      · exact not_fallback_of_notMem (ListingOptions.numberSign_notMem_of_mem_head hline)
      · obtain ⟨r, hr, rfl⟩ := List.mem_map.mp hline
        obtain ⟨k, hk⟩ := List.mem_iff_getElem?.mp hr
        have hlt := (List.getElem?_eq_some_iff.mp hk).1
        rw [hlength] at hlt
        have hi := List.getElem?_eq_getElem hlt
        obtain ⟨r', hr', -, htext⟩ := hshown k _ hi
        obtain rfl : r' = r := Option.some.inj (hr'.symm.trans hk)
        exact htext.not_fallback (o.numberSign_notMem_addressPart _)
          (hplain _ (List.mem_of_getElem? hi))

end EvmPrep
