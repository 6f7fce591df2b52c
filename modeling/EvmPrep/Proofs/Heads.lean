import EvmPrep.Proofs.Traps
set_option autoImplicit false

/-!
# What a scan looks at

A scan of source code reads the byte at every start and steps over what is between.  So
all that it can find is in the row of starts with their bytes (`heads`): the table, what
is trapped, and where the instructions are.  Codes with the same heads have the same table
(`ofCode_eq_of_heads_eq`), whatever else stands in them and however long they are.

Code of one length that agrees where instructions start has the same heads
(`heads_eq_of_agree`).
-/

namespace EvmPrep

/-- Where an instruction stands, and its byte. -/
def Instruction.head (i : Instruction) : Nat × UInt8 := (i.offset, i.byte)

/-- The starts of source code, and the bytes that stand there. -/
def heads (code : List UInt8) : List (Nat × UInt8) :=
  (cut sourceWidth 0 code).map Instruction.head

/-- The head `k` bytes further on. -/
def shiftHead (k : Nat) (h : Nat × UInt8) : Nat × UInt8 := (h.1 + k, h.2)

section Heads

variable {code : List UInt8} {s : Nat}

theorem mem_heads_iff {b : UInt8} :
    (s, b) ∈ heads code ↔ IsStart sourceWidth code s ∧ code[s]? = some b := by
  rw [heads, List.mem_map]
  constructor
  · rintro ⟨i, hi, heq⟩
    cases heq
    exact ⟨(of_mem_cut hi).1, (of_mem_cut hi).2.1⟩
  · rintro ⟨hstart, hbyte⟩
    obtain ⟨i, hi, rfl⟩ := isStart_iff_mem_cut.mp hstart
    have hsame : i.byte = b := Option.some.inj ((of_mem_cut hi).2.1.symm.trans hbyte)
    exact ⟨i, hi, by rw [← hsame]; rfl⟩

theorem map_head_cut (offset : Nat) (code : List UInt8) :
    (cut sourceWidth offset code).map Instruction.head = (heads code).map (shiftHead offset) := by
  have hmoved := cut_add sourceWidth 0 offset code
  rw [Nat.zero_add] at hmoved
  rw [hmoved, heads, List.map_map, List.map_map]
  rfl

theorem heads_cons (b : UInt8) (rest : List UInt8) :
    heads (b :: rest)
      = (0, b) :: (heads (rest.drop (pushWidth b))).map (shiftHead (1 + pushWidth b)) := by
  rw [heads, cut_cons, List.map_cons, Nat.zero_add]
  exact congrArg ((0, b) :: ·) (map_head_cut ..)

theorem heads_eq_map_filter (code : List UInt8) :
    heads code = ((List.range code.length).filter fun s => IsStart sourceWidth code s).map
      fun s => (s, code.getD s 0) := by
  rw [← map_offset_cut, List.map_map, heads]
  refine List.map_congr_left fun i hi => ?_
  have hbyte : code.getD i.offset 0 = i.byte := by
    rw [List.getD_eq_getElem?_getD, (of_mem_cut hi).2.1, Option.getD_some]
  exact congrArg (i.offset, ·) hbyte.symm

/-! ## What is found -/

theorem toList_dests_ofCode_eq_heads (code : List UInt8) :
    (JumpTable.ofCode code).dests.toList
      = ((heads code).filter fun h => h.2 == Opcode.jumpdest.toByte).map Prod.fst := by
  rw [heads, List.filter_map, List.map_map]
  rfl

theorem trapped_ofCode_eq_heads (code : List UInt8) :
    (JumpTable.ofCode code).trapped = (heads code).countP fun h => isSynthetic h.2 := by
  rw [heads, List.countP_map]
  rfl

theorem isTrapped_iff_mem_heads :
    IsTrapped code s ↔ ∃ b, (s, b) ∈ heads code ∧ isSynthetic b = true := by
  simp only [isTrapped_iff, mem_heads_iff, Option.any_eq_true, and_assoc, exists_and_left]

end Heads

section SameHeads

variable {code code' : List UInt8}

/-- A table is made of heads. -/
theorem ofCode_eq_of_heads_eq (same : heads code' = heads code) :
    JumpTable.ofCode code' = JumpTable.ofCode code := by
  apply JumpTable.eq_of_toList_dests_eq
  · rw [toList_dests_ofCode_eq_heads, toList_dests_ofCode_eq_heads, same]
  · rw [trapped_ofCode_eq_heads, trapped_ofCode_eq_heads, same]

theorem isTrapped_iff_of_heads_eq (same : heads code' = heads code) {s : Nat} :
    IsTrapped code' s ↔ IsTrapped code s := by
  rw [isTrapped_iff_mem_heads, isTrapped_iff_mem_heads, same]

/-- Code that holds the same byte at every start has the same heads. -/
theorem heads_eq_of_agree (length_eq : code'.length = code.length)
    (agree : ∀ s, IsStart sourceWidth code s → code'[s]? = code[s]?) :
    heads code' = heads code := by
  have hstarts : ∀ s, IsStart sourceWidth code' s ↔ IsStart sourceWidth code s := fun s =>
    isStart_congr length_eq fun t ht => by rw [agree t ht]
  rw [heads_eq_map_filter, heads_eq_map_filter, length_eq,
    List.filter_congr fun s _ => decide_eq_decide.mpr (hstarts s)]
  refine List.map_congr_left fun s hs => ?_
  have hstart := of_decide_eq_true (List.mem_filter.mp hs).2
  rw [List.getD_eq_getElem?_getD, List.getD_eq_getElem?_getD, agree s hstart]

end SameHeads

end EvmPrep
