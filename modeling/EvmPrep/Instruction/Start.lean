import EvmPrep.Instruction.Stream
set_option autoImplicit false

/-!
# Where instructions start

Which offsets of a byte string start an instruction can be said without cutting it:
the first byte does, and with a start the byte behind that instruction does, as long
as there is one (`IsStart`).  Cutting finds exactly these offsets
(`isStart_iff_mem_cut`), and from each of them on it goes on as if the code began
there (`cut_eq_append_of_isStart`).

For source code the width can be read off the number of a byte (`pushNumber`): `PUSHn`
is the byte `0x5f + n`.  What is said of a scan is said in these numbers, and
`numberedWidth_eq` is where they meet the width that the scan itself asks for.
-/

namespace EvmPrep

/-- An instruction of `code` starts at the offset. -/
inductive IsStart (rule : WidthRule) (code : List UInt8) : Nat → Prop where
  /-- the first byte of all -/
  | first (inside : 0 < code.length) : IsStart rule code 0
  /-- the byte behind the instruction at `s` -/
  | next {s : Nat} {b : UInt8} (start : IsStart rule code s) (here : code[s]? = some b)
      (inside : s + 1 + rule b (code.drop (s + 1)) < code.length) :
      IsStart rule code (s + 1 + rule b (code.drop (s + 1)))

namespace IsStart

variable {rule : WidthRule} {code : List UInt8} {s : Nat}

theorem lt_length (h : IsStart rule code s) : s < code.length := by
  cases h with
  | first inside => exact inside
  | next _ _ inside => exact inside

end IsStart

theorem drop_eq_cons_of_getElem? {code : List UInt8} {s : Nat} {b : UInt8}
    (here : code[s]? = some b) : code.drop s = b :: code.drop (s + 1) := by
  obtain ⟨hs, rfl⟩ := List.getElem?_eq_some_iff.mp here
  exact List.drop_eq_getElem_cons hs

/-- From a start on, the code is cut as if it began there. -/
theorem cut_eq_append_of_isStart {rule : WidthRule} {code : List UInt8} {s : Nat}
    (h : IsStart rule code s) :
    ∃ front, cut rule 0 code = front ++ cut rule s (code.drop s)
      ∧ ∀ i ∈ front, i.offset < s := by
  induction h with
  | first inside => exact ⟨[], rfl, by simp⟩
  | @next s b start here inside ih =>
    obtain ⟨front, cutFront, before⟩ := ih
    rw [drop_eq_cons_of_getElem? here, cut_cons, List.drop_drop] at cutFront
    refine ⟨front ++ [_], by rw [cutFront, List.append_cons], fun i hi => ?_⟩
    rcases List.mem_append.mp hi with hi | hi
    · have := before i hi
      omega
    · rw [List.mem_singleton.mp hi]
      show s < _
      omega

/-- Every instruction that is cut starts at a start, and has the byte that stands there and the
bytes that the rule asks for. -/
theorem of_mem_cut {rule : WidthRule} {code : List UInt8} {i : Instruction}
    (h : i ∈ cut rule 0 code) :
    IsStart rule code i.offset ∧ code[i.offset]? = some i.byte
      ∧ i.immediate
        = (code.drop (i.offset + 1)).take (rule i.byte (code.drop (i.offset + 1))) := by
  have along : ∀ (tail : List UInt8) (s : Nat), tail = code.drop s →
      (tail ≠ [] → IsStart rule code s) → i ∈ cut rule s tail →
      IsStart rule code i.offset ∧ code[i.offset]? = some i.byte
        ∧ i.immediate
          = (code.drop (i.offset + 1)).take (rule i.byte (code.drop (i.offset + 1))) := by
    intro tail
    induction tail using cutInduction rule with
    | nil => intro s _ _ h; cases h
    | cons b rest ih =>
      intro s suffix start h
      have here : code[s]? = some b := by
        have := congrArg List.head? suffix
        simpa [List.head?_drop] using this.symm
      have behind : rest = code.drop (s + 1) := by
        rw [drop_eq_cons_of_getElem? here] at suffix
        exact (List.cons.inj suffix).2
      rw [cut_cons] at h
      rcases List.mem_cons.mp h with rfl | h
      · exact ⟨start (by simp), here, by rw [← behind]⟩
      · refine ih (s + 1 + rule b rest) (by rw [behind, List.drop_drop]) (fun ne => ?_) h
        rw [behind] at ne ⊢
        refine .next (start (by simp)) here ?_
        rw [List.drop_drop] at ne
        exact Nat.lt_of_not_le fun le => ne (List.drop_eq_nil_of_le le)
  exact along code 0 rfl
    (fun ne => .first (List.length_pos_iff.mpr ne)) h

theorem length_immediate_of_mem_cut {rule : WidthRule} {code : List UInt8} {i : Instruction}
    (h : i ∈ cut rule 0 code) :
    i.immediate.length
      = min (rule i.byte (code.drop (i.offset + 1))) (code.length - (i.offset + 1)) := by
  conv => lhs; rw [(of_mem_cut h).2.2]
  rw [List.length_take, List.length_drop]

/-- The starts of code are the offsets of its instructions. -/
theorem isStart_iff_mem_cut {rule : WidthRule} {code : List UInt8} {s : Nat} :
    IsStart rule code s ↔ ∃ i ∈ cut rule 0 code, i.offset = s := by
  constructor
  · intro h
    obtain ⟨front, cutFront, -⟩ := cut_eq_append_of_isStart h
    rw [List.drop_eq_getElem_cons h.lt_length, cut_cons] at cutFront
    exact ⟨_, by rw [cutFront]; exact List.mem_append_right front (List.mem_cons_self ..), rfl⟩
  · rintro ⟨i, hi, rfl⟩
    exact (of_mem_cut hi).1

instance (rule : WidthRule) (code : List UInt8) (s : Nat) : Decidable (IsStart rule code s) :=
  decidable_of_iff _ isStart_iff_mem_cut.symm

/-! ## Widths by number -/

/-- The `n` of the instruction `PUSHn` that the byte names, and zero if it names no push. -/
def pushNumber (b : UInt8) : Nat :=
  if 0x60 ≤ b.toNat ∧ b.toNat ≤ 0x7f then b.toNat - 0x5f else 0

/-- The byte `PUSHn` is followed by `n` immediate bytes, every other byte by none. -/
def numberedWidth : WidthRule := fun b _ => pushNumber b

theorem pushNumber_eq (b : UInt8) : pushNumber b = pushWidth b := by
  simp only [pushNumber, pushWidth, UInt8.le_iff_toNat_le]
  rfl

theorem numberedWidth_eq : numberedWidth = sourceWidth := by
  funext b _
  exact pushNumber_eq b

theorem isSynthetic_iff_toNat {b : UInt8} :
    isSynthetic b = true ↔ 0xac ≤ b.toNat ∧ b.toNat ≤ 0xaf := by
  simp only [isSynthetic, Bool.and_eq_true, decide_eq_true_eq, UInt8.le_iff_toNat_le]
  rfl

end EvmPrep
