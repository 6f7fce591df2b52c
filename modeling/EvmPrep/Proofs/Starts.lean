import Mathlib.Data.List.Sort
import EvmPrep.Instruction.Start
set_option autoImplicit false

/-!
# Starts, counted from the front

`IsStart` builds the starts of a byte string up from the first byte.  Proofs about a
walk go the other way: the starts behind the first instruction are the starts of the
bytes behind it, moved on by its size (`isStart_cons`).  Cutting finds the starts in
their order (`map_offset_cut`), and in source code, where the width of an instruction
depends on its own byte alone, bytes put behind a program do not move the starts that
the program has (`isStart_append_iff`).
-/

namespace EvmPrep

variable {rule : WidthRule}

@[simp] theorem not_isStart_nil (s : Nat) : ¬ IsStart rule [] s := by
  intro h
  exact absurd h.lt_length (Nat.not_lt_zero s)

/-- The starts of code are its first byte and the starts behind its first instruction. -/
theorem isStart_cons {b : UInt8} {rest : List UInt8} {s : Nat} :
    IsStart rule (b :: rest) s ↔
      s = 0 ∨ ∃ t, IsStart rule (rest.drop (rule b rest)) t ∧ s = t + (1 + rule b rest) := by
  have hcut : cut rule 0 (b :: rest) = ⟨0, b, rest.take (rule b rest)⟩
      :: (cut rule 0 (rest.drop (rule b rest))).map (Instruction.shift (1 + rule b rest)) := by
    rw [cut_cons, ← cut_add, Nat.zero_add, Nat.zero_add]
  rw [isStart_iff_mem_cut, hcut]
  simp only [isStart_iff_mem_cut, List.mem_cons, List.mem_map]
  constructor
  · rintro ⟨i, rfl | ⟨j, hj, rfl⟩, rfl⟩
    · exact .inl rfl
    · exact .inr ⟨j.offset, ⟨j, hj, rfl⟩, rfl⟩
  · rintro (rfl | ⟨t, ⟨j, hj, rfl⟩, rfl⟩)
    · exact ⟨_, .inl rfl, rfl⟩
    · exact ⟨j.shift (1 + rule b rest), .inr ⟨j, hj, rfl⟩, rfl⟩

theorem map_offset_cut (rule : WidthRule) (code : List UInt8) :
    (cut rule 0 code).map Instruction.offset
      = (List.range code.length).filter fun s => IsStart rule code s := by
  apply List.Pairwise.eq_of_mem_iff (r := (· < ·))
  · exact List.pairwise_map.mpr (pairwise_offset_cut rule 0 code)
  · exact List.pairwise_lt_range.filter _
  · intro s
    rw [List.mem_map, List.mem_filter, List.mem_range, decide_eq_true_eq, isStart_iff_mem_cut]
    constructor
    · rintro ⟨i, hi, rfl⟩
      exact ⟨(of_mem_cut hi).1.lt_length, i, hi, rfl⟩
    · rintro ⟨-, i, hi, rfl⟩
      exact ⟨i, hi, rfl⟩

/-- Bytes behind a program leave the starts inside it where they are. -/
theorem isStart_append_iff {program more : List UInt8} {s : Nat} :
    IsStart sourceWidth (program ++ more) s ∧ s < program.length
      ↔ IsStart sourceWidth program s := by
  constructor
  · rintro ⟨h, hs⟩
    induction h with
    | first _ => exact .first hs
    | @next s b _ here _ ih =>
      have hs' : s < program.length := by omega
      rw [List.getElem?_append_left hs'] at here
      exact .next (ih hs') here hs
  · intro h
    refine ⟨?_, h.lt_length⟩
    induction h with
    | first inside =>
      refine .first ?_
      rw [List.length_append]
      omega
    | @next s b start here inside ih =>
      have hs : s < program.length := start.lt_length
      have here' : (program ++ more)[s]? = some b := by
        rw [List.getElem?_append_left hs, here]
      refine .next ih here' ?_
      have inside' : s + 1 + pushWidth b < program.length := inside
      show s + 1 + pushWidth b < (program ++ more).length
      rw [List.length_append]
      omega

theorem takeWhile_offset_lt {is : List Instruction} (stop : Nat)
    (increasing : is.Pairwise fun i j => i.offset < j.offset) :
    (is.takeWhile fun i => i.offset < stop) = is.filter fun i => i.offset < stop := by
  induction is with
  | nil => rfl
  | cons i rest ih =>
    obtain ⟨before, increasing⟩ := List.pairwise_cons.mp increasing
    by_cases hi : i.offset < stop
    · rw [List.takeWhile_cons_of_pos (by simpa using hi),
        List.filter_cons_of_pos (by simpa using hi), ih increasing]
    · rw [List.takeWhile_cons_of_neg (by simpa using hi),
        List.filter_cons_of_neg (by simpa using hi)]
      refine (List.filter_eq_nil_iff.mpr fun j hj => ?_).symm
      have := before j hj
      simp only [decide_eq_true_eq]
      omega

end EvmPrep
