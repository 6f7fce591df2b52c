import Mathlib.Data.List.Infix
import EvmPrep.ConstantPool
set_option autoImplicit false

/-!
# Rows of words in a pool

Interning a word never moves the words that a pool holds, so an index that was given
once is the word's place in every later pool, and a word that was refused is in none of
them: the answer to a word can be read off the last pool alone
(`intern_fst_of_isPrefix`).  The pool after a row of words holds the first 256 distinct
ones in the order in which they came (`entries_internAll`).
-/

namespace EvmPrep.ConstantPool

theorem eq_of_entries_eq {p q : ConstantPool} (h : p.entries = q.entries) : p = q := by
  cases p
  cases q
  cases h
  rfl

/-! ## Growth -/

theorem entries_isPrefix_intern (p : ConstantPool) (w : Word) :
    p.entries <+: (p.intern w).2.entries := by
  rw [entries_intern]
  split
  · exact List.prefix_rfl
  · exact List.prefix_append ..

theorem entries_isPrefix_internAll (p : ConstantPool) (ws : List Word) :
    p.entries <+: (p.internAll ws).2.entries := by
  induction ws generalizing p with
  | nil => exact List.prefix_rfl
  | cons w rest ih =>
    rw [internAll_cons]
    exact (entries_isPrefix_intern p w).trans (ih _)

/-- A full pool stays as it is. -/
theorem entries_eq_of_isPrefix {p q : ConstantPool} (full : 256 ≤ p.entries.length)
    (h : p.entries <+: q.entries) : p.entries = q.entries :=
  h.eq_of_length_le (Nat.le_trans q.size_le full)

theorem idxOf_of_isPrefix {p q : ConstantPool} {w : Word} (hw : w ∈ p.entries)
    (h : p.entries <+: q.entries) : q.entries.idxOf w = p.entries.idxOf w := by
  obtain ⟨more, hmore⟩ := h
  rw [← hmore, List.idxOf_append_of_mem hw]

/-- The index of a word, if the pool has it. -/
def index? (p : ConstantPool) (w : Word) : Option UInt8 :=
  if p.entries.contains w then some (UInt8.ofNat (p.entries.idxOf w)) else none

theorem index?_of_mem {p : ConstantPool} {w : Word} (h : w ∈ p.entries) :
    p.index? w = some (UInt8.ofNat (p.entries.idxOf w)) := by
  rw [index?, if_pos (List.contains_iff_mem.mpr h)]

theorem index?_of_not_mem {p : ConstantPool} {w : Word} (h : w ∉ p.entries) :
    p.index? w = none := by
  rw [index?, if_neg (mt List.contains_iff_mem.mp h)]

theorem index?_eq_some_iff {p : ConstantPool} {w : Word} {index : UInt8} :
    p.index? w = some index ↔ w ∈ p.entries ∧ index = UInt8.ofNat (p.entries.idxOf w) := by
  by_cases hmem : w ∈ p.entries
  · rw [index?_of_mem hmem, Option.some.injEq, eq_comm]
    exact (and_iff_right hmem).symm
  · rw [index?_of_not_mem hmem]
    exact iff_of_false nofun fun h => hmem h.1

/-- A word that is in the pool, or that no later pool will have, has its index for good. -/
theorem index?_of_isPrefix {p q : ConstantPool} {w : Word} (h : p.entries <+: q.entries)
    (settled : w ∈ p.entries ∨ 256 ≤ p.entries.length) : q.index? w = p.index? w := by
  by_cases hmem : w ∈ p.entries
  · rw [index?_of_mem hmem, index?_of_mem (h.subset hmem), idxOf_of_isPrefix hmem h]
  · have hsame := entries_eq_of_isPrefix (settled.resolve_left hmem) h
    rw [eq_of_entries_eq hsame]

/-- The answer to a word is its index in any later pool. -/
theorem intern_fst_of_isPrefix {p q : ConstantPool} {w : Word}
    (h : (p.intern w).2.entries <+: q.entries) : (p.intern w).1 = q.index? w := by
  by_cases present : w ∈ p.entries
  · rw [intern_of_mem present] at h ⊢
    rw [index?_of_mem (h.subset present), idxOf_of_isPrefix present h]
  · by_cases room : p.entries.length < 256
    · have hgrown : (p.intern w).2.entries = p.entries ++ [w] := by
        rw [entries_intern, if_neg]
        rintro (hmem | hfull)
        · exact present hmem
        · omega
      have hmem : w ∈ (p.intern w).2.entries := by
        rw [hgrown]
        exact List.mem_append_right _ (List.mem_singleton_self w)
      have hidx : q.entries.idxOf w = p.entries.length := by
        rw [idxOf_of_isPrefix hmem h, hgrown, List.idxOf_append_of_notMem present]
        simp
      rw [index?_of_mem (h.subset hmem), hidx]
      simp [intern, present, room]
    · -- a full pool: no later one has the word
      have hsame : (p.intern w).2 = p := by simp [intern, present, room]
      rw [hsame] at h
      have hq := entries_eq_of_isPrefix (Nat.le_of_not_lt room) h
      rw [index?_of_not_mem (hq ▸ present)]
      exact intern_fst_eq_none_iff.mpr ⟨present, Nat.le_of_not_lt room⟩

theorem get_idxOf {p : ConstantPool} {w : Word} (h : w ∈ p.entries) :
    p.get (UInt8.ofNat (p.entries.idxOf w)) = .ok w := by
  have hget := get_of_intern (p := p) (w := w) (by rw [intern_of_mem h])
  rwa [intern_of_mem h] at hget

theorem toNat_idxOf {p : ConstantPool} {w : Word} (h : w ∈ p.entries) :
    (UInt8.ofNat (p.entries.idxOf w)).toNat = p.entries.idxOf w := by
  have hlt := List.idxOf_lt_length_of_mem h
  have hle := p.size_le
  rw [UInt8.toNat_ofNat', Nat.mod_eq_of_lt (by omega)]

/-! ## Contents -/

theorem eraseDups_of_nodup {α : Type} [BEq α] [LawfulBEq α] {xs : List α} (h : xs.Nodup) :
    xs.eraseDups = xs := by
  induction xs with
  | nil => rfl
  | cons x rest ih =>
    obtain ⟨hx, hrest⟩ := List.nodup_cons.mp h
    have hkept : (rest.filter fun y => !y == x) = rest := by
      refine List.filter_eq_self.mpr fun y hy => ?_
      have hne : y ≠ x := fun hyx => hx (hyx ▸ hy)
      simp [hne]
    rw [List.eraseDups_cons, hkept, ih hrest]

/-- The words of a pool stand in front, since none of them comes twice. -/
theorem eraseDups_entries_append (p : ConstantPool) (ws : List Word) :
    (p.entries ++ ws).eraseDups = p.entries ++ (ws.removeAll p.entries).eraseDups := by
  rw [List.eraseDups_append, eraseDups_of_nodup p.nodup]

/-- A row of words leaves the first 256 distinct words, in the order in which they came. -/
theorem entries_internAll (p : ConstantPool) (ws : List Word) :
    (p.internAll ws).2.entries = (p.entries ++ ws).eraseDups.take 256 := by
  induction ws generalizing p with
  | nil =>
    rw [internAll_nil, List.append_nil, eraseDups_of_nodup p.nodup,
      List.take_of_length_le p.size_le]
  | cons w rest ih =>
    rw [internAll_cons, ih, entries_intern]
    split
    · rename_i h
      rw [eraseDups_entries_append, eraseDups_entries_append]
      rcases h with present | full
      · have hskip : (w :: rest).removeAll p.entries = rest.removeAll p.entries := by
          simp [List.removeAll, present]
        rw [hskip]
      · rw [List.take_append_of_le_length full, List.take_append_of_le_length full]
    · rw [List.append_assoc, List.singleton_append]

end EvmPrep.ConstantPool
