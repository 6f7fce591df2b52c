import EvmPrep.Fault
set_option autoImplicit false

/-!
# Constant pools

A pool holds words that code refers to by a one-byte index, so it has room for 256.
Words keep the places at which they were first put in, and no word has two places;
both are part of the type.

`intern` finds a word's place or gives it one.  A word that is there already is
found also when the pool is full; a new word is refused then, and the pool stays as
it is.
-/

namespace EvmPrep

/-- Distinct words in the order in which they came. -/
structure ConstantPool where
  entries : List Word
  /-- an index of one byte reaches every entry -/
  size_le : entries.length ≤ 256
  /-- no word has two places -/
  nodup : entries.Nodup
  deriving DecidableEq, Repr

namespace ConstantPool

/-- How many entries there is room for. -/
def capacity : Nat := 256

/-- The pool without entries. -/
def empty : ConstantPool := ⟨[], Nat.zero_le _, List.nodup_nil⟩

instance : Inhabited ConstantPool := ⟨empty⟩

/-- How many entries there are. -/
def size (p : ConstantPool) : Nat := p.entries.length

/-- There are no entries. -/
def isEmpty (p : ConstantPool) : Bool := p.size == 0

/-- There is no room for another entry. -/
def isFull (p : ConstantPool) : Bool := capacity ≤ p.size

/-- The index of the word and the pool that has it; no index if there is no room for it. -/
def intern (p : ConstantPool) (w : Word) : Option UInt8 × ConstantPool :=
  if present : w ∈ p.entries then (some (UInt8.ofNat (p.entries.idxOf w)), p)
  else if room : p.entries.length < 256 then
    (some (UInt8.ofNat p.entries.length),
      { entries := p.entries ++ [w]
        size_le := by rw [List.length_append, List.length_singleton]; exact room
        nodup := by
          rw [List.nodup_append]
          exact ⟨p.nodup, by simp, fun a ha b hb h =>
            present (by rw [← List.mem_singleton.mp hb, ← h]; exact ha)⟩ })
  else (none, p)

/-- Interns a row of words behind those whose answers are in `done`. -/
def internOnto (done : Array (Option UInt8)) (p : ConstantPool) :
    List Word → Array (Option UInt8) × ConstantPool
  | [] => (done, p)
  | w :: rest => internOnto (done.push (p.intern w).1) (p.intern w).2 rest

/-- The answers to a row of words, and the pool after it. -/
def internAll (p : ConstantPool) (ws : List Word) : List (Option UInt8) × ConstantPool :=
  match internOnto #[] p ws with
  | (done, p) => (done.toList, p)

/-- The pool after a row of words. -/
def ofWords (ws : List Word) : ConstantPool := (empty.internAll ws).2

/-- The constant at the index; an index without an entry is a fault. -/
def get (p : ConstantPool) (index : UInt8) : Except Fault Word :=
  match p.entries[index.toNat]? with
  | some w => .ok w
  | none => .error (.invalidConstantIndex index p.size)

theorem intern_of_mem {p : ConstantPool} {w : Word} (h : w ∈ p.entries) :
    p.intern w = (some (UInt8.ofNat (p.entries.idxOf w)), p) := by
  simp [intern, h]

/-- The entries after a word: the word is put at the end if it is new and there is room. -/
theorem entries_intern (p : ConstantPool) (w : Word) :
    (p.intern w).2.entries
      = if w ∈ p.entries ∨ 256 ≤ p.entries.length then p.entries else p.entries ++ [w] := by
  unfold intern
  split
  · simp [*]
  · split
    · rename_i h₁ h₂
      simp [h₁, Nat.not_le.mpr h₂]
    · rename_i h₁ h₂
      simp [Nat.not_lt.mp h₂]

theorem internOnto_eq (done : Array (Option UInt8)) (p : ConstantPool) (ws : List Word) :
    (internOnto done p ws).1.toList = done.toList ++ (p.internAll ws).1
      ∧ (internOnto done p ws).2 = (p.internAll ws).2 := by
  induction ws generalizing done p with
  | nil => simp [internOnto, internAll]
  | cons w rest ih =>
    simp only [internOnto, internAll]
    rw [(ih _ _).1, (ih _ _).2, (ih (#[].push _) _).1, (ih (#[].push _) _).2]
    simp

@[simp] theorem internAll_nil (p : ConstantPool) : p.internAll [] = ([], p) := rfl

theorem internAll_cons (p : ConstantPool) (w : Word) (rest : List Word) :
    p.internAll (w :: rest)
      = ((p.intern w).1 :: ((p.intern w).2.internAll rest).1,
          ((p.intern w).2.internAll rest).2) := by
  have h := internOnto_eq (#[].push (p.intern w).1) (p.intern w).2 rest
  apply Prod.ext
  · simpa [internAll, internOnto] using h.1
  · simpa [internAll, internOnto] using h.2

/-- A word is refused exactly when it is new and the pool is full. -/
theorem intern_fst_eq_none_iff {p : ConstantPool} {w : Word} :
    (p.intern w).1 = none ↔ w ∉ p.entries ∧ 256 ≤ p.entries.length := by
  unfold intern
  split
  · simp [*]
  · split
    · rename_i h₁ h₂
      simp [Nat.not_le.mpr h₂]
    · rename_i h₁ h₂
      simp [h₁, Nat.not_lt.mp h₂]

theorem get_of_intern {p : ConstantPool} {w : Word} {index : UInt8}
    (h : (p.intern w).1 = some index) : (p.intern w).2.get index = .ok w := by
  by_cases present : w ∈ p.entries
  · rw [intern_of_mem present] at h ⊢
    cases h
    have hlt := List.idxOf_lt_length_of_mem present
    have hle := p.size_le
    have hat : p.entries[(UInt8.ofNat (p.entries.idxOf w)).toNat]? = some w := by
      rw [UInt8.toNat_ofNat', Nat.mod_eq_of_lt (by omega), List.getElem?_eq_getElem hlt]
      simp
    simp only [get, hat]
  · by_cases room : p.entries.length < 256
    · simp only [intern, present, room, dif_pos, dif_neg, not_false_eq_true] at h ⊢
      cases h
      have hat : (p.entries ++ [w])[(UInt8.ofNat p.entries.length).toNat]? = some w := by
        rw [UInt8.toNat_ofNat', Nat.mod_eq_of_lt room]
        simp
      simp only [get, hat]
    · simp [intern, present, room] at h

end ConstantPool

end EvmPrep
