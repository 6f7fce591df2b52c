import EvmPrep.Fault
set_option autoImplicit false

/-!
# Legal jump destinations

A jump table holds the offsets to which a program may jump.  They are in increasing
order, and this is part of the type.  A destination is looked up by halving the
range in which it can stand (`lowerBound`), and this finds it exactly where it is
(`indexOf?_eq_some_iff`).

Destinations are asked for as words, since they come from a stack.  A word that
names no offset is never legal, and a word that is not legal is a fault that carries
the word (`JumpTable.verify`).
-/

namespace EvmPrep

/-! ## Search in increasing order -/

/-- The first place from `lo` on, and before `hi`, at which `xs` holds `x` or more; `hi` if there is
none. -/
def lowerBound (xs : Array Nat) (x lo hi : Nat) (bound : hi ≤ xs.size) : Nat :=
  if h : lo < hi then
    let mid := lo + (hi - lo) / 2
    have inside : mid < xs.size := by omega
    if xs[mid] < x then lowerBound xs x (mid + 1) hi bound
    else lowerBound xs x lo mid (by omega)
  else hi
termination_by hi - lo

/-- In an increasing array the search splits the range: smaller numbers stand before the place that
is found, and the others from there on. -/
theorem lowerBound_spec {xs : Array Nat} {x : Nat}
    (increasing : ∀ i j (hi : i < xs.size) (hj : j < xs.size), i < j → xs[i] < xs[j])
    {lo hi : Nat} (bound : hi ≤ xs.size) (le : lo ≤ hi) :
    lo ≤ lowerBound xs x lo hi bound ∧ lowerBound xs x lo hi bound ≤ hi ∧
      (∀ j (hj : j < xs.size), lo ≤ j → j < lowerBound xs x lo hi bound → xs[j] < x) ∧
      (∀ j (hj : j < xs.size), lowerBound xs x lo hi bound ≤ j → j < hi → x ≤ xs[j]) := by
  fun_induction lowerBound xs x lo hi bound with
  | case1 lo hi bound h mid inside small ih =>
    obtain ⟨h₁, h₂, h₃, h₄⟩ := ih (by omega)
    refine ⟨by omega, h₂, fun j hj hlo hlt => ?_, h₄⟩
    rcases Nat.lt_or_ge mid j with hm | hm
    · exact h₃ j hj hm hlt
    · rcases Nat.lt_or_eq_of_le hm with hm | rfl
      · exact Nat.lt_trans (increasing j mid hj inside hm) small
      · exact small
  | case2 lo hi bound h mid inside large ih =>
    obtain ⟨h₁, h₂, h₃, h₄⟩ := ih (by omega)
    refine ⟨h₁, by omega, h₃, fun j hj hge hlt => ?_⟩
    rcases Nat.lt_or_ge j mid with hm | hm
    · exact h₄ j hj hge hm
    · rcases Nat.lt_or_eq_of_le hm with hm | rfl
      · exact Nat.le_of_lt (Nat.lt_of_le_of_lt (Nat.le_of_not_lt large)
          (increasing mid j inside hj hm))
      · exact Nat.le_of_not_lt large
  | case3 lo hi bound h =>
    refine ⟨le, Nat.le_refl _, fun j hj hlo hlt => ?_, fun j hj hge hlt => ?_⟩ <;> omega

/-! ## The table -/

/-- The legal destinations of a program. -/
structure JumpTable where
  /-- the offsets of the `JUMPDEST` instructions -/
  dests : Array Nat
  /-- how many synthetic bytes were disarmed -/
  trapped : Nat
  /-- the offsets grow -/
  increasing : dests.toList.Pairwise (· < ·)
  deriving DecidableEq, Repr

namespace JumpTable

/-- The table of a program without destinations and without synthetic bytes. -/
def empty : JumpTable := ⟨#[], 0, List.Pairwise.nil⟩

instance : Inhabited JumpTable := ⟨empty⟩

/-- How many destinations there are. -/
def size (t : JumpTable) : Nat := t.dests.size

/-- There are no destinations. -/
def isEmpty (t : JumpTable) : Bool := t.size == 0

/-- The place of `offset` among the destinations. -/
def indexOf? (t : JumpTable) (offset : Nat) : Option Nat :=
  let k := lowerBound t.dests offset 0 t.dests.size (Nat.le_refl _)
  if t.dests[k]? = some offset then some k else none

/-- The offset is a legal destination. -/
def isValidOffset (t : JumpTable) (offset : Nat) : Bool := (t.indexOf? offset).isSome

/-- The place of the word among the destinations. -/
def position? (t : JumpTable) (dest : Word) : Option Nat := dest.toOffset?.bind t.indexOf?

/-- The word is a legal destination. -/
def isValid (t : JumpTable) (dest : Word) : Bool := (t.position? dest).isSome

/-- The offset that a jump to the word goes to; a word that is no legal destination is a fault. -/
def verify (t : JumpTable) (dest : Word) : Except Fault Nat :=
  match dest.toOffset? with
  | some offset => if t.isValidOffset offset then .ok offset else .error (.invalidJump dest)
  | none => .error (.invalidJump dest)

theorem getElem_lt_getElem (t : JumpTable) (i j : Nat) (hi : i < t.dests.size)
    (hj : j < t.dests.size) (h : i < j) : t.dests[i] < t.dests[j] := by
  have := List.pairwise_iff_getElem.mp t.increasing i j (by simpa using hi) (by simpa using hj) h
  simpa using this

/-- A destination is found exactly where it is. -/
theorem indexOf?_eq_some_iff {t : JumpTable} {offset k : Nat} :
    t.indexOf? offset = some k ↔ t.dests[k]? = some offset := by
  obtain ⟨-, hle, below, above⟩ :=
    lowerBound_spec (x := offset) t.getElem_lt_getElem (Nat.le_refl t.dests.size) (Nat.zero_le _)
  simp only [indexOf?]
  constructor
  · intro h
    split at h
    · rename_i found
      cases h
      exact found
    · cases h
  · intro h
    obtain ⟨hk, rfl⟩ := Array.getElem?_eq_some_iff.mp h
    have same : lowerBound t.dests t.dests[k] 0 t.dests.size (Nat.le_refl _) = k := by
      rcases Nat.lt_trichotomy (lowerBound t.dests t.dests[k] 0 t.dests.size (Nat.le_refl _)) k
        with hlt | heq | hgt
      · have hs := Nat.lt_trans hlt hk
        have h₁ := above _ hs (Nat.le_refl _) hs
        have h₂ := t.getElem_lt_getElem _ k hs hk hlt
        omega
      · exact heq
      · exact absurd (below k hk (Nat.zero_le _) hgt) (Nat.lt_irrefl _)
    simp only [same, h, if_true]

theorem isValidOffset_iff {t : JumpTable} {offset : Nat} :
    t.isValidOffset offset = true ↔ offset ∈ t.dests := by
  rw [isValidOffset, Option.isSome_iff_exists, Array.mem_iff_getElem?]
  exact exists_congr fun _ => indexOf?_eq_some_iff

theorem position?_eq_some_iff {t : JumpTable} {dest : Word} {k : Nat} :
    t.position? dest = some k ↔ dest.toNat < UInt64.size ∧ t.dests[k]? = some dest.toNat := by
  simp only [position?, Option.bind_eq_some_iff, Word.toOffset?_eq_some_iff,
    indexOf?_eq_some_iff]
  constructor
  · intro ⟨offset, ⟨hoffset, hlt⟩, hat⟩
    subst hoffset
    exact ⟨hlt, hat⟩
  · intro ⟨hlt, hat⟩
    exact ⟨dest.toNat, ⟨rfl, hlt⟩, hat⟩

theorem isValid_iff {t : JumpTable} {dest : Word} :
    t.isValid dest = true ↔ dest.toNat < UInt64.size ∧ dest.toNat ∈ t.dests := by
  rw [isValid, Option.isSome_iff_exists, Array.mem_iff_getElem?, ← exists_and_left]
  exact exists_congr fun _ => position?_eq_some_iff

end JumpTable

end EvmPrep
