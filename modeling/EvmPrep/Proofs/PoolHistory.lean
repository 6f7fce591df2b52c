import EvmPrep.Proofs.Pool
set_option autoImplicit false

/-!
# Histories of a pool

A history is a row of words put into an empty pool one after the other.  What it leaves
has a closed form (`entries_ofWords`), and so has every answer that is given on the
way: it is the word's place in the pool at the end, and in every pool that the history
can still lead to (`intern_history`).

Places are handed out in their order: the first answers that give a place for the first
time give the places from the first on, and none is left out
(`eraseDups_places_internAll`).
-/

namespace EvmPrep.ConstantPool

/-! ## Places -/

theorem index?_eq_some_iff_toNat {p : ConstantPool} {w : Word} {index : UInt8} :
    p.index? w = some index ↔ w ∈ p.entries ∧ index.toNat = p.entries.idxOf w := by
  rw [index?_eq_some_iff]
  refine and_congr_right fun hmem => ?_
  constructor
  · rintro rfl
    exact toNat_idxOf hmem
  · intro h
    rw [← h, UInt8.ofNat_toNat]

theorem index?_eq_none_iff {p : ConstantPool} {w : Word} :
    p.index? w = none ↔ w ∉ p.entries := by
  constructor
  · intro h hmem
    rw [index?_of_mem hmem] at h
    cases h
  · exact index?_of_not_mem

theorem get_intern_of_index? {p : ConstantPool} {w : Word} {index : UInt8}
    (h : p.index? w = some index) : p.get index = .ok w ∧ p.intern w = (some index, p) := by
  obtain ⟨hmem, rfl⟩ := index?_eq_some_iff.mp h
  exact ⟨get_idxOf hmem, intern_of_mem hmem⟩

/-- Every entry can be had by its place, and nothing else can be had. -/
theorem get_eq (p : ConstantPool) (index : UInt8) :
    p.get index
      = if h : index.toNat < p.entries.length then .ok p.entries[index.toNat]
        else .error (.invalidConstantIndex index p.size) := by
  unfold get
  split
  · rename_i w hw
    obtain ⟨h, rfl⟩ := List.getElem?_eq_some_iff.mp hw
    rw [dif_pos h]
  · rename_i hnone
    rw [dif_neg (Nat.not_lt_of_le (List.getElem?_eq_none_iff.mp hnone))]

/-- What can come of a word: it is there already, it is put at the end, or there is no room. -/
theorem intern_cases (p : ConstantPool) (w : Word) :
    (w ∈ p.entries ∧ p.intern w = (some (UInt8.ofNat (p.entries.idxOf w)), p))
      ∨ (w ∉ p.entries ∧ p.size < 256 ∧ (p.intern w).1 = some (UInt8.ofNat p.size)
        ∧ (p.intern w).2.entries = p.entries ++ [w])
      ∨ (w ∉ p.entries ∧ 256 ≤ p.size ∧ p.intern w = (none, p)) := by
  by_cases present : w ∈ p.entries
  · exact .inl ⟨present, intern_of_mem present⟩
  · rcases Nat.lt_or_ge p.entries.length 256 with room | full
    · refine .inr (.inl ⟨present, room, ?_, ?_⟩)
      · simp only [intern, present, room, dif_pos, dif_neg, not_false_eq_true]
        rfl
      · simp only [intern, present, room, dif_pos, dif_neg, not_false_eq_true]
    · refine .inr (.inr ⟨present, full, ?_⟩)
      simp only [intern, present, Nat.not_lt_of_le full, dif_neg, not_false_eq_true]

theorem intern_of_fst_eq_none {p : ConstantPool} {w : Word} (h : (p.intern w).1 = none) :
    (p.intern w).2 = p ∧ p.isFull = true := by
  rcases intern_cases p w with ⟨_, h'⟩ | ⟨_, _, h', _⟩ | ⟨_, full, h'⟩
  · rw [h'] at h
    cases h
  · rw [h'] at h
    cases h
  · rw [h']
    exact ⟨rfl, decide_eq_true full⟩

/-! ## Rows in parts -/

theorem internAll_append (p : ConstantPool) (ws vs : List Word) :
    p.internAll (ws ++ vs)
      = ((p.internAll ws).1 ++ ((p.internAll ws).2.internAll vs).1,
          ((p.internAll ws).2.internAll vs).2) := by
  induction ws generalizing p with
  | nil => simp
  | cons w rest ih => rw [List.cons_append, internAll_cons, ih, internAll_cons, List.cons_append]

theorem getElem?_fst_internAll (p : ConstantPool) (ws : List Word) (k : Nat) :
    (p.internAll ws).1[k]?
      = ws[k]?.map fun w => ((p.internAll (ws.take k)).2.intern w).1 := by
  induction ws generalizing p k with
  | nil => simp
  | cons w rest ih =>
    rw [internAll_cons]
    cases k with
    | zero => simp
    | succ k =>
      rw [List.getElem?_cons_succ, List.getElem?_cons_succ, ih, List.take_succ_cons,
        internAll_cons]

theorem length_fst_internAll (p : ConstantPool) (ws : List Word) :
    (p.internAll ws).1.length = ws.length := by
  induction ws generalizing p with
  | nil => rfl
  | cons w rest ih => rw [internAll_cons, List.length_cons, List.length_cons, ih]

/-- A word of the row that the pool has not got at the end found no room. -/
theorem length_entries_internAll_of_not_mem {p : ConstantPool} {ws : List Word} {w : Word}
    (offered : w ∈ ws) (refused : w ∉ (p.internAll ws).2.entries) :
    (p.internAll ws).2.entries.length = 256 := by
  rw [entries_internAll] at refused ⊢
  have hmem : w ∈ (p.entries ++ ws).eraseDups :=
    List.mem_eraseDups.mpr (List.mem_append_right _ offered)
  rw [List.length_take]
  refine Nat.min_eq_left (Nat.le_of_not_lt fun hshort => refused ?_)
  rwa [List.take_of_length_le (Nat.le_of_lt hshort)]

/-! ## The order of the places -/

/-- A place that was handed out before is none for the first time. -/
theorem eraseDups_range_append_cons_of_lt {n m : Nat} (h : m < n) (places : List Nat) :
    (List.range n ++ m :: places).eraseDups = (List.range n ++ places).eraseDups := by
  have hskip : (m :: places).removeAll (List.range n) = places.removeAll (List.range n) := by
    simp [List.removeAll, h]
  rw [List.eraseDups_append, List.eraseDups_append, hskip]

/-- The places that answers give. -/
def places (answers : List (Option UInt8)) : List Nat := (answers.filterMap id).map UInt8.toNat

@[simp] theorem places_nil : places [] = [] := rfl

@[simp] theorem places_cons_none (answers : List (Option UInt8)) :
    places (none :: answers) = places answers := rfl

@[simp] theorem places_cons_some (index : UInt8) (answers : List (Option UInt8)) :
    places (some index :: answers) = index.toNat :: places answers := rfl

/-- Places are handed out in their order.  With those of the words that the pool has already, the
places given to a row of words are, each where it comes first, the places of the pool behind
it. -/
theorem eraseDups_places_internAll (p : ConstantPool) (ws : List Word) :
    (List.range p.size ++ places (p.internAll ws).1).eraseDups
      = List.range (p.internAll ws).2.size := by
  induction ws generalizing p with
  | nil => simp [eraseDups_of_nodup List.nodup_range]
  | cons w rest ih =>
    rw [internAll_cons]
    dsimp only
    rcases intern_cases p w with ⟨present, h⟩ | ⟨_, room, hplace, hentries⟩ | ⟨_, _, h⟩
    · have hlt : (UInt8.ofNat (p.entries.idxOf w)).toNat < p.size := by
        rw [toNat_idxOf present]
        exact List.idxOf_lt_length_of_mem present
      rw [h, places_cons_some, eraseDups_range_append_cons_of_lt hlt, ih]
    · -- a new word has the first place that was free
      have hnext : (UInt8.ofNat p.size).toNat = p.size := by
        rw [UInt8.toNat_ofNat', Nat.mod_eq_of_lt room]
      have hsize : (p.intern w).2.size = p.size.succ := by
        rw [size, hentries, List.length_append, List.length_singleton]
        rfl
      rw [hplace, places_cons_some, hnext, List.append_cons, ← List.range_succ, ← hsize, ih]
    · rw [h, places_cons_none, ih]

/-! ## Histories -/

/-- What a history leaves: the first 256 distinct words, in the order in which they came. -/
theorem entries_ofWords (ws : List Word) : (ofWords ws).entries = ws.eraseDups.take 256 :=
  entries_internAll empty ws

theorem ofWords_append (ws more : List Word) :
    ofWords (ws ++ more) = ((ofWords ws).internAll more).2 := by
  rw [ofWords, internAll_append]
  rfl

theorem entries_ofWords_isPrefix_append (ws more : List Word) :
    (ofWords ws).entries <+: (ofWords (ws ++ more)).entries := by
  rw [ofWords_append]
  exact entries_isPrefix_internAll _ _

theorem ofWords_take_succ {ws : List Word} {k : Nat} {w : Word} (here : ws[k]? = some w) :
    ofWords (ws.take (k + 1)) = ((ofWords (ws.take k)).intern w).2 := by
  rw [List.take_add_one, here, Option.toList_some, ofWords_append, internAll_cons]
  rfl

/-- The answer to a word in a history is its index in every pool to which the history can go on. -/
theorem intern_fst_eq_index?_ofWords {ws : List Word} {k : Nat} {w : Word}
    (here : ws[k]? = some w) (more : List Word) :
    ((ofWords (ws.take k)).intern w).1 = (ofWords (ws.take (k + 1) ++ more)).index? w := by
  refine intern_fst_of_isPrefix ?_
  rw [← ofWords_take_succ here]
  exact entries_ofWords_isPrefix_append _ _

/-- Histories of a pool in full.  A history leaves the first 256 distinct words in the order in which
they came.  The answer to each word is its place in the pool at the end, or none if the word is not
there; a word is refused by a full pool alone, which stays as it is.  A word that was given an index
has that index for good: however the history goes on, the word is found by it and is given it again.
And in the end the indices that can be used are the places of the pool. -/
theorem intern_history (ws : List Word) :
    let answers := (empty.internAll ws).1
    let final := ofWords ws
    final.entries = ws.eraseDups.take 256
      ∧ final.entries.length ≤ 256 ∧ final.entries.Nodup
      ∧ answers.length = ws.length
      ∧ (∀ (k : Nat) (w : Word), ws[k]? = some w →
        let before := ofWords (ws.take k)
        let after := ofWords (ws.take (k + 1))
        ∃ answer, answers[k]? = some answer ∧ before.intern w = (answer, after)
          ∧ (∀ index, answer = some index
            ↔ w ∈ final.entries ∧ index.toNat = final.entries.idxOf w)
          ∧ (answer = none ↔ w ∉ final.entries)
          ∧ (answer = none → after = before ∧ before.isFull = true)
          ∧ (∀ index, answer = some index → ∀ more,
            let later := ofWords (ws.take (k + 1) ++ more)
            later.get index = .ok w ∧ later.intern w = (some index, later)))
      ∧ (∀ index, final.get index
        = if h : index.toNat < final.entries.length then .ok final.entries[index.toNat]
          else .error (.invalidConstantIndex index final.entries.length)) := by
  intro answers final
  refine ⟨entries_ofWords ws, final.size_le, final.nodup, length_fst_internAll _ _, ?_,
    final.get_eq⟩
  intro k w here before after
  have hafter : after = (before.intern w).2 := ofWords_take_succ here
  have hfinal : (before.intern w).1 = final.index? w := by
    have h := intern_fst_eq_index?_ofWords here (ws.drop (k + 1))
    rwa [List.take_append_drop] at h
  refine ⟨(before.intern w).1, ?_, by rw [hafter], ?_, ?_, ?_, ?_⟩
  · show (empty.internAll ws).1[k]? = _
    rw [getElem?_fst_internAll, here]
    rfl
  · rw [hfinal]
    exact fun _ => index?_eq_some_iff_toNat
  · rw [hfinal]
    exact index?_eq_none_iff
  · rw [hafter]
    exact intern_of_fst_eq_none
  · intro index hindex more later
    rw [intern_fst_eq_index?_ofWords here more] at hindex
    exact get_intern_of_index? hindex

end EvmPrep.ConstantPool
